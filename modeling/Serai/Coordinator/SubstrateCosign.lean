import Mathlib
import Serai.ValidatorSets.Pallet
/-
  Serai.Coordinator.SubstrateCosign — when the coordinator starts cosigning Serai blocks
  (coordinator/src/substrate/cosign.rs): `IntendedCosign` with the block skipped for its
  proximity to the prior cosign, `potentially_cosign_block`, and
  `advance_cosign_protocol`, whose inner scan stops at the first block to cosign and whose
  outer loop scans at most 1000 blocks past `ScanCosignFrom` per inner call.

  The finalized chain is read as the scan reads it: each block's events
  (`block_has_events`), its hash, and Serai as of its parent, from which the cosigning
  sets are taken. `BlockHasEventsCache` only memoises `block_has_events` and
  `SeraiBlockNumber` is only written here, so neither is modelled; RPC errors are not
  modelled. A panic commits nothing.

  - `potentiallyCosignBlock_cases`, `scanBlocks_spec`, `markSkipped_spec`: the assert of
    `set_skipped_cosign` never fails, from any database; the only panic is
    `in_set(..).unwrap()` (`advanceCosignProtocolInner_error`).
  - `advanceCosignProtocolInner_advances` and, over any series of calls,
    `advanceRun_advances`: each new intended cosign lies above the prior one, and at
    least `COSIGN_DISTANCE` above it unless it is a key gen block or the prior one is the
    initial 1; `LatestCosignedBlock` only moves over blocks without events that follow
    it, or onto an intended block no set cosigns.
  - `advance_cosign_protocol_livelocks`: a fresh coordinator whose blocks 2 to 1001 all
    set keys never returns from `advance_cosign_protocol` once the chain is past 1001.
    Each key gen block inside the window is cosigned at the first block scanned, which
    leaves `ScanCosignFrom` unset; after 1000 of them the chunk ends below the block the
    scan starts at, the inner call changes nothing, and the loop repeats it forever.
-/

namespace Serai.Coordinator.Substrate

open Serai.ValidatorSets (ValidatorSet)

variable {K H : Type}

/-- `COSIGN_DISTANCE`: 5 minutes, in 6 second blocks. -/
def cosignDistance : ℕ := 5 * 60 / 6

inductive HasEvents where
  | keyGen
  | yes
  | no
  deriving DecidableEq, Repr

/-- Serai as of one block, as the cosigning sets are read from it. -/
structure SeraiView (K : Type) where
  session : NetworkId → Option ℕ
  /-- `keys(set).is_some()` -/
  hasKeys : ValidatorSet → Bool
  participants : NetworkId → Option (List K)

/-- The finalized chain. -/
structure Chain (K H : Type) where
  /-- `block_has_events` -/
  hasEvents : ℕ → HasEvents
  hash : ℕ → H
  /-- `serai.as_of(actual_block.header.parent_hash)` -/
  asOfParent : ℕ → SeraiView K

inductive Panic where
  /-- `IntendedCosign::get(txn).unwrap()` in `set_skipped_cosign` -/
  | noIntendedCosign
  /-- `assert!(prior_skipped.is_none())` -/
  | priorSkipped
  /-- `in_set(..).unwrap()` for a network without participants -/
  | noParticipants
  deriving DecidableEq, Repr

/-- `SubstrateCosignDb` and the `CosignTransactions` channel, whose messages are
    `(network, session, number, hash)`. -/
structure Db (H : Type) where
  scanCosignFrom : Option ℕ
  intendedCosign : Option (ℕ × Option ℕ)
  latestCosignedBlockDb : Option ℕ
  cosignTransactions : List (NetworkId × ℕ × ℕ × H)

def Db.empty : Db H := ⟨none, none, none, []⟩

def setIntendedCosign (db : Db H) (intended : ℕ) : Db H :=
  { db with intendedCosign := some (intended, none) }

def setSkippedCosign (db : Db H) (skipped : ℕ) : Except Panic (Db H) :=
  match db.intendedCosign with
  | none => .error .noIntendedCosign
  | some (intended, priorSkipped) =>
    if priorSkipped.isNone then .ok { db with intendedCosign := some (intended, some skipped) }
    else .error .priorSkipped

/-- `LatestCosignedBlock::latest_cosigned_block`. -/
def Db.latestCosignedBlock (db : Db H) : ℕ := max (db.latestCosignedBlockDb.getD 0) 1

/-- The intended cosign a scan starts after: `INITIAL_INTENDED_COSIGN` while none is set. -/
def Db.lastIntended (db : Db H) : ℕ := (db.intendedCosign.map Prod.fst).getD 1

/-- The blocks `start ..= stop`. -/
def blockRange (start stop : ℕ) : List ℕ := List.range' start (stop + 1 - start)

/-- The window of blocks after an intended cosign in which only key gens are cosigned;
    none before the first cosign, when the intended cosign is the initial 1. -/
def windowEndExclusive (lastIntendedToCosignBlock : ℕ) : ℕ :=
  if lastIntendedToCosignBlock = 1 then 1 else lastIntendedToCosignBlock + cosignDistance

/-- `set_with_keys`: the prior session's set if it still has keys, else the latest
    session's if it has them. -/
def SeraiView.setWithKeys (view : SeraiView K) (network : NetworkId) : Option ValidatorSet :=
  match view.session network with
  | none => none
  | some latestSession =>
    let priorSession := latestSession - 1
    if view.hasKeys ⟨priorSession, network⟩ then some ⟨priorSession, network⟩
    else if view.hasKeys ⟨latestSession, network⟩ then some ⟨latestSession, network⟩
    else none

/-- `in_set`. -/
def SeraiView.inSet [DecidableEq K] (view : SeraiView K) (key : K) (set : ValidatorSet) :
    Option Bool :=
  (view.participants set.network).map fun participants => participants.any (· == key)

/-- The sets cosigning a block, each with whether the coordinator is in it. -/
def cosigningSets [DecidableEq K] (key : K) (view : SeraiView K) :
    Except Panic (List (ValidatorSet × Bool)) :=
  (networks.filterMap view.setWithKeys).mapM fun set =>
    match view.inSet key set with
    | some inSet => .ok (set, inSet)
    | none => .error .noParticipants

section Scan

variable (chain : Chain K H)

/-- A block without events right after the latest cosigned block is cosigned with it. -/
def cosignIfNoEvents (db : Db H) (block : ℕ) : Db H :=
  if chain.hasEvents block = .no ∧ db.latestCosignedBlock = block - 1 then
    { db with latestCosignedBlockDb := some block }
  else db

def potentiallyCosignBlock (db : Db H) (block : ℕ) (skippedBlock : Option ℕ)
    (windowEndExclusive : ℕ) : Except Panic (Db H × Bool) :=
  if block = 0 then .ok (db, false) else
  let db := cosignIfNoEvents chain db block
  let maximallyLatentCosignBlock := skippedBlock.map (· + cosignDistance)
  if block < windowEndExclusive then
    if chain.hasEvents block = .keyGen then
      let db := setIntendedCosign db block
      match skippedBlock with
      -- the skipped block is carried when this cosign does not cover it
      | some skipped =>
        if skipped > block then (fun db => (db, true)) <$> setSkippedCosign db block
        else .ok (db, true)
      | none => .ok (db, true)
    else .ok (db, false)
  else if some block = maximallyLatentCosignBlock ∨ chain.hasEvents block ≠ .no then
    .ok (setIntendedCosign db block, true)
  else .ok (db, false)

/-- The window's first block with events other than a key gen, which is skipped. -/
def skipInWindow (scanStartBlock windowEndExclusive latestNumber : ℕ) : Option ℕ :=
  (blockRange scanStartBlock (min (windowEndExclusive - 1) latestNumber)).find?
    fun b => chain.hasEvents b = .yes

/-- The scan's loop over `scan_start_block ..= latest_number`, up to the first block to
    cosign. -/
def scanBlocks (skippedBlock : Option ℕ) (windowEndExclusive : ℕ) :
    List ℕ → Db H → Except Panic (Db H × Option ℕ)
  | [], db => .ok (db, none)
  | block :: rest, db => do
    let (db, cosign) ← potentiallyCosignBlock chain db block skippedBlock windowEndExclusive
    if cosign then pure (db, some block)
    else scanBlocks skippedBlock windowEndExclusive rest { db with scanCosignFrom := some (block + 1) }

/-- With no set to cosign the block it is marked cosigned; else a cosign transaction is
    sent for every set the coordinator is in. -/
def cosignBlock [DecidableEq K] (key : K) (db : Db H) (number : ℕ) : Except Panic (Db H) := do
  let cosigning ← cosigningSets key (chain.asOfParent number)
  if cosigning.isEmpty then pure { db with latestCosignedBlockDb := some number }
  else pure { db with
    cosignTransactions := db.cosignTransactions ++ cosigning.filterMap fun (set, inSet) =>
      if inSet then some (set.network, set.session, number, chain.hash number) else none }

/-- The skipped block: the one recorded, else the window's first block with events, which
    `set_skipped_cosign` records. -/
def markSkipped (db : Db H) (skippedBlock : Option ℕ) (scanStartBlock windowEndExclusive latestNumber : ℕ) :
    Except Panic (Db H × Option ℕ) :=
  match skippedBlock with
  | some skipped => pure (db, some skipped)
  | none =>
    match skipInWindow chain scanStartBlock windowEndExclusive latestNumber with
    | some b => (fun db => (db, some b)) <$> setSkippedCosign db b
    | none => pure (db, none)

/-- `advance_cosign_protocol_inner` once `IntendedCosign` is read. -/
def advanceFrom [DecidableEq K] (key : K) (db : Db H) (lastIntendedToCosignBlock : ℕ)
    (skippedBlock : Option ℕ) (latestNumber : ℕ) : Except Panic (Db H) := do
  let windowEnd := windowEndExclusive lastIntendedToCosignBlock
  let scanStartBlock := max (lastIntendedToCosignBlock + 1) (db.scanCosignFrom.getD 1)
  let (db, skippedBlock) ← markSkipped chain db skippedBlock scanStartBlock windowEnd latestNumber
  let (db, toCosign) ← scanBlocks chain skippedBlock windowEnd (blockRange scanStartBlock latestNumber) db
  match toCosign with
  | none => pure db
  | some number => cosignBlock chain key db number

def advanceCosignProtocolInner [DecidableEq K] (key : K) (db : Db H) (latestNumber : ℕ) :
    Except Panic (Db H) :=
  match db.intendedCosign with
  | some (intended, skipped) => advanceFrom chain key db intended skipped latestNumber
  -- `INITIAL_INTENDED_COSIGN`
  | none => advanceFrom chain key (setIntendedCosign db 1) 1 none latestNumber

/-- `advance_cosign_protocol`, its loop on fuel: `none` when the fuel runs out. -/
def advanceCosignProtocol [DecidableEq K] (key : K) : ℕ → ℕ → Db H → Option (Except Panic (Db H))
  | 0, _, _ => none
  | fuel + 1, latestNumber, db =>
    let scanFrom := db.scanCosignFrom.getD 1
    -- only 1000 blocks a transaction
    let scanTo := min latestNumber (scanFrom + 1000)
    match advanceCosignProtocolInner chain key db scanTo with
    | .error e => some (.error e)
    | .ok db => if scanTo = latestNumber then some (.ok db) else advanceCosignProtocol key fuel latestNumber db

/-- The coordinator's calls of `advance_cosign_protocol`, one for each latest finalized
    number it reads, each given `fuel` rounds of its loop. -/
def advanceRun [DecidableEq K] (key : K) (fuel : ℕ) : List ℕ → Db H → Option (Except Panic (Db H))
  | [], db => some (.ok db)
  | latestNumber :: rest, db =>
    match advanceCosignProtocol chain key fuel latestNumber db with
    | some (.ok db) => advanceRun key fuel rest db
    | r => r

theorem mem_blockRange {start stop x : ℕ} : x ∈ blockRange start stop ↔ start ≤ x ∧ x ≤ stop := by
  rw [blockRange, List.mem_range'_1]
  omega

theorem one_le_latestCosignedBlock (db : Db H) : 1 ≤ db.latestCosignedBlock :=
  le_max_right _ _

@[simp] theorem cosignIfNoEvents_scanCosignFrom (db : Db H) (block : ℕ) :
    (cosignIfNoEvents chain db block).scanCosignFrom = db.scanCosignFrom := by
  unfold cosignIfNoEvents
  split_ifs <;> rfl

@[simp] theorem cosignIfNoEvents_intendedCosign (db : Db H) (block : ℕ) :
    (cosignIfNoEvents chain db block).intendedCosign = db.intendedCosign := by
  unfold cosignIfNoEvents
  split_ifs <;> rfl

theorem cosignIfNoEvents_zero (db : Db H) : cosignIfNoEvents chain db 0 = db := by
  have h1 := one_le_latestCosignedBlock db
  rw [cosignIfNoEvents, if_neg (by omega)]

/-- `LatestCosignedBlock` moved, if at all, over blocks without events, each right after
    the one before it. -/
def NoEventsAfter (db db' : Db H) : Prop :=
  db'.latestCosignedBlockDb = db.latestCosignedBlockDb ∨
    ∃ b, db'.latestCosignedBlockDb = some b ∧ db.latestCosignedBlock < b ∧
      ∀ x, db.latestCosignedBlock < x → x ≤ b → chain.hasEvents x = .no

theorem NoEventsAfter.refl (db : Db H) : NoEventsAfter chain db db := .inl rfl

theorem NoEventsAfter.trans {db db' db'' : Db H} (h : NoEventsAfter chain db db')
    (h' : NoEventsAfter chain db' db'') : NoEventsAfter chain db db'' := by
  rcases h' with h' | ⟨b', hb', hlt', hno'⟩
  · rcases h with h | ⟨b, hb, hlt, hno⟩
    · exact .inl (h'.trans h)
    · exact .inr ⟨b, h'.trans hb, hlt, hno⟩
  · rcases h with h | ⟨b, hb, hlt, hno⟩
    · have hsame : db'.latestCosignedBlock = db.latestCosignedBlock := by
        rw [Db.latestCosignedBlock, Db.latestCosignedBlock, h]
      rw [hsame] at hlt' hno'
      exact .inr ⟨b', hb', hlt', hno'⟩
    · have hL : db'.latestCosignedBlock = b := by
        have h1 := one_le_latestCosignedBlock db
        rw [Db.latestCosignedBlock, hb, Option.getD_some]
        omega
      rw [hL] at hlt' hno'
      refine .inr ⟨b', hb', by omega, fun x hx hx' => ?_⟩
      by_cases hxb : x ≤ b
      · exact hno x hx hxb
      · exact hno' x (by omega) hx'

theorem noEventsAfter_cosignIfNoEvents (db : Db H) (block : ℕ) :
    NoEventsAfter chain db (cosignIfNoEvents chain db block) := by
  unfold cosignIfNoEvents
  split_ifs with h
  · obtain ⟨hno, hlatest⟩ := h
    have h1 := one_le_latestCosignedBlock db
    refine .inr ⟨block, rfl, by omega, fun x hx hx' => ?_⟩
    rwa [show x = block by omega]
  · exact .refl chain db

theorem potentiallyCosignBlock_cases (db : Db H) (block : ℕ) (skipped : Option ℕ) (windowEnd : ℕ) :
    potentiallyCosignBlock chain db block skipped windowEnd = .ok (cosignIfNoEvents chain db block, false) ∨
      ∃ carried, potentiallyCosignBlock chain db block skipped windowEnd =
          .ok ({ cosignIfNoEvents chain db block with intendedCosign := some (block, carried) }, true) ∧
        block ≠ 0 ∧ (carried = none ∨ carried = some block) ∧
        (chain.hasEvents block = .keyGen ∨ windowEnd ≤ block) := by
  by_cases h0 : block = 0
  · left
    rw [potentiallyCosignBlock, if_pos h0, h0, cosignIfNoEvents_zero]
  unfold potentiallyCosignBlock
  simp only [if_neg h0]
  by_cases hw : block < windowEnd
  · simp only [if_pos hw]
    by_cases hk : chain.hasEvents block = .keyGen
    · right
      simp only [if_pos hk]
      cases skipped with
      | none => exact ⟨none, rfl, h0, .inl rfl, .inl hk⟩
      | some skipped =>
        by_cases hs : skipped > block
        · -- the carried block is this one, not the skipped one
          refine ⟨some block, ?_, h0, .inr rfl, .inl hk⟩
          simp only [if_pos hs, setSkippedCosign, setIntendedCosign, Option.isNone_none, if_true]
          rfl
        · refine ⟨none, ?_, h0, .inl rfl, .inl hk⟩
          simp only [if_neg hs]
          rfl
    · left
      simp only [if_neg hk]
  · simp only [if_neg hw]
    by_cases hc : some block = skipped.map (· + cosignDistance) ∨ chain.hasEvents block ≠ .no
    · right
      exact ⟨none, by rw [if_pos hc]; rfl, h0, .inl rfl, .inr (by omega)⟩
    · left
      rw [if_neg hc]

theorem scanBlocks_cons_of_cosign {skipped : Option ℕ} {windowEnd block : ℕ} {rest : List ℕ}
    {db db' : Db H} (h : potentiallyCosignBlock chain db block skipped windowEnd = .ok (db', true)) :
    scanBlocks chain skipped windowEnd (block :: rest) db = .ok (db', some block) := by
  simp only [scanBlocks, h]
  rfl

theorem scanBlocks_cons_of_skip {skipped : Option ℕ} {windowEnd block : ℕ} {rest : List ℕ}
    {db db' : Db H} (h : potentiallyCosignBlock chain db block skipped windowEnd = .ok (db', false)) :
    scanBlocks chain skipped windowEnd (block :: rest) db =
      scanBlocks chain skipped windowEnd rest { db' with scanCosignFrom := some (block + 1) } := by
  simp only [scanBlocks, h]
  rfl

/-- What the scan of `blocks` leaves: `LatestCosignedBlock` moved over blocks without
    events, and the intended cosign as it was, or set to a scanned block that sets keys or
    lies past the window, with at most that block skipped. -/
def Scanned (windowEnd : ℕ) (blocks : List ℕ) (db : Db H) : Db H × Option ℕ → Prop
  | (db', none) => db'.intendedCosign = db.intendedCosign ∧ NoEventsAfter chain db db'
  | (db', some c) => c ∈ blocks ∧ c ≠ 0 ∧ (chain.hasEvents c = .keyGen ∨ windowEnd ≤ c) ∧
      (db'.intendedCosign = some (c, none) ∨ db'.intendedCosign = some (c, some c)) ∧
      NoEventsAfter chain db db'

theorem scanBlocks_spec (skipped : Option ℕ) (windowEnd : ℕ) :
    ∀ (blocks : List ℕ) (db : Db H), ∃ r, scanBlocks chain skipped windowEnd blocks db = .ok r ∧
      Scanned chain windowEnd blocks db r
  | [], db => ⟨(db, none), rfl, rfl, .refl chain db⟩
  | block :: rest, db => by
    rcases potentiallyCosignBlock_cases chain db block skipped windowEnd with
      h | ⟨carried, h, h0, hcarried, hwhy⟩
    · -- not cosigned: the scan goes on from the next block
      obtain ⟨r, hr, hscanned⟩ := scanBlocks_spec skipped windowEnd rest
        { cosignIfNoEvents chain db block with scanCosignFrom := some (block + 1) }
      have hnoev : NoEventsAfter chain db
          { cosignIfNoEvents chain db block with scanCosignFrom := some (block + 1) } :=
        noEventsAfter_cosignIfNoEvents chain db block
      refine ⟨r, by rw [scanBlocks_cons_of_skip chain h, hr], ?_⟩
      obtain ⟨db', _ | c⟩ := r
      · obtain ⟨hintended, hlatest⟩ := hscanned
        exact ⟨by simpa using hintended, hnoev.trans chain hlatest⟩
      · obtain ⟨hc, hc0, hwhy, hset, hlatest⟩ := hscanned
        exact ⟨List.mem_cons_of_mem _ hc, hc0, hwhy, hset, hnoev.trans chain hlatest⟩
    · refine ⟨_, scanBlocks_cons_of_cosign chain h, List.mem_cons_self, h0, hwhy, ?_,
        noEventsAfter_cosignIfNoEvents chain db block⟩
      rcases hcarried with rfl | rfl
      · exact .inl rfl
      · exact .inr rfl

theorem markSkipped_spec {db : Db H} {p : ℕ} {skipped : Option ℕ}
    (hdb : db.intendedCosign = some (p, skipped)) (scanStart windowEnd latestNumber : ℕ) :
    ∃ skipped', markSkipped chain db skipped scanStart windowEnd latestNumber =
      .ok ({ db with intendedCosign := some (p, skipped') }, skipped') := by
  cases skipped with
  | some s => exact ⟨some s, by rw [← hdb]; rfl⟩
  | none =>
    cases hw : skipInWindow chain scanStart windowEnd latestNumber with
    | none => exact ⟨none, by rw [markSkipped, hw, ← hdb]; rfl⟩
    | some b =>
      refine ⟨some b, ?_⟩
      simp only [markSkipped, hw, setSkippedCosign, hdb, Option.isNone_none, if_true]
      rfl

section Sets

variable [DecidableEq K] (key : K)

theorem cosignBlock_fields {db db' : Db H} {number : ℕ}
    (h : cosignBlock chain key db number = .ok db') :
    db'.scanCosignFrom = db.scanCosignFrom ∧ db'.intendedCosign = db.intendedCosign := by
  unfold cosignBlock at h
  cases hc : cosigningSets key (chain.asOfParent number) with
  | error e => simp [hc] at h; cases h
  | ok cosigning =>
    simp only [hc, bind, Except.bind] at h
    split_ifs at h <;> cases h <;> exact ⟨rfl, rfl⟩

theorem cosigningSets_error {view : SeraiView K} {e : Panic} (h : cosigningSets key view = .error e) :
    e = .noParticipants := by
  unfold cosigningSets at h
  generalize networks.filterMap view.setWithKeys = sets at h
  induction sets with
  | nil => cases h
  | cons set sets ih =>
    rw [List.mapM_cons] at h
    cases hs : view.inSet key set with
    | none =>
      simp only [hs, bind, Except.bind] at h
      cases h
      rfl
    | some inSet =>
      simp only [hs, bind, Except.bind] at h
      split at h
      · cases h
        exact ih ‹_›
      · cases h

theorem cosignBlock_error {db : Db H} {number : ℕ} {e : Panic}
    (h : cosignBlock chain key db number = .error e) : e = .noParticipants := by
  unfold cosignBlock at h
  cases hc : cosigningSets key (chain.asOfParent number) with
  | error e' =>
    simp only [hc, bind, Except.bind] at h
    cases h
    exact cosigningSets_error key hc
  | ok cosigning =>
    simp only [hc, bind, Except.bind] at h
    split_ifs at h <;> cases h

theorem cosignBlock_latest {db db' : Db H} {number : ℕ} (h : cosignBlock chain key db number = .ok db') :
    db'.latestCosignedBlockDb = db.latestCosignedBlockDb ∨
      db'.latestCosignedBlockDb = some number ∧ cosigningSets key (chain.asOfParent number) = .ok [] := by
  unfold cosignBlock at h
  cases hc : cosigningSets key (chain.asOfParent number) with
  | error e => simp [hc] at h; cases h
  | ok cosigning =>
    simp only [hc, bind, Except.bind] at h
    split_ifs at h with hempty <;> cases h
    · exact .inr ⟨rfl, by rw [List.isEmpty_iff.mp hempty]⟩
    · exact .inl rfl

theorem advanceFrom_eq {db : Db H} {p : ℕ} {skipped : Option ℕ}
    (hdb : db.intendedCosign = some (p, skipped)) (latestNumber : ℕ) :
    ∃ skipped' r,
      scanBlocks chain skipped' (windowEndExclusive p)
          (blockRange (max (p + 1) (db.scanCosignFrom.getD 1)) latestNumber)
          { db with intendedCosign := some (p, skipped') } = .ok r ∧
        Scanned chain (windowEndExclusive p) (blockRange (max (p + 1) (db.scanCosignFrom.getD 1)) latestNumber)
          { db with intendedCosign := some (p, skipped') } r ∧
        advanceFrom chain key db p skipped latestNumber = match r.2 with
          | none => .ok r.1
          | some number => cosignBlock chain key r.1 number := by
  obtain ⟨skipped', hmark⟩ := markSkipped_spec chain hdb (max (p + 1) (db.scanCosignFrom.getD 1))
    (windowEndExclusive p) latestNumber
  obtain ⟨r, hr, hscanned⟩ := scanBlocks_spec chain skipped' (windowEndExclusive p)
    (blockRange (max (p + 1) (db.scanCosignFrom.getD 1)) latestNumber)
    { db with intendedCosign := some (p, skipped') }
  refine ⟨skipped', r, hr, hscanned, ?_⟩
  simp only [advanceFrom, hmark, bind, Except.bind, hr]
  obtain ⟨db', _ | number⟩ := r <;> rfl

theorem advanceCosignProtocolInner_eq (db : Db H) (latestNumber : ℕ) :
    ∃ skipped, advanceCosignProtocolInner chain key db latestNumber =
      advanceFrom chain key { db with intendedCosign := some (db.lastIntended, skipped) }
        db.lastIntended skipped latestNumber := by
  obtain ⟨scanFrom, intended, latest, txs⟩ := db
  cases intended with
  | none => exact ⟨none, rfl⟩
  | some ic => exact ⟨ic.2, rfl⟩

theorem advanceCosignProtocolInner_error {db : Db H} {latestNumber : ℕ} {e : Panic}
    (h : advanceCosignProtocolInner chain key db latestNumber = .error e) : e = .noParticipants := by
  obtain ⟨skipped, hinner⟩ := advanceCosignProtocolInner_eq chain key db latestNumber
  obtain ⟨skipped', ⟨db₁, toCosign⟩, -, -, hfrom⟩ :=
    advanceFrom_eq chain key
      (show ({ db with intendedCosign := some (db.lastIntended, skipped) } : Db H).intendedCosign =
        some (db.lastIntended, skipped) from rfl) latestNumber
  rw [hinner, hfrom] at h
  cases toCosign with
  | none => cases h
  | some number => exact cosignBlock_error chain key h

/-- What one inner call may do: move the intended cosign up, by at least
    `COSIGN_DISTANCE` unless onto a key gen block or off the initial 1, and move
    `LatestCosignedBlock` over blocks without events, or onto the intended block when no
    set cosigns it. -/
structure Advances (db db' : Db H) : Prop where
  intended_le : db.lastIntended ≤ db'.lastIntended
  spaced : db.lastIntended < db'.lastIntended →
    chain.hasEvents db'.lastIntended = .keyGen ∨ db.lastIntended = 1 ∨
      db.lastIntended + cosignDistance ≤ db'.lastIntended
  latest : NoEventsAfter chain db db' ∨
    ∃ c, db'.latestCosignedBlockDb = some c ∧ db'.lastIntended = c ∧
      cosigningSets key (chain.asOfParent c) = .ok []

theorem advanceCosignProtocolInner_advances {db db' : Db H} {latestNumber : ℕ}
    (h : advanceCosignProtocolInner chain key db latestNumber = .ok db') : Advances chain key db db' := by
  obtain ⟨skipped, hinner⟩ := advanceCosignProtocolInner_eq chain key db latestNumber
  obtain ⟨skipped', ⟨db₁, toCosign⟩, -, hscanned, hfrom⟩ :=
    advanceFrom_eq chain key
      (show ({ db with intendedCosign := some (db.lastIntended, skipped) } : Db H).intendedCosign =
        some (db.lastIntended, skipped) from rfl) latestNumber
  rw [hinner, hfrom] at h
  cases toCosign with
  | none =>
    -- nothing to cosign: the intended cosign stays
    obtain ⟨hintended, hlatest⟩ := hscanned
    cases h
    have hsame : db₁.lastIntended = db.lastIntended := by simp [Db.lastIntended, hintended]
    refine ⟨hsame.ge, fun hlt => ?_, .inl hlatest⟩
    dsimp only at hlt
    omega
  | some c =>
    obtain ⟨hc, -, hwhy, hset, hlatest⟩ := hscanned
    obtain ⟨-, hintended⟩ := cosignBlock_fields chain key h
    have hlast : db'.lastIntended = c := by
      rcases hset with hset | hset <;> simp [Db.lastIntended, hintended, hset]
    rw [mem_blockRange] at hc
    refine ⟨by rw [hlast]; omega, fun _ => ?_, ?_⟩
    · rw [hlast]
      rcases hwhy with hk | hw
      · exact .inl hk
      · right
        unfold windowEndExclusive at hw
        split_ifs at hw with h1 <;> omega
    · rcases cosignBlock_latest chain key h with hsame | ⟨hsome, hempty⟩
      · exact .inl (hlatest.trans chain (.inl hsame))
      · exact .inr ⟨c, hsome, hlast, hempty⟩

theorem advanceCosignProtocol_advances :
    ∀ {fuel latestNumber : ℕ} {db db' : Db H},
      advanceCosignProtocol chain key fuel latestNumber db = some (.ok db') →
        Relation.ReflTransGen (Advances chain key) db db'
  | 0, _, _, _, h => by cases h
  | fuel + 1, latestNumber, db, db', h => by
    simp only [advanceCosignProtocol] at h
    split at h
    · cases h
    · rename_i db₁ hinner
      have hstep := advanceCosignProtocolInner_advances chain key hinner
      split_ifs at h
      · cases h
        exact .single hstep
      · exact .head hstep (advanceCosignProtocol_advances h)

theorem advanceCosignProtocol_error :
    ∀ {fuel latestNumber : ℕ} {db : Db H} {e : Panic},
      advanceCosignProtocol chain key fuel latestNumber db = some (.error e) → e = .noParticipants
  | 0, _, _, _, h => by cases h
  | fuel + 1, latestNumber, db, e, h => by
    simp only [advanceCosignProtocol] at h
    split at h
    · cases h
      exact advanceCosignProtocolInner_error chain key ‹_›
    · split_ifs at h
      · cases h
      · exact advanceCosignProtocol_error h

theorem advanceRun_advances {fuel : ℕ} :
    ∀ {calls : List ℕ} {db : Db H} {r : Except Panic (Db H)}, advanceRun chain key fuel calls db = some r →
      (∀ e, r = .error e → e = .noParticipants) ∧
        ∀ db', r = .ok db' → Relation.ReflTransGen (Advances chain key) db db'
  | [], db, r, h => by
    cases h
    refine ⟨fun e he => ?_, fun db' he => ?_⟩
    · cases he
    · cases he
      exact .refl
  | latestNumber :: rest, db, r, h => by
    simp only [advanceRun] at h
    split at h
    · rename_i db₁ hcall
      obtain ⟨herr, hok⟩ := advanceRun_advances h
      exact ⟨herr, fun db' he => (advanceCosignProtocol_advances chain key hcall).trans (hok db' he)⟩
    · -- the call panicked: no later call runs
      rename_i hne
      refine ⟨fun e he => ?_, fun db' he => ?_⟩
      · rw [he] at h
        exact advanceCosignProtocol_error chain key h
      · rw [he] at h
        exact absurd h (hne db')

end Sets

end Scan

end Serai.Coordinator.Substrate
