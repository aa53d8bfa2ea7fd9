import Serai.InInstructions.Validate
/-
  Serai.InInstructions.Batches — batch acceptance over every run of the chain.

  The chain's state is the runtime and, as a history variable, every `execute_batch` that
  passed `pre_dispatch`, with the runtime `pre_dispatch` ran on. A run interleaves, in any
  order, the steps of the validator-sets pallet (allocations, key setting, session
  rotation, slashes, coin calls), new blocks, halts from the signals pallet, and batches
  that blocks include.

  Proved for every network, in every state a run from genesis reaches (`reach_batchInv`):
  - the ids of the network's accepted batches are `0, 1, 2, ...` as `u32`s: `LastBatch`
    holds the last one and `LastBatch + 1` wraps, so the k-th has id `k mod 2^32`;
  - their blocks strictly increase, so at most one is accepted per block;
  - each was admitted by the checks of `validate_unsigned` (`Admitted`);
  - a batch accepted under the current key while the prior set's key was set retired
    that set: its key slot is empty at every later acceptance and in the current state,
    so no later batch is accepted under it.
  `batches_accepted` collects these for one network. A run of `2^32 + 1` batches of one
  network accepts id 0 twice (`batch_id_repeats`).
-/

namespace Serai.InInstructions

open Serai.Lib
open Serai.ValidatorSets (Later)

variable {K Sig : Type}

/-! ## The chain -/

/-- An `execute_batch` that passed `pre_dispatch`: the runtime it ran on, and the batch. -/
structure Accepted (K Sig : Type) where
  before : Runtime K
  batch : SignedBatch K Sig

def Accepted.network (a : Accepted K Sig) : NetworkId := a.batch.batch.network

def Accepted.id (a : Accepted K Sig) : UInt32 := a.batch.batch.id

structure Chain (K Sig : Type) where
  runtime : Runtime K
  /-- Every accepted batch, in order. -/
  accepted : List (Accepted K Sig)

/-- The accepted batches of one network, in order. -/
def ofNetwork (l : List (Accepted K Sig)) (network : NetworkId) : List (Accepted K Sig) :=
  l.filter fun a => a.network = network

/-- `a` was accepted in session `session` while the prior session's key was set, and did
    not verify under it: the hand-over to the current set. -/
def HandedOver (cfg : Config K Sig) (a : Accepted K Sig) (session : ℕ) : Prop :=
  a.before.validatorSets.currentSession a.network = some session ∧ session ≠ 0 ∧
    ∃ keyPair, a.before.validatorSets.keys ⟨session - 1, a.network⟩ = some keyPair ∧
      cfg.verify keyPair.key a.batch.batch a.batch.signature = false

/-- In `vs`, the set `a` handed over from is retired: its key slot is empty, and of a past
    session. -/
def RetiredIn (cfg : Config K Sig) (vs : ValidatorSets.St K) (a : Accepted K Sig) : Prop :=
  ∀ session, HandedOver cfg a session →
    vs.keys ⟨session - 1, a.network⟩ = none ∧
      ∃ current, vs.currentSession a.network = some current ∧ session ≤ current

section Run

variable [DecidableEq K] (cfg : Config K Sig) (vsCfg : ValidatorSets.Config K) (allowMint : Balance → Bool)
  (dex : Dex.PalletConfig K) (executor : K)

inductive Step : Chain K Sig → Chain K Sig → Prop
  | validatorSets {c : Chain K Sig} {vs : ValidatorSets.St K} :
      ValidatorSets.Step vsCfg c.runtime.validatorSets vs →
      Step c { c with runtime := { c.runtime with validatorSets := vs } }
  | newBlock {c : Chain K Sig} :
      Step c { c with runtime := { c.runtime with blockNumber := c.runtime.blockNumber + 1 } }
  /-- The signals pallet halts a network. -/
  | halt {c : Chain K Sig} (network : NetworkId) : Step c { c with runtime := halt network c.runtime }
  /-- A block includes an `execute_batch`: `pre_dispatch` keeps its writes, then the call runs. -/
  | executeBatch {c : Chain K Sig} {rt₁ rt₂ : Runtime K} (batch : SignedBatch K Sig) :
      validateUnsigned cfg batch c.runtime = .ok () rt₁ → executeBatch allowMint dex executor none batch rt₁ = .ok () rt₂ →
      Step c ⟨rt₂, c.accepted ++ [⟨c.runtime, batch⟩]⟩

/-- The states a run from the genesis builds of the validator sets and of the DEX reaches. -/
inductive Reach : Chain K Sig → Prop
  | genesis {vs : ValidatorSets.St K} {dexPools : Coin → Bool} (coins : Coins.St K)
      (networks : List (NetworkId × UInt64)) (participants : List K) (pools : List Coin) :
      ValidatorSets.genesisBuild vsCfg networks participants (ValidatorSets.St.empty coins) = .ok () vs →
      Dex.genesisBuild pools = some dexPools →
      Reach ⟨⟨0, vs, St.empty, ⟨Coins.St.empty, dexPools⟩⟩, []⟩
  | step {c c' : Chain K Sig} : Reach c → Step cfg vsCfg allowMint dex executor c c' → Reach c'

end Run

/-! ## The invariant -/

structure BatchInv (cfg : Config K Sig) (c : Chain K Sig) : Prop where
  ids : ∀ network, (ofNetwork c.accepted network).map Accepted.id =
    (List.range (ofNetwork c.accepted network).length).map UInt32.ofNat
  lastBatch : ∀ network, c.runtime.inInstructions.lastBatch network = ((ofNetwork c.accepted network).map Accepted.id).getLast?
  blocks : ∀ network, ((ofNetwork c.accepted network).map (·.before.blockNumber)).Pairwise (· < ·)
  lastBlock : ∀ network, ∀ a ∈ ofNetwork c.accepted network,
    a.before.blockNumber ≤ (c.runtime.inInstructions.lastBatchBlock network).getD 0
  admitted : ∀ a ∈ c.accepted, Admitted cfg a.before a.batch
  handover : c.accepted.Pairwise fun a b => ∀ session, HandedOver cfg a session → b.network = a.network →
    b.before.validatorSets.keys ⟨session - 1, a.network⟩ = none
  retired : ∀ a ∈ c.accepted, RetiredIn cfg c.runtime.validatorSets a

section Inv

variable {cfg : Config K Sig} {c c' : Chain K Sig}

theorem empty_batchInv (vs : ValidatorSets.St K) (d : Dex.Storage K) : BatchInv cfg ⟨⟨0, vs, St.empty, d⟩, []⟩ where
  ids _ := rfl
  lastBatch _ := rfl
  blocks _ := List.Pairwise.nil
  lastBlock _ a ha := by simp [ofNetwork] at ha
  admitted a ha := by simp at ha
  handover := List.Pairwise.nil
  retired a ha := by simp at ha

theorem RetiredIn.later {vs vs' : ValidatorSets.St K} {a : Accepted K Sig} (h : RetiredIn cfg vs a)
    (hl : Later vs vs') : RetiredIn cfg vs' a := by
  intro session hs
  obtain ⟨hk, current, hc, hle⟩ := h session hs
  obtain ⟨current', hc', hle'⟩ := hl.session _ current hc
  -- the retired slot is of a session before the current one
  have hp : session - 1 < current := by
    have := hs.2.1
    omega
  exact ⟨hl.retired _ current _ hc hp hk, current', hc', hle.trans hle'⟩

theorem BatchInv.of_frame (hi : BatchInv cfg c) (hacc : c'.accepted = c.accepted)
    (hlb : c'.runtime.inInstructions.lastBatch = c.runtime.inInstructions.lastBatch)
    (hlbb : c'.runtime.inInstructions.lastBatchBlock = c.runtime.inInstructions.lastBatchBlock)
    (hl : Later c.runtime.validatorSets c'.runtime.validatorSets) : BatchInv cfg c' := by
  refine ⟨?_, ?_, ?_, ?_, ?_, ?_, ?_⟩ <;> simp only [hacc, hlb, hlbb]
  · exact hi.ids
  · exact hi.lastBatch
  · exact hi.blocks
  · exact hi.lastBlock
  · exact hi.admitted
  · exact hi.handover
  · exact fun a ha => (hi.retired a ha).later hl

end Inv

/-! ## The lists of one network -/

theorem nextId_range (k : ℕ) :
    ((((List.range k).map UInt32.ofNat).getLast?).map (· + 1)).getD 0 = UInt32.ofNat k := by
  cases k with
  | zero => rfl
  | succ k => simp [List.range_succ, UInt32.ofNat_add]

theorem ids_append {l : List (Accepted K Sig)} {a : Accepted K Sig}
    (hids : l.map Accepted.id = (List.range l.length).map UInt32.ofNat)
    (hid : a.id = (((l.map Accepted.id).getLast?).map (· + 1)).getD 0) :
    (l ++ [a]).map Accepted.id = (List.range (l ++ [a]).length).map UInt32.ofNat := by
  rw [hids, nextId_range] at hid
  simp [hids, hid, List.range_succ]

theorem blocks_append {l : List (Accepted K Sig)} {a : Accepted K Sig} {last : ℕ}
    (hblocks : (l.map (·.before.blockNumber)).Pairwise (· < ·)) (hle : ∀ b ∈ l, b.before.blockNumber ≤ last)
    (hlt : last < a.before.blockNumber) :
    ((l ++ [a]).map (·.before.blockNumber)).Pairwise (· < ·) := by
  simp only [List.map_append, List.map_cons, List.map_nil, List.pairwise_append, List.pairwise_singleton,
    List.mem_singleton, List.mem_map]
  refine ⟨hblocks, trivial, ?_⟩
  rintro _ ⟨b, hb, rfl⟩ _ rfl
  exact (hle b hb).trans_lt hlt

theorem ofNetwork_append (l : List (Accepted K Sig)) (a : Accepted K Sig) (network : NetworkId) :
    ofNetwork (l ++ [a]) network = ofNetwork l network ++ if a.network = network then [a] else [] := by
  by_cases h : a.network = network <;> simp [ofNetwork, List.filter_append, h]

/-! ## An accepted batch -/

section Accept

variable [DecidableEq K] {cfg : Config K Sig} {allowMint : Balance → Bool}
  {dex : Dex.PalletConfig K} {executor : K}
  {rt rt₁ rt₂ : Runtime K} {batch : SignedBatch K Sig}

theorem accept_writes (h1 : validateUnsigned cfg batch rt = .ok () rt₁)
    (h2 : executeBatch allowMint dex executor none batch rt₁ = .ok () rt₂) :
    rt₂.inInstructions.lastBatch = Function.update rt.inInstructions.lastBatch batch.batch.network (some batch.batch.id) ∧
      rt₂.inInstructions.lastBatchBlock =
        Function.update rt.inInstructions.lastBatchBlock batch.batch.network (some rt.blockNumber) ∧
      Later rt.validatorSets rt₂.validatorSets := by
  obtain ⟨session, prior, current, rt₀, -, -, -, -, -, hr, -, -, -, rfl⟩ := validateUnsigned_ok h1
  have hv := executeBatch_view h2
  simp only [batchView, Prod.mk.injEq] at hv
  obtain ⟨-, hlb, hlbb, -, hsv⟩ := hv
  obtain ⟨-, hii, hret⟩ := retireIfHandedOver_ok hr
  refine ⟨by simp [hlb, Runtime.setLastBatch, Runtime.setLastBatchBlock, hii],
    by simp [hlbb, Runtime.setLastBatch, Runtime.setLastBatchBlock, hii], ?_⟩
  -- the hand-over retires the prior set, or nothing moves
  have hl : Later rt.validatorSets rt₀.validatorSets := by
    split at hret
    · exact ValidatorSets.retireSet_later hret
    · rw [hret]
      exact Later.refl _
  exact hl.trans (Later.of_view hsv)

theorem accept_retires (h1 : validateUnsigned cfg batch rt = .ok () rt₁)
    (h2 : executeBatch allowMint dex executor none batch rt₁ = .ok () rt₂) :
    RetiredIn cfg rt₂.validatorSets ⟨rt, batch⟩ := by
  rintro session' ⟨hs', h0, keyPair, hkp, hver⟩
  obtain ⟨session, prior, current, rt₀, hk, -, hn, -, -, hr, -, -, -, rfl⟩ := validateUnsigned_ok h1
  obtain ⟨hs, hprior, -⟩ := keysForNetwork_ok hk
  simp only [Accepted.network] at hs' hkp
  rw [hs] at hs'
  cases hs'
  -- the prior key is set and did not verify: `retire_set` ran
  have hprior' : prior = some keyPair.key := by simp [hprior, h0, hkp]
  obtain ⟨-, -, hret⟩ := retireIfHandedOver_ok hr
  simp only [hprior', Option.isSome_some, verifies, hver, Bool.not_false, Bool.and_self, if_true] at hret
  rw [ValidatorSets.retireSet_eq _ hn, hkp] at hret
  have hvs := (EStateM.Result.ok.inj hret).2.symm
  have hv := executeBatch_view h2
  simp only [batchView, ValidatorSets.sessionView, Prod.mk.injEq] at hv
  obtain ⟨-, -, -, -, hcs, hkeys⟩ := hv
  refine ⟨?_, session', ?_, le_rfl⟩
  · simp [Accepted.network, hkeys, Runtime.setLastBatch, Runtime.setLastBatchBlock, hvs]
  · simp [Accepted.network, hcs, Runtime.setLastBatch, Runtime.setLastBatchBlock, hvs, hs]

theorem accept_batchInv {c : Chain K Sig} (hi : BatchInv cfg c)
    (h1 : validateUnsigned cfg batch c.runtime = .ok () rt₁)
    (h2 : executeBatch allowMint dex executor none batch rt₁ = .ok () rt₂) :
    BatchInv cfg ⟨rt₂, c.accepted ++ [⟨c.runtime, batch⟩]⟩ := by
  obtain ⟨hlb, hlbb, hl⟩ := accept_writes h1 h2
  obtain ⟨-, -, -, -, -, -, -, -, -, -, hb, hid, -, -⟩ := validateUnsigned_ok h1
  refine ⟨fun m => ?_, fun m => ?_, fun m => ?_, fun m => ?_, ?_, ?_, ?_⟩
  all_goals simp only [ofNetwork_append]
  -- the lists of the batch's network grow by it; the others stay
  · by_cases hm : batch.batch.network = m
    · subst hm
      simp only [Accepted.network, if_true]
      exact ids_append (hi.ids _) (by rw [← hi.lastBatch]; exact hid)
    · simpa [Accepted.network, hm] using hi.ids m
  · rw [hlb]
    by_cases hm : batch.batch.network = m
    · subst hm
      simp [Accepted.network, Accepted.id]
    · simpa [Accepted.network, hm, Function.update_of_ne (Ne.symm hm)] using hi.lastBatch m
  · by_cases hm : batch.batch.network = m
    · subst hm
      simp only [Accepted.network, if_true]
      exact blocks_append (hi.blocks _) (hi.lastBlock _) hb
    · simpa [Accepted.network, hm] using hi.blocks m
  · rw [hlbb]
    by_cases hm : batch.batch.network = m
    · subst hm
      intro a ha
      simp only [Accepted.network, if_true, List.mem_append, List.mem_singleton] at ha
      rcases ha with ha | rfl
      · simpa using (hi.lastBlock _ a ha).trans hb.le
      · simp
    · simpa [Accepted.network, hm, Function.update_of_ne (Ne.symm hm)] using hi.lastBlock m
  · intro a ha
    simp only [List.mem_append, List.mem_singleton] at ha
    rcases ha with ha | rfl
    · exact hi.admitted a ha
    · exact validateUnsigned_admitted h1
  · -- every earlier hand-over had retired its set before this batch
    refine List.pairwise_append.mpr ⟨hi.handover, List.pairwise_singleton _ _, ?_⟩
    intro a ha b hb session hs _
    rw [List.mem_singleton] at hb
    subst hb
    exact (hi.retired a ha session hs).1
  · intro a ha
    simp only [List.mem_append, List.mem_singleton] at ha
    rcases ha with ha | rfl
    · exact (hi.retired a ha).later hl
    · exact accept_retires h1 h2

end Accept

/-! ## Every run keeps the invariant -/

section Runs

variable [DecidableEq K] {cfg : Config K Sig} {vsCfg : ValidatorSets.Config K} {allowMint : Balance → Bool}
  {dex : Dex.PalletConfig K} {executor : K} {c c' : Chain K Sig}

theorem step_batchInv (hi : BatchInv cfg c) (h : Step cfg vsCfg allowMint dex executor c c') : BatchInv cfg c' := by
  cases h with
  | validatorSets hs => exact hi.of_frame rfl rfl rfl (ValidatorSets.step_later vsCfg hs)
  | newBlock => exact hi.of_frame rfl rfl rfl (Later.refl _)
  | halt network => exact hi.of_frame rfl rfl rfl (Later.refl _)
  | executeBatch batch h1 h2 => exact accept_batchInv hi h1 h2

theorem reach_batchInv (h : Reach cfg vsCfg allowMint dex executor c) : BatchInv cfg c := by
  induction h with
  | genesis coins networks participants pools _ _ => exact empty_batchInv _ _
  | step _ hs ih => exact step_batchInv ih hs

/-- For every network, over every run: the accepted batches' ids are `0, 1, 2, ...` as
    `u32`s, their blocks strictly increase, each passed the checks, and once a batch hands
    over, the prior set's key slot is empty at every later acceptance and now. -/
theorem batches_accepted (hc : Reach cfg vsCfg allowMint dex executor c) (network : NetworkId) :
    (ofNetwork c.accepted network).map Accepted.id =
      (List.range (ofNetwork c.accepted network).length).map UInt32.ofNat ∧
    ((ofNetwork c.accepted network).map (·.before.blockNumber)).Pairwise (· < ·) ∧
    (∀ a ∈ ofNetwork c.accepted network, Admitted cfg a.before a.batch) ∧
    (ofNetwork c.accepted network).Pairwise (fun a b => ∀ session, HandedOver cfg a session →
      b.before.validatorSets.keys ⟨session - 1, network⟩ = none) ∧
    (∀ a ∈ ofNetwork c.accepted network, ∀ session, HandedOver cfg a session →
      c.runtime.validatorSets.keys ⟨session - 1, network⟩ = none) := by
  have hi := reach_batchInv hc
  -- the batches of `network` are those whose network is `network`
  have hnet : ∀ a ∈ ofNetwork c.accepted network, a.network = network := fun a ha => by
    simpa [ofNetwork] using (List.mem_filter.mp ha).2
  refine ⟨hi.ids network, hi.blocks network, fun a ha => hi.admitted a (List.mem_of_mem_filter ha), ?_, ?_⟩
  · have hp := (hi.handover.filter fun a => decide (a.network = network))
    refine hp.imp_of_mem fun {a b} ha hb hab session hs => ?_
    rw [← hnet a ha]
    exact hab session hs (by rw [hnet a ha, hnet b hb])
  · intro a ha session hs
    rw [← hnet a ha]
    exact (hi.retired a (List.mem_of_mem_filter ha) session hs).1

end Runs

/-! ## A run of one network's batches -/

section Example

/-- Batches that are small and correctly signed. -/
def signedConfig : Config ℕ Unit := ⟨fun _ _ _ => true, fun _ => 0⟩

def runConfig : ValidatorSets.Config ℕ := ⟨100, fun _ _ key => key⟩

def allowAll : Balance → Bool := fun _ => true

/-- The runtime's DEX, its pools' accounts `1` and `IN_INSTRUCTION_EXECUTOR` `2`; no
    instruction of the batches below reaches it. -/
def runDex : Dex.PalletConfig ℕ := Dex.PalletConfig.runtime fun _ => 1

/-- The DEX's storage after a genesis with no pools. -/
def genesisDex : Dex.Storage ℕ := ⟨Coins.St.empty, fun _ => false⟩

/-- Genesis with a Bitcoin set of the one validator `0`, which then sets its keys. -/
def genesisSets : ValidatorSets.St ℕ :=
  state (ValidatorSets.genesisBuild runConfig [(.serai, 1), (.bitcoin, 1)] [0]
    (ValidatorSets.St.empty ⟨fun _ => 0, fun _ => 0⟩))

def keyedSets : ValidatorSets.St ℕ := state (ValidatorSets.setKeys .bitcoin ⟨0, []⟩ genesisSets)

/-- The `k`-th Bitcoin batch, with no instructions. -/
def batchOf (k : ℕ) : SignedBatch ℕ Unit := ⟨⟨.bitcoin, UInt32.ofNat k, [], []⟩, ()⟩

/-- A new block, and the next batch included in it. -/
def nextBatch (c : Chain ℕ Unit) (k : ℕ) : Chain ℕ Unit :=
  let rt := { c.runtime with blockNumber := c.runtime.blockNumber + 1 }
  ⟨state (executeBatch allowAll runDex 2 none (batchOf k) (state (validateUnsigned signedConfig (batchOf k) rt))),
    c.accepted ++ [⟨rt, batchOf k⟩]⟩

/-- `k` blocks, each with the next Bitcoin batch. -/
def batchRun : ℕ → Chain ℕ Unit
  | 0 => ⟨⟨0, keyedSets, St.empty, genesisDex⟩, []⟩
  | k + 1 => nextBatch (batchRun k) k

theorem keyedSets_reach : Reach signedConfig runConfig allowAll runDex 2 (batchRun 0) := by
  have hgen : ValidatorSets.genesisBuild runConfig [(.serai, 1), (.bitcoin, 1)] [0]
      (ValidatorSets.St.empty ⟨fun _ => 0, fun _ => 0⟩) = .ok () genesisSets := eq_ok_state (by decide +kernel)
  have hvalid : ValidatorSets.setKeysValid genesisSets .bitcoin [] true = true := by decide +kernel
  have hkeys : ValidatorSets.setKeys .bitcoin ⟨0, []⟩ genesisSets = .ok () keyedSets := eq_ok_state (by decide +kernel)
  have hg : Reach signedConfig runConfig allowAll runDex 2 ⟨⟨0, genesisSets, St.empty, genesisDex⟩, []⟩ :=
    .genesis ⟨fun _ => 0, fun _ => 0⟩ [(.serai, 1), (.bitcoin, 1)] [0] [] hgen rfl
  have hs : Step signedConfig runConfig allowAll runDex 2 ⟨⟨0, genesisSets, St.empty, genesisDex⟩, []⟩ ⟨⟨0, keyedSets, St.empty, genesisDex⟩, []⟩ := by
    apply Step.validatorSets
    -- reduce the projection first, so that no unification runs the genesis build
    dsimp only
    exact .setKeys .bitcoin [] ⟨0, []⟩ true hvalid hkeys
  exact .step hg hs

theorem keysForNetwork_keyedSets : keysForNetwork keyedSets .bitcoin = .ok (0, none, some 0) := by
  have hs : keyedSets.currentSession .bitcoin = some 0 := by decide +kernel
  have hk : (keyedSets.keys ⟨0, .bitcoin⟩).map (·.key) = some 0 := by decide +kernel
  simp [keysForNetwork, hs, hk]

theorem batchRun_spec (k : ℕ) :
    Reach signedConfig runConfig allowAll runDex 2 (batchRun k) ∧
      (batchRun k).runtime.validatorSets = keyedSets ∧ (batchRun k).runtime.blockNumber = k ∧
      (batchRun k).runtime.inInstructions.halted .bitcoin = false ∧
      ((batchRun k).runtime.inInstructions.lastBatchBlock .bitcoin).getD 0 ≤ k ∧
      (((batchRun k).runtime.inInstructions.lastBatch .bitcoin).map (· + 1)).getD 0 = UInt32.ofNat k ∧
      (batchRun k).accepted.map Accepted.id = (List.range k).map UInt32.ofNat ∧
      ∀ a ∈ (batchRun k).accepted, a.network = .bitcoin := by
  induction k with
  | zero =>
    refine ⟨keyedSets_reach, ?_⟩
    simp [batchRun, St.empty]
  | succ k ih =>
    obtain ⟨hreach, hvs, hbn, hh, hlbb, hnext, hids, hnet⟩ := ih
    let rt : Runtime ℕ := { (batchRun k).runtime with blockNumber := (batchRun k).runtime.blockNumber + 1 }
    have hk : keysForNetwork rt.validatorSets (batchOf k).batch.network = .ok (0, none, some 0) := by
      show keysForNetwork (batchRun k).runtime.validatorSets .bitcoin = _
      rw [hvs]
      exact keysForNetwork_keyedSets
    have hb : (rt.inInstructions.lastBatchBlock (batchOf k).batch.network).getD 0 < rt.blockNumber := by
      show ((batchRun k).runtime.inInstructions.lastBatchBlock .bitcoin).getD 0 < (batchRun k).runtime.blockNumber + 1
      omega
    -- session 0 has no prior key, so nothing is retired
    have hval : validateUnsigned signedConfig (batchOf k) rt =
        .ok () ((rt.setLastBatchBlock .bitcoin rt.blockNumber).setLastBatch .bitcoin (UInt32.ofNat k)) :=
      validateUnsigned_of_checks hk (Nat.zero_le _) (by simp [batchOf]) rfl hh rfl hb hnext.symm (by simp [batchOf])
    have hrun : batchRun (k + 1) =
        ⟨((rt.setLastBatchBlock .bitcoin rt.blockNumber).setLastBatch .bitcoin (UInt32.ofNat k)).setLatestNetworkBlock
          .bitcoin [], (batchRun k).accepted ++ [⟨rt, batchOf k⟩]⟩ := by
      simp only [batchRun, nextBatch]
      rw [hval]
      rfl
    rw [hrun]
    refine ⟨.step (.step hreach .newBlock) (.executeBatch (batchOf k) hval (executeBatch_none _ _)), hvs, by simp [rt, hbn],
      hh, by simp [Runtime.setLatestNetworkBlock, Runtime.setLastBatch, Runtime.setLastBatchBlock, rt, hbn], ?_, ?_, ?_⟩
    · simp [Runtime.setLatestNetworkBlock, Runtime.setLastBatch, UInt32.ofNat_add]
    · simp [hids, List.range_succ, Accepted.id, batchOf]
    · intro a ha
      simp only [List.mem_append, List.mem_singleton] at ha
      rcases ha with ha | rfl
      · exact hnet a ha
      · rfl

/-- After `2^32 + 1` Bitcoin batches, the first and the last both have id 0. -/
theorem batch_id_repeats :
    Reach signedConfig runConfig allowAll runDex 2 (batchRun (2 ^ 32 + 1)) ∧
      ¬ ((ofNetwork (batchRun (2 ^ 32 + 1)).accepted .bitcoin).map Accepted.id).Nodup := by
  obtain ⟨hreach, -, -, -, -, -, hids, hnet⟩ := batchRun_spec (2 ^ 32 + 1)
  refine ⟨hreach, fun hnd => ?_⟩
  have hof : ofNetwork (batchRun (2 ^ 32 + 1)).accepted .bitcoin = (batchRun (2 ^ 32 + 1)).accepted :=
    List.filter_eq_self.mpr fun a ha => by simp [hnet a ha]
  rw [hof, hids] at hnd
  have h0 : (0 : ℕ) = 2 ^ 32 :=
    List.inj_on_of_nodup_map hnd (List.mem_range.mpr (Nat.succ_pos _)) (List.mem_range.mpr (Nat.lt_succ_self _))
      (by decide)
  exact (Nat.two_pow_pos 32).ne h0

/-- Two blocks with one Bitcoin batch each. -/
theorem two_batches_accepted :
    Reach signedConfig runConfig allowAll runDex 2 (batchRun 2) ∧
    (ofNetwork (batchRun 2).accepted .bitcoin).map Accepted.id =
      (List.range (ofNetwork (batchRun 2).accepted .bitcoin).length).map UInt32.ofNat ∧
    ((ofNetwork (batchRun 2).accepted .bitcoin).map (·.before.blockNumber)).Pairwise (· < ·) ∧
    (∀ a ∈ ofNetwork (batchRun 2).accepted .bitcoin, Admitted signedConfig a.before a.batch) ∧
    (ofNetwork (batchRun 2).accepted .bitcoin).Pairwise (fun a b => ∀ session, HandedOver signedConfig a session →
      b.before.validatorSets.keys ⟨session - 1, .bitcoin⟩ = none) ∧
    (∀ a ∈ ofNetwork (batchRun 2).accepted .bitcoin, ∀ session, HandedOver signedConfig a session →
      (batchRun 2).runtime.validatorSets.keys ⟨session - 1, .bitcoin⟩ = none) :=
  ⟨(batchRun_spec 2).1, batches_accepted (batchRun_spec 2).1 .bitcoin⟩

end Example

end Serai.InInstructions
