import Serai.InInstructions.Pallet
import Serai.Lib.Fold
/-
  Serai.Coordinator.Cosign — the coordinator's cosign evaluator (coordinator/src/
  cosign_evaluator.rs): the stakes it reads from Serai (`update_stakes`), the latest
  cosigned block it derives from the latest cosign of each network
  (`update_latest_cosign`), and its handling of a received `CosignedBlock`
  (`handle_new_cosign`), with the halt on cosigns of a distinct chain.

  Serai is read as the evaluator reads it over RPC: the state as of the latest finalized
  block and, per finalized block number, the block's hash and the state as of its parent.
  RPC errors (retried by the caller) are not modelled; every read succeeds.

  - `latestCosignedBlock_le_update` and `latestCosignedBlock_le_run`: the latest cosigned
    block the evaluator reads never decreases, over any run of received cosigns and stake
    updates.
  - `updateLatestCosign_sets`: it is only set to the block number of a latest cosign
    whose supporters hold more than `total * 2 / 3 + 1` of the stakes (in `u64`), or when
    the total is 0.
  - `distinctChainStake_eq`: the distinct-chain loop asks `set_with_keys_fn` for the
    cosigner's network in every iteration, so both of its sums are three times the
    cosigner's current set's stake. `distinctChainStakePerNetwork` is the loop as it is
    meant, with each network's own set.
  - `cosign_for_distinct_block_halts`: one verified cosign of a block other than the
    finalized one at its number, from any network however small its stake, halts the
    coordinator when its set is still the network's current set.
-/

namespace Serai.Coordinator

open Serai.InInstructions (Runtime)
open Serai.ValidatorSets (ValidatorSet)

variable {K H Sig : Type}

/-- `CosignedBlock`. -/
structure CosignedBlock (H Sig : Type) where
  network : NetworkId
  blockNumber : UInt64
  block : H
  signature : Sig

/-- The finalized Serai chain as the evaluator reads it. -/
structure SeraiView (K H : Type) where
  latestNumber : UInt64
  latest : Runtime K
  finalizedBlock : UInt64 → Option (H × Runtime K)

/-- The evaluator: `stakes` and `latest_cosigns` in memory, and its database
    (`ReceivedCosign`, `LatestCosign`, `DistinctChain`, `LatestCosignedBlock`). -/
structure Evaluator (H Sig : Type) where
  stakes : Option (NetworkId → Option UInt64)
  latestCosigns : NetworkId → Option (CosignedBlock H Sig)
  receivedCosign : ValidatorSet → H → Option (CosignedBlock H Sig)
  latestCosign : NetworkId → Option (CosignedBlock H Sig)
  distinctChain : ValidatorSet → Bool
  latestCosignedBlockDb : Option UInt64

/-- Why the coordinator halts. -/
inductive Halt where
  /-- `expect("network which published a batch didn't have a stake set")` -/
  | noStakeSet
  /-- `panic!("17% of validator sets (by stake) have co-signed a distinct chain")` -/
  | distinctChain
  deriving DecidableEq, Repr

/-- `LatestCosignedBlock::latest_cosigned_block`. -/
def Evaluator.latestCosignedBlock (ev : Evaluator H Sig) : UInt64 :=
  max (ev.latestCosignedBlockDb.getD 0) 1

/-- `set_with_keys_fn`: the prior session's set if its keys are still set, else the latest
    session's. -/
def setWithKeysFn (vs : ValidatorSets.St K) (network : NetworkId) : Option ValidatorSet :=
  match vs.currentSession network with
  | none => none
  | some latestSession =>
    let priorSession := latestSession - 1
    if (vs.keys ⟨priorSession, network⟩).isSome then some ⟨priorSession, network⟩
    else some ⟨latestSession, network⟩

/-! ## The latest cosigned block -/

/-- The stake of the networks whose latest cosign is at or after `number`. -/
def supportingStake (latestCosigns : NetworkId → Option (CosignedBlock H Sig))
    (stakes : NetworkId → Option UInt64) (number : UInt64) : UInt64 :=
  ((networks.filter fun network => (latestCosigns network).any fun sub => number ≤ sub.blockNumber).map
    fun network => (stakes network).getD 0).sum

/-- Whether `cosign` is backed: the total is 0 or its supporters exceed `total * 2 / 3 + 1`. -/
def backed (latestCosigns : NetworkId → Option (CosignedBlock H Sig)) (stakes : NetworkId → Option UInt64)
    (cosign : CosignedBlock H Sig) : Bool :=
  let totalStake := (networks.filterMap stakes).sum
  totalStake == 0 || totalStake * 2 / 3 + 1 < supportingStake latestCosigns stakes cosign.blockNumber

/-- The highest block number among the backed latest cosigns, or 0. -/
def highestBlock (latestCosigns : NetworkId → Option (CosignedBlock H Sig)) (stakes : NetworkId → Option UInt64) :
    UInt64 :=
  (networks.filterMap latestCosigns).foldl
    (fun highest cosign => if backed latestCosigns stakes cosign then max highest cosign.blockNumber else highest) 0

/-- `update_latest_cosign`. -/
def updateLatestCosign (ev : Evaluator H Sig) : Evaluator H Sig :=
  match ev.stakes with
  | none => ev
  | some stakes =>
    let highest := highestBlock ev.latestCosigns stakes
    if ev.latestCosignedBlock < highest then { ev with latestCosignedBlockDb := some highest } else ev

/-- `update_stakes`, reading Serai as of its latest finalized block. -/
def updateStakes (serai : Runtime K) (ev : Evaluator H Sig) : Except Halt (Evaluator H Sig) := do
  let stakes ← networks.foldlM (fun (stakes : NetworkId → Option UInt64) network =>
    -- a network that published a batch has set a key, so it has a stake
    if (serai.inInstructions.lastBatch network).isSome then
      match serai.validatorSets.totalAllocatedStake network with
      | some stake => pure (Function.update stakes network (some stake))
      | none => throw .noStakeSet
    else pure stakes) fun _ => none
  pure (updateLatestCosign { ev with stakes := some stakes })

theorem latestCosignedBlock_le_update {ev ev' : Evaluator H Sig}
    (h : ev'.latestCosignedBlockDb = ev.latestCosignedBlockDb) :
    ev.latestCosignedBlock ≤ (updateLatestCosign ev').latestCosignedBlock := by
  have hread : ev'.latestCosignedBlock = ev.latestCosignedBlock := by
    simp only [Evaluator.latestCosignedBlock, h]
  unfold updateLatestCosign
  split
  · exact UInt64.le_of_eq hread.symm
  · dsimp only
    split
    · rename_i hlt
      rw [hread] at hlt
      simp only [Evaluator.latestCosignedBlock, Option.getD_some] at hlt ⊢
      simp only [UInt64.lt_iff_toNat_lt, UInt64.le_iff_toNat_le, UInt64.toNat_max, UInt64.reduceToNat] at hlt ⊢
      omega
    · exact UInt64.le_of_eq hread.symm

theorem highestBlock_cases (latestCosigns : NetworkId → Option (CosignedBlock H Sig))
    (stakes : NetworkId → Option UInt64) :
    highestBlock latestCosigns stakes = 0 ∨
      ∃ network cosign, latestCosigns network = some cosign ∧ backed latestCosigns stakes cosign = true ∧
        highestBlock latestCosigns stakes = cosign.blockNumber := by
  have hmax : ∀ x y : UInt64, max x y = x ∨ max x y = y := by
    intro x y
    rw [UInt64.max_def]
    split
    · exact .inr rfl
    · exact .inl rfl
  rcases Serai.Lib.foldl_select_cases max hmax (backed latestCosigns stakes) (fun c => c.blockNumber)
      (networks.filterMap latestCosigns) 0 with h | ⟨cosign, hmem, hbacked, h⟩
  · exact .inl h
  · obtain ⟨network, -, hnetwork⟩ := List.mem_filterMap.mp hmem
    exact .inr ⟨network, cosign, hnetwork, hbacked, h⟩

theorem updateLatestCosign_sets {ev : Evaluator H Sig}
    (h : (updateLatestCosign ev).latestCosignedBlockDb ≠ ev.latestCosignedBlockDb) :
    ∃ stakes network cosign, ev.stakes = some stakes ∧ ev.latestCosigns network = some cosign ∧
      (updateLatestCosign ev).latestCosignedBlockDb = some cosign.blockNumber ∧
      ((networks.filterMap stakes).sum = 0 ∨
        (networks.filterMap stakes).sum * 2 / 3 + 1 < supportingStake ev.latestCosigns stakes cosign.blockNumber) := by
  unfold updateLatestCosign at h ⊢
  split at h
  · exact absurd rfl h
  rename_i stakes hstakes
  dsimp only at h
  split at h
  · rename_i hlt
    rw [hstakes]
    dsimp only
    simp only [if_pos hlt]
    rcases highestBlock_cases ev.latestCosigns stakes with h0 | ⟨network, cosign, hcosign, hbacked, heq⟩
    · -- the latest cosigned block reads at least 1, so it is not below 0
      rw [h0] at hlt
      exact absurd hlt (UInt64.not_lt.mpr UInt64.zero_le)
    · refine ⟨stakes, network, cosign, rfl, hcosign, by rw [heq], ?_⟩
      simpa [backed] using hbacked
  · exact absurd rfl h

theorem updateStakes_ok {serai : Runtime K} {ev ev' : Evaluator H Sig} (h : updateStakes serai ev = .ok ev') :
    ∃ stakes, ev' = updateLatestCosign { ev with stakes := some stakes } := by
  unfold updateStakes at h
  obtain ⟨stakes, -, h⟩ := Serai.Lib.except_bind_ok h
  exact ⟨stakes, (Except.ok.inj h).symm⟩

/-! ## The distinct-chain halt -/

/-- The distinct-chain loop of `handle_new_cosign` over the external networks, given the
    set each iteration charges: the total stake of those sets and the part of it marked
    `DistinctChain`. -/
def stakeSums (vs : ValidatorSets.St K) (distinct : ValidatorSet → Bool) (setFor : NetworkId → Option ValidatorSet) :
    UInt64 × UInt64 :=
  networks.foldl (fun (acc : UInt64 × UInt64) network =>
    if network = .serai then acc else
    match setFor network with
    | none => acc
    | some set =>
      match vs.totalAllocatedStake set.network with
      | none => acc
      | some stake => (acc.1 + stake, if distinct set then acc.2 + stake else acc.2)) (0, 0)

/-- The loop as written: every iteration calls `set_with_keys_fn(&serai, cosign.network)`. -/
def distinctChainStake (vs : ValidatorSets.St K) (distinct : ValidatorSet → Bool) (cosignNetwork : NetworkId) :
    UInt64 × UInt64 :=
  stakeSums vs distinct fun _ => setWithKeysFn vs cosignNetwork

/-- The loop as its comment means it, with each network's own current set. -/
def distinctChainStakePerNetwork (vs : ValidatorSets.St K) (distinct : ValidatorSet → Bool) : UInt64 × UInt64 :=
  stakeSums vs distinct fun network => setWithKeysFn vs network

/-- The halt test on the two sums. -/
def seventeenPercent (sums : UInt64 × UInt64) : Bool := sums.1 * 17 / 100 ≤ sums.2

theorem mul_seventeen_div_le (x : UInt64) : x * 17 / 100 ≤ x := by
  rw [UInt64.le_iff_toNat_le, UInt64.toNat_div, UInt64.toNat_mul]
  have := x.toNat_lt
  simp only [UInt64.reduceToNat, Nat.reducePow] at *
  have h := Nat.mod_le (x.toNat * 17) 18446744073709551616
  by_cases hs : x.toNat * 17 < 18446744073709551616
  · rw [Nat.mod_eq_of_lt hs]
    omega
  · omega

theorem distinctChainStake_eq (vs : ValidatorSets.St K) (distinct : ValidatorSet → Bool) (network : NetworkId) :
    distinctChainStake vs distinct network =
      match setWithKeysFn vs network with
      | none => (0, 0)
      | some set =>
        match vs.totalAllocatedStake set.network with
        | none => (0, 0)
        | some stake => (0 + stake + stake + stake, if distinct set then 0 + stake + stake + stake else 0) := by
  unfold distinctChainStake stakeSums
  cases setWithKeysFn vs network with
  | none => simp [networks]
  | some set =>
    cases hstake : vs.totalAllocatedStake set.network with
    | none => simp [networks, hstake]
    | some stake => cases hd : distinct set <;> simp [networks, hstake, hd]

theorem seventeenPercent_distinctChainStake (vs : ValidatorSets.St K) (distinct : ValidatorSet → Bool)
    (network : NetworkId) (hmarked : ∀ set, setWithKeysFn vs network = some set → distinct set = true) :
    seventeenPercent (distinctChainStake vs distinct network) = true := by
  rw [distinctChainStake_eq]
  cases hset : setWithKeysFn vs network with
  | none => exact (rfl : seventeenPercent (0, 0) = true)
  | some set =>
    cases hstake : vs.totalAllocatedStake set.network with
    | none =>
      simp only [hstake]
      exact (rfl : seventeenPercent (0, 0) = true)
    | some stake =>
      simp only [hstake, hmarked set hset, if_true, seventeenPercent, decide_eq_true_eq]
      exact mul_seventeen_div_le _

/-! ## Handling a cosign -/

section Handle

variable [DecidableEq H]

/-- Saving an accepted cosign: `ReceivedCosign` and `LatestCosign`. -/
def Evaluator.save (ev : Evaluator H Sig) (set : ValidatorSet) (cosign : CosignedBlock H Sig) :
    Evaluator H Sig :=
  { ev with receivedCosign := Function.update ev.receivedCosign set
              (Function.update (ev.receivedCosign set) cosign.block (some cosign)),
            latestCosign := Function.update ev.latestCosign set.network (some cosign) }

/-- `handle_new_cosign`; `verify key number block signature` is
    `keys.0.verify(&cosign_block_msg(number, block), signature)`. -/
def handleNewCosign (verify : K → UInt64 → H → Sig → Bool) (view : SeraiView K H) (ev : Evaluator H Sig)
    (cosign : CosignedBlock H Sig) : Except Halt (Evaluator H Sig) :=
  -- a cosign no newer than the network's latest is dropped, as is one older than a day
  if (ev.latestCosigns cosign.network).any fun latest => cosign.blockNumber ≤ latest.blockNumber then pure ev
  else if cosign.blockNumber + 14400 < view.latestNumber then pure ev
  else match view.finalizedBlock cosign.blockNumber with
  | none => pure ev
  | some (hash, parent) =>
    match setWithKeysFn parent.validatorSets cosign.network with
    | none => pure ev
    | some setWithKeys =>
      match parent.validatorSets.keys setWithKeys with
      | none => pure ev
      | some keys =>
        if !verify keys.key cosign.blockNumber cosign.block cosign.signature then pure ev
        else
          let ev := ev.save setWithKeys cosign
          if cosign.block ≠ hash then
            let ev := { ev with distinctChain := Function.update ev.distinctChain setWithKeys true }
            if seventeenPercent (distinctChainStake view.latest.validatorSets ev.distinctChain cosign.network)
            then throw .distinctChain
            else pure ev
          else
            pure (updateLatestCosign
              { ev with latestCosigns := Function.update ev.latestCosigns cosign.network (some cosign) })

variable {verify : K → UInt64 → H → Sig → Bool} {view : SeraiView K H} {ev ev' : Evaluator H Sig}
  {cosign : CosignedBlock H Sig}

@[simp] theorem Evaluator.save_latestCosignedBlockDb (set : ValidatorSet) :
    (ev.save set cosign).latestCosignedBlockDb = ev.latestCosignedBlockDb := rfl

@[simp] theorem Evaluator.save_latestCosigns (set : ValidatorSet) :
    (ev.save set cosign).latestCosigns = ev.latestCosigns := rfl

theorem handleNewCosign_ok_cases (h : handleNewCosign verify view ev cosign = .ok ev') :
    ev' = ev ∨
      (∃ set, ev' = { ev.save set cosign with
        distinctChain := Function.update (ev.save set cosign).distinctChain set true }) ∨
      ∃ set, ev' = updateLatestCosign { ev.save set cosign with
        latestCosigns := Function.update ev.latestCosigns cosign.network (some cosign) } := by
  unfold handleNewCosign at h
  -- every early return is `pure ev`; past the signature check the cosign is saved
  split at h
  · exact .inl (Except.ok.inj h).symm
  split at h
  · exact .inl (Except.ok.inj h).symm
  split at h
  · exact .inl (Except.ok.inj h).symm
  rename_i hash parent _
  split at h
  · exact .inl (Except.ok.inj h).symm
  rename_i set _
  split at h
  · exact .inl (Except.ok.inj h).symm
  split at h
  · exact .inl (Except.ok.inj h).symm
  split at h
  · dsimp only at h
    split at h
    · cases h
    · exact .inr (.inl ⟨set, (Except.ok.inj h).symm⟩)
  · exact .inr (.inr ⟨set, (Except.ok.inj h).symm⟩)

theorem latestCosignedBlock_le_handleNewCosign (h : handleNewCosign verify view ev cosign = .ok ev') :
    ev.latestCosignedBlock ≤ ev'.latestCosignedBlock := by
  rcases handleNewCosign_ok_cases h with rfl | ⟨set, rfl⟩ | ⟨set, rfl⟩
  · exact UInt64.le_refl _
  · exact UInt64.le_refl _
  · exact latestCosignedBlock_le_update rfl

theorem cosign_for_distinct_block_halts (verify : K → UInt64 → H → Sig → Bool) (view : SeraiView K H)
    (ev : Evaluator H Sig) (cosign : CosignedBlock H Sig) {hash : H} {parent : Runtime K} {set : ValidatorSet}
    {keys : ValidatorSets.KeyPair K}
    (hnew : ((ev.latestCosigns cosign.network).any fun latest => cosign.blockNumber ≤ latest.blockNumber) = false)
    (hrecent : ¬cosign.blockNumber + 14400 < view.latestNumber)
    (hblock : view.finalizedBlock cosign.blockNumber = some (hash, parent))
    (hset : setWithKeysFn parent.validatorSets cosign.network = some set)
    (hkeys : parent.validatorSets.keys set = some keys)
    (hsig : verify keys.key cosign.blockNumber cosign.block cosign.signature = true)
    (hdistinct : cosign.block ≠ hash)
    (hcurrent : setWithKeysFn view.latest.validatorSets cosign.network = some set) :
    handleNewCosign verify view ev cosign = .error .distinctChain := by
  have hhalt : seventeenPercent (distinctChainStake view.latest.validatorSets
      (Function.update (ev.save set cosign).distinctChain set true) cosign.network) = true :=
    seventeenPercent_distinctChainStake _ _ _ fun set' hset' => by
      rw [hcurrent] at hset'
      cases hset'
      exact Function.update_self ..
  unfold handleNewCosign
  simp only [hnew, Bool.false_eq_true, if_false, hrecent, hblock, hset, hkeys, hsig, Bool.not_true, ne_eq,
    hdistinct, not_false_eq_true, if_true]
  rw [if_pos hhalt]
  rfl

/-- Serai with the three external networks in session 0, each set's keys set, Bitcoin's and
    Ethereum's sets staking 100 and Monero's 1. -/
def threeNetworks : Runtime ℕ where
  blockNumber := 0
  validatorSets :=
    { ValidatorSets.St.empty ⟨fun _ => 0, fun _ => 0⟩ with
      currentSession := fun _ => some 0
      keys := fun _ => some ⟨1, []⟩
      totalAllocatedStake := fun network => match network with
        | .bitcoin | .ethereum => some 100
        | .monero => some 1
        | .serai => none }
  inInstructions := InInstructions.St.empty
  dex := ⟨Coins.St.empty, fun _ => false⟩

/-- Monero's set cosigns block 5 with hash 8, where the finalized block 5 has hash 7: by the
    stakes of each network's own set, 1 of 201 is on a distinct chain, below 17%, yet the
    evaluator halts. -/
theorem monero_cosign_halts :
    seventeenPercent (distinctChainStakePerNetwork threeNetworks.validatorSets
        (Function.update (fun _ => false) ⟨0, .monero⟩ true)) = false ∧
      handleNewCosign (fun _ _ _ _ => true) ⟨10, threeNetworks, fun _ => some (7, threeNetworks)⟩
        ⟨none, fun _ => none, fun _ _ => none, fun _ => none, fun _ => false, none⟩
        ⟨.monero, 5, 8, ()⟩ = .error .distinctChain :=
  have hset : setWithKeysFn threeNetworks.validatorSets .monero = some ⟨0, .monero⟩ := by decide
  ⟨by decide, cosign_for_distinct_block_halts _ _ _ _ rfl (by decide) rfl hset rfl rfl (by decide) hset⟩

/-! ## Runs -/

/-- What the evaluator is asked to do: handle a received cosign against the chain as it is
    then, or refresh its stakes. -/
inductive Event (K H Sig : Type) where
  | cosign (view : SeraiView K H) (cosign : CosignedBlock H Sig)
  | updateStakes (serai : Runtime K)

def step (verify : K → UInt64 → H → Sig → Bool) (ev : Evaluator H Sig) : Event K H Sig → Except Halt (Evaluator H Sig)
  | .cosign view cosign => handleNewCosign verify view ev cosign
  | .updateStakes serai => updateStakes serai ev

/-- A run of the evaluator: its calls one after the other, until one halts. -/
def run (verify : K → UInt64 → H → Sig → Bool) (ev : Evaluator H Sig) (events : List (Event K H Sig)) :
    Except Halt (Evaluator H Sig) :=
  events.foldlM (step verify) ev

theorem latestCosignedBlock_le_step {verify : K → UInt64 → H → Sig → Bool} {ev ev' : Evaluator H Sig}
    {e : Event K H Sig} (h : step verify ev e = .ok ev') : ev.latestCosignedBlock ≤ ev'.latestCosignedBlock := by
  cases e with
  | cosign view cosign => exact latestCosignedBlock_le_handleNewCosign h
  | updateStakes serai =>
    obtain ⟨stakes, rfl⟩ := updateStakes_ok h
    exact latestCosignedBlock_le_update rfl

theorem latestCosignedBlock_le_run {verify : K → UInt64 → H → Sig → Bool} {ev ev' : Evaluator H Sig}
    {events : List (Event K H Sig)} (h : run verify ev events = .ok ev') :
    ev.latestCosignedBlock ≤ ev'.latestCosignedBlock :=
  Serai.Lib.foldlM_except_inv (fun _ e => ev.latestCosignedBlock ≤ e.latestCosignedBlock) events
    (fun _ _ _ _ _ _ hle hstep => UInt64.le_trans hle (latestCosignedBlock_le_step hstep)) (UInt64.le_refl _) h

end Handle

end Serai.Coordinator
