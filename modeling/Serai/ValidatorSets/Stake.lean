import Mathlib
import Serai.ValidatorSets.Calls
import Serai.Lib.Ledger
/-
  Serai.ValidatorSets.Stake — the stake behind a network's validator set, over every run
  of the pallet.

  A validator's stake in the latest decided set of a network is its allocation and what
  it deallocated while the current set was active: that amount is pending until the
  set's unlock session and can still be slashed (`slash_serai_validator` takes it). The
  code keeps `TotalAllocatedStake` as the sum of these: `new_set` sets it to the
  allocations it selected, `increase_allocation` adds a set member's increase, the slash
  takes out what it burns, and `decrease_allocation` deliberately leaves it, since the
  decreased amount only moves to `PendingDeallocations`.

  Proved, for every state a run from genesis reaches (`reach_stakeInv`):
  - `SortedAllocations` holds one entry per allocation, with its amount, so the sets
    `new_set` forms have no validator twice;
  - no deallocation is pending past the current set's unlock session;
  - once a network's first set has rotated (session 1 on), `TotalAllocatedStake` is the
    `u64` sum of the stakes of the latest decided set.
  In the genesis session `handover_completed` holds of every session, so a deallocation
  can be claimed the moment it is made, leaving `TotalAllocatedStake` behind; the last
  invariant is stated from session 1 on.

  So a deallocation that passes `decrease_allocation`'s check leaves at least the
  required stake, and the amount itself, slashable in the set
  (`deallocate_keeps_slashable_stake`), while the allocations alone may fall below the
  requirement: two validators deallocating in one session are each checked against the
  same `TotalAllocatedStake` (`deallocations_below_required`).

  Genesis allocations are written by `set_allocation` alone, with no SRI moved to the
  pallet's account, yet nothing tells them apart from allocated stake: a genesis
  validator's slash burns SRI the account never received, and its `unwrap` panics
  (`genesis_slash_panics`).
-/

namespace Serai.ValidatorSets

open Serai.Lib

variable {K : Type} [DecidableEq K] (cfg : Config K)

/-! ## The stake of a set -/

/-- The allocation a validator has in a network (`0` for none). -/
def allocationOf (s : St K) (network : NetworkId) (key : K) : UInt64 := (allocation s network key).getD 0

/-- What a validator deallocated while the network's current set is active: pending
    until the set's unlock session. -/
def pendingOf (s : St K) (network : NetworkId) (key : K) : UInt64 :=
  match sessionToUnlockOnForCurrentSet s network with
  | some t => (s.pendingDeallocations (network, key) t).getD 0
  | none => 0

/-- The validators of a network's latest decided set. -/
def members (s : St K) (network : NetworkId) : List K := (s.inSet network).map (·.1)

/-- A validator's stake in the network's latest decided set. -/
def stakeOf (s : St K) (network : NetworkId) (key : K) : UInt64 := allocationOf s network key + pendingOf s network key

/-- The stake of a network's latest decided set, summed as `TotalAllocatedStake` is, in
    `u64`. -/
def setStake (s : St K) (network : NetworkId) : UInt64 := ((members s network).map (stakeOf s network)).sum

/-- The stake the claim of economic security counts: the allocations of the set's
    validators, with every deallocation taken out. -/
def allocatedStake (s : St K) (network : NetworkId) : ℕ :=
  ((members s network).map fun key => (allocationOf s network key).toNat).sum

/-- The stake still slashable in the set: the allocations and the deallocations pending
    for its unlock session. -/
def slashableStake (s : St K) (network : NetworkId) : ℕ :=
  ((members s network).map fun key => (allocationOf s network key).toNat + (pendingOf s network key).toNat).sum

omit [DecidableEq K] in
theorem setStake_le_slashableStake (s : St K) (network : NetworkId) :
    (setStake s network).toNat ≤ slashableStake s network := by
  unfold setStake slashableStake
  calc (((members s network).map (stakeOf s network)).sum).toNat
      ≤ ((members s network).map fun key => (stakeOf s network key).toNat).sum := toNat_sum_le _ _
    _ ≤ _ := List.sum_le_sum fun key _ => toNat_add_le _ _

/-! ## The invariant -/

/-- What the stake accounting keeps over every run. -/
structure StakeInv (s : St K) : Prop where
  sortedNodup : s.sortedAllocations.Nodup
  sortedAllocation : ∀ e ∈ s.sortedAllocations, s.allocations (e.1, e.2.2) = some e.2.1
  membersNodup : ∀ network, (members s network).Nodup
  pendingLe : ∀ network key t, (s.pendingDeallocations (network, key) t).isSome →
    ∃ unlock, sessionToUnlockOnForCurrentSet s network = some unlock ∧ t ≤ unlock
  total : ∀ network session, s.currentSession network = some session → 0 < session →
    s.totalAllocatedStake network = some (setStake s network)

/-- The storage the stake accounting reads. -/
def stakeView (s : St K) :=
  (s.currentSession, s.inSet, s.totalAllocatedStake, s.allocations, s.sortedAllocations, s.pendingDeallocations)

omit [DecidableEq K] in
theorem StakeInv.of_view {s s' : St K} (hi : StakeInv s) (hv : stakeView s' = stakeView s) : StakeInv s' := by
  simp only [stakeView, Prod.mk.injEq] at hv
  obtain ⟨h1, h2, h3, h4, h5, h6⟩ := hv
  have hu : sessionToUnlockOnForCurrentSet s' = sessionToUnlockOnForCurrentSet s := by
    funext network
    simp [sessionToUnlockOnForCurrentSet, h1]
  have hk : stakeOf s' = stakeOf s := by
    funext network key
    simp [stakeOf, allocationOf, pendingOf, allocation, hu, h4, h6]
  have hs : setStake s' = setStake s := by
    funext network
    simp [setStake, members, hk, h2]
  refine ⟨?_, ?_, ?_, ?_, ?_⟩
  · rw [h5]; exact hi.sortedNodup
  · rw [h4, h5]; exact hi.sortedAllocation
  · intro network; rw [members, h2]; exact hi.membersNodup network
  · intro network key t; rw [h6, hu]; exact hi.pendingLe network key t
  · intro network session; rw [h1, h3, hs]; exact hi.total network session

/-! ## `SortedAllocations` -/

section Sorted

variable {s : St K} (hn : s.sortedAllocations.Nodup)
  (ha : ∀ e ∈ s.sortedAllocations, s.allocations (e.1, e.2.2) = some e.2.1)
include hn ha

theorem setAllocation_sorted (network : NetworkId) (key : K) (amount : UInt64) :
    (setAllocation s network key amount).1.sortedAllocations.Nodup ∧
      ∀ e ∈ (setAllocation s network key amount).1.sortedAllocations,
        (setAllocation s network key amount).1.allocations (e.1, e.2.2) = some e.2.1 := by
  -- the entries left once the prior one is taken: none of them is the key's
  obtain ⟨base, hbase, hnd, hoff⟩ : ∃ base, (setAllocation s network key amount).1.sortedAllocations =
      (if amount = 0 then base else base.insert (network, amount, key)) ∧ base.Nodup ∧
      ∀ e ∈ base, (e.1, e.2.2) ≠ (network, key) ∧ e ∈ s.sortedAllocations := by
    cases hp : s.allocations (network, key) with
    | none =>
      refine ⟨s.sortedAllocations, ?_, hn, fun e he => ⟨fun hk => ?_, he⟩⟩
      · unfold setAllocation; by_cases h0 : amount = 0 <;> simp [hp, h0]
      · have := ha e he
        rw [hk, hp] at this
        cases this
    | some prior =>
      refine ⟨s.sortedAllocations.erase (network, prior, key), ?_, hn.erase _, fun e he => ?_⟩
      · unfold setAllocation; by_cases h0 : amount = 0 <;> simp [hp, h0]
      · obtain ⟨hne, hmem⟩ := (hn.mem_erase_iff).mp he
        refine ⟨fun hk => hne ?_, hmem⟩
        obtain ⟨n, a, k⟩ := e
        simp only [Prod.mk.injEq] at hk
        obtain ⟨rfl, rfl⟩ := hk
        have := ha _ hmem
        simp only [hp, Option.some.injEq] at this
        rw [this]
  rw [hbase, setAllocation_allocations]
  by_cases h0 : amount = 0
  · simp only [h0, if_true]
    refine ⟨hnd, fun e he => ?_⟩
    rw [Function.update_of_ne (hoff e he).1]
    exact ha e (hoff e he).2
  · simp only [h0, if_false]
    refine ⟨hnd.insert, fun e he => ?_⟩
    rcases List.mem_insert_iff.mp he with rfl | he
    · simp
    · rw [Function.update_of_ne (hoff e he).1]
      exact ha e (hoff e he).2

omit [DecidableEq K] hn ha in
theorem mem_sortedAllocationsIter {network : NetworkId} {key : K} {amount : UInt64} :
    (key, amount) ∈ sortedAllocationsIter cfg s network ↔ (network, amount, key) ∈ s.sortedAllocations := by
  unfold sortedAllocationsIter
  rw [(List.perm_insertionSort _ _).mem_iff]
  simp only [List.mem_map, List.mem_filter, decide_eq_true_eq, Prod.mk.injEq]
  constructor
  · rintro ⟨⟨n, a, k⟩, ⟨he, rfl⟩, rfl, rfl⟩
    exact he
  · intro he
    exact ⟨(network, amount, key), ⟨he, rfl⟩, rfl, rfl⟩

omit [DecidableEq K] in
theorem sortedAllocationsIter_keys_nodup (network : NetworkId) :
    ((sortedAllocationsIter cfg s network).map (·.1)).Nodup := by
  unfold sortedAllocationsIter
  rw [(List.perm_insertionSort _ _).map _ |>.nodup_iff, List.map_map]
  refine List.Nodup.map_on ?_ (hn.filter _)
  -- two entries of one network and one key have the key's one amount
  rintro ⟨n, a, k⟩ he ⟨n', a', k'⟩ he' hk
  simp only [List.mem_filter, decide_eq_true_eq] at he he'
  simp only [Function.comp_apply] at hk
  have h1 := ha _ he.1
  have h2 := ha _ he'.1
  simp only at h1 h2 he he' hk
  rw [he.2, hk] at h1
  rw [he'.2, h1] at h2
  cases h2
  rw [he.2, he'.2, hk]

omit [DecidableEq K] hn in
theorem allocation_of_mem_iter {network : NetworkId} {key : K} {amount : UInt64}
    (h : (key, amount) ∈ sortedAllocationsIter cfg s network) : allocationOf s network key = amount := by
  have := ha _ ((mem_sortedAllocationsIter cfg).mp h)
  simp [allocationOf, allocation, this]

end Sorted

/-! ## The sets `new_set` forms -/

omit [DecidableEq K] in
theorem selectParticipants_prefix (apks : UInt64) (l : List (K × UInt64)) (keyShares : UInt64) :
    ∃ pre, pre <+: l ∧ (selectParticipants apks l keyShares).1.map (·.1) = pre.map (·.1) ∧
      (selectParticipants apks l keyShares).2 = (pre.map (·.2)).sum := by
  induction l generalizing keyShares with
  | nil => exact ⟨[], List.nil_prefix, rfl, rfl⟩
  | cons e rest ih =>
    obtain ⟨key, amount⟩ := e
    by_cases hk : keyShares < maxKeySharesPerSet
    · obtain ⟨pre, hpre, hkeys, hsum⟩ := ih (keyShares + min (amount / apks) maxKeySharesPerSet)
      refine ⟨(key, amount) :: pre, List.prefix_cons_inj _ |>.mpr hpre, ?_, ?_⟩
      · simp [selectParticipants, hk, hkeys]
      · simp [selectParticipants, hk, hsum]
    · exact ⟨[], List.nil_prefix, by simp [selectParticipants, hk], by simp [selectParticipants, hk]⟩

omit [DecidableEq K] in
theorem map_modify_of_comp {α β : Type} (g : α → β) (f : α → α) (hf : ∀ a, g (f a) = g a) :
    ∀ (l : List α) (i : ℕ), (l.modify i f).map g = l.map g
  | [], _ => by simp
  | a :: l, 0 => by simp [hf]
  | a :: l, i + 1 => by simp [map_modify_of_comp g f hf l i]

omit [DecidableEq K] in
theorem amortizeExcessKeyShares_keys (validators : List (K × UInt64)) :
    (amortizeExcessKeyShares validators).map (·.1) = validators.map (·.1) := by
  unfold amortizeExcessKeyShares
  -- every step of the fold modifies one entry's key shares, which keeps its key
  suffices ∀ (f : K × UInt64 → K × UInt64), (∀ p, (f p).1 = p.1) → ∀ (is : List ℕ) (vs : List (K × UInt64)),
      (is.foldl (fun vs i => vs.modify (vs.length - ((i % vs.length) + 1)) f) vs).map (·.1) = vs.map (·.1) from
    this _ (by rintro ⟨k, sh⟩; rfl) _ validators
  intro f hf is
  induction is with
  | nil => intro vs; rfl
  | cons i is ih =>
    intro vs
    rw [List.foldl_cons, ih, map_modify_of_comp _ f hf]

/-! ## What the writes do to the stake -/

section Writes

variable {s s' : St K} {network network' : NetworkId} {key key' : K}

theorem inSetContains_iff : inSetContains s network key = true ↔ key ∈ members s network := by
  simp [inSetContains, members]

theorem inSetContains_of_inSet_false (h : inSet s network key = false) : key ∉ members s network := by
  intro hk
  rw [← inSetContains_iff] at hk
  simp [inSet, hk] at h

@[simp] theorem sessionToUnlock_setAllocation (amount : UInt64) :
    sessionToUnlockOnForCurrentSet (setAllocation s network key amount).1 = sessionToUnlockOnForCurrentSet s := by
  funext network'
  simp [sessionToUnlockOnForCurrentSet]

@[simp] theorem members_setAllocation (amount : UInt64) :
    members (setAllocation s network key amount).1 = members s := by
  funext network'
  simp [members]

theorem stakeOf_setAllocation (amount : UInt64) :
    stakeOf (setAllocation s network key amount).1 network' key' =
      if network' = network ∧ key' = key then amount + pendingOf s network key else stakeOf s network' key' := by
  by_cases h : network' = network ∧ key' = key
  · obtain ⟨rfl, rfl⟩ := h
    by_cases h0 : amount = 0 <;> simp [stakeOf, allocationOf, allocation, pendingOf, h0]
  · have hne : (network', key') ≠ (network, key) := fun e => h (Prod.mk.inj e)
    simp [stakeOf, allocationOf, allocation, pendingOf, h, hne]

theorem stakeOf_setPending (p : ℕ → Option UInt64) :
    stakeOf { s with pendingDeallocations := Function.update s.pendingDeallocations (network, key) p } network' key' =
      if network' = network ∧ key' = key then
        allocationOf s network key + (match sessionToUnlockOnForCurrentSet s network with
          | some t => (p t).getD 0
          | none => 0)
      else stakeOf s network' key' := by
  by_cases h : network' = network ∧ key' = key
  · obtain ⟨rfl, rfl⟩ := h
    simp [stakeOf, allocationOf, allocation, pendingOf, sessionToUnlockOnForCurrentSet]
  · have hne : (network', key') ≠ (network, key) := fun e => h (Prod.mk.inj e)
    simp [stakeOf, allocationOf, allocation, pendingOf, sessionToUnlockOnForCurrentSet, h, hne]

theorem stakeOf_addPending {t : ℕ} (ht : sessionToUnlockOnForCurrentSet s network = some t) (amount : UInt64) :
    let existing := (s.pendingDeallocations (network, key) t).getD 0
    let pending := Function.update (s.pendingDeallocations (network, key)) t (some (existing + amount))
    stakeOf { s with pendingDeallocations := Function.update s.pendingDeallocations (network, key) pending } network' key' =
      if network' = network ∧ key' = key then stakeOf s network key + amount else stakeOf s network' key' := by
  intro existing pending
  rw [stakeOf_setPending]
  split_ifs
  · simp only [ht, pending, existing, Function.update_self, Option.getD_some, stakeOf, pendingOf]
    exact (add_assoc _ _ _).symm
  · rfl

theorem setStake_point (hm : members s' network = members s network) (hnd : (members s network).Nodup)
    (hoff : ∀ k ∈ members s network, k ≠ key → stakeOf s' network k = stakeOf s network k) :
    setStake s' network = setStake s network +
      if key ∈ members s network then stakeOf s' network key - stakeOf s network key else 0 := by
  unfold setStake
  rw [hm]
  exact sum_map_of_eq_off hnd hoff

omit [DecidableEq K] in
theorem setStake_congr (hm : members s' network = members s network)
    (h : ∀ k ∈ members s network, stakeOf s' network k = stakeOf s network k) :
    setStake s' network = setStake s network := by
  unfold setStake
  rw [hm]
  exact congrArg List.sum (List.map_congr_left h)

end Writes

/-! ## One validator's stake moves -/

section Point

variable {s s' : St K} (network : NetworkId) (key : K)

theorem total_of_point (δ : UInt64) (hi : StakeInv s) (hcs : s'.currentSession = s.currentSession)
    (hm : members s' = members s) (hoff : ∀ n k, (n ≠ network ∨ k ≠ key) → stakeOf s' n k = stakeOf s n k)
    (hkey : stakeOf s' network key = stakeOf s network key + δ)
    (htot : ∀ n, n ≠ network → s'.totalAllocatedStake n = s.totalAllocatedStake n)
    (htotn : ∀ t, s.totalAllocatedStake network = some t →
      s'.totalAllocatedStake network = some (if key ∈ members s network then t + δ else t)) :
    ∀ n session, s'.currentSession n = some session → 0 < session →
      s'.totalAllocatedStake n = some (setStake s' n) := by
  intro n session hs h0
  rw [hcs] at hs
  have hn := hi.total n session hs h0
  by_cases hnet : n = network
  · subst hnet
    have hset := setStake_point (congrFun hm n) (hi.membersNodup n) (fun k _ hk => hoff n k (.inr hk))
    rw [htotn _ hn, hset, hkey]
    by_cases hk : key ∈ members s n
    · simp [hk]
    · simp [hk]
  · rw [htot n hnet, hn, setStake_congr (congrFun hm n) (fun k _ => hoff n k (.inl hnet))]

omit [DecidableEq K] in
theorem pendingLe_of_le (hi : StakeInv s) (hu : sessionToUnlockOnForCurrentSet s' = sessionToUnlockOnForCurrentSet s)
    (hp : ∀ n k t, (s'.pendingDeallocations (n, k) t).isSome →
      (s.pendingDeallocations (n, k) t).isSome ∨ sessionToUnlockOnForCurrentSet s n = some t) :
    ∀ n k t, (s'.pendingDeallocations (n, k) t).isSome →
      ∃ unlock, sessionToUnlockOnForCurrentSet s' n = some unlock ∧ t ≤ unlock := by
  intro n k t h
  rw [hu]
  rcases hp n k t h with h | h
  · exact hi.pendingLe n k t h
  · exact ⟨t, h, le_refl t⟩

end Point

/-! ## Every call keeps the invariant -/

section Calls

variable {s s' : St K} {network : NetworkId} {key : K} {amount : UInt64}

theorem increaseAllocation_stakeInv (hi : StakeInv s) (h : increaseAllocation cfg network key amount s = .ok () s') :
    StakeInv s' := by
  obtain ⟨apks, -, -, -, rfl⟩ := increaseAllocation_ok cfg h
  set s₁ := (setAllocation s network key ((allocation s network key).getD 0 + amount)).1 with hs₁
  obtain ⟨hsn, hsa⟩ := setAllocation_sorted hi.sortedNodup hi.sortedAllocation network key
    ((allocation s network key).getD 0 + amount)
  -- the validator's stake grows by the amount, and nobody else's moves
  have hkey : stakeOf s₁ network key = stakeOf s network key + amount := by
    rw [hs₁, stakeOf_setAllocation, if_pos ⟨rfl, rfl⟩]
    simp only [stakeOf, allocationOf]
    abel
  have hoff : ∀ n k, (n ≠ network ∨ k ≠ key) → stakeOf s₁ n k = stakeOf s n k := by
    intro n k hnk
    rw [hs₁, stakeOf_setAllocation, if_neg]
    tauto
  have hm : members s₁ = members s := by simp [hs₁]
  have hu : sessionToUnlockOnForCurrentSet s₁ = sessionToUnlockOnForCurrentSet s := by simp [hs₁]
  have hpend : ∀ n k t, (s₁.pendingDeallocations (n, k) t).isSome →
      ∃ unlock, sessionToUnlockOnForCurrentSet s₁ n = some unlock ∧ t ≤ unlock := by
    rw [hu]
    simpa [hs₁] using hi.pendingLe
  have hcs : s₁.currentSession = s.currentSession := by simp [hs₁]
  by_cases hin : inSetContains s network key = true
  · -- a validator of the set: `TotalAllocatedStake` grows with it
    rw [if_pos hin]
    refine ⟨hsn, hsa, fun n => hm ▸ hi.membersNodup n, hpend, ?_⟩
    refine total_of_point network key amount hi hcs hm hoff hkey ?_ ?_
    · intro n hn
      simp [hn]
    · intro t ht
      simp [ht, (inSetContains_iff).mp hin]
  · rw [if_neg hin]
    refine ⟨hsn, hsa, fun n => hm ▸ hi.membersNodup n, hpend, ?_⟩
    refine total_of_point network key (stakeOf s₁ network key - stakeOf s network key) hi hcs hm hoff
      (add_sub_cancel _ _).symm (fun n _ => by simp [hs₁]) ?_
    intro t ht
    simp [hs₁, ht, mt (inSetContains_iff).mpr hin]

theorem decreaseAllocation_stakeInv {r : Bool} (hi : StakeInv s)
    (h : decreaseAllocation cfg network key amount s = .ok r s') : StakeInv s' := by
  obtain ⟨total, newTotal, old, new, apks, -, -, -, hold, hnew, -, -, -, hq⟩ := decreaseAllocation_ok cfg h
  set s₁ := (setAllocation s network key new).1 with hs₁
  obtain ⟨hsn, hsa⟩ := setAllocation_sorted hi.sortedNodup hi.sortedAllocation network key new
  have hoff : ∀ n k, (n ≠ network ∨ k ≠ key) → stakeOf s₁ n k = stakeOf s n k := by
    intro n k hnk
    rw [hs₁, stakeOf_setAllocation, if_neg]
    tauto
  have hm : members s₁ = members s := by simp [hs₁]
  have hu : sessionToUnlockOnForCurrentSet s₁ = sessionToUnlockOnForCurrentSet s := by simp [hs₁]
  have hcs : s₁.currentSession = s.currentSession := by simp [hs₁]
  rcases queueDeallocation_ok hq with ⟨hin, -, rfl⟩ | ⟨-, -, t, ht, rfl⟩
  · -- free at once: the validator is not in the set, whose stake does not move
    have hk : key ∉ members s network := hm ▸ inSetContains_of_inSet_false hin
    refine ⟨hsn, hsa, fun n => hm ▸ hi.membersNodup n, ?_, ?_⟩
    · rw [hu]
      simpa [hs₁] using hi.pendingLe
    · refine total_of_point network key (stakeOf s₁ network key - stakeOf s network key) hi hcs hm hoff
        (add_sub_cancel _ _).symm (fun n _ => by simp [hs₁]) ?_
      intro t ht
      simp [hs₁, ht, hk]
  · -- pending: the amount moves from the allocation to the deallocations of the current set
    have hkey₁ : stakeOf s₁ network key + amount = stakeOf s network key := by
      rw [hs₁, stakeOf_setAllocation, if_pos ⟨rfl, rfl⟩]
      simp only [stakeOf, allocationOf, hold, Option.getD_some]
      rw [← checkedSub_add hnew]
      abel
    refine ⟨hsn, hsa, fun n => hm ▸ hi.membersNodup n, ?_, ?_⟩
    · refine pendingLe_of_le hi (by funext n; simp [hs₁, sessionToUnlockOnForCurrentSet]) ?_
      intro n k t' h'
      by_cases hnk : n = network ∧ k = key
      · obtain ⟨rfl, rfl⟩ := hnk
        by_cases htt : t' = t
        · subst htt
          exact .inr (hu ▸ ht)
        · left
          simpa [hs₁, htt] using h'
      · left
        have hne : (n, k) ≠ (network, key) := fun e => hnk (Prod.mk.inj e)
        simpa [hs₁, hne] using h'
    · refine total_of_point network key 0 hi hcs hm ?_ ?_ (fun n _ => by simp [hs₁]) ?_
      · intro n k hnk
        rw [stakeOf_addPending ht, if_neg (by tauto)]
        exact hoff n k hnk
      · rw [stakeOf_addPending ht, if_pos ⟨rfl, rfl⟩, hkey₁, add_zero]
      · intro t ht
        simp [hs₁, ht]

omit [DecidableEq K] in
theorem le_of_handoverCompleted {session current : ℕ} (h : handoverCompleted s network session = true)
    (hc : s.currentSession network = some current) (h0 : 0 < current) : session ≤ current := by
  unfold handoverCompleted at h
  rw [hc] at h
  simp only at h
  split_ifs at h <;> omega

theorem takeDeallocatableAmount_stakeInv {session : ℕ} {r : Option UInt64} (hi : StakeInv s)
    (h : takeDeallocatableAmount network session key s = .ok r s') : StakeInv s' := by
  rcases takeDeallocatableAmount_ok h with ⟨-, -, rfl⟩ | ⟨hh, h⟩
  · exact hi
  rw [takePending_eq] at h
  cases h
  refine ⟨hi.sortedNodup, hi.sortedAllocation, hi.membersNodup, ?_, ?_⟩
  · refine pendingLe_of_le hi (by funext n; simp [sessionToUnlockOnForCurrentSet]) ?_
    intro n k t h'
    left
    by_cases hnk : (n, k) = (network, key)
    · rw [hnk] at h' ⊢
      by_cases ht : t = session
      · simp [ht] at h'
      · simpa [ht] using h'
    · simpa [hnk] using h'
  · -- the claimed session has started, so it is not the current set's unlock session
    intro n current hc h0
    rw [hi.total n current hc h0]
    congr 1
    refine setStake_congr rfl fun k _ => ?_
    rw [stakeOf_setPending]
    split_ifs with hnk
    · obtain ⟨rfl, rfl⟩ := hnk
      have hle := le_of_handoverCompleted hh hc h0
      have hu : sessionToUnlockOnForCurrentSet s n ≠ some session := by
        unfold sessionToUnlockOnForCurrentSet
        rw [hc]
        intro e
        simp only [Option.map_some, Option.some.injEq] at e
        split_ifs at e <;> omega
      simp only [stakeOf, pendingOf]
      cases hun : sessionToUnlockOnForCurrentSet s n with
      | none => rfl
      | some u =>
        have hus : u ≠ session := fun e => hu (by rw [hun, e])
        simp [Function.update_of_ne hus]
    · rfl

theorem slashSeraiValidator_stakeInv (hi : StakeInv s) (h : slashSeraiValidator cfg key s = .ok () s') :
    StakeInv s' := by
  obtain ⟨unlock, coins, hunlock, hs'⟩ := slashSeraiValidator_ok cfg h
  set s₁ : St K := { (setAllocation s .serai key 0).1 with
    pendingDeallocations := Function.update s.pendingDeallocations (.serai, key) fun _ => none
    coins := coins } with hs₁
  obtain ⟨hsn, hsa⟩ := setAllocation_sorted hi.sortedNodup hi.sortedAllocation .serai key 0
  have hm : members s₁ = members s := by funext n; simp [hs₁, members]
  have hu : sessionToUnlockOnForCurrentSet s₁ = sessionToUnlockOnForCurrentSet s := by
    funext n; simp [hs₁, sessionToUnlockOnForCurrentSet]
  have hcs : s₁.currentSession = s.currentSession := by simp [hs₁]
  -- the slashed validator's whole stake goes, nobody else's moves
  have hkey : stakeOf s₁ .serai key = stakeOf s .serai key + -stakeOf s .serai key := by
    have hp : pendingOf s₁ .serai key = 0 := by
      unfold pendingOf
      split <;> simp [hs₁]
    rw [stakeOf, hp]
    simp [hs₁, allocationOf, allocation]
  have hoff : ∀ n k, (n ≠ .serai ∨ k ≠ key) → stakeOf s₁ n k = stakeOf s n k := by
    intro n k hnk
    have hne : (n, k) ≠ (.serai, key) := fun e => by
      obtain ⟨rfl, rfl⟩ := Prod.mk.inj e
      tauto
    simp [hs₁, stakeOf, allocationOf, allocation, pendingOf, sessionToUnlockOnForCurrentSet, hne]
  have hpend : ∀ n k t, (s₁.pendingDeallocations (n, k) t).isSome → (s.pendingDeallocations (n, k) t).isSome := by
    intro n k t h'
    by_cases hnk : (n, k) = (.serai, key)
    · simp [hs₁, hnk] at h'
    · simpa [hs₁, hnk] using h'
  have hslashed : stakeOf s .serai key =
      (allocation s .serai key).getD 0 + (s.pendingDeallocations (.serai, key) unlock).getD 0 := by
    simp [stakeOf, allocationOf, pendingOf, hunlock]
  rcases hs' with ⟨hin, rfl⟩ | ⟨hin, current, remaining, hcur, hrem, rfl⟩
  · refine ⟨hsn, hsa, fun n => hm ▸ hi.membersNodup n, ?_, ?_⟩
    · exact pendingLe_of_le hi hu fun n k t h' => .inl (hpend n k t h')
    · refine total_of_point .serai key _ hi hcs hm hoff hkey (fun n _ => rfl) ?_
      intro t ht
      have hk : key ∉ members s .serai := fun hk => by simp [(inSetContains_iff).mpr hk] at hin
      simp [hs₁, ht, hk]
  · refine ⟨hsn, hsa, fun n => hm ▸ hi.membersNodup n, ?_, ?_⟩
    · exact pendingLe_of_le hi hu fun n k t h' => .inl (hpend n k t h')
    · -- `TotalAllocatedStake` loses exactly what is burnt
      refine total_of_point .serai key _ hi hcs hm hoff hkey (fun n hn => by simp [hn]) ?_
      intro t ht
      rw [hcur] at ht
      cases ht
      have hrem := checkedSub_add hrem
      simp only [(inSetContains_iff).mp hin, if_true, Function.update_self, hslashed]
      rw [← hrem, add_neg_cancel_right]

omit [DecidableEq K] in
theorem newSet_stakeInv (hi : StakeInv s) (h : newSet cfg network s = .ok () s') : StakeInv s' := by
  obtain ⟨apks, -, -, hs'⟩ := newSet_ok cfg h
  dsimp only at hs'
  obtain ⟨pre, hpre, hkeys, hsum⟩ := selectParticipants_prefix apks (sortedAllocationsIter cfg s network) 0
  have hiter := sortedAllocationsIter_keys_nodup cfg hi.sortedNodup hi.sortedAllocation network
  have hcs' : s'.currentSession =
      Function.update s.currentSession network (some (((s.currentSession network).map (· + 1)).getD 0)) := by
    rw [hs']
  have htot' : s'.totalAllocatedStake = Function.update s.totalAllocatedStake network
      (some (selectParticipants apks (sortedAllocationsIter cfg s network) 0).2) := by
    rw [hs']
  have halloc' : s'.allocations = s.allocations := by rw [hs']
  have hpend' : s'.pendingDeallocations = s.pendingDeallocations := by rw [hs']
  -- the new set is a prefix of the iteration, under the same keys
  have hm : ∀ n, members s' n = if n = network then pre.map (·.1) else members s n := by
    intro n
    by_cases hn : n = network
    · subst hn
      simp [hs', members, amortizeExcessKeyShares_keys, hkeys]
    · simp [hs', members, hn]
  have hu : ∀ n, n ≠ network → sessionToUnlockOnForCurrentSet s' n = sessionToUnlockOnForCurrentSet s n := by
    intro n hn
    simp only [sessionToUnlockOnForCurrentSet, hcs', Function.update_of_ne hn]
  have hoff : ∀ n k, n ≠ network → stakeOf s' n k = stakeOf s n k := by
    intro n k hn
    simp only [stakeOf, allocationOf, allocation, pendingOf, halloc', hpend', hu n hn]
  refine ⟨by rw [hs']; exact hi.sortedNodup, by rw [hs']; exact hi.sortedAllocation, ?_, ?_, ?_⟩
  · intro n
    rw [hm n]
    split_ifs
    · exact (hpre.map _).nodup hiter
    · exact hi.membersNodup n
  · -- the unlock session moves on by one with the session
    intro n k t ht
    rw [hpend'] at ht
    obtain ⟨u, hu', htu⟩ := hi.pendingLe n k t ht
    by_cases hn : n = network
    · subst hn
      obtain ⟨c, hc, rfl⟩ := Option.map_eq_some_iff.mp hu'
      refine ⟨c + 1 + 1 + (if n = .serai then 1 else 0) + 1, ?_, by split_ifs at htu ⊢ <;> omega⟩
      simp [sessionToUnlockOnForCurrentSet, hcs', hc]
    · exact ⟨u, (hu n hn).trans hu', htu⟩
  · intro n session hc h0
    by_cases hn : n = network
    · subst hn
      rw [hcs', Function.update_self, Option.some.injEq] at hc
      -- a set after the first: the previous session was `session - 1`
      obtain ⟨c, hprev, rfl⟩ : ∃ c, s.currentSession n = some c ∧ session = c + 1 := by
        cases hp : s.currentSession n with
        | none => simp [hp] at hc; omega
        | some c => exact ⟨c, rfl, by simp [hp] at hc; omega⟩
      -- nothing is pending yet for the new set's unlock session
      have hpend : ∀ k, pendingOf s' n k = 0 := by
        intro k
        have hu' : sessionToUnlockOnForCurrentSet s' n = some (c + 1 + 1 + (if n = .serai then 1 else 0) + 1) := by
          simp [sessionToUnlockOnForCurrentSet, hcs', hprev]
        simp only [pendingOf, hu', hpend']
        cases hp : s.pendingDeallocations (n, k) (c + 1 + 1 + (if n = .serai then 1 else 0) + 1) with
        | none => rfl
        | some a =>
          obtain ⟨u, hu, htu⟩ := hi.pendingLe n k (c + 1 + 1 + (if n = .serai then 1 else 0) + 1) (by simp [hp])
          simp only [sessionToUnlockOnForCurrentSet, hprev, Option.map_some, Option.some.injEq] at hu
          subst hu
          split_ifs at htu <;> omega
      have hstake : ∀ e ∈ pre, stakeOf s' n e.1 = e.2 := by
        intro e he
        rw [stakeOf, hpend, add_zero]
        have := allocation_of_mem_iter cfg hi.sortedAllocation (hpre.subset he)
        simpa [allocationOf, allocation, halloc'] using this
      rw [htot', Function.update_self, hsum]
      congr 1
      unfold setStake
      rw [hm n, if_pos rfl, List.map_map]
      exact (congrArg List.sum (List.map_congr_left hstake)).symm
    · rw [hcs', Function.update_of_ne hn] at hc
      rw [htot', Function.update_of_ne hn, hi.total n session hc h0,
        setStake_congr (by rw [hm n, if_neg hn]) fun k _ => hoff n k hn]

theorem setAllocation_stakeInv (hi : StakeInv s) (hk : key ∉ members s network) :
    StakeInv (setAllocation s network key amount).1 := by
  obtain ⟨hsn, hsa⟩ := setAllocation_sorted hi.sortedNodup hi.sortedAllocation network key amount
  have hm : members (setAllocation s network key amount).1 = members s := by simp
  refine ⟨hsn, hsa, fun n => hm ▸ hi.membersNodup n, ?_, ?_⟩
  · rw [sessionToUnlock_setAllocation]
    simpa using hi.pendingLe
  · refine total_of_point network key (stakeOf (setAllocation s network key amount).1 network key -
      stakeOf s network key) hi (by simp) hm ?_ (add_sub_cancel _ _).symm (fun n _ => by simp) ?_
    · intro n k hnk
      rw [stakeOf_setAllocation, if_neg]
      tauto
    · intro t ht
      simp [ht, hk]

omit [DecidableEq K] in
theorem onCoins_stakeInv {α : Type} {m : EStateM Coins.Fail (Coins.St K) α} {a : α} (hi : StakeInv s)
    (h : onCoins m s = .ok a s') : StakeInv s' := by
  obtain ⟨c, -, rfl⟩ := onCoins_ok h
  exact hi.of_view rfl

omit [DecidableEq K] in
theorem retireSet_stakeInv {set : ValidatorSet} (hi : StakeInv s) (h : retireSet set s = .ok () s') : StakeInv s' := by
  obtain ⟨keys, psr, rfl⟩ := retireSet_ok h
  exact hi.of_view rfl

omit [DecidableEq K] in
theorem setKeys_stakeInv {keyPair : KeyPair K} (hi : StakeInv s) (h : setKeys network keyPair s = .ok () s') :
    StakeInv s' := by
  obtain ⟨session, -, rfl⟩ := setKeys_ok h
  exact hi.of_view rfl

theorem allocate_stakeInv (hi : StakeInv s) (h : allocate cfg key network amount s = .ok () s') : StakeInv s' := by
  obtain ⟨c, -, h⟩ := allocate_ok cfg h
  have hi₁ : StakeInv { s with coins := c } := hi.of_view rfl
  exact increaseAllocation_stakeInv cfg hi₁ h

theorem deallocate_stakeInv (hi : StakeInv s) (h : deallocate cfg key network amount s = .ok () s') : StakeInv s' := by
  obtain ⟨immediately, s₁, h1, h⟩ := deallocate_ok cfg h
  have hi₁ := decreaseAllocation_stakeInv cfg hi h1
  rcases h with ⟨-, rfl⟩ | ⟨-, c, -, rfl⟩
  · exact hi₁
  · exact hi₁.of_view rfl

theorem claimDeallocation_stakeInv {session : ℕ} (hi : StakeInv s)
    (h : claimDeallocation cfg key network session s = .ok () s') : StakeInv s' := by
  obtain ⟨amount, s₁, h1, c, -, rfl⟩ := claimDeallocation_ok cfg h
  exact (takeDeallocatableAmount_stakeInv hi h1).of_view rfl

omit [DecidableEq K] in
theorem newSession_stakeInv {medianPrice : Coin → Option UInt64} (hi : StakeInv s)
    (h : newSession cfg medianPrice s = .ok () s') : StakeInv s' := by
  refine forM_ok_inv StakeInv (newSessionFor cfg medianPrice) ?_ networks s s' hi h
  intro network s s' hi h
  rcases newSessionFor_ok cfg h with rfl | ⟨s₁, oracle, h1, rfl⟩
  · exact hi
  · exact (newSet_stakeInv cfg hi h1).of_view rfl

omit [DecidableEq K] in
theorem rotateSession_stakeInv {medianPrice : Coin → Option UInt64} (hi : StakeInv s)
    (h : rotateSession cfg medianPrice s = .ok () s') : StakeInv s' := by
  obtain ⟨now, s₁, -, h1, rfl⟩ := rotateSession_ok cfg h
  exact (newSession_stakeInv cfg hi h1).of_view rfl

end Calls

/-! ## Every run keeps the invariant -/

theorem step_stakeInv {s s' : St K} (hi : StakeInv s) (h : Step cfg s s') : StakeInv s' := by
  cases h with
  | allocate validator network amount h => exact allocate_stakeInv cfg hi h
  | deallocate account network amount h => exact deallocate_stakeInv cfg hi h
  | claimDeallocation account network session h => exact claimDeallocation_stakeInv cfg hi h
  | setKeys network removed keyPair signatureValid _ h => exact setKeys_stakeInv hi h
  | retireSet set h => exact retireSet_stakeInv hi h
  | rotateSession medianPrice h => exact rotateSession_stakeInv cfg hi h
  | slash validator h => exact slashSeraiValidator_stakeInv cfg hi h
  | mint allowMint to' b h => exact onCoins_stakeInv hi h
  | transfer from' to' b _ h => exact onCoins_stakeInv hi h
  | burn from' b _ h => exact onCoins_stakeInv hi h

section Genesis

variable {s s' : St K}

/-- During the genesis build, every validator of a set still has its allocation. -/
def GenesisInv (s : St K) : Prop :=
  StakeInv s ∧ ∀ network key, key ∈ members s network → (s.allocations (network, key)).isSome

omit [DecidableEq K] in
theorem empty_genesisInv (coins : Coins.St K) : GenesisInv (St.empty coins) := by
  refine ⟨⟨List.nodup_nil, by simp [St.empty], fun _ => List.nodup_nil, ?_, ?_⟩, ?_⟩
  · intro network key t h
    simp [St.empty] at h
  · intro network session h
    simp [St.empty] at h
  · intro network key h
    simp [St.empty, members] at h

theorem genesisAllocate_genesisInv {network : NetworkId} {stake : UInt64} {key : K} (hi : GenesisInv s)
    (h : genesisAllocate network stake key s = .ok () s') : GenesisInv s' := by
  obtain ⟨hnone, rfl⟩ := genesisAllocate_ok h
  have hk : key ∉ members s network := fun hk => by simpa [hnone] using hi.2 network key hk
  refine ⟨setAllocation_stakeInv hi.1 hk, fun n k hm => ?_⟩
  rw [members_setAllocation] at hm
  have hne : (n, k) ≠ (network, key) := by
    rintro ⟨⟩
    exact hk hm
  simpa [hne] using hi.2 n k hm

omit [DecidableEq K] in
theorem newSet_genesisInv {network : NetworkId} (hi : GenesisInv s) (h : newSet cfg network s = .ok () s') :
    GenesisInv s' := by
  refine ⟨newSet_stakeInv cfg hi.1 h, fun n k hm => ?_⟩
  obtain ⟨apks, -, -, hs'⟩ := newSet_ok cfg h
  dsimp only at hs'
  obtain ⟨pre, hpre, hkeys, -⟩ := selectParticipants_prefix apks (sortedAllocationsIter cfg s network) 0
  rw [hs']
  by_cases hn : n = network
  · -- a validator the set takes is one the iteration yields
    subst hn
    simp only [hs', members, Function.update_self, amortizeExcessKeyShares_keys, hkeys, List.mem_map] at hm
    obtain ⟨⟨k', a⟩, he, rfl⟩ := hm
    have := hi.1.sortedAllocation _ ((mem_sortedAllocationsIter cfg).mp (hpre.subset he))
    simp [this]
  · simpa [hs', members, hn] using hi.2 n k (by simpa [hs', members, hn] using hm)

theorem genesisBuild_genesisInv {networks : List (NetworkId × UInt64)} {participants : List K}
    (hi : GenesisInv s) (h : genesisBuild cfg networks participants s = .ok () s') : GenesisInv s' := by
  refine forM_ok_inv GenesisInv (genesisNetwork cfg participants) ?_ networks s s' hi h
  rintro ⟨network, stake⟩ s s' hi h
  obtain ⟨s₁, h1, h2⟩ := genesisNetwork_ok cfg h
  have hi₀ : GenesisInv { s with allocationPerKeyShare := Function.update s.allocationPerKeyShare network (some stake) } :=
    ⟨hi.1.of_view rfl, hi.2⟩
  have hi₁ := forM_ok_inv GenesisInv (genesisAllocate network stake) (fun _ _ _ hi h => genesisAllocate_genesisInv hi h)
    participants _ s₁ hi₀ h1
  exact newSet_genesisInv cfg hi₁ h2

end Genesis

theorem reach_stakeInv {s : St K} (h : Reach cfg s) : StakeInv s := by
  induction h with
  | genesis coins networks participants h => exact (genesisBuild_genesisInv cfg (empty_genesisInv coins) h).1
  | step _ hs ih => exact step_stakeInv cfg ih hs

/-! ## Economic security -/

/-- From a network's session 1 on, a deallocation that passes `decrease_allocation`'s
    check leaves the required stake and the amount itself slashable in the set. -/
theorem deallocate_keeps_slashable_stake {s s' : St K} (hr : Reach cfg s) {account : K} {network : NetworkId}
    {amount : UInt64} {session : ℕ} (hs : s.currentSession network = some session) (h0 : 0 < session)
    (h : deallocate cfg account network amount s = .ok () s') :
    (requiredStakeForNetwork s network).toNat + amount.toNat ≤ slashableStake s' network := by
  obtain ⟨immediately, s₁, h1, -⟩ := deallocate_ok cfg h
  obtain ⟨total, newTotal, -, -, -, htot, hsub, hreq, -⟩ := decreaseAllocation_ok cfg h1
  obtain ⟨hcs, htot'⟩ := deallocate_frame cfg h
  -- `TotalAllocatedStake` is left as it was, and is still the stake of the set
  have hset : s'.totalAllocatedStake network = some (setStake s' network) :=
    (reach_stakeInv cfg (.step hr (.deallocate account network amount h))).total network session (hcs ▸ hs) h0
  rw [htot', htot, Option.some.injEq] at hset
  have hsub := checkedSub_eq_some hsub
  have hreq : (requiredStakeForNetwork s network).toNat ≤ newTotal.toNat := by
    simpa [UInt64.lt_iff_toNat_lt] using hreq
  have hle := setStake_le_slashableStake s' network
  rw [← hset] at hle
  omega

/-- Accounts are numbers, the pallet's account is `100`, and a key sorts by itself. -/
def exampleConfig : Config ℕ := ⟨100, fun _ _ key => key⟩

/-- Genesis with Serai, and Bitcoin at 17 SRI a key share, for the validators `0` to `6`. -/
def btcGenesis : St ℕ :=
  state (genesisBuild exampleConfig [(.serai, 1), (.bitcoin, 17)] (List.range 7) (St.empty ⟨fun _ => 0, fun _ => 0⟩))

/-- 60 BTC minted by an in-instruction, then a new session with BTC at one SRI. -/
def btcRotated : St ℕ :=
  let minted := state (onCoins (Coins.mint (fun _ => true) 50 ⟨.bitcoin, 60⟩) btcGenesis)
  state (rotateSession exampleConfig (fun c => if c = .bitcoin then some 100000000 else none) minted)

/-- Validator `0` deallocates its 17 SRI, then validator `1` does. -/
def firstDeallocated : St ℕ := state (deallocate exampleConfig 0 .bitcoin 17 btcRotated)

def secondDeallocated : St ℕ := state (deallocate exampleConfig 1 .bitcoin 17 firstDeallocated)

theorem btcRotated_reach : Reach exampleConfig btcRotated := by
  have hg : Reach exampleConfig btcGenesis :=
    .genesis ⟨fun _ => 0, fun _ => 0⟩ [(.serai, 1), (.bitcoin, 17)] (List.range 7) (eq_ok_state (by decide +kernel))
  have hm := Reach.step hg (.mint (fun _ => true) 50 ⟨.bitcoin, 60⟩ (eq_ok_state (by decide +kernel)))
  exact Reach.step hm (.rotateSession (fun c => if c = .bitcoin then some 100000000 else none)
    (eq_ok_state (by decide +kernel)))

theorem first_deallocation_slashable :
    Reach exampleConfig btcRotated ∧ btcRotated.currentSession .bitcoin = some 1 ∧
      (requiredStakeForNetwork btcRotated .bitcoin).toNat + (17 : UInt64).toNat ≤
        slashableStake firstDeallocated .bitcoin :=
  have hs : btcRotated.currentSession .bitcoin = some 1 := by decide +kernel
  ⟨btcRotated_reach, hs, deallocate_keeps_slashable_stake exampleConfig btcRotated_reach hs Nat.one_pos
    (eq_ok_state (by decide +kernel))⟩

/-- The second deallocation is checked against the `TotalAllocatedStake` of 119 the
    first left as it was: 102 SRI are required, and 85 stay allocated. -/
theorem deallocations_below_required :
    Reach exampleConfig firstDeallocated ∧
      deallocate exampleConfig 1 .bitcoin 17 firstDeallocated = .ok () secondDeallocated ∧
      requiredStakeForNetwork firstDeallocated .bitcoin = 102 ∧ allocatedStake secondDeallocated .bitcoin = 85 := by
  refine ⟨.step btcRotated_reach (.deallocate 0 .bitcoin 17 (eq_ok_state (by decide +kernel))),
    eq_ok_state (by decide +kernel), by decide +kernel, by decide +kernel⟩

/-! ## Genesis stake has no SRI behind it -/

/-- Genesis with Serai at 10 SRI a key share, for the validator `0`. -/
def seraiGenesis : St ℕ :=
  state (genesisBuild exampleConfig [(.serai, 10)] [0] (St.empty ⟨fun _ => 0, fun _ => 0⟩))

/-- The validator `0` deallocates its genesis allocation. -/
def seraiDeallocated : St ℕ := state (deallocate exampleConfig 0 .serai 10 seraiGenesis)

/-- Genesis allocates 10 SRI to validator `0` and gives the pallet's account nothing
    (`genesisBuild_coins`). Slashing the validator burns the 10 SRI from that account,
    and the burn's `unwrap` panics; and the validator may deallocate them, leaving 10 SRI
    pending against an account of 0. -/
theorem genesis_slash_panics :
    Reach exampleConfig seraiGenesis ∧ seraiGenesis.coins.balances (exampleConfig.account, .serai) = 0 ∧
      allocationOf seraiGenesis .serai 0 = 10 ∧
      slashSeraiValidator exampleConfig 0 seraiGenesis =
        .error .panic (state (slashSeraiValidator exampleConfig 0 seraiGenesis)) ∧
      deallocate exampleConfig 0 .serai 10 seraiGenesis = .ok () seraiDeallocated ∧
      seraiDeallocated.pendingDeallocations (.serai, 0) 3 = some 10 ∧
      seraiDeallocated.coins.balances (exampleConfig.account, .serai) = 0 := by
  have hg : genesisBuild exampleConfig [(.serai, 10)] [0] (St.empty ⟨fun _ => 0, fun _ => 0⟩) = .ok () seraiGenesis :=
    eq_ok_state (by decide +kernel)
  have hc : seraiGenesis.coins.balances (exampleConfig.account, .serai) = 0 := by
    rw [genesisBuild_coins exampleConfig hg]
    rfl
  refine ⟨.genesis _ _ _ hg, hc, by decide +kernel, eq_error_state (by decide +kernel),
    eq_ok_state (by decide +kernel), by decide +kernel, by decide +kernel⟩

end Serai.ValidatorSets
