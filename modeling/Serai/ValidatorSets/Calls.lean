import Serai.ValidatorSets.Pallet
/-
  Serai.ValidatorSets.Calls — what each call of the validator-sets pallet leaves when it
  succeeds.

  A call is a chain of reads, checks and writes. A check that passes leaves the state as
  it was and says which way it went: `failIf_bind`, `panicIf_bind`, `okOr_bind` and
  `unwrapOrPanic_bind` peel one off the front of a chain, `bind_ok` any other call.
  `is_bft` only reads (`isBft_ok`). For every call the lemma `*_ok` gives the state it
  leaves as an update of the one it started from, with the checks it passed; the
  invariants of `Serai.ValidatorSets.Stake` are proved from these alone. `Step` is every
  way the pallet's storage changes, and `Reach` the states a run from genesis reaches.
-/

namespace Serai.ValidatorSets

open Serai.Lib

variable {K : Type} (cfg : Config K)
variable {s s' : St K} {α β : Type}

/-! ## Checks -/

theorem failIf_bind {c : Bool} {e : Error} {f : Unit → EStateM Fail (St K) β} {b : β}
    (h : (failIf c e >>= f) s = .ok b s') : c = false ∧ f () s = .ok b s' := by
  cases c with
  | false => exact ⟨rfl, h⟩
  | true => cases h

theorem panicIf_bind {c : Bool} {f : Unit → EStateM Fail (St K) β} {b : β}
    (h : (panicIf c >>= f) s = .ok b s') : c = false ∧ f () s = .ok b s' := by
  cases c with
  | false => exact ⟨rfl, h⟩
  | true => cases h

theorem okOr_bind {o : Option α} {e : Error} {f : α → EStateM Fail (St K) β} {b : β}
    (h : (okOr o e >>= f) s = .ok b s') : ∃ a, o = some a ∧ f a s = .ok b s' := by
  cases o with
  | some a => exact ⟨a, rfl, h⟩
  | none => cases h

theorem unwrapOrPanic_bind {o : Option α} {f : α → EStateM Fail (St K) β} {b : β}
    (h : (unwrapOrPanic o >>= f) s = .ok b s') : ∃ a, o = some a ∧ f a s = .ok b s' := by
  cases o with
  | some a => exact ⟨a, rfl, h⟩
  | none => cases h

theorem panicIf_ok {c : Bool} {u : Unit} (h : panicIf c s = .ok u s') : c = false ∧ s' = s := by
  cases c with
  | false => cases h; exact ⟨rfl, rfl⟩
  | true => cases h

theorem okOr_ok {o : Option α} {e : Error} {a : α} (h : okOr o e s = .ok a s') : o = some a ∧ s' = s := by
  cases o with
  | some b => cases h; exact ⟨rfl, rfl⟩
  | none => cases h

theorem unwrapOrPanic_ok {o : Option α} {a : α} (h : unwrapOrPanic o s = .ok a s') : o = some a ∧ s' = s := by
  cases o with
  | some b => cases h; exact ⟨rfl, rfl⟩
  | none => cases h

theorem onCoins_ok {m : EStateM Coins.Fail (Coins.St K) α} {a : α} (h : onCoins m s = .ok a s') :
    ∃ c, m s.coins = .ok a c ∧ s' = { s with coins := c } := by
  unfold onCoins at h
  split at h
  · rename_i c hm
    cases h
    exact ⟨c, hm, rfl⟩
  · cases h

theorem orPanic_ok {m : EStateM Fail (St K) α} {a : α} (h : orPanic m s = .ok a s') : m s = .ok a s' := by
  unfold orPanic at h
  split at h
  · cases h; assumption
  · cases h

theorem isBft_ok {network : NetworkId} {b : Bool} (h : isBft cfg network s = .ok b s') : s' = s := by
  simp only [isBft, get_bind] at h
  obtain ⟨apks, -, h⟩ := unwrapOrPanic_bind h
  obtain ⟨-, h⟩ := panicIf_bind h
  -- the scan's result is matched on, then one of two `pure`s
  revert h
  cases (bftScan apks (sortedAllocationsIter cfg s network) 0 0 none).2.2 <;>
    · intro h
      cases h
      rfl

theorem recheckBft_bind {network : NetworkId} {w : Option Bool} {e : Error} {f : Unit → EStateM Fail (St K) β}
    {b : β} (h : (recheckBft cfg network w e >>= f) s = .ok b s') : f () s = .ok b s' := by
  obtain ⟨u, s₁, h1, h⟩ := bind_ok h
  have h1 : s₁ = s := by
    cases w with
    | none => cases h1; rfl
    | some was =>
      obtain ⟨now, s₂, h2, h1⟩ := bind_ok h1
      have h2 := isBft_ok cfg h2
      subst s₂
      cases hc : (was && !now) <;> simp only [failIf, hc] at h1 <;> cases h1
      rfl
  subst s₁
  exact h

theorem readWasBft_bind {network : NetworkId} {c : Bool} {f : Option Bool → EStateM Fail (St K) β} {b : β}
    (h : (readWasBft cfg network c >>= f) s = .ok b s') :
    ∃ w, f w s = .ok b s' := by
  obtain ⟨w, s₁, h1, h⟩ := bind_ok h
  refine ⟨w, ?_⟩
  have h1 : s₁ = s := by
    cases c with
    | false => cases h1; rfl
    | true =>
      simp only [readWasBft, if_true, Functor.map, EStateM.map] at h1
      split at h1
      · rename_i hb
        cases h1
        exact isBft_ok cfg hb
      · cases h1
  subst s₁
  exact h

/-! ## `new_set` -/

theorem newSet_ok {network : NetworkId} {u : Unit} (h : newSet cfg network s = .ok u s') :
    ∃ apks, s.allocationPerKeyShare network = some apks ∧ apks ≠ 0 ∧
      let selected := selectParticipants apks (sortedAllocationsIter cfg s network) 0
      s' = { s with
        currentSession := Function.update s.currentSession network (some (((s.currentSession network).map (· + 1)).getD 0))
        inSet := Function.update s.inSet network (amortizeExcessKeyShares selected.1)
        totalAllocatedStake := Function.update s.totalAllocatedStake network (some selected.2)
        participants := Function.update s.participants network (some (amortizeExcessKeyShares selected.1)) } := by
  simp only [newSet, get_bind] at h
  obtain ⟨-, h⟩ := panicIf_bind h
  obtain ⟨apks, happ, h⟩ := unwrapOrPanic_bind h
  obtain ⟨h0, h⟩ := panicIf_bind h
  obtain ⟨-, h⟩ := panicIf_bind h
  cases h
  exact ⟨apks, happ, by simpa using h0, rfl⟩

/-! ## `set_allocation` -/

section SetAllocation

variable [DecidableEq K] (network : NetworkId) (key : K) (amount : UInt64)

@[simp] theorem setAllocation_allocations :
    (setAllocation s network key amount).1.allocations =
      Function.update s.allocations (network, key) (if amount = 0 then none else some amount) := by
  unfold setAllocation
  by_cases h : amount = 0 <;> simp [h]

@[simp] theorem setAllocation_currentSession :
    (setAllocation s network key amount).1.currentSession = s.currentSession := by
  unfold setAllocation; split <;> rfl

@[simp] theorem setAllocation_inSet : (setAllocation s network key amount).1.inSet = s.inSet := by
  unfold setAllocation; split <;> rfl

@[simp] theorem setAllocation_totalAllocatedStake :
    (setAllocation s network key amount).1.totalAllocatedStake = s.totalAllocatedStake := by
  unfold setAllocation; split <;> rfl

@[simp] theorem setAllocation_pendingDeallocations :
    (setAllocation s network key amount).1.pendingDeallocations = s.pendingDeallocations := by
  unfold setAllocation; split <;> rfl

@[simp] theorem setAllocation_allocationPerKeyShare :
    (setAllocation s network key amount).1.allocationPerKeyShare = s.allocationPerKeyShare := by
  unfold setAllocation; split <;> rfl

@[simp] theorem setAllocation_coins : (setAllocation s network key amount).1.coins = s.coins := by
  unfold setAllocation; split <;> rfl

@[simp] theorem setAllocation_babe : (setAllocation s network key amount).1.babe = s.babe := by
  unfold setAllocation; split <;> rfl

@[simp] theorem setAllocation_snd : (setAllocation s network key amount).2 = (s.allocations (network, key)).isSome := rfl

end SetAllocation

/-! ## Calls -/

variable [DecidableEq K] {network : NetworkId} {account : K} {amount : UInt64} {u : Unit}

theorem increaseAllocation_ok (h : increaseAllocation cfg network account amount s = .ok u s') :
    ∃ apks, s.allocationPerKeyShare network = some apks ∧ apks ≠ 0 ∧
      ¬ (allocation s network account).getD 0 + amount < apks ∧
      let s₁ := (setAllocation s network account ((allocation s network account).getD 0 + amount)).1
      s' = if inSetContains s network account then
          let total := (s.totalAllocatedStake network).getD 0 + amount
          { s₁ with totalAllocatedStake := Function.update s.totalAllocatedStake network (some total) }
        else s₁ := by
  simp only [increaseAllocation, get_bind] at h
  obtain ⟨apks, happ, h⟩ := unwrapOrPanic_bind h
  obtain ⟨h0, h⟩ := panicIf_bind h
  obtain ⟨hlt, h⟩ := failIf_bind h
  obtain ⟨w, h⟩ := readWasBft_bind cfg h
  simp only [modify_bind] at h
  have h := recheckBft_bind cfg h
  obtain ⟨-, h⟩ := failIf_bind h
  simp only [get_bind] at h
  refine ⟨apks, happ, by simpa using h0, by simpa using hlt, ?_⟩
  have hc : inSetContains (setAllocation s network account ((allocation s network account).getD 0 + amount)).1
      network account = inSetContains s network account := by
    simp [inSetContains]
  -- the last write happens for a validator of the latest decided set only
  cases hin : inSetContains s network account
  · simp only [hc, hin] at h
    cases h
    rfl
  · simp only [hc, hin, if_true, set_apply] at h
    cases h
    simp

theorem queueDeallocation_ok {r : Bool} (h : queueDeallocation network account amount s = .ok r s') :
    (inSet s network account = false ∧ r = true ∧ s' = s) ∨
    (inSet s network account = true ∧ r = false ∧ ∃ t, sessionToUnlockOnForCurrentSet s network = some t ∧
      let existing := (s.pendingDeallocations (network, account) t).getD 0
      let pending := Function.update (s.pendingDeallocations (network, account)) t (some (existing + amount))
      s' = { s with pendingDeallocations := Function.update s.pendingDeallocations (network, account) pending }) := by
  simp only [queueDeallocation, get_bind] at h
  cases hin : inSet s network account
  · simp only [hin, Bool.not_false, if_true, pure_apply] at h
    cases h
    exact .inl ⟨rfl, rfl, rfl⟩
  · simp only [hin, Bool.not_true, Bool.false_eq_true, if_false] at h
    obtain ⟨t, ht, h⟩ := unwrapOrPanic_bind h
    cases h
    exact .inr ⟨rfl, rfl, t, ht, rfl⟩

theorem decreaseAllocation_ok {r : Bool} (h : decreaseAllocation cfg network account amount s = .ok r s') :
    ∃ total newTotal old new apks, s.totalAllocatedStake network = some total ∧
      checkedSub total amount = some newTotal ∧ ¬ newTotal < requiredStakeForNetwork s network ∧
      allocation s network account = some old ∧ checkedSub old amount = some new ∧
      s.allocationPerKeyShare network = some apks ∧ apks ≠ 0 ∧ ¬ (new ≠ 0 ∧ new < apks) ∧
      queueDeallocation network account amount (setAllocation s network account new).1 = .ok r s' := by
  simp only [decreaseAllocation, get_bind] at h
  obtain ⟨total, htot, h⟩ := unwrapOrPanic_bind h
  obtain ⟨newTotal, hsub, h⟩ := okOr_bind h
  obtain ⟨hreq, h⟩ := failIf_bind h
  obtain ⟨old, hold, h⟩ := okOr_bind h
  obtain ⟨new, hnew, h⟩ := okOr_bind h
  obtain ⟨apks, happ, h⟩ := unwrapOrPanic_bind h
  obtain ⟨h0, h⟩ := panicIf_bind h
  obtain ⟨hpart, h⟩ := failIf_bind h
  obtain ⟨w, h⟩ := readWasBft_bind cfg h
  simp only [modify_bind] at h
  have h := recheckBft_bind cfg h
  refine ⟨total, newTotal, old, new, apks, htot, hsub, by simpa using hreq, hold, hnew, happ,
    by simpa using h0, by simpa using hpart, h⟩

theorem takePending_eq (network : NetworkId) (key : K) (t : Nat) (s : St K) :
    takePending network key t s =
      let pending := Function.update (s.pendingDeallocations (network, key)) t none
      .ok (s.pendingDeallocations (network, key) t)
        { s with pendingDeallocations := Function.update s.pendingDeallocations (network, key) pending } := rfl

theorem takeDeallocatableAmount_ok {session : Nat} {r : Option UInt64}
    (h : takeDeallocatableAmount network session account s = .ok r s') :
    (handoverCompleted s network session = false ∧ r = none ∧ s' = s) ∨
    (handoverCompleted s network session = true ∧ takePending network account session s = .ok r s') := by
  simp only [takeDeallocatableAmount, get_bind] at h
  cases hh : handoverCompleted s network session
  · simp only [hh, Bool.not_false, if_true, pure_apply] at h
    cases h
    exact .inl ⟨rfl, rfl, rfl⟩
  · simp only [hh, Bool.not_true, Bool.false_eq_true, if_false] at h
    exact .inr ⟨rfl, h⟩

omit [DecidableEq K] in
theorem retireSet_ok {set : ValidatorSet} (h : retireSet set s = .ok u s') :
    ∃ keys pendingSlashReport, s' = { s with keys := keys, pendingSlashReport := pendingSlashReport } := by
  unfold retireSet at h
  split at h
  · simp only [get_bind] at h
    obtain ⟨kp, -, h⟩ := unwrapOrPanic_bind h
    cases h
    exact ⟨_, _, rfl⟩
  · cases h
    exact ⟨s.keys, s.pendingSlashReport, rfl⟩

omit [DecidableEq K] in
theorem newSessionFor_ok {medianPrice : Coin → Option UInt64} (h : newSessionFor cfg medianPrice network s = .ok u s') :
    s' = s ∨ ∃ s₁ oracle, newSet cfg network s = .ok () s₁ ∧ s' = { s₁ with securityOracleValue := oracle } := by
  simp only [newSessionFor, get_bind] at h
  cases hcs : s.currentSession network with
  | none =>
    simp only [hcs] at h
    cases h
    exact .inl rfl
  | some cs =>
    simp only [hcs] at h
    split at h
    · obtain ⟨_, s₁, h1, h⟩ := bind_ok h
      cases h
      exact .inr ⟨s₁, _, h1, rfl⟩
    · cases h
      exact .inl rfl

omit [DecidableEq K] in
theorem rotateSession_ok {medianPrice : Coin → Option UInt64} (h : rotateSession cfg medianPrice s = .ok u s') :
    ∃ nowValidators s₁, s.participants .serai = some nowValidators ∧
      newSession cfg medianPrice s = .ok () s₁ ∧ s' = { s₁ with babe := nowValidators.map (·.1) } := by
  simp only [rotateSession, get_bind] at h
  obtain ⟨now, hnow, h⟩ := unwrapOrPanic_bind h
  obtain ⟨prior, -, h⟩ := unwrapOrPanic_bind h
  -- the Serai set is retired without a write
  obtain ⟨_, s₀, h0, h⟩ := bind_ok h
  have h0 : s₀ = s := by
    simp only [retireSet, ne_eq, not_true_eq_false, if_false] at h0
    cases h0
    rfl
  subst s₀
  obtain ⟨_, s₁, h1, h⟩ := bind_ok h
  simp only [get_bind] at h
  obtain ⟨-, -, h⟩ := unwrapOrPanic_bind h
  cases h
  exact ⟨now, s₁, hnow, h1, rfl⟩

theorem reduceTotalAllocatedStake_ok (h : reduceTotalAllocatedStake network account amount s = .ok u s') :
    (inSetContains s network account = false ∧ s' = s) ∨
    (inSetContains s network account = true ∧ ∃ current remaining, s.totalAllocatedStake network = some current ∧
      checkedSub current amount = some remaining ∧
      s' = { s with totalAllocatedStake := Function.update s.totalAllocatedStake network (some remaining) }) := by
  simp only [reduceTotalAllocatedStake, get_bind] at h
  cases hin : inSetContains s network account
  · simp only [hin, Bool.false_eq_true, if_false, pure_apply] at h
    cases h
    exact .inl ⟨rfl, rfl⟩
  · simp only [hin, if_true] at h
    obtain ⟨current, hcur, h⟩ := unwrapOrPanic_bind h
    obtain ⟨remaining, hrem, h⟩ := unwrapOrPanic_bind h
    cases h
    exact .inr ⟨rfl, current, remaining, hcur, hrem, rfl⟩

theorem drainPending_eq (network : NetworkId) (key : K) (bound : Nat) (s : St K) :
    drainPending network key bound s =
      .ok ((List.range (bound + 1)).foldl (fun acc session => acc + ((s.pendingDeallocations (network, key) session).getD 0)) 0)
        { s with pendingDeallocations := Function.update s.pendingDeallocations (network, key) fun _ => none } := rfl

theorem slashSeraiValidator_ok {validator : K} (h : slashSeraiValidator cfg validator s = .ok u s') :
    ∃ unlock coins, sessionToUnlockOnForCurrentSet s .serai = some unlock ∧
      let slashed := (allocation s .serai validator).getD 0 + (s.pendingDeallocations (.serai, validator) unlock).getD 0
      let s₁ := { (setAllocation s .serai validator 0).1 with
        pendingDeallocations := Function.update s.pendingDeallocations (.serai, validator) fun _ => none
        coins := coins }
      (inSetContains s .serai validator = false ∧ s' = s₁) ∨
      (inSetContains s .serai validator = true ∧ ∃ current remaining,
        s.totalAllocatedStake .serai = some current ∧ checkedSub current slashed = some remaining ∧
        s' = { s₁ with totalAllocatedStake := Function.update s.totalAllocatedStake .serai (some remaining) }) := by
  simp only [slashSeraiValidator, get_bind, modify_bind] at h
  obtain ⟨unlock, hunlock, h⟩ := unwrapOrPanic_bind h
  obtain ⟨pendingNow, s₂, h2, h⟩ := bind_ok h
  rw [takePending_eq] at h2
  cases h2
  obtain ⟨_, s₃, h3, h⟩ := bind_ok h
  obtain ⟨others, s₄, h4, h⟩ := bind_ok h
  rw [drainPending_eq] at h4
  cases h4
  obtain ⟨c, -, rfl⟩ := onCoins_ok (orPanic_ok h)
  refine ⟨unlock, c, by simpa [sessionToUnlockOnForCurrentSet] using hunlock, ?_⟩
  rcases reduceTotalAllocatedStake_ok h3 with ⟨hin, rfl⟩ | ⟨hin, current, remaining, hcur, hrem, rfl⟩
  · left
    refine ⟨by simpa [inSetContains] using hin, ?_⟩
    simp
  · right
    refine ⟨by simpa [inSetContains] using hin, current, remaining, by simpa using hcur, by simpa using hrem, ?_⟩
    simp

/-! ## Dispatchables and genesis -/

theorem allocate_ok {validator : K} (h : allocate cfg validator network amount s = .ok u s') :
    ∃ coins, Coins.transferInternal validator cfg.account ⟨.serai, amount⟩ s.coins = .ok () coins ∧
      increaseAllocation cfg network validator amount { s with coins := coins } = .ok u s' := by
  obtain ⟨_, s₁, h1, h⟩ := bind_ok h
  obtain ⟨c, hc, rfl⟩ := onCoins_ok h1
  exact ⟨c, hc, h⟩

theorem deallocate_ok (h : deallocate cfg account network amount s = .ok u s') :
    ∃ immediately s₁, decreaseAllocation cfg network account amount s = .ok immediately s₁ ∧
      (immediately = false ∧ s' = s₁ ∨
       immediately = true ∧ ∃ coins, Coins.transferInternal cfg.account account ⟨.serai, amount⟩ s₁.coins = .ok () coins ∧
         s' = { s₁ with coins := coins }) := by
  obtain ⟨immediately, s₁, h1, h⟩ := bind_ok h
  refine ⟨immediately, s₁, h1, ?_⟩
  cases immediately with
  | false =>
    cases h
    exact .inl ⟨rfl, rfl⟩
  | true =>
    obtain ⟨c, hc, rfl⟩ := onCoins_ok h
    exact .inr ⟨rfl, c, hc, rfl⟩

theorem claimDeallocation_ok {session : Nat} (h : claimDeallocation cfg account network session s = .ok u s') :
    ∃ amount s₁, takeDeallocatableAmount network session account s = .ok (some amount) s₁ ∧
      ∃ coins, Coins.transferInternal cfg.account account ⟨.serai, amount⟩ s₁.coins = .ok () coins ∧
        s' = { s₁ with coins := coins } := by
  obtain ⟨r, s₁, h1, h⟩ := bind_ok h
  obtain ⟨amount, rfl, h⟩ := okOr_bind h
  obtain ⟨c, hc, rfl⟩ := onCoins_ok h
  exact ⟨amount, s₁, h1, c, hc, rfl⟩

omit [DecidableEq K] in
theorem setKeys_ok {keyPair : KeyPair K} (h : setKeys network keyPair s = .ok u s') :
    ∃ session, s.currentSession network = some session ∧
      s' = { s with keys := Function.update s.keys ⟨session, network⟩ (some keyPair) } := by
  simp only [setKeys, get_bind] at h
  obtain ⟨session, hs, h⟩ := unwrapOrPanic_bind h
  cases h
  exact ⟨session, hs, rfl⟩

theorem genesisAllocate_ok {stake : UInt64} (h : genesisAllocate network stake account s = .ok u s') :
    s.allocations (network, account) = none ∧ s' = (setAllocation s network account stake).1 := by
  simp only [genesisAllocate, get_bind, set_bind] at h
  obtain ⟨hprior, rfl⟩ := panicIf_ok h
  refine ⟨?_, rfl⟩
  simpa using hprior

theorem genesisNetwork_ok {participants : List K} {stake : UInt64}
    (h : genesisNetwork cfg participants (network, stake) s = .ok u s') :
    ∃ s₁, participants.forM (genesisAllocate network stake)
        { s with allocationPerKeyShare := Function.update s.allocationPerKeyShare network (some stake) } = .ok () s₁ ∧
      newSet cfg network s₁ = .ok () s' := by
  simp only [genesisNetwork, modify_bind] at h
  obtain ⟨_, s₁, h1, h⟩ := bind_ok h
  exact ⟨s₁, h1, h⟩

theorem deallocate_frame (h : deallocate cfg account network amount s = .ok u s') :
    s'.currentSession = s.currentSession ∧ s'.totalAllocatedStake = s.totalAllocatedStake := by
  obtain ⟨immediately, s₁, h1, h⟩ := deallocate_ok cfg h
  obtain ⟨-, -, -, new, -, -, -, -, -, -, -, -, -, hq⟩ := decreaseAllocation_ok cfg h1
  have h₁ : s₁.currentSession = s.currentSession ∧ s₁.totalAllocatedStake = s.totalAllocatedStake := by
    rcases queueDeallocation_ok hq with ⟨-, -, rfl⟩ | ⟨-, -, t, -, rfl⟩ <;> simp
  rcases h with ⟨-, rfl⟩ | ⟨-, c, -, rfl⟩
  · exact h₁
  · exact h₁

theorem genesisBuild_coins {networks : List (NetworkId × UInt64)} {participants : List K}
    (h : genesisBuild cfg networks participants s = .ok u s') : s'.coins = s.coins := by
  refine forM_ok_inv (fun s' => s'.coins = s.coins) (genesisNetwork cfg participants) ?_ networks s s' rfl h
  rintro ⟨network, stake⟩ s₀ s₂ hc h
  obtain ⟨s₁, h1, h2⟩ := genesisNetwork_ok cfg h
  have hc₁ : s₁.coins = s.coins := forM_ok_inv (fun s' => s'.coins = s.coins) (genesisAllocate network stake)
    (fun _ _ _ hc h => by obtain ⟨-, rfl⟩ := genesisAllocate_ok h; simpa using hc) participants _ s₁ hc h1
  obtain ⟨-, -, -, rfl⟩ := newSet_ok cfg h2
  exact hc₁

/-! ## Runs -/

/-- What can happen to the pallet's storage: a dispatchable or hook of the pallet that
    succeeds (one that fails leaves nothing behind), and the calls of the coins pallet
    made by others, which never move coins out of the pallet's account (nobody holds its
    key). -/
inductive Step : St K → St K → Prop
  | allocate {s s' : St K} (validator : K) (network : NetworkId) (amount : UInt64) :
      allocate cfg validator network amount s = .ok () s' → Step s s'
  | deallocate {s s' : St K} (account : K) (network : NetworkId) (amount : UInt64) :
      deallocate cfg account network amount s = .ok () s' → Step s s'
  | claimDeallocation {s s' : St K} (account : K) (network : NetworkId) (session : Nat) :
      claimDeallocation cfg account network session s = .ok () s' → Step s s'
  | setKeys {s s' : St K} (network : NetworkId) (removed : List K) (keyPair : KeyPair K) (signatureValid : Bool) :
      setKeysValid s network removed signatureValid = true → setKeys network keyPair s = .ok () s' → Step s s'
  | retireSet {s s' : St K} (set : ValidatorSet) : retireSet set s = .ok () s' → Step s s'
  | rotateSession {s s' : St K} (medianPrice : Coin → Option UInt64) :
      rotateSession cfg medianPrice s = .ok () s' → Step s s'
  | slash {s s' : St K} (validator : K) : slashSeraiValidator cfg validator s = .ok () s' → Step s s'
  | mint {s s' : St K} (allowMint : Balance → Bool) (to' : K) (b : Balance) :
      onCoins (Coins.mint allowMint to' b) s = .ok () s' → Step s s'
  | transfer {s s' : St K} (from' to' : K) (b : Balance) : from' ≠ cfg.account →
      onCoins (Coins.transferInternal from' to' b) s = .ok () s' → Step s s'
  | burn {s s' : St K} (from' : K) (b : Balance) : from' ≠ cfg.account →
      onCoins (Coins.burnInternal from' b) s = .ok () s' → Step s s'

/-- The states a run from the genesis build reaches. -/
inductive Reach : St K → Prop
  | genesis {s : St K} (coins : Coins.St K) (networks : List (NetworkId × UInt64)) (participants : List K) :
      genesisBuild cfg networks participants (St.empty coins) = .ok () s → Reach s
  | step {s s' : St K} : Reach s → Step cfg s s' → Reach s'

end Serai.ValidatorSets

