import Serai.ValidatorSets.Calls
/-
  Serai.ValidatorSets.Sessions — how a network's sessions and `Keys` evolve over every
  run of the pallet.

  A network's session only moves forward: `new_set` sets it to the next one, or to 0 for
  the first set. `set_keys` writes the key pair of the current session alone, and
  `retire_set` takes a set's keys. So once the key slot of a session before the current
  one is empty, it stays empty. `Later s s'` says both of a pair of states; it is a
  preorder, and every step of the pallet goes to a later state (`step_later`).

  The in-instructions pallet authenticates a `Batch` with the keys of a network's current
  and prior sessions, and retires the prior set on the hand-over; this is what keeps the
  retired key from verifying a batch again.
-/

namespace Serai.ValidatorSets

open Serai.Lib

variable {K : Type} (cfg : Config K)
variable {s s' s'' : St K}

/-! ## Later states -/

/-- `s'` comes after `s` for sessions and keys: no network's session went back, and an
    empty key slot of a past session is still empty. -/
structure Later (s s' : St K) : Prop where
  session : ∀ network session, s.currentSession network = some session →
    ∃ session', s'.currentSession network = some session' ∧ session ≤ session'
  retired : ∀ network session p, s.currentSession network = some session → p < session →
    s.keys ⟨p, network⟩ = none → s'.keys ⟨p, network⟩ = none

theorem Later.refl (s : St K) : Later s s :=
  ⟨fun _ session h => ⟨session, h, le_rfl⟩, fun _ _ _ _ _ h => h⟩

theorem Later.trans (h₁ : Later s s') (h₂ : Later s' s'') : Later s s'' := by
  refine ⟨fun network session h => ?_, fun network session p h hp hk => ?_⟩
  · obtain ⟨session₁, h₁s, hle₁⟩ := h₁.session network session h
    obtain ⟨session₂, h₂s, hle₂⟩ := h₂.session network session₁ h₁s
    exact ⟨session₂, h₂s, hle₁.trans hle₂⟩
  · -- the slot is still of a past session in the middle state
    obtain ⟨session₁, h₁s, hle₁⟩ := h₁.session network session h
    exact h₂.retired network session₁ p h₁s (by omega) (h₁.retired network session p h hp hk)

/-- The sessions and the keys: all that `Later` reads. -/
def sessionView (s : St K) := (s.currentSession, s.keys)

theorem Later.of_view (hv : sessionView s' = sessionView s) : Later s s' := by
  simp only [sessionView, Prod.mk.injEq] at hv
  obtain ⟨hcs, hk⟩ := hv
  refine ⟨fun network session h => ⟨session, ?_, le_rfl⟩, fun network session p _ _ h => ?_⟩
  · rw [hcs]
    exact h
  · rw [hk]
    exact h

theorem Later.forM {β : Type} {f : β → EStateM Fail (St K) PUnit}
    (hf : ∀ x s s', f x s = .ok ⟨⟩ s' → Later s s') {l : List β} (h : l.forM f s = .ok ⟨⟩ s') :
    Later s s' :=
  forM_ok_inv (fun t => Later s t) f (fun x _ _ h₁ h₂ => h₁.trans (hf x _ _ h₂)) l s s' (Later.refl s) h

/-! ## The calls that leave sessions and keys alone -/

section View

variable [DecidableEq K] {network : NetworkId} {account : K} {amount : UInt64} {u : Unit}

@[simp] theorem setAllocation_keys (network : NetworkId) (key : K) (amount : UInt64) :
    (setAllocation s network key amount).1.keys = s.keys := by
  unfold setAllocation; split <;> rfl

theorem sessionView_setAllocation (network : NetworkId) (key : K) (amount : UInt64) :
    sessionView (setAllocation s network key amount).1 = sessionView s := by
  simp [sessionView]

theorem increaseAllocation_view (h : increaseAllocation cfg network account amount s = .ok u s') :
    sessionView s' = sessionView s := by
  obtain ⟨apks, -, -, -, rfl⟩ := increaseAllocation_ok cfg h
  split <;> simp [sessionView]

theorem decreaseAllocation_view {r : Bool} (h : decreaseAllocation cfg network account amount s = .ok r s') :
    sessionView s' = sessionView s := by
  obtain ⟨-, -, -, new, -, -, -, -, -, -, -, -, -, hq⟩ := decreaseAllocation_ok cfg h
  rcases queueDeallocation_ok hq with ⟨-, -, rfl⟩ | ⟨-, -, t, -, rfl⟩
  · exact sessionView_setAllocation network account new
  · simp [sessionView]

theorem takeDeallocatableAmount_view {session : ℕ} {r : Option UInt64}
    (h : takeDeallocatableAmount network session account s = .ok r s') : sessionView s' = sessionView s := by
  rcases takeDeallocatableAmount_ok h with ⟨-, -, rfl⟩ | ⟨-, h⟩
  · rfl
  · rw [takePending_eq] at h
    cases h
    rfl

theorem slashSeraiValidator_view (h : slashSeraiValidator cfg account s = .ok u s') :
    sessionView s' = sessionView s := by
  obtain ⟨unlock, coins, -, h⟩ := slashSeraiValidator_ok cfg h
  rcases h with ⟨-, rfl⟩ | ⟨-, current, remaining, -, -, rfl⟩ <;> simp [sessionView]

theorem allocate_later (h : allocate cfg account network amount s = .ok u s') : Later s s' := by
  obtain ⟨c, -, h⟩ := allocate_ok cfg h
  have h₀ : Later s { s with coins := c } := Later.of_view rfl
  exact h₀.trans (Later.of_view (increaseAllocation_view cfg h))

theorem deallocate_later (h : deallocate cfg account network amount s = .ok u s') : Later s s' := by
  obtain ⟨immediately, s₁, h1, h⟩ := deallocate_ok cfg h
  have hv := decreaseAllocation_view cfg h1
  rcases h with ⟨-, rfl⟩ | ⟨-, c, -, rfl⟩
  · exact Later.of_view hv
  · exact Later.of_view hv

theorem claimDeallocation_later {session : ℕ} (h : claimDeallocation cfg account network session s = .ok u s') :
    Later s s' := by
  obtain ⟨amount, s₁, h1, c, -, rfl⟩ := claimDeallocation_ok cfg h
  exact (Later.of_view (takeDeallocatableAmount_view h1)).trans (Later.of_view rfl)

end View

theorem onCoins_later {α : Type} {m : EStateM Coins.Fail (Coins.St K) α} {a : α} (h : onCoins m s = .ok a s') :
    Later s s' := by
  obtain ⟨c, -, rfl⟩ := onCoins_ok h
  exact Later.of_view rfl

/-! ## The calls that move sessions or keys -/

section Moves

variable {network : NetworkId} {u : Unit}

theorem retireSet_eq (set : ValidatorSet) (hn : set.network ≠ .serai) (s : St K) :
    retireSet set s =
      match s.keys set with
      | none => .error .panic s
      | some keys => .ok () { s with
          keys := Function.update s.keys set none
          pendingSlashReport := Function.update s.pendingSlashReport set.network (some keys.key) } := by
  simp only [retireSet, ne_eq, hn, not_false_eq_true, if_true, get_bind]
  cases s.keys set <;> rfl

theorem retireSet_later {set : ValidatorSet} (h : retireSet set s = .ok u s') : Later s s' := by
  by_cases hn : set.network = .serai
  · -- the Serai set is retired without a write
    simp only [retireSet, hn, ne_eq, not_true_eq_false, if_false] at h
    cases h
    exact Later.refl s
  · rw [retireSet_eq set hn] at h
    split at h
    · cases h
    · cases h
      refine ⟨fun network session h => ⟨session, h, le_rfl⟩, fun network session p _ _ hk => ?_⟩
      by_cases hp : (⟨p, network⟩ : ValidatorSet) = set
      · simp [hp]
      · simp [Function.update_of_ne hp, hk]

theorem setKeys_later {keyPair : KeyPair K} (h : setKeys network keyPair s = .ok u s') : Later s s' := by
  obtain ⟨current, hcur, rfl⟩ := setKeys_ok h
  refine ⟨fun n session h => ⟨session, h, le_rfl⟩, fun n session p hs hp hk => ?_⟩
  have hne : (⟨p, n⟩ : ValidatorSet) ≠ ⟨current, network⟩ := by
    intro he
    cases he
    rw [hcur] at hs
    cases hs
    omega
  simp [Function.update_of_ne hne, hk]

theorem newSet_later (h : newSet cfg network s = .ok u s') : Later s s' := by
  obtain ⟨apks, -, -, rfl⟩ := newSet_ok cfg h
  refine ⟨fun n session hs => ?_, fun n session p _ _ hk => hk⟩
  by_cases hn : n = network
  · subst hn
    exact ⟨session + 1, by simp [hs], by omega⟩
  · exact ⟨session, by simp [hn, hs], le_rfl⟩

theorem rotateSession_later {medianPrice : Coin → Option UInt64} (h : rotateSession cfg medianPrice s = .ok u s') :
    Later s s' := by
  obtain ⟨now, s₁, -, h1, rfl⟩ := rotateSession_ok cfg h
  have hl : Later s s₁ := by
    refine Later.forM (fun network t t' ht => ?_) h1
    rcases newSessionFor_ok cfg ht with he | ⟨t₁, oracle, ht₁, rfl⟩
    · rw [he]
      exact Later.refl t
    · exact (newSet_later cfg ht₁).trans (Later.of_view rfl)
  exact hl.trans (Later.of_view rfl)

end Moves

theorem step_later [DecidableEq K] (h : Step cfg s s') : Later s s' := by
  cases h with
  | allocate validator network amount h => exact allocate_later cfg h
  | deallocate account network amount h => exact deallocate_later cfg h
  | claimDeallocation account network session h => exact claimDeallocation_later cfg h
  | setKeys network removed keyPair signatureValid _ h => exact setKeys_later h
  | retireSet set h => exact retireSet_later h
  | rotateSession medianPrice h => exact rotateSession_later cfg h
  | slash validator h => exact Later.of_view (slashSeraiValidator_view cfg h)
  | mint allowMint to' b h => exact onCoins_later h
  | transfer from' to' b _ h => exact onCoins_later h
  | burn from' b _ h => exact onCoins_later h

end Serai.ValidatorSets
