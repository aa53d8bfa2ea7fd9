import Mathlib
/-
  Serai.Lib.Ledger — sums of a balance function over a finite account space.

  A ledger's accounts are a `Fintype`; writing one account's balance changes the sum by
  the difference (`sum_update_add`), and any two distinct balances together stay within
  the sum (`add_le_sum`). Over a duplicate-free list of keys, in any additive group,
  changing the summed function at one key changes the sum by the change there
  (`sum_map_of_eq_off`); inserting into an association list adds the inserted key's
  weight when it is new, and nothing when it replaces an entry (`sum_keys_insert`).
-/

namespace Serai.Lib

open Finset

variable {ι : Type} [Fintype ι] [DecidableEq ι]

theorem sum_update_add (f : ι → ℕ) (i : ι) (v : ℕ) :
    (∑ j, Function.update f i v j) + f i = (∑ j, f j) + v := by
  rw [sum_update_of_mem (mem_univ i), sdiff_singleton_eq_erase, ← add_sum_erase univ f (mem_univ i)]
  omega

omit [DecidableEq ι] in
theorem le_sum (f : ι → ℕ) (i : ι) : f i ≤ ∑ j, f j :=
  single_le_sum (fun j _ => Nat.zero_le (f j)) (mem_univ i)

theorem add_le_sum (f : ι → ℕ) {i j : ι} (h : i ≠ j) : f i + f j ≤ ∑ k, f k := by
  rw [← sum_pair h]
  exact sum_le_sum_of_subset (subset_univ _)

/-! ## Sums over a list of keys -/

section Keys

variable {β M : Type} [DecidableEq β] [AddCommGroup M]

theorem sum_map_of_eq_off {l : List β} (hl : l.Nodup) {f g : β → M} {k : β}
    (hfg : ∀ x ∈ l, x ≠ k → g x = f x) :
    (l.map g).sum = (l.map f).sum + if k ∈ l then g k - f k else 0 := by
  induction l with
  | nil => simp
  | cons x xs ih =>
    obtain ⟨hx, hxs⟩ := List.nodup_cons.mp hl
    have ih := ih hxs (fun y hy hyk => hfg y (List.mem_cons_of_mem x hy) hyk)
    simp only [List.map_cons, List.sum_cons, ih, List.mem_cons]
    by_cases hxk : x = k
    · -- the changed key is the head, and so not in the tail
      subst hxk
      simp only [hx, if_false, true_or, if_true]
      abel
    · rw [hfg x List.mem_cons_self hxk]
      by_cases hk : k ∈ xs
      · simp only [hk, or_true, if_true]
        abel
      · simp only [hk, Ne.symm hxk, false_or, if_false]
        abel

theorem sum_keys_insert {α : Type} [DecidableEq α] {β : α → Type} (f : α → ℕ) (s : AList β) (a : α) (b : β a) :
    ((s.insert a b).keys.map f).sum = (s.keys.map f).sum + if a ∈ s then 0 else f a := by
  rw [AList.keys_insert]
  split
  · rename_i ha
    have hperm : s.keys.Perm (a :: s.keys.erase a) := List.perm_cons_erase (AList.mem_keys.mp ha)
    rw [(hperm.map f).sum_eq]
    simp
  · rename_i ha
    have herase : s.keys.erase a = s.keys := List.erase_of_not_mem (fun h => ha (AList.mem_keys.mpr h))
    rw [herase]
    simp [Nat.add_comm]

end Keys

end Serai.Lib
