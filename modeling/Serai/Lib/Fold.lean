import Mathlib
/-
  Serai.Lib.Fold — folds that keep the best item seen.

  A binary operation that returns one of its arguments (`max` on machine integers) folded
  over the items a test selects ends at its start or at the value of a selected item
  (`foldl_select_cases`).
-/

namespace Serai.Lib

variable {α β : Type}

theorem foldl_select_cases (m : β → β → β) (hm : ∀ x y, m x y = x ∨ m x y = y) (p : α → Bool) (f : α → β)
    (l : List α) (b : β) :
    l.foldl (fun acc a => if p a then m acc (f a) else acc) b = b ∨
      ∃ a ∈ l, p a = true ∧ l.foldl (fun acc a => if p a then m acc (f a) else acc) b = f a := by
  induction l generalizing b with
  | nil => exact .inl rfl
  | cons x xs ih =>
    simp only [List.foldl_cons, List.mem_cons]
    -- the accumulator after `x` is `b` or `f x`; the rest of the fold starts there
    have hx : (if p x then m b (f x) else b) = b ∨ (p x = true ∧ (if p x then m b (f x) else b) = f x) := by
      by_cases hp : p x
      · rcases hm b (f x) with h | h
        · exact .inl (by rw [if_pos hp, h])
        · exact .inr ⟨hp, by rw [if_pos hp, h]⟩
      · exact .inl (by rw [if_neg hp])
    rcases ih (if p x then m b (f x) else b) with h | ⟨a, ha, hpa, h⟩
    · rcases hx with hb | ⟨hp, hfx⟩
      · exact .inl (h.trans hb)
      · exact .inr ⟨x, .inl rfl, hp, h.trans hfx⟩
    · exact .inr ⟨a, .inr ha, hpa, h⟩

end Serai.Lib
