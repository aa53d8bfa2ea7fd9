import Mathlib
/-
  Serai.Lib.PrefixCode — codes read from the front.

  A code is prefix-free on the words satisfying `p` when a codeword followed by anything
  determines both the word and what follows it. Such a code's concatenations decode in one
  way only.
  - `prefixFreeOn_lengthPrefixed`: a word written after a fixed-width header of its length
    is prefix-free, as long as the header tells the lengths apart.
  - `PrefixFreeOn.flatMap_append_inj`: words of one code written one after the other, then
    one word of a second code, are determined by the bytes when the two codes together are
    prefix-free.
-/

namespace Serai.Lib

variable {α γ β : Type*}

/-- On the words satisfying `p`, a codeword followed by anything determines both. -/
def PrefixFreeOn (p : α → Prop) (enc : α → List β) : Prop :=
  ∀ ⦃a b : α⦄ ⦃r s : List β⦄, p a → p b → enc a ++ r = enc b ++ s → a = b ∧ r = s

theorem prefixFreeOn_lengthPrefixed {hdr : ℕ → List β} {w N : ℕ} (hw : ∀ n, (hdr n).length = w)
    (hinj : Set.InjOn hdr (Set.Iio N)) :
    PrefixFreeOn (fun v : List β => v.length < N) (fun v => hdr v.length ++ v) := by
  intro a b r s ha hb h
  simp only [List.append_assoc] at h
  obtain ⟨hhdr, hrest⟩ := List.append_inj h (by rw [hw, hw])
  have hlen : a.length = b.length := hinj ha hb hhdr
  exact List.append_inj hrest hlen

theorem PrefixFreeOn.flatMap_append_inj {p : α → Prop} {q : γ → Prop} {enc : α → List β}
    {fin : γ → List β} (h : PrefixFreeOn (Sum.elim p q) (Sum.elim enc fin)) :
    ∀ {l₁ l₂ : List α} {x y : γ}, (∀ a ∈ l₁, p a) → (∀ a ∈ l₂, p a) → q x → q y →
      l₁.flatMap enc ++ fin x = l₂.flatMap enc ++ fin y → l₁ = l₂ ∧ x = y := by
  intro l₁
  induction l₁ with
  | nil =>
    intro l₂ x y _ h₂ hx hy heq
    cases l₂ with
    | nil =>
      obtain ⟨hxy, -⟩ := h (a := .inr x) (b := .inr y) (r := []) (s := []) hx hy (by simpa using heq)
      exact ⟨rfl, Sum.inr_injective hxy⟩
    | cons b l₂ =>
      have heq' : fin x ++ [] = enc b ++ (l₂.flatMap enc ++ fin y) := by simpa using heq
      exact absurd (h (a := .inr x) (b := .inl b) hx (h₂ b (by simp)) heq').1 Sum.inr_ne_inl
  | cons a l₁ ih =>
    intro l₂ x y h₁ h₂ hx hy heq
    cases l₂ with
    | nil =>
      have heq' : enc a ++ (l₁.flatMap enc ++ fin x) = fin y ++ [] := by simpa using heq
      exact absurd (h (a := .inl a) (b := .inr y) (h₁ a (by simp)) hy heq').1 Sum.inl_ne_inr
    | cons b l₂ =>
      have heq' : enc a ++ (l₁.flatMap enc ++ fin x) = enc b ++ (l₂.flatMap enc ++ fin y) := by
        simpa using heq
      obtain ⟨hab, hrest⟩ := h (a := .inl a) (b := .inl b) (h₁ a (by simp)) (h₂ b (by simp)) heq'
      obtain ⟨hl, hxy⟩ := ih (fun c hc => h₁ c (by simp [hc])) (fun c hc => h₂ c (by simp [hc])) hx hy hrest
      exact ⟨by rw [Sum.inl_injective hab, hl], hxy⟩

end Serai.Lib
