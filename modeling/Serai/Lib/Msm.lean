import Mathlib
/-
  Serai.Lib.Msm — the arithmetic of windowed multi-scalar multiplication in an additive
  monoid: scalars cut into digits base `2^w`, Horner's rule over the digit positions, and
  buckets summed with running sums.

  - Digits. Or-ing `c` into a number below `2^t` at position `t` adds `c * 2^t`
    (`or_shiftLeft_eq_add`); adding to one digit adds its weight to the value
    (`ofDigits_modify_add`), and a digit times its weight is at most the value
    (`getD_mul_pow_le_ofDigits`).
  - Horner. Doubling `w` times is multiplying by `2^w` (`iterate_double`), also with `None`
    standing for zero (`getD_iterate_map`). A loop over the
    digit positions from the highest, each round multiplying by the base and adding each
    term's digit times its point, computes `∑ ofDigits digits • point`
    (`foldl_horner_digits`); skipping the multiplication in its first round changes nothing,
    as the loop starts at zero (`foldl_skip_first`).
  - Buckets. Adding a point to bucket `d` adds `d • point` to the weighted sum
    `∑ k • bucket k` (`weightedSum_foldl_modify`), and the running sums taken from the
    highest bucket down to bucket `1` add up to it (`foldl_runningSum`).
  - Folds: a fold adding `f x` adds the sum of the `f x` (`foldl_add_eq_add_sum`); a fold
    whose steps a map carries to another fold's, on the items folded, is carried to it
    (`foldl_hom_of_mem`).
-/

namespace Serai.Lib

open Finset

variable {M : Type*} [AddCommMonoid M]

/-! ## Folds -/

theorem foldl_add_eq_add_sum {α : Type*} (f : α → M) (l : List α) (r : M) :
    l.foldl (fun r x => r + f x) r = r + (l.map f).sum := by
  induction l generalizing r with
  | nil => simp
  | cons x l ih => rw [List.foldl_cons, ih, List.map_cons, List.sum_cons, add_assoc]

theorem foldl_hom_of_mem {α β γ : Type*} (f : α → β) {g₁ : α → γ → α} {g₂ : β → γ → β} {l : List γ}
    (h : ∀ x, ∀ y ∈ l, g₂ (f x) y = f (g₁ x y)) (init : α) :
    l.foldl g₂ (f init) = f (l.foldl g₁ init) := by
  induction l generalizing init with
  | nil => rfl
  | cons y l ih =>
    rw [List.foldl_cons, List.foldl_cons, h init y List.mem_cons_self]
    exact ih (fun x y' hy' => h x y' (List.mem_cons_of_mem _ hy')) _

theorem zip_map_self {α β : Type*} (g : α → β) (l : List α) : (l.map g).zip l = l.map fun a => (g a, a) := by
  induction l with
  | nil => rfl
  | cons a l ih => rw [List.map_cons, List.zip_cons_cons, ih, List.map_cons]

theorem mem_modify {α : Type*} {l : List α} {j : ℕ} {f : α → α} {d : α} (h : d ∈ l.modify j f) :
    d ∈ l ∨ ∃ hj : j < l.length, d = f l[j] := by
  obtain ⟨i, hi, rfl⟩ := List.mem_iff_getElem.mp h
  rw [List.getElem_modify]
  split_ifs with hji
  · subst hji
    exact .inr ⟨by simpa using hi, rfl⟩
  · exact .inl (List.getElem_mem _)

theorem map_modify {α β : Type*} (g : α → β) {f : α → α} {e : β → β} (hf : ∀ x, g (f x) = e (g x)) (l : List α)
    (j : ℕ) : (l.modify j f).map g = (l.map g).modify j e := by
  refine List.ext_getElem (by simp) fun i h₁ h₂ => ?_
  rw [List.getElem_map, List.getElem_modify, List.getElem_modify, List.getElem_map]
  split_ifs <;> simp [hf]

/-! ## Digits -/

theorem or_shiftLeft_eq_add {x t : ℕ} (c : ℕ) (h : x < 2 ^ t) : x ||| c <<< t = x + c * 2 ^ t := by
  rw [Nat.shiftLeft_eq, Nat.or_comm, mul_comm, ← Nat.two_pow_add_eq_or_of_lt h, add_comm]

theorem ofDigits_modify_add (b : ℕ) {l : List ℕ} {j : ℕ} (c : ℕ) (hj : j < l.length) :
    Nat.ofDigits b (l.modify j (· + c)) = Nat.ofDigits b l + c * b ^ j := by
  induction l generalizing j with
  | nil => simp at hj
  | cons d l ih =>
    cases j with
    | zero =>
      rw [List.modify_zero_cons, Nat.ofDigits_cons, Nat.ofDigits_cons, pow_zero, mul_one]
      omega
    | succ j =>
      rw [List.modify_succ_cons, Nat.ofDigits_cons, Nat.ofDigits_cons, ih (by simpa using hj), pow_succ]
      ring

theorem getD_mul_pow_le_ofDigits (b : ℕ) (l : List ℕ) (j : ℕ) : l.getD j 0 * b ^ j ≤ Nat.ofDigits b l := by
  induction l generalizing j with
  | nil => simp
  | cons d l ih =>
    cases j with
    | zero => simp [Nat.ofDigits_cons]
    | succ j =>
      rw [List.getD_cons_succ, Nat.ofDigits_cons]
      calc l.getD j 0 * b ^ (j + 1) = b * (l.getD j 0 * b ^ j) := by ring
        _ ≤ b * Nat.ofDigits b l := Nat.mul_le_mul_left b (ih j)
        _ ≤ d + b * Nat.ofDigits b l := Nat.le_add_left _ _

theorem getD_lt_of_ofDigits_lt {w k : ℕ} {l : List ℕ} (h : Nat.ofDigits (2 ^ w) l < 2 ^ k) :
    l.getD (k / w) 0 < 2 ^ (k % w) := by
  have hle := getD_mul_pow_le_ofDigits (2 ^ w) l (k / w)
  rw [← pow_mul] at hle
  have hk : 2 ^ k = 2 ^ (k % w) * 2 ^ (w * (k / w)) := by rw [← pow_add, Nat.mod_add_div]
  exact Nat.lt_of_mul_lt_mul_right (hle.trans_lt (hk ▸ h))

theorem modify_or_eq_modify_add {l : List ℕ} {j t : ℕ} (c : ℕ) (h : l.getD j 0 < 2 ^ t) :
    l.modify j (· ||| c <<< t) = l.modify j (· + c * 2 ^ t) := by
  refine List.ext_getElem (by simp) fun i h₁ h₂ => ?_
  rw [List.getElem_modify, List.getElem_modify]
  split_ifs with hji
  · subst hji
    rw [List.getD_eq_getElem _ _ (by simpa using h₁)] at h
    exact or_shiftLeft_eq_add c h
  · rfl

/-! ## Horner's rule over the digit positions -/

theorem iterate_double (n : ℕ) (x : M) : (fun y => y + y)^[n] x = 2 ^ n • x := by
  induction n with
  | zero => simp
  | succ n ih => rw [Function.iterate_succ_apply', ih, ← two_nsmul, ← mul_nsmul', pow_succ']

theorem getD_iterate_map {f : M → M} (hf : f 0 = 0) (n : ℕ) (o : Option M) :
    ((Option.map f)^[n] o).getD 0 = f^[n] (o.getD 0) := by
  induction n with
  | zero => rfl
  | succ n ih =>
    rw [Function.iterate_succ_apply', Function.iterate_succ_apply', ← ih]
    cases (Option.map f)^[n] o with
    | none => exact hf.symm
    | some x => rfl

theorem foldl_skip_first (f : M → M) (hf : f 0 = 0) (c : ℕ → M) (n : ℕ) :
    (List.range n).reverse.foldl (fun r b => (if b ≠ n - 1 then f r else r) + c b) 0 =
      (List.range n).reverse.foldl (fun r b => f r + c b) 0 := by
  cases n with
  | zero => rfl
  | succ n =>
    rw [List.range_succ, List.reverse_append, List.reverse_singleton, List.singleton_append, List.foldl_cons,
      List.foldl_cons, Nat.add_sub_cancel, if_neg (not_not.mpr rfl), hf]
    refine List.foldl_ext _ _ _ fun r b hb => ?_
    rw [List.mem_reverse, List.mem_range] at hb
    rw [if_pos (by omega)]

theorem ofDigits_drop_smul (B : ℕ) {l : List ℕ} {k : ℕ} (hk : k < l.length) (P : M) :
    B • (Nat.ofDigits B (l.drop (k + 1)) • P) + l.getD k 0 • P = Nat.ofDigits B (l.drop k) • P := by
  rw [List.drop_eq_getElem_cons hk, Nat.ofDigits_cons, List.getD_eq_getElem _ _ hk, add_smul, mul_smul,
    add_comm]

theorem foldl_horner_digits (B n : ℕ) (terms : List (List ℕ × M)) (hlen : ∀ t ∈ terms, t.1.length = n) :
    (List.range n).reverse.foldl (fun r b => B • r + (terms.map fun t => t.1.getD b 0 • t.2).sum) 0 =
      (terms.map fun t => Nat.ofDigits B t.1 • t.2).sum := by
  -- the loop has read the positions from `k` up: the terms' digits from `k` up, in value
  have key : ∀ k ≤ n, (List.range k).reverse.foldl
      (fun r b => B • r + (terms.map fun t => t.1.getD b 0 • t.2).sum)
      (terms.map fun t => Nat.ofDigits B (t.1.drop k) • t.2).sum =
        (terms.map fun t => Nat.ofDigits B t.1 • t.2).sum := by
    intro k
    induction k with
    | zero => intro _; simp
    | succ k ih =>
      intro hk
      rw [List.range_succ, List.reverse_append, List.reverse_singleton, List.singleton_append,
        List.foldl_cons, ← ih (by omega), List.smul_sum, List.map_map, ← List.sum_map_add]
      congr 2
      refine List.map_congr_left fun t ht => ?_
      exact ofDigits_drop_smul B (by rw [hlen t ht]; omega) t.2
  have hzero : (terms.map fun t => Nat.ofDigits B (t.1.drop n) • t.2).sum = 0 := by
    refine List.sum_eq_zero fun x hx => ?_
    obtain ⟨t, ht, rfl⟩ := List.mem_map.mp hx
    rw [List.drop_of_length_le (hlen t ht).le, Nat.ofDigits_nil, zero_smul]
  rw [← key n le_rfl, hzero]

/-! ## Buckets -/

/-- The buckets weighed by their index: `∑ k • bucket k`. -/
def weightedSum (l : List M) : M := ∑ k ∈ range l.length, k • l.getD k 0

theorem weightedSum_replicate_zero (n : ℕ) : weightedSum (List.replicate n (0 : M)) = 0 := by
  refine sum_eq_zero fun k _ => ?_
  rw [List.getD_eq_getElem?_getD, List.getElem?_replicate]
  split <;> simp

theorem weightedSum_modify_add (l : List M) {d : ℕ} (P : M) (hd : d < l.length) :
    weightedSum (l.modify d (· + P)) = weightedSum l + d • P := by
  have h : ∀ k ∈ range l.length, k • (l.modify d (· + P)).getD k 0 = k • l.getD k 0 + if d = k then d • P else 0 := by
    intro k hk
    rw [mem_range] at hk
    rw [List.getD_eq_getElem _ _ (by simpa using hk), List.getElem_modify, List.getD_eq_getElem _ _ hk]
    split_ifs with hdk
    · rw [hdk, smul_add]
    · rw [add_zero]
  rw [weightedSum, List.length_modify, sum_congr rfl h, sum_add_distrib, sum_ite_eq, if_pos (mem_range.mpr hd),
    weightedSum]

theorem weightedSum_foldl_modify (terms : List (ℕ × M)) (l : List M) (h : ∀ t ∈ terms, t.1 < l.length) :
    weightedSum (terms.foldl (fun bk t => bk.modify t.1 (· + t.2)) l) =
      weightedSum l + (terms.map fun t => t.1 • t.2).sum := by
  induction terms generalizing l with
  | nil => simp
  | cons t terms ih =>
    have ht := h t List.mem_cons_self
    rw [List.foldl_cons, ih _ fun t' ht' => by rw [List.length_modify]; exact h t' (List.mem_cons_of_mem _ ht'),
      weightedSum_modify_add l t.2 ht, List.map_cons, List.sum_cons, add_assoc]

theorem foldr_runningSum (x : ℕ → M) (k : ℕ) (s r : M) :
    (List.range k).foldr (fun i acc => (acc.1 + x i, acc.2 + (acc.1 + x i))) (s, r) =
      (s + ∑ i ∈ range k, x i, r + k • s + ∑ i ∈ range k, (i + 1) • x i) := by
  induction k generalizing s r with
  | zero => simp
  | succ k ih =>
    rw [List.range_succ, List.foldr_append, List.foldr_cons, List.foldr_nil, ih, sum_range_succ, sum_range_succ]
    ext
    · dsimp only
      abel
    · dsimp only
      simp only [smul_add, add_smul, one_smul]
      abel

theorem foldl_runningSum (l : List M) (r : M) :
    ((List.range' 1 (l.length - 1)).reverse.foldl (fun acc b => (acc.1 + l.getD b 0, acc.2 + (acc.1 + l.getD b 0)))
      (0, r)).2 = r + weightedSum l := by
  rw [List.foldl_reverse, List.range'_eq_map_range, List.foldr_map, foldr_runningSum fun i => l.getD (1 + i) 0]
  dsimp only
  rw [smul_zero, add_zero, weightedSum]
  congr 1
  -- bucket `0` weighs nothing
  cases h : l.length with
  | zero => simp
  | succ n =>
    rw [Nat.add_sub_cancel, sum_range_succ' _ n, zero_smul, add_zero]
    exact sum_congr rfl fun i _ => by rw [Nat.add_comm 1 i]

end Serai.Lib
