import Mathlib
/-
  Serai.Lib.FourthRoots — the fourth roots of unity of a field with a square root of `-1`,
  and Euler's criterion read through a quarter power.

  In a field with `i ^ 2 = -1` and `2 ≠ 0`:
  - `eq_one_or_neg_one_of_sq_eq_one`, `eq_or_eq_neg_of_sq_eq_neg_one`: an element squaring to
    `1` is `±1`, one squaring to `-1` is `±i`;
  - `select_fourthRoot`: given `c = u ζ` for such a `ζ` and `u ≠ 0`, the tests `c = u`,
    `c = -u` and `c = -u i` read `ζ`: the first two hold exactly when `ζ² = 1`, and negating
    `c` when either of the last two holds gives `u` when `ζ² = 1` and `i u` when not. This is
    the selection of RFC 8032's and Ristretto's square roots of a ratio.
  In `ZMod p`, `p` prime, a quarter power whose double is Euler's exponent squares to `1` on
  the nonzero squares and to `-1` on the rest (`quarter_pow_sq_cases`), and multiplying by a
  nonzero square keeps squareness (`isSquare_mul_sq_iff`).
-/

namespace Serai.Lib

section FourthRoots

variable {K : Type*} [Field K] {i : K}

theorem mul_sq_of_sq_eq_neg_one (hi : i ^ 2 = -1) (a : K) : (a * i) ^ 2 = -a ^ 2 := by
  rw [mul_pow, hi, mul_neg_one]

theorem neg_ne_self_of_ne_zero (h2 : (2 : K) ≠ 0) {x : K} (hx : x ≠ 0) : -x ≠ x := by
  intro h
  have htwice : 2 * x = 0 := by linear_combination -h
  exact hx ((mul_eq_zero.mp htwice).resolve_left h2)

theorem eq_one_or_neg_one_of_sq_eq_one {ζ : K} (h : ζ ^ 2 = 1) : ζ = 1 ∨ ζ = -1 := by
  have hsq : ζ ^ 2 = 1 ^ 2 := by rw [h, one_pow]
  exact sq_eq_sq_iff_eq_or_eq_neg.mp hsq

theorem eq_or_eq_neg_of_sq_eq_neg_one (hi : i ^ 2 = -1) {ζ : K} (h : ζ ^ 2 = -1) : ζ = i ∨ ζ = -i :=
  sq_eq_sq_iff_eq_or_eq_neg.mp (h.trans hi.symm)

theorem fourthRoots_ne (hi : i ^ 2 = -1) (h2 : (2 : K) ≠ 0) :
    i ^ 2 ≠ 1 ∧ (1 : K) ≠ -1 ∧ (1 : K) ≠ -i ∧ i ≠ 1 ∧ i ≠ -1 ∧ i ≠ -i ∧ -i ≠ 1 ∧ -i ≠ (-1 : K) := by
  have hone : (1 : K) ≠ -1 := (neg_ne_self_of_ne_zero h2 one_ne_zero).symm
  have hi0 : i ≠ 0 := by
    rintro rfl
    simp at hi
  have hi1 : i ≠ 1 := by
    rintro rfl
    rw [one_pow] at hi
    exact hone hi
  have hin1 : i ≠ -1 := by
    rintro rfl
    rw [neg_one_sq] at hi
    exact hone hi
  refine ⟨fun h => hone (h.symm.trans hi), hone, fun h => hin1 ?_, hi1, hin1,
    (neg_ne_self_of_ne_zero h2 hi0).symm, fun h => hin1 ?_, fun h => hi1 (neg_inj.mp h)⟩
  · rw [h, neg_neg]
  · rw [← h, neg_neg]

variable [DecidableEq K]

theorem select_fourthRoot (hi : i ^ 2 = -1) (h2 : (2 : K) ≠ 0) {u ζ : K} (hu : u ≠ 0)
    (hζ : ζ = 1 ∨ ζ = -1 ∨ ζ = i ∨ ζ = -i) :
    ((decide (u * ζ = u) || decide (u * ζ = -u)) = true ↔ ζ ^ 2 = 1) ∧
      (ζ ^ 2 = 1 → (if (decide (u * ζ = -u) || decide (u * ζ = -u * i)) = true then -(u * ζ) else u * ζ) = u) ∧
      (ζ ^ 2 ≠ 1 → (if (decide (u * ζ = -u) || decide (u * ζ = -u * i)) = true then -(u * ζ) else u * ζ) = i * u) := by
  obtain ⟨hsq, hone, hone_i, hi1, hin1, hi_neg, hneg_i1, hneg_in1⟩ := fourthRoots_ne hi h2
  -- every test is `u ζ = u a` for a fourth root `a`, which cancels to `ζ = a`
  have hcancel : ∀ a : K, u * ζ = u * a ↔ ζ = a := fun a => mul_right_inj' hu
  have hc1 : u * ζ = u ↔ ζ = 1 := by rw [← hcancel, mul_one]
  have hcm1 : u * ζ = -u ↔ ζ = -1 := by rw [← hcancel, mul_neg_one]
  have hcmi : u * ζ = -u * i ↔ ζ = -i := by rw [← hcancel, neg_mul_comm]
  simp only [hc1, hcm1, hcmi]
  rcases hζ with rfl | rfl | rfl | rfl
  · simp [hone, hone_i]
  · simp
  · simp [hsq, hi1, hin1, hi_neg, mul_comm]
  · simp [hsq, hneg_i1, hneg_in1, mul_comm]

end FourthRoots

section Euler

variable {p : ℕ} [Fact p.Prime]

theorem isSquare_mul_sq_iff {a b : ZMod p} (hb : b ≠ 0) : IsSquare (a * b ^ 2) ↔ IsSquare a := by
  constructor
  · intro h
    have hdiv : a * b ^ 2 / b ^ 2 = a := mul_div_cancel_right₀ a (pow_ne_zero 2 hb)
    rw [← hdiv]
    exact h.div (IsSquare.sq b)
  · intro h
    exact h.mul (IsSquare.sq b)

theorem quarter_pow_sq_cases (hp : p ≠ 2) {q : ℕ} (hq : q * 2 = p / 2) {x : ZMod p} (hx : x ≠ 0) :
    (IsSquare x ∧ (x ^ q) ^ 2 = 1) ∨ (¬ IsSquare x ∧ (x ^ q) ^ 2 = -1) := by
  have h2 : (2 : ZMod p) ≠ 0 := Ring.two_ne_zero (by rwa [ZMod.ringChar_zmod_n])
  have hneg : (-1 : ZMod p) ≠ 1 := neg_ne_self_of_ne_zero h2 one_ne_zero
  rw [← pow_mul, hq]
  rcases ZMod.pow_div_two_eq_neg_one_or_one p hx with h | h
  · exact Or.inl ⟨(ZMod.euler_criterion p hx).mpr h, h⟩
  · exact Or.inr ⟨fun hsq => hneg (h.symm.trans ((ZMod.euler_criterion p hx).mp hsq)), h⟩

end Euler

end Serai.Lib
