import Mathlib
/-
  Serai.Lib.Interpolation — evaluating a polynomial by Horner's rule, and interpolating it
  at zero from its values, with coefficients in a module.

  Horner's rule over the coefficients `c 0, …, c (t-1)`, read from the highest, computes
  `∑_{k < t} c k · x^k` (`foldl_horner`).

  The coefficient of the node `x i` among the nodes `s`, evaluated at zero, is
  `∏_{j ∈ s, j ≠ i} x j / (x j - x i)` (`lagrangeAtZero`): the value at zero of Mathlib's
  Lagrange basis polynomial (`eval_basis_zero`). For nodes distinct on `s` and `k < |s|`,
  `∑_{i ∈ s} λ_i · (x i)^k = 0^k` (`sum_lagrangeAtZero_mul_pow`), since interpolating
  `X^k` on `s` gives `X^k` back. So in any module, interpolating at zero the values
  `∑_{k < t} (x i)^k • A k` of a polynomial with coefficients `A k` in the module, over
  at least `t` nodes, gives `A 0` (`sum_lagrangeAtZero_smul`).
-/

namespace Serai.Lib

open Polynomial Finset

variable {F ι : Type*} [Field F] [DecidableEq ι]

/-! ## Horner's rule -/

theorem foldl_horner (x a : F) (c : ℕ → F) (t : ℕ) :
    ((List.range t).map c).reverse.foldl (fun s ck => s * x + ck) a =
      a * x ^ t + ∑ k ∈ range t, c k * x ^ k := by
  induction t generalizing a with
  | zero => simp
  | succ t ih =>
    -- the highest coefficient comes first
    rw [List.range_succ, List.map_append, List.reverse_append]
    simp only [List.map_cons, List.map_nil, List.reverse_cons, List.reverse_nil, List.nil_append,
      List.singleton_append, List.foldl_cons]
    rw [ih, sum_range_succ]
    ring

/-! ## Lagrange coefficients at zero -/

/-- The Lagrange coefficient of the node `x i` among the nodes `s`, at zero. -/
def lagrangeAtZero (s : Finset ι) (x : ι → F) (i : ι) : F :=
  ∏ j ∈ s.erase i, x j / (x j - x i)

theorem eval_basis_zero (s : Finset ι) (x : ι → F) (i : ι) :
    (Lagrange.basis s x i).eval 0 = lagrangeAtZero s x i := by
  unfold Lagrange.basis lagrangeAtZero
  rw [eval_prod]
  refine prod_congr rfl fun j _ => ?_
  simp only [Lagrange.basisDivisor, eval_mul, eval_C, eval_sub, eval_X, zero_sub]
  rw [show x j - x i = -(x i - x j) by ring, div_neg, div_eq_inv_mul, mul_neg]

theorem sum_lagrangeAtZero_mul_pow {s : Finset ι} {x : ι → F} (hx : Set.InjOn x s) {k : ℕ}
    (hk : k < s.card) : ∑ i ∈ s, lagrangeAtZero s x i * x i ^ k = 0 ^ k := by
  have hdeg : (X ^ k : F[X]).degree < s.card := by
    rw [degree_X_pow]
    exact_mod_cast hk
  -- evaluate the interpolation of `X ^ k` at zero
  have h := congrArg (eval 0) (Lagrange.eq_interpolate hx hdeg)
  rw [Lagrange.interpolate_apply, eval_finsetSum] at h
  simp only [eval_pow, eval_X, eval_mul, eval_C, eval_basis_zero] at h
  rw [h]
  exact sum_congr rfl fun i _ => mul_comm _ _

variable {M : Type*} [AddCommGroup M] [Module F M]

theorem sum_lagrangeAtZero_smul {s : Finset ι} {x : ι → F} (hx : Set.InjOn x s) {t : ℕ} (ht : 0 < t)
    (hts : t ≤ s.card) (A : ℕ → M) :
    ∑ i ∈ s, lagrangeAtZero s x i • ∑ k ∈ range t, x i ^ k • A k = A 0 := by
  calc ∑ i ∈ s, lagrangeAtZero s x i • ∑ k ∈ range t, x i ^ k • A k
      = ∑ k ∈ range t, (∑ i ∈ s, lagrangeAtZero s x i * x i ^ k) • A k := by
        simp only [smul_sum, smul_smul, sum_smul]
        exact sum_comm
    _ = ∑ k ∈ range t, (0 : F) ^ k • A k := by
        refine sum_congr rfl fun k hk => ?_
        rw [sum_lagrangeAtZero_mul_pow hx (lt_of_lt_of_le (mem_range.mp hk) hts)]
    _ = A 0 := by
        rw [sum_eq_single_of_mem 0 (mem_range.mpr ht) fun k _ hk => by simp [zero_pow hk]]
        simp

end Serai.Lib
