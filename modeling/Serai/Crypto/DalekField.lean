import Mathlib
import Serai.Crypto.Ladder
import Serai.Lib.Pratt
import Serai.Lib.FourthRoots
import Serai.Monero.Seed
/-
  Serai.Crypto.DalekField — square roots and encodings of dalek-ff-group's field
  (crypto/dalek-ff-group/src/field.rs): `SQRT_M1`, `MOD_3_8`, `MOD_5_8`, `FieldElement::sqrt`
  (RFC 8032's `sqrt8k5`), `sqrt_ratio_i`, `from_repr`, `to_repr` and `is_odd`.

  The field is `ZMod (2 ^ 255 - 19)`, a field as the modulus is prime (`modulus_prime`, by a
  Pratt certificate). The powers are taken with the code's own `pow` (`FieldElement.pow`, the
  fixed-window ladder, `x ^ e.val`). As `p ≡ 5 (mod 8)`, `2` is not a square, so
  `SQRT_M1 = 2 ^ ((p - 1) / 4)` squares to `-1` (`sqrtM1_sq`), and for `x ≠ 0` the power
  `x ^ ((p - 1) / 4)` is a fourth root of unity whose square is `x`'s Legendre symbol
  (`fourthRoot_cases`).

  - `sqrtRatioI`: its candidate `r` has `v r² = u ζ` with `ζ = (u v⁷) ^ ((p - 1) / 4)`
    (`v_mul_candidate_sq`). Of `ζ = 1, -1, i, -i`, the first two (`u / v` a square) give
    `(true, r)` with `v r² = u`, after `r := r i` for `-1`; the last two give `(false, r)`
    with `v r² = i u`, after `r := r i` for `-i` (`sqrtRatioI_of_ne_zero`, the selection being
    `Serai.Lib.select_fourthRoot`). With `u = 0` the result is `(true, 0)`; with `v = 0` and
    `u ≠ 0` it is `(false, 0)`. The root returned is the even one (`isOdd_sqrtRatioI`).
  - `FieldElement.sqrt x` is some root of `x` exactly when `x` is a square.
  - `fromRepr` accepts the values below the modulus, and `toRepr` writes them back
    (`toRepr_of_fromRepr`, `fromRepr_toRepr`).
  `curve25519_field_square_roots` is the three.

  `sqrtM1` is kept out of `ring`'s goals: with the field instance in scope, the kernel would
  check such a proof by evaluating `2 ^ ((p - 1) / 4)`. Its algebra is done over any `i` with
  `i ^ 2 = -1` in `Serai.Lib.FourthRoots` and applied here.
-/

namespace Serai.Crypto.Dalek

open Serai.Lib.Pratt
open Serai.Lib (mul_sq_of_sq_eq_neg_one neg_ne_self_of_ne_zero eq_one_or_neg_one_of_sq_eq_one
  eq_or_eq_neg_of_sq_eq_neg_one select_fourthRoot isSquare_mul_sq_iff quarter_pow_sq_cases)
open Serai.Monero (leValue leBytes leValue_leBytes leBytes_leValue)

/-! ## The modulus is prime -/

/-- The last entry of the certificate: `p - 1 = 2² · 3 · 65147 · q`. -/
def modulusEntry : Entry :=
  ⟨57896044618658097711785492504343953926634992332820282019728792003956564819949, 2,
    [2, 2, 3, 65147, 74058212732561358302231226437062788676166966415465897661863160754340907]⟩

/-- A Pratt certificate of `2 ^ 255 - 19`, each entry resting on earlier ones. -/
def modulusCertificate : List Entry := [
  ⟨2, 1, []⟩, ⟨3, 2, [2]⟩, ⟨17, 3, [2, 2, 2, 2]⟩, ⟨7, 3, [2, 3]⟩, ⟨239, 7, [2, 7, 17]⟩, ⟨479, 13, [2, 239]⟩,
  ⟨32573, 2, [2, 2, 17, 479]⟩, ⟨65147, 2, [2, 32573]⟩, ⟨5, 2, [2, 2]⟩, ⟨11, 2, [2, 5]⟩,
  ⟨353, 3, [2, 2, 2, 2, 2, 11]⟩, ⟨29, 2, [2, 2, 7]⟩, ⟨59, 2, [2, 29]⟩, ⟨487, 3, [2, 3, 3, 3, 3, 3]⟩,
  ⟨57467, 2, [2, 59, 487]⟩, ⟨13, 2, [2, 2, 3]⟩, ⟨131, 2, [2, 5, 13]⟩, ⟨132049, 26, [2, 2, 2, 2, 3, 3, 7, 131]⟩,
  ⟨43, 3, [2, 3, 7]⟩, ⟨23, 5, [2, 11]⟩, ⟨3727, 3, [2, 3, 3, 3, 3, 23]⟩, ⟨1923133, 2, [2, 2, 3, 43, 3727]⟩,
  ⟨31, 3, [2, 3, 5]⟩, ⟨53, 2, [2, 2, 13]⟩, ⟨107, 2, [2, 53]⟩, ⟨37, 2, [2, 2, 3, 3]⟩, ⟨223, 3, [2, 3, 37]⟩,
  ⟨173, 2, [2, 2, 43]⟩, ⟨4153, 5, [2, 2, 2, 3, 173]⟩, ⟨41, 6, [2, 2, 2, 5]⟩, ⟨1723, 3, [2, 3, 7, 41]⟩,
  ⟨430751, 17, [2, 5, 5, 5, 1723]⟩, ⟨31757755568855353, 10, [2, 2, 2, 3, 31, 107, 223, 4153, 430751]⟩,
  ⟨19, 2, [2, 3, 3]⟩, ⟨83, 2, [2, 41]⟩, ⟨9463, 3, [2, 3, 19, 83]⟩, ⟨37853, 2, [2, 2, 9463]⟩,
  ⟨75707, 2, [2, 37853]⟩, ⟨2437, 2, [2, 2, 3, 7, 29]⟩, ⟨97, 5, [2, 2, 2, 2, 2, 3]⟩, ⟨419, 2, [2, 11, 19]⟩,
  ⟨569003, 2, [2, 7, 97, 419]⟩, ⟨2773320623, 5, [2, 2437, 569003]⟩, ⟨72106336199, 7, [2, 13, 2773320623]⟩,
  ⟨47, 5, [2, 23]⟩, ⟨127, 3, [2, 3, 3, 7]⟩, ⟨103, 5, [2, 3, 17]⟩, ⟨991, 6, [2, 3, 3, 5, 11]⟩,
  ⟨8574133, 2, [2, 2, 3, 7, 103, 991]⟩, ⟨1919519569386763, 2, [2, 3, 7, 19, 47, 47, 127, 8574133]⟩,
  ⟨75445702479781427272750846543864801, 7,
    [2, 2, 2, 2, 2, 3, 3, 5, 5, 75707, 72106336199, 1919519569386763]⟩,
  ⟨74058212732561358302231226437062788676166966415465897661863160754340907, 2,
    [2, 3, 353, 57467, 132049, 1923133, 31757755568855353, 75445702479781427272750846543864801]⟩,
  modulusEntry]

theorem modulus_prime : modulus.Prime := by
  have hcheck : check 256 [] modulusCertificate = true := by decide +kernel
  have hmodulus : modulus = modulusEntry.n := by decide
  have hmem : modulusEntry ∈ modulusCertificate := List.getLast_mem (List.cons_ne_nil _ _)
  rw [hmodulus]
  exact check_sound (fun _ h => absurd h List.not_mem_nil) hcheck _ hmem

scoped instance : Fact modulus.Prime := ⟨modulus_prime⟩

/-! ## The field's constants and operations -/

/-- `SQRT_M1`: `2 ^ ((MODULUS - 1) / 4)`. -/
def sqrtM1 : FieldElement := 2 ^ ((modulus - 1) / 4)

/-- `MOD_3_8`: `(MODULUS + 3) / 8`, as a field element. -/
def mod38 : FieldElement := ((modulus + 3) / 8 : ℕ)

/-- `MOD_5_8`: `MOD_3_8 - 1`. -/
def mod58 : FieldElement := mod38 - 1

/-- `is_odd`: the low bit of the canonical value. -/
def FieldElement.isOdd (x : FieldElement) : Bool := x.val % 2 == 1

/-- `FieldElement::sqrt`: `x ^ ((p + 3) / 8)`, times `SQRT_M1` when it does not square to `x`;
    the candidate is returned when it squares to `x`. -/
def FieldElement.sqrt (x : FieldElement) : Option FieldElement :=
  let tv1 := x.pow mod38
  let tv2 := tv1 * sqrtM1
  let candidate := if tv1 ^ 2 = x then tv1 else tv2
  if candidate ^ 2 = x then some candidate else none

/-- `FieldElement::sqrt_ratio_i`. -/
def sqrtRatioI (u v : FieldElement) : Bool × FieldElement :=
  let i := sqrtM1
  let v3 := v ^ 2 * v
  let v7 := v3 ^ 2 * v
  let r := u * v3 * (u * v7).pow mod58
  let check := v * r ^ 2
  let correctSign := decide (check = u)
  let negU := -u
  let flippedSign := decide (check = negU)
  let flippedSignI := decide (check = negU * i)
  let r := if flippedSign || flippedSignI then r * i else r
  -- the even root, per Ristretto
  let r := if r.isOdd then -r else r
  (correctSign || flippedSign, r)

/-- `from_repr`: the little-endian value, accepted when below the modulus. -/
def fromRepr (bytes : List UInt8) : Option FieldElement :=
  if leValue bytes < modulus then some (leValue bytes : FieldElement) else none

/-- `to_repr`: the canonical value's 32 little-endian bytes. -/
def toRepr (x : FieldElement) : List UInt8 := leBytes 32 x.val

/-! ## The modulus and the constants -/

theorem modulus_mod_eight : modulus % 8 = 5 := by decide

theorem modulus_ne_two : modulus ≠ 2 := by decide

theorem quarter_mul_two : (modulus - 1) / 4 * 2 = modulus / 2 := by decide

theorem two_mul_fifth_eighth : 2 * ((modulus - 5) / 8) + 1 = (modulus - 1) / 4 := by decide

theorem two_mul_third_eighth : 2 * ((modulus + 3) / 8) = (modulus - 1) / 4 + 1 := by decide

theorem mod38_val : mod38.val = (modulus + 3) / 8 :=
  ZMod.val_natCast_of_lt (by decide)

theorem mod58_val : mod58.val = (modulus - 5) / 8 := by
  have hcast : mod58 = (((modulus + 3) / 8 - 1 : ℕ) : FieldElement) := by
    rw [mod58, mod38, Nat.cast_sub (by decide), Nat.cast_one]
  rw [hcast, ZMod.val_natCast_of_lt (by decide)]
  decide

theorem two_ne_zero' : (2 : FieldElement) ≠ 0 := by
  intro h
  have hval := congrArg ZMod.val h
  rw [ZMod.val_two_eq_two_mod, ZMod.val_zero] at hval
  exact absurd hval (by decide)

theorem not_isSquare_two : ¬ IsSquare (2 : FieldElement) := by
  rw [ZMod.exists_sq_eq_two_iff modulus_ne_two, modulus_mod_eight]
  decide

theorem sqrtM1_sq : sqrtM1 ^ 2 = -1 := by
  have heuler : (2 : FieldElement) ^ (modulus / 2) = -1 :=
    (ZMod.pow_div_two_eq_neg_one_or_one modulus two_ne_zero').resolve_left fun h =>
      not_isSquare_two ((ZMod.euler_criterion modulus two_ne_zero').mpr h)
  rw [sqrtM1, ← pow_mul, quarter_mul_two, heuler]

theorem fourthRoot_cases {x : FieldElement} (hx : x ≠ 0) :
    (IsSquare x ∧ (x ^ ((modulus - 1) / 4) = 1 ∨ x ^ ((modulus - 1) / 4) = -1)) ∨
      (¬ IsSquare x ∧ (x ^ ((modulus - 1) / 4) = sqrtM1 ∨ x ^ ((modulus - 1) / 4) = -sqrtM1)) := by
  rcases quarter_pow_sq_cases modulus_ne_two quarter_mul_two hx with ⟨hsq, h⟩ | ⟨hsq, h⟩
  · exact Or.inl ⟨hsq, eq_one_or_neg_one_of_sq_eq_one h⟩
  · exact Or.inr ⟨hsq, eq_or_eq_neg_of_sq_eq_neg_one sqrtM1_sq h⟩

/-! ## `is_odd` and the even root -/

theorem isOdd_zero : (0 : FieldElement).isOdd = false := by
  simp [FieldElement.isOdd]

theorem isOdd_neg {x : FieldElement} (hx : x.isOdd = true) : (-x).isOdd = false := by
  have hx0 : x ≠ 0 := by
    rintro rfl
    rw [isOdd_zero] at hx
    exact Bool.false_ne_true hx
  simp only [FieldElement.isOdd, beq_iff_eq, beq_eq_false_iff_ne] at hx ⊢
  rw [ZMod.neg_val, if_neg hx0]
  have hlt := ZMod.val_lt x
  have hodd : modulus % 2 = 1 := by decide
  omega

theorem isOdd_condNeg (x : FieldElement) : (if x.isOdd = true then -x else x).isOdd = false := by
  cases hx : x.isOdd
  · rw [if_neg Bool.false_ne_true]
    exact hx
  · rw [if_pos rfl]
    exact isOdd_neg hx

theorem sq_condNeg (x : FieldElement) (b : Bool) : (if b = true then -x else x) ^ 2 = x ^ 2 := by
  split
  · exact neg_sq x
  · rfl

/-! ## `sqrt_ratio_i` -/

theorem v_mul_candidate_sq (u v : FieldElement) :
    v * (u * (v ^ 2 * v) * (u * ((v ^ 2 * v) ^ 2 * v)).pow mod58) ^ 2 =
      u * (u * ((v ^ 2 * v) ^ 2 * v)) ^ ((modulus - 1) / 4) := by
  rw [FieldElement.pow_eq, mod58_val, ← two_mul_fifth_eighth]
  ring

theorem isSquare_mul_v7_iff {u v : FieldElement} (hv : v ≠ 0) :
    IsSquare (u * ((v ^ 2 * v) ^ 2 * v)) ↔ IsSquare (u / v) := by
  have hsplit : u * ((v ^ 2 * v) ^ 2 * v) = u / v * (v ^ 4) ^ 2 := by
    field_simp
  rw [hsplit, isSquare_mul_sq_iff (pow_ne_zero 4 hv)]

theorem v_mul_flip_sq (v r : FieldElement) (b : Bool) :
    v * (if b = true then r * sqrtM1 else r) ^ 2 = if b = true then -(v * r ^ 2) else v * r ^ 2 := by
  split
  · rw [mul_sq_of_sq_eq_neg_one sqrtM1_sq, mul_neg]
  · rfl

theorem isOdd_sqrtRatioI (u v : FieldElement) : (sqrtRatioI u v).2.isOdd = false := by
  simp only [sqrtRatioI]
  exact isOdd_condNeg _

theorem sqrtRatioI_zero_left (v : FieldElement) : sqrtRatioI 0 v = (true, 0) := by
  simp [sqrtRatioI, isOdd_zero]

theorem sqrtRatioI_zero_right {u : FieldElement} (hu : u ≠ 0) : sqrtRatioI u 0 = (false, 0) := by
  simp [sqrtRatioI, isOdd_zero, hu, Ne.symm hu]

theorem sqrtRatioI_of_ne_zero {u v : FieldElement} (hu : u ≠ 0) (hv : v ≠ 0) :
    ((sqrtRatioI u v).1 = true ↔ IsSquare (u / v)) ∧
      (IsSquare (u / v) → v * (sqrtRatioI u v).2 ^ 2 = u) ∧
      (¬ IsSquare (u / v) → v * (sqrtRatioI u v).2 ^ 2 = sqrtM1 * u) := by
  have hw : u * ((v ^ 2 * v) ^ 2 * v) ≠ 0 := by
    apply mul_ne_zero hu
    exact mul_ne_zero (pow_ne_zero 2 (mul_ne_zero (pow_ne_zero 2 hv) hv)) hv
  obtain ⟨ζ, hζ⟩ : ∃ ζ, (u * ((v ^ 2 * v) ^ 2 * v)) ^ ((modulus - 1) / 4) = ζ := ⟨_, rfl⟩
  -- `ζ` is a fourth root of unity, a square root of `1` exactly when `u / v` is a square
  have hroots : ζ = 1 ∨ ζ = -1 ∨ ζ = sqrtM1 ∨ ζ = -sqrtM1 := by
    rcases fourthRoot_cases hw with ⟨_, h | h⟩ | ⟨_, h | h⟩ <;> rw [hζ] at h <;> simp [h]
  have hsquare : IsSquare (u / v) ↔ ζ ^ 2 = 1 := by
    rw [← isSquare_mul_v7_iff hv, ← hζ, ← pow_mul, quarter_mul_two, ZMod.euler_criterion modulus hw]
  obtain ⟨hflag, hsq, hnsq⟩ := select_fourthRoot sqrtM1_sq two_ne_zero' hu hroots
  simp only [sqrtRatioI, sq_condNeg, v_mul_flip_sq, v_mul_candidate_sq, hζ]
  exact ⟨hflag.trans hsquare.symm, fun h => hsq (hsquare.mp h), fun h => hnsq (mt hsquare.mpr h)⟩

theorem sqrtRatioI_of_isSquare {u v : FieldElement} (h : u = 0 ∨ (v ≠ 0 ∧ IsSquare (u / v))) :
    (sqrtRatioI u v).1 = true ∧ v * (sqrtRatioI u v).2 ^ 2 = u := by
  by_cases hu : u = 0
  · subst hu
    rw [sqrtRatioI_zero_left]
    exact ⟨rfl, by rw [zero_pow two_ne_zero, mul_zero]⟩
  obtain ⟨hv, hsq⟩ := h.resolve_left hu
  obtain ⟨hflag, hval, _⟩ := sqrtRatioI_of_ne_zero hu hv
  exact ⟨hflag.mpr hsq, hval hsq⟩

theorem sqrtRatioI_of_not_isSquare {u v : FieldElement} (h : ¬ (u = 0 ∨ (v ≠ 0 ∧ IsSquare (u / v)))) :
    (sqrtRatioI u v).1 = false ∧ (v ≠ 0 → v * (sqrtRatioI u v).2 ^ 2 = sqrtM1 * u) ∧
      (v = 0 → (sqrtRatioI u v).2 = 0) := by
  have hu : u ≠ 0 := fun hu => h (Or.inl hu)
  have hns : v ≠ 0 → ¬ IsSquare (u / v) := fun hv hsq => h (Or.inr ⟨hv, hsq⟩)
  by_cases hv : v = 0
  · subst hv
    rw [sqrtRatioI_zero_right hu]
    exact ⟨rfl, fun h => absurd rfl h, fun _ => rfl⟩
  obtain ⟨hflag, _, hval⟩ := sqrtRatioI_of_ne_zero hu hv
  refine ⟨Bool.eq_false_iff.mpr fun h => hns hv (hflag.mp h), fun _ => hval (hns hv), fun h => absurd h hv⟩

/-! ## `sqrt` -/

theorem sq_of_sqrt_eq_some {x r : FieldElement} (h : x.sqrt = some r) : r ^ 2 = x := by
  simp only [FieldElement.sqrt, Option.ite_none_right_eq_some, Option.some.injEq] at h
  obtain ⟨hsq, rfl⟩ := h
  exact hsq

theorem pow_mod38_sq (x : FieldElement) : (x.pow mod38) ^ 2 = x ^ ((modulus - 1) / 4) * x := by
  rw [FieldElement.pow_eq, mod38_val, ← pow_mul, mul_comm, two_mul_third_eighth, pow_succ]

theorem sqrt_zero : (0 : FieldElement).sqrt = some 0 := by
  have hpow : (0 : FieldElement).pow mod38 = 0 := by
    rw [FieldElement.pow_eq, mod38_val, zero_pow (by decide)]
  simp [FieldElement.sqrt, hpow]

theorem sqrt_isSome_of_isSquare {x : FieldElement} (hx : IsSquare x) : ∃ r, x.sqrt = some r := by
  by_cases hx0 : x = 0
  · subst hx0
    exact ⟨0, sqrt_zero⟩
  have htv := pow_mod38_sq x
  rcases fourthRoot_cases hx0 with ⟨_, hη | hη⟩ | ⟨hns, _⟩
  · rw [hη, one_mul] at htv
    refine ⟨x.pow mod38, ?_⟩
    simp only [FieldElement.sqrt]
    rw [if_pos htv, if_pos htv]
  · rw [hη, neg_one_mul] at htv
    have hfirst : ¬ (x.pow mod38) ^ 2 = x := htv ▸ neg_ne_self_of_ne_zero two_ne_zero' hx0
    have hsecond : (x.pow mod38 * sqrtM1) ^ 2 = x := by
      rw [mul_sq_of_sq_eq_neg_one sqrtM1_sq, htv, neg_neg]
    refine ⟨x.pow mod38 * sqrtM1, ?_⟩
    simp only [FieldElement.sqrt]
    rw [if_neg hfirst, if_pos hsecond]
  · exact absurd hx hns

theorem sqrt_isSome_iff (x : FieldElement) : (∃ r, x.sqrt = some r) ↔ IsSquare x := by
  constructor
  · rintro ⟨r, h⟩
    exact ⟨r, by rw [← sq_of_sqrt_eq_some h, sq]⟩
  · exact sqrt_isSome_of_isSquare

/-! ## `from_repr` and `to_repr` -/

theorem fromRepr_isSome_iff (bytes : List UInt8) : (fromRepr bytes).isSome ↔ leValue bytes < modulus := by
  unfold fromRepr
  split <;> simp_all

theorem toRepr_of_fromRepr {bytes : List UInt8} {x : FieldElement} (hlen : bytes.length = 32)
    (h : fromRepr bytes = some x) : toRepr x = bytes := by
  unfold fromRepr at h
  split at h
  · rename_i hlt
    rw [← Option.some.inj h, toRepr, ZMod.val_natCast_of_lt hlt, ← hlen, leBytes_leValue]
  · cases h

theorem fromRepr_toRepr (x : FieldElement) : fromRepr (toRepr x) = some x := by
  have hlt : x.val < 256 ^ 32 := (ZMod.val_lt x).trans (by decide)
  have hvalue : leValue (toRepr x) = x.val := by
    rw [toRepr, leValue_leBytes, Nat.mod_eq_of_lt hlt]
  rw [fromRepr, hvalue, if_pos (ZMod.val_lt x), ZMod.natCast_zmod_val]

/-! ## The field's square roots and encodings -/

theorem curve25519_field_square_roots :
    (∀ u v : FieldElement, (u = 0 ∨ (v ≠ 0 ∧ IsSquare (u / v))) →
        (sqrtRatioI u v).1 = true ∧ v * (sqrtRatioI u v).2 ^ 2 = u ∧ (sqrtRatioI u v).2.isOdd = false) ∧
      (∀ u v : FieldElement, ¬ (u = 0 ∨ (v ≠ 0 ∧ IsSquare (u / v))) →
        (sqrtRatioI u v).1 = false ∧ (sqrtRatioI u v).2.isOdd = false ∧
          (v ≠ 0 → v * (sqrtRatioI u v).2 ^ 2 = sqrtM1 * u) ∧ (v = 0 → (sqrtRatioI u v).2 = 0)) ∧
      (∀ x : FieldElement, (∀ r, x.sqrt = some r → r ^ 2 = x) ∧ ((∃ r, x.sqrt = some r) ↔ IsSquare x)) ∧
      (∀ bytes : List UInt8, bytes.length = 32 →
        ((fromRepr bytes).isSome ↔ leValue bytes < modulus) ∧ ∀ x, fromRepr bytes = some x → toRepr x = bytes) := by
  refine ⟨fun u v h => ?_, fun u v h => ?_, fun x => ⟨fun _ => sq_of_sqrt_eq_some, sqrt_isSome_iff x⟩,
    fun bytes hlen => ⟨fromRepr_isSome_iff bytes, fun _ => toRepr_of_fromRepr hlen⟩⟩
  · obtain ⟨hflag, hval⟩ := sqrtRatioI_of_isSquare h
    exact ⟨hflag, hval, isOdd_sqrtRatioI u v⟩
  · obtain ⟨hflag, hval, hzero⟩ := sqrtRatioI_of_not_isSquare h
    exact ⟨hflag, isOdd_sqrtRatioI u v, hval, hzero⟩

end Serai.Crypto.Dalek
