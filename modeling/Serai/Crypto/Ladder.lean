import Mathlib
import Serai.Lib.Msm
/-
  Serai.Crypto.Ladder — the fixed-window ladders of dalek-ff-group (`FieldElement::pow`)
  and of ed448 (the field's `pow` and `Point::mul`).

  All three build the table `[ONE, x, x², …, x¹⁵]` (`table[i] = table[i - 1] * x`), then
  walk the exponent's little-endian bits from the top, enumerated: each bit is shifted into
  a nibble, and on a nibble's fourth bit the accumulator is squared four times (doubled,
  for the point), except on the first nibble, and multiplied by the nibble's entry. The
  three differ only in their operations, so `ladder` is the loop over them, and each is
  `ladder` at its own. The exponent is the canonical representative of a field element or
  a scalar: 256 bits (`[u8; 32]`) for Curve25519's field and 448 (`[u8; 56]`) for Ed448's
  field and scalars, whole nibbles in every case.

  Written additively, after any prefix of the bits the accumulator holds the value of the
  whole nibbles read and the pending nibble the bits read since (`ladder_loop`); the first
  nibble may skip the doublings as the accumulator is still the identity. On whole nibbles
  the ladder is `value • x` (`ladder_eq_nsmul`), and, multiplicatively, `x ^ value`
  (`ladder_eq_pow`).

  - `fixed_window_ladders`: `pow x e = x ^ e.val` for both fields, and `mul P s = s.val • P`
    for Ed448's scalars and any points whose doubling adds a point to itself.
-/

namespace Serai.Crypto

open Serai.Lib (iterate_double)

variable {M : Type}

/-! ## The loop -/

/-- The table: `table[0] = ONE`, `table[1] = x`, `table[i] = table[i - 1] * x` for `i` in `2 .. 16`. -/
def windowTable (one : M) (mul : M → M → M) (x : M) : List M :=
  (List.range' 2 14).foldl (fun table i => table.set i (mul (table.getD (i - 1) one) x))
    ((List.replicate 16 one).set 1 x)

/-- One iteration of the loop over the bits, `i` the bit's index from the top:
    `bits <<= 1; bits |= bit` (a `u8` that stays below 16), and on a nibble's last bit the
    accumulator squared four times, but after the first nibble, times the nibble's entry. -/
def ladderStep (mul : M → M → M) (square : M → M) (one : M) (table : List M) (acc : M × ℕ)
    (bi : Bool × ℕ) : M × ℕ :=
  let bits := 2 * acc.2 + bi.1.toNat
  if (bi.2 + 1) % 4 = 0 then
    let res := if bi.2 ≠ 3 then square^[4] acc.1 else acc.1
    (mul res (table.getD bits one), 0)
  else (acc.1, bits)

/-- The ladder: the table, then the loop over `to_le_bits().iter().rev().enumerate()`. -/
def ladder (one : M) (mul : M → M → M) (square : M → M) (x : M) (bits : List Bool) : M :=
  (bits.reverse.zipIdx.foldl (ladderStep mul square one (windowTable one mul x)) (one, 0)).1

/-! ## The three ladders -/

namespace Dalek

/-- `2^255 - 19`. -/
def modulus : ℕ := 2 ^ 255 - 19

instance : NeZero modulus := ⟨by norm_num [modulus]⟩

/-- `FieldElement`, by its canonical representative. -/
abbrev FieldElement := ZMod modulus

/-- `to_le_bits`: the representative's little-endian bits, `[u8; 32]` of them. -/
def FieldElement.toLeBits (e : FieldElement) : List Bool := (List.range 256).map e.val.testBit

/-- `FieldElement::pow`. -/
def FieldElement.pow (x e : FieldElement) : FieldElement := ladder 1 (· * ·) (fun r => r * r) x e.toLeBits

end Dalek

namespace Ed448

/-- `2^448 - 2^224 - 1`. -/
def fieldModulus : ℕ :=
  726838724295606890549323807888004534353641360687318060281490199180612328166730772686396383698676545930088884461843637361053498018365439

/-- `2^446 - 13818066809895115352007386748515426880336692474882178609894547503885`. -/
def scalarModulus : ℕ :=
  181709681073901722637330951972001133588410340171829515070372549795146003961539585716195755291692375963310293709091662304773755859649779

instance : NeZero fieldModulus := ⟨by norm_num [fieldModulus]⟩

instance : NeZero scalarModulus := ⟨by norm_num [scalarModulus]⟩

/-- `FieldElement`, by its canonical representative. -/
abbrev FieldElement := ZMod fieldModulus

/-- `Scalar`, by its canonical representative. -/
abbrev Scalar := ZMod scalarModulus

/-- `to_le_bits` of the field's macro: `[u8; 56]` of little-endian bits. -/
def FieldElement.toLeBits (e : FieldElement) : List Bool := (List.range 448).map e.val.testBit

/-- `to_le_bits` of the scalar, from the same macro. -/
def Scalar.toLeBits (s : Scalar) : List Bool := (List.range 448).map s.val.testBit

/-- The field's `pow`. -/
def FieldElement.pow (x e : FieldElement) : FieldElement := ladder 1 (· * ·) (fun r => r * r) x e.toLeBits

/-- `Point::mul`, over points with their identity, addition and `double`. -/
def Point.mul {G : Type} [AddCommMonoid G] (double : G → G) (P : G) (s : Scalar) : G :=
  ladder 0 (· + ·) double P s.toLeBits

end Ed448

/-! ## The table -/

section Additive

variable [AddCommMonoid M]

theorem windowTable_loop (x : M) {j : ℕ} (hj : j ≤ 14) :
    ((List.range' 2 j).foldl (fun table i => table.set i (table.getD (i - 1) 0 + x))
        ((List.replicate 16 0).set 1 x)).length = 16 ∧
      ∀ k < j + 2, ((List.range' 2 j).foldl (fun table i => table.set i (table.getD (i - 1) 0 + x))
        ((List.replicate 16 0).set 1 x)).getD k 0 = k • x := by
  induction j with
  | zero =>
    refine ⟨by simp, fun k hk => ?_⟩
    obtain rfl | rfl : k = 0 ∨ k = 1 := by omega
    · simp
    · simp
  | succ j ih =>
    obtain ⟨hlen, hget⟩ := ih (by omega)
    rw [List.range'_concat, List.foldl_append, List.foldl_cons, List.foldl_nil]
    refine ⟨by rw [List.length_set, hlen], fun k hk => ?_⟩
    rw [List.getD_eq_getElem?_getD, List.getElem?_set]
    by_cases hkj : 2 + 1 * j = k
    · -- the entry set now: the previous one plus `x`
      subst hkj
      rw [if_pos rfl, if_pos (by omega), Option.getD_some, hget (2 + 1 * j - 1) (by omega), ← succ_nsmul]
      congr 1
      omega
    · rw [if_neg hkj, ← List.getD_eq_getElem?_getD]
      exact hget k (by omega)

theorem windowTable_getD (x : M) {k : ℕ} (hk : k < 16) : (windowTable 0 (· + ·) x).getD k 0 = k • x :=
  (windowTable_loop x le_rfl).2 k hk

/-! ## The loop on the bits from the top -/

/-- The value of the bits read from the top. -/
def topValue (l : List Bool) : ℕ := Nat.ofDigits 2 (l.reverse.map Bool.toNat)

theorem topValue_concat (l : List Bool) (b : Bool) : topValue (l ++ [b]) = 2 * topValue l + b.toNat := by
  rw [topValue, List.reverse_append, List.reverse_singleton, List.singleton_append, List.map_cons,
    Nat.ofDigits_cons, topValue]
  ring

theorem topValue_lt (l : List Bool) : topValue l < 2 ^ l.length := by
  have h := Nat.ofDigits_lt_base_pow_length (b := 2) (l := l.reverse.map Bool.toNat) (by norm_num)
    (fun d hd => by
      obtain ⟨b, -, rfl⟩ := List.mem_map.mp hd
      cases b <;> decide)
  rwa [List.length_map, List.length_reverse] at h

theorem nibble_shift {v b r : ℕ} (hb : b < 2) (hr : r < 3) :
    2 * (v % 2 ^ r) + b = (2 * v + b) % 2 ^ (r + 1) ∧ v / 2 ^ r = (2 * v + b) / 2 ^ (r + 1) := by
  interval_cases r <;> simp only [pow_zero, pow_one, Nat.reducePow, Nat.mod_one, Nat.div_one, zero_add,
    Nat.reduceAdd] <;> omega

variable (double : M → M) (hd : ∀ r, double r = r + r) (x : M)
include hd

theorem ladderStep_inv {acc : M × ℕ} {v i : ℕ} (hv : v < 2 ^ i) (hbits : acc.2 = v % 2 ^ (i % 4))
    (hres : acc.1 = (v / 2 ^ (i % 4)) • x) (b : Bool) :
    (ladderStep (· + ·) double 0 (windowTable 0 (· + ·) x) acc (b, i)).2 =
        (2 * v + b.toNat) % 2 ^ ((i + 1) % 4) ∧
      (ladderStep (· + ·) double 0 (windowTable 0 (· + ·) x) acc (b, i)).1 =
        ((2 * v + b.toNat) / 2 ^ ((i + 1) % 4)) • x := by
  obtain ⟨res, bits⟩ := acc
  dsimp only at hbits hres
  have hb : b.toNat < 2 := by cases b <;> decide
  have hdouble : double = fun y => y + y := funext hd
  unfold ladderStep
  dsimp only
  split_ifs with hlast hfirst
  · -- a nibble's last bit, after the first nibble: four doublings, then the nibble's entry
    have hr : i % 4 = 3 := by omega
    rw [hr] at hbits hres
    norm_num at hbits hres
    have hnib : 2 * bits + b.toNat < 16 := by omega
    have hval : 2 ^ 4 * (v / 8) + (2 * bits + b.toNat) = 2 * v + b.toNat := by omega
    rw [show (i + 1) % 4 = 0 by omega, pow_zero, Nat.mod_one, Nat.div_one, hdouble, iterate_double, hres,
      windowTable_getD x hnib, smul_smul, ← add_nsmul, hval]
    exact ⟨rfl, rfl⟩
  · -- the first nibble's last bit: the accumulator is still the identity
    have hi : i = 3 := by omega
    subst hi
    norm_num at hv hbits hres
    have hnib : 2 * bits + b.toNat < 16 := by omega
    have hval : v / 8 + (2 * bits + b.toNat) = 2 * v + b.toNat := by omega
    rw [show (3 + 1) % 4 = 0 by rfl, pow_zero, Nat.mod_one, Nat.div_one, hres, windowTable_getD x hnib,
      ← add_nsmul, hval]
    exact ⟨rfl, rfl⟩
  · -- inside a nibble: the bit joins the pending one
    have hr : i % 4 < 3 := by omega
    rw [show (i + 1) % 4 = i % 4 + 1 by omega, hres, hbits]
    exact ⟨(nibble_shift hb hr).1, congrArg (· • x) (nibble_shift hb hr).2⟩

theorem ladder_loop (l : List Bool) :
    (l.zipIdx.foldl (ladderStep (· + ·) double 0 (windowTable 0 (· + ·) x)) (0, 0)).2 =
        topValue l % 2 ^ (l.length % 4) ∧
      (l.zipIdx.foldl (ladderStep (· + ·) double 0 (windowTable 0 (· + ·) x)) (0, 0)).1 =
        (topValue l / 2 ^ (l.length % 4)) • x := by
  induction l using List.reverseRecOn with
  | nil => simp [topValue]
  | append_singleton l b ih =>
    rw [List.zipIdx_append, List.foldl_append, List.zipIdx_cons, List.zipIdx_nil, List.foldl_cons,
      List.foldl_nil, zero_add, topValue_concat, List.length_append, List.length_singleton]
    exact ladderStep_inv double hd x (topValue_lt l) ih.1 ih.2 b

theorem ladder_eq_nsmul (bits : List Bool) (h : bits.length % 4 = 0) :
    ladder 0 (· + ·) double x bits = Nat.ofDigits 2 (bits.map Bool.toNat) • x := by
  have hloop := (ladder_loop double hd x bits.reverse).2
  rw [List.length_reverse, h, pow_zero, Nat.div_one, topValue, List.reverse_reverse] at hloop
  exact hloop

end Additive

theorem ladder_eq_pow [CommMonoid M] (x : M) (bits : List Bool) (h : bits.length % 4 = 0) :
    ladder 1 (· * ·) (fun r => r * r) x bits = x ^ Nat.ofDigits 2 (bits.map Bool.toNat) := by
  have h' := ladder_eq_nsmul (M := Additive M) (fun r => r + r) (fun _ => rfl) (Additive.ofMul x) bits h
  rw [← ofMul_pow] at h'
  exact h'

/-! ## The exponents' bits -/

theorem ofDigits_testBit (v n : ℕ) :
    Nat.ofDigits 2 (((List.range n).map v.testBit).map Bool.toNat) = v % 2 ^ n := by
  induction n with
  | zero => simp [Nat.mod_one]
  | succ n ih =>
    rw [List.range_succ, List.map_append, List.map_append, Nat.ofDigits_append, ih, List.length_map,
      List.length_map, List.length_range, List.map_singleton, List.map_singleton, Nat.ofDigits_singleton,
      Nat.toNat_testBit, Nat.mod_pow_succ]

theorem ofDigits_toLeBits_of_lt {v n : ℕ} (h : v < 2 ^ n) :
    Nat.ofDigits 2 (((List.range n).map v.testBit).map Bool.toNat) = v := by
  rw [ofDigits_testBit, Nat.mod_eq_of_lt h]

theorem length_toLeBits (v n : ℕ) : ((List.range n).map v.testBit).length = n := by simp

/-! ## The ladders compute powers and multiples -/

theorem Dalek.FieldElement.pow_eq (x e : Dalek.FieldElement) : Dalek.FieldElement.pow x e = x ^ e.val := by
  have hv : e.val < 2 ^ 256 := (ZMod.val_lt e).trans (by norm_num [Dalek.modulus])
  rw [Dalek.FieldElement.pow, ladder_eq_pow x _ (by rw [Dalek.FieldElement.toLeBits, length_toLeBits]),
    Dalek.FieldElement.toLeBits, ofDigits_toLeBits_of_lt hv]

theorem Ed448.FieldElement.pow_eq (x e : Ed448.FieldElement) : Ed448.FieldElement.pow x e = x ^ e.val := by
  have hv : e.val < 2 ^ 448 := (ZMod.val_lt e).trans (by decide +kernel)
  rw [Ed448.FieldElement.pow, ladder_eq_pow x _ (by rw [Ed448.FieldElement.toLeBits, length_toLeBits]),
    Ed448.FieldElement.toLeBits, ofDigits_toLeBits_of_lt hv]

theorem Ed448.Point.mul_eq {G : Type} [AddCommMonoid G] {double : G → G} (hd : ∀ P, double P = P + P) (P : G)
    (s : Ed448.Scalar) : Ed448.Point.mul double P s = s.val • P := by
  have hv : s.val < 2 ^ 448 := (ZMod.val_lt s).trans (by decide +kernel)
  rw [Ed448.Point.mul, ladder_eq_nsmul double hd P _ (by rw [Ed448.Scalar.toLeBits, length_toLeBits]),
    Ed448.Scalar.toLeBits, ofDigits_toLeBits_of_lt hv]

theorem fixed_window_ladders :
    (∀ x e : Dalek.FieldElement, Dalek.FieldElement.pow x e = x ^ e.val) ∧
    (∀ x e : Ed448.FieldElement, Ed448.FieldElement.pow x e = x ^ e.val) ∧
    (∀ (G : Type) [AddCommMonoid G] (double : G → G), (∀ P, double P = P + P) →
      ∀ (P : G) (s : Ed448.Scalar), Ed448.Point.mul double P s = s.val • P) :=
  ⟨Dalek.FieldElement.pow_eq, Ed448.FieldElement.pow_eq, fun _ _ _ hd => Ed448.Point.mul_eq hd⟩

/-- Five times the integer `1`. -/
theorem fixed_window_ladders_five : Ed448.Point.mul (fun P : ℤ => P + P) 1 5 = (5 : Ed448.Scalar).val • (1 : ℤ) :=
  fixed_window_ladders.2.2 ℤ (fun P => P + P) (fun _ => rfl) 1 5

end Serai.Crypto
