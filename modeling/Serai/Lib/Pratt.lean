import Mathlib
/-
  Serai.Lib.Pratt — primality by Pratt certificates.

  Lucas's test (`lucas_primality`) proves `n` prime from a witness `a` with
  `a ^ (n - 1) ≡ 1` and `a ^ ((n - 1) / q) ≢ 1 (mod n)` for every prime `q` dividing `n - 1`.
  A certificate lists, for each number it certifies, the witness and the primes of `n - 1`
  with their multiplicity; each of those is certified by an earlier entry. `check` tests a
  certificate by evaluation, the powers taken by square-and-multiply (`powMod`), so that the
  kernel checks a 255-bit prime in a few hundred multiplications per power.

  - `powMod_eq`: square-and-multiply over `bits` bits is the power, for exponents below
    `2 ^ bits`.
  - `checkEntry_sound`, `check_sound`: every number a checked certificate lists is prime.
-/

namespace Serai.Lib.Pratt

/-- `b ^ e % m` by square-and-multiply over the low `bits` bits of `e`, lowest bit first. -/
def powMod (m : ℕ) : ℕ → ℕ → ℕ → ℕ
  | 0, _, _ => 1 % m
  | bits + 1, b, e => (if e % 2 = 1 then b else 1) * powMod m bits (b * b % m) (e / 2) % m

theorem powMod_eq (m : ℕ) : ∀ bits b e, e < 2 ^ bits → powMod m bits b e = b ^ e % m
  | 0, b, e, h => by
    obtain rfl : e = 0 := by simpa using h
    rfl
  | bits + 1, b, e, h => by
    have hhalf : e / 2 < 2 ^ bits := by
      rw [pow_succ] at h
      omega
    -- the rest of the bits raise `b²` to `e / 2`; the low bit multiplies by `b` or not
    have hrest : (b * b % m) ^ (e / 2) % m = b ^ (2 * (e / 2)) % m := by
      rw [← Nat.pow_mod, pow_mul, sq]
    have hlow : b ^ e = (if e % 2 = 1 then b else 1) * b ^ (2 * (e / 2)) := by
      conv_lhs => rw [← Nat.div_add_mod e 2]
      split_ifs with hbit
      · rw [hbit, pow_succ, mul_comm]
      · rw [show e % 2 = 0 by omega, add_zero, one_mul]
    rw [powMod, powMod_eq m bits _ _ hhalf, hrest, hlow, Nat.mul_mod_mod]

theorem pow_eq_one_iff {n : ℕ} (hn : 2 ≤ n) (a e : ℕ) : (a : ZMod n) ^ e = 1 ↔ a ^ e % n = 1 := by
  rw [← Nat.cast_pow, ← Nat.cast_one, ZMod.natCast_eq_natCast_iff', Nat.one_mod_eq_one.mpr (by omega)]

/-- One entry of a certificate: the number, Lucas's witness, and the primes of `n - 1` with
    their multiplicity. -/
structure Entry where
  n : ℕ
  witness : ℕ
  factors : List ℕ

/-- Lucas's test of one entry, over exponents of `bits` bits, given the numbers certified
    before it. -/
def checkEntry (bits : ℕ) (proven : List ℕ) (e : Entry) : Bool :=
  decide (2 ≤ e.n) && decide (e.n ≤ 2 ^ bits) && e.factors.all (· ∈ proven) && e.factors.prod == e.n - 1 &&
    powMod e.n bits e.witness (e.n - 1) == 1 &&
    e.factors.all fun q => powMod e.n bits e.witness ((e.n - 1) / q) != 1

/-- A certificate's entries in order, each tested against the numbers certified before it. -/
def check (bits : ℕ) : List ℕ → List Entry → Bool
  | _, [] => true
  | proven, e :: es => checkEntry bits proven e && check bits (e.n :: proven) es

theorem checkEntry_sound {bits : ℕ} {proven : List ℕ} {e : Entry} (hproven : ∀ q ∈ proven, q.Prime)
    (h : checkEntry bits proven e = true) : e.n.Prime := by
  simp only [checkEntry, Bool.and_eq_true, decide_eq_true_eq, List.all_eq_true, beq_iff_eq, bne_iff_ne,
    ne_eq] at h
  obtain ⟨⟨⟨⟨⟨h2, hbits⟩, hproven'⟩, hprod⟩, hfull⟩, hpart⟩ := h
  have hlt : ∀ k, k ≤ e.n - 1 → k < 2 ^ bits := fun k hk => by omega
  refine lucas_primality e.n (e.witness : ZMod e.n) ?_ fun q hq hdvd => ?_
  · rw [pow_eq_one_iff h2, ← powMod_eq _ _ _ _ (hlt _ le_rfl)]
    exact hfull
  · -- a prime dividing `n - 1` divides one of the factors, which are prime: it is one of them
    rw [← hprod] at hdvd
    obtain ⟨f, hf, hqf⟩ := (Prime.dvd_prod_iff hq.prime).mp hdvd
    obtain rfl : q = f := (Nat.prime_dvd_prime_iff_eq hq (hproven f (hproven' f hf))).mp hqf
    rw [ne_eq, pow_eq_one_iff h2, ← powMod_eq _ _ _ _ (hlt _ (Nat.div_le_self _ _))]
    exact hpart q hf

theorem check_sound {bits : ℕ} :
    ∀ {proven : List ℕ} {es : List Entry}, (∀ q ∈ proven, q.Prime) → check bits proven es = true →
      ∀ e ∈ es, e.n.Prime
  | _, [], _, _, _, he => by simp at he
  | proven, e :: es, hproven, h, e', he' => by
    simp only [check, Bool.and_eq_true] at h
    have hprime := checkEntry_sound hproven h.1
    rcases List.mem_cons.mp he' with rfl | he'
    · exact hprime
    · refine @check_sound bits (e.n :: proven) es (fun q hq => ?_) h.2 e' he'
      rcases List.mem_cons.mp hq with rfl | hq
      · exact hprime
      · exact hproven q hq

end Serai.Lib.Pratt
