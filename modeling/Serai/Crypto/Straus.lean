import Serai.Crypto.Multiexp
import Serai.Lib.Msm
/-
  Serai.Crypto.Straus — the scalars' digits and Straus's algorithm (crypto/multiexp:
  `prep_bits`, `prep_tables`, `straus`, `straus_vartime`).

  `prep_bits` cuts each scalar's little-endian bits into groups of `window` bits, or-ing bit
  `i` into group `i / window` at position `i % window`. The groups are the scalar's digits
  base `2^window`: `⌈bits / window⌉` of them, each below `2^window`, worth the scalar
  (`groupBits_spec`). They are `u8`s in the code, which hold them while `window ≤ 8`; here
  they are natural numbers. `prep_tables` lists each point's multiples `0, P, …,
  (2^window - 1) • P` (`prepTables_eq`).

  Straus's algorithm runs over the digit positions from the highest, doubling `window` times
  and adding each point's table entry for its digit there: Horner's rule base `2^window` for
  all the scalars at once, which ends on `∑ scalar • point` (`straus_eq_multiexp`, through
  `foldl_windows`, which Pippenger's algorithm shares). The variable-time variant keeps
  `None` for the identity and skips the digits zero, whose table entry is the identity; it
  computes the same value (`strausVartime_eq_straus`).
-/

namespace Serai.Crypto.Multiexp

open Serai.Lib

variable {F G : Type} [Field F] [AddCommGroup G] [Module F G]

/-- `PrimeFieldBits::to_le_bits`: a scalar's canonical representative in `numBits`
    little-endian bits. -/
structure PrimeFieldBits (F : Type) [Field F] where
  numBits : ℕ
  toLeBits : F → List Bool
  length_toLeBits : ∀ s, (toLeBits s).length = numBits
  ofDigits_toLeBits : ∀ s, ((Nat.ofDigits 2 ((toLeBits s).map Bool.toNat) : ℕ) : F) = s

/-- The loop of `prep_bits` over one scalar's bits: `groupings[p][i / w] |= bit << (i % w)`. -/
def groupBits (window : ℕ) (bits : List Bool) : List ℕ :=
  bits.zipIdx.foldl (fun groups bi => groups.modify (bi.2 / window) (· ||| bi.1.toNat <<< (bi.2 % window)))
    (List.replicate ((bits.length + (window - 1)) / window) 0)

/-- `prep_bits`. -/
def prepBits (S : PrimeFieldBits F) (pairs : List (F × G)) (window : ℕ) : List (List ℕ) :=
  pairs.map fun pair => groupBits window (S.toLeBits pair.1)

/-- `prep_tables`: `accum += point; tables[p][i] = accum` for `i` from one. -/
def prepTables (pairs : List (F × G)) (window : ℕ) : List (List G) :=
  pairs.map fun pair =>
    ((List.range' 1 (2 ^ window - 1)).foldl (fun acc i => (acc.1.set i (acc.2 + pair.2), acc.2 + pair.2))
      (List.replicate (2 ^ window) 0, (0 : G))).1

/-- `straus`: `none` without pairs, where `groupings[0]` panics. -/
def straus (S : PrimeFieldBits F) (pairs : List (F × G)) (window : ℕ) : Option G := do
  let groupings := prepBits S pairs window
  let tables := prepTables pairs window
  let first ← groupings.head?
  pure <| (List.range first.length).reverse.foldl (fun res b =>
      let res := if b ≠ first.length - 1 then (fun r => r + r)^[window] res else res
      (tables.zip groupings).foldl (fun res tg => res + tg.1.getD (tg.2.getD b 0) 0) res)
    0

/-- `straus_vartime`: `None` stands for the identity. -/
def strausVartime (S : PrimeFieldBits F) (pairs : List (F × G)) (window : ℕ) : Option G := do
  let groupings := prepBits S pairs window
  let tables := prepTables pairs window
  let first ← groupings.head?
  let res := (List.range first.length).reverse.foldl (fun (res : Option G) b =>
      let res := if b ≠ first.length - 1 then (Option.map fun r => r + r)^[window] res else res
      (tables.zip groupings).foldl (fun res tg =>
        if tg.2.getD b 0 ≠ 0 then
          some (match res with
            | some res => res + tg.1.getD (tg.2.getD b 0) 0
            | none => tg.1.getD (tg.2.getD b 0) 0)
        else res) res)
    none
  pure (res.getD 0)

/-! ## Digits -/

section Digits

variable {window : ℕ}

theorem groupBits_loop (hw : 0 < window) (n : ℕ) (pre : List Bool) (hpre : pre.length ≤ n * window) :
    let groups := pre.zipIdx.foldl
      (fun groups bi => groups.modify (bi.2 / window) (· ||| bi.1.toNat <<< (bi.2 % window))) (List.replicate n 0)
    groups.length = n ∧ Nat.ofDigits (2 ^ window) groups = Nat.ofDigits 2 (pre.map Bool.toNat) ∧
      ∀ d ∈ groups, d < 2 ^ window := by
  induction pre using List.reverseRecOn with
  | nil => simp [Nat.ofDigits_replicate_zero, List.mem_replicate]
  | append_singleton pre bit ih =>
    rw [List.length_append, List.length_singleton] at hpre
    obtain ⟨hlen, hval, hlt⟩ := ih (by omega)
    rw [List.zipIdx_append, List.zipIdx_singleton, List.foldl_concat, zero_add]
    generalize pre.zipIdx.foldl _ (List.replicate n 0) = groups at hlen hval hlt ⊢
    -- the bit's group holds only the bits below it, by the value so far
    have hvalue : Nat.ofDigits 2 (pre.map Bool.toNat) < 2 ^ pre.length := by
      have hbits : ∀ x ∈ pre.map Bool.toNat, x < 2 := fun x hx => by
        obtain ⟨bit, -, rfl⟩ := List.mem_map.mp hx
        exact Bool.toNat_lt bit
      simpa using Nat.ofDigits_lt_base_pow_length (by norm_num) hbits
    have hdigit := getD_lt_of_ofDigits_lt (hval ▸ hvalue)
    have hj : pre.length / window < groups.length := by
      rw [hlen, Nat.div_lt_iff_lt_mul hw]
      omega
    have hweight : 2 ^ (pre.length % window) * (2 ^ window) ^ (pre.length / window) = 2 ^ pre.length := by
      rw [← pow_mul, ← pow_add, Nat.mod_add_div]
    rw [modify_or_eq_modify_add _ hdigit]
    refine ⟨by rw [List.length_modify, hlen], ?_, fun d hd => ?_⟩
    · rw [ofDigits_modify_add _ _ hj, hval, List.map_append, Nat.ofDigits_append, List.length_map,
        List.map_singleton, Nat.ofDigits_singleton, mul_assoc, hweight, mul_comm]
    · rcases mem_modify hd with hd | ⟨hj', rfl⟩
      · exact hlt d hd
      · rw [List.getD_eq_getElem _ _ hj'] at hdigit
        have hbit := Bool.toNat_le bit
        have hpow : 2 ^ (pre.length % window + 1) ≤ 2 ^ window :=
          Nat.pow_le_pow_right (by norm_num) (Nat.mod_lt _ hw)
        rw [pow_succ] at hpow
        nlinarith

theorem groupBits_spec (hw : 0 < window) (bits : List Bool) :
    (groupBits window bits).length = (bits.length + (window - 1)) / window ∧
      Nat.ofDigits (2 ^ window) (groupBits window bits) = Nat.ofDigits 2 (bits.map Bool.toNat) ∧
      ∀ d ∈ groupBits window bits, d < 2 ^ window := by
  refine groupBits_loop hw _ bits ?_
  -- `⌈len / w⌉` groups of `w` bits hold the bits
  have h := Nat.div_add_mod (bits.length + (window - 1)) window
  have hmod := Nat.mod_lt (bits.length + (window - 1)) hw
  rw [Nat.mul_comm]
  omega

end Digits

/-! ## Tables -/

theorem table_loop (P : G) {m k : ℕ} (hk : k < m) :
    (List.range' 1 k).foldl (fun acc i => (acc.1.set i (acc.2 + P), acc.2 + P)) (List.replicate m 0, (0 : G)) =
      ((List.range (k + 1)).map (· • P) ++ List.replicate (m - (k + 1)) 0, k • P) := by
  induction k with
  | zero =>
    obtain ⟨m', rfl⟩ := Nat.exists_eq_add_of_lt hk
    simp [List.replicate_succ]
  | succ k ih =>
    rw [List.range'_concat, List.foldl_concat, ih (by omega)]
    dsimp only
    obtain ⟨m', hm'⟩ := Nat.exists_eq_add_of_lt hk
    -- the entry set is the first of the zeros left
    rw [List.set_append, if_neg (by simp only [List.length_map, List.length_range]; omega), List.length_map,
      List.length_range, show m - (k + 1) = m' + 1 by omega, List.replicate_succ, show 1 + 1 * k - (k + 1) = 0 by omega,
      List.set_cons_zero, List.range_succ (n := k + 1), List.map_append, List.map_singleton, List.append_assoc,
      List.singleton_append, show m - (k + 1 + 1) = m' by omega, succ_nsmul]

omit [Field F] [Module F G] in
theorem prepTables_eq (pairs : List (F × G)) (window : ℕ) :
    prepTables pairs window = pairs.map fun pair => (List.range (2 ^ window)).map (· • pair.2) := by
  refine List.map_congr_left fun pair _ => ?_
  have hpos := Nat.two_pow_pos window
  rw [table_loop pair.2 (Nat.sub_lt hpos Nat.one_pos), Nat.sub_add_cancel hpos, Nat.sub_self, List.replicate_zero,
    List.append_nil]

theorem getD_table (P : G) {window d : ℕ} (hd : d < 2 ^ window) :
    ((List.range (2 ^ window)).map (· • P)).getD d 0 = d • P := by
  rw [List.getD_eq_getElem _ _ (by simpa using hd), List.getElem_map, List.getElem_range]

/-! ## The windows -/

theorem foldl_windows (S : PrimeFieldBits F) (pairs : List (F × G)) {window : ℕ} (hw : 0 < window) :
    let n := (S.numBits + (window - 1)) / window
    (List.range n).reverse.foldl (fun res b => (if b ≠ n - 1 then (fun r => r + r)^[window] res else res) +
      (pairs.map fun pair => (groupBits window (S.toLeBits pair.1)).getD b 0 • pair.2).sum) 0 =
        Crypto.multiexp pairs := by
  intro n
  rw [foldl_skip_first _ (by rw [iterate_double, smul_zero])]
  simp only [iterate_double]
  have hlen : ∀ t ∈ pairs.map (fun pair => (groupBits window (S.toLeBits pair.1), pair.2)), t.1.length = n := by
    intro t ht
    obtain ⟨pair, -, rfl⟩ := List.mem_map.mp ht
    rw [(groupBits_spec hw _).1, S.length_toLeBits]
  have hhorner := foldl_horner_digits (2 ^ window) n _ hlen
  simp only [List.map_map, Function.comp_def] at hhorner
  rw [hhorner, multiexp]
  refine congrArg List.sum (List.map_congr_left fun pair _ => ?_)
  -- the digits are worth the bits, which are worth the scalar
  rw [(groupBits_spec hw _).2.1, ← Nat.cast_smul_eq_nsmul F, S.ofDigits_toLeBits]

/-! ## Straus -/

omit [Module F G] in
theorem foldl_tables (S : PrimeFieldBits F) (pairs : List (F × G)) {window : ℕ} (hw : 0 < window) (b : ℕ) (res : G) :
    ((prepTables pairs window).zip (prepBits S pairs window)).foldl (fun res tg => res + tg.1.getD (tg.2.getD b 0) 0) res =
      res + (pairs.map fun pair => (groupBits window (S.toLeBits pair.1)).getD b 0 • pair.2).sum := by
  rw [prepTables_eq, prepBits, List.zip_map', List.foldl_map, foldl_add_eq_add_sum]
  refine congrArg (res + ·) (congrArg List.sum (List.map_congr_left fun pair _ => ?_))
  -- a digit is below `2^window`, so its entry is in the table
  refine getD_table pair.2 ?_
  rw [List.getD_eq_getElem?_getD]
  cases h : (groupBits window (S.toLeBits pair.1))[b]? with
  | none => exact Nat.two_pow_pos window
  | some d => exact (groupBits_spec hw _).2.2 d (List.mem_of_getElem? h)

theorem straus_eq_multiexp (S : PrimeFieldBits F) {pairs : List (F × G)} (hpairs : pairs ≠ []) {window : ℕ}
    (hw : 0 < window) : straus S pairs window = some (Crypto.multiexp pairs) := by
  obtain ⟨pair, rest, rfl⟩ := List.exists_cons_of_ne_nil hpairs
  have hfirst := (groupBits_spec hw (S.toLeBits pair.1)).1
  rw [S.length_toLeBits] at hfirst
  simp only [straus, prepBits, List.map_cons, List.head?_cons, Option.pure_def, Option.bind_eq_bind,
    Option.bind_some, Option.some.injEq]
  rw [← foldl_windows S (pair :: rest) hw, hfirst]
  refine List.foldl_ext _ _ _ fun res b _ => ?_
  exact foldl_tables S (pair :: rest) hw b _

omit [Module F G] in
theorem strausVartime_eq_straus (S : PrimeFieldBits F) (pairs : List (F × G)) (window : ℕ) :
    strausVartime S pairs window = straus S pairs window := by
  cases pairs with
  | nil => rfl
  | cons pair rest =>
    simp only [straus, strausVartime, prepBits, List.map_cons, List.head?_cons, Option.pure_def,
      Option.bind_eq_bind, Option.bind_some, Option.some.injEq]
    refine (foldl_hom_of_mem (fun o : Option G => o.getD 0) (fun o b _ => ?_) none).symm
    -- the doublings
    have hdouble : (if b ≠ (groupBits window (S.toLeBits pair.1)).length - 1 then
        (fun r => r + r)^[window] (o.getD 0) else o.getD 0) =
        (if b ≠ (groupBits window (S.toLeBits pair.1)).length - 1 then
          (Option.map fun r : G => r + r)^[window] o else o).getD 0 := by
      split
      · exact (getD_iterate_map (f := fun r : G => r + r) (add_zero 0) window o).symm
      · rfl
    rw [hdouble]
    refine foldl_hom_of_mem (fun o : Option G => o.getD 0) (fun o tg htg => ?_) _
    -- the additions: a digit zero reads the table's identity
    split
    · cases o with
      | none => exact zero_add _
      | some r => rfl
    · rename_i hd
      rw [not_not.mp hd]
      have htable := (List.of_mem_zip htg).1
      rw [prepTables_eq] at htable
      obtain ⟨p, -, hp⟩ := List.mem_map.mp htable
      rw [← hp, getD_table _ (Nat.two_pow_pos window), zero_smul, add_zero]

end Serai.Crypto.Multiexp
