import Mathlib
import Serai.ValidatorSets.Pallet
/-
  Serai.ValidatorSets.Amortize — `amortize_excess_key_shares` on the participants `new_set`
  selects, and `post_amortization_key_shares_for_top_validator`
  (validator-sets primitives).

  The loop takes the excess `E = total.saturating_sub(MAX_KEY_SHARES_PER_SET)` one share at
  a time, the `i`-th from the participant `len - (i % len + 1)`: a reverse round robin. So
  after `k` rounds participant `j` of `n` has lost `(k + j) / n` shares (`amortizeAfter_eq`),
  one more than before exactly at the participant the round names (`div_succ_add`), and
  the losses of all participants add up to `k` (`sum_div_range`).

  `new_set` builds the list in sorted order while fewer than `MAX_KEY_SHARES_PER_SET` key
  shares are taken, each participant with `1 ..= MAX_KEY_SHARES_PER_SET` shares
  (`NewSetShape`). The excess is then below the last participant's shares, hence below
  every participant's, and no loss reaches a participant's shares.

  - `amortize_excess_key_shares`: on such a list no round takes a share from a participant
    without one, every participant keeps a share, the total is
    `min(total, MAX_KEY_SHARES_PER_SET)`, two participants' losses differ by at most one,
    and the first participant ends with `post_amortization_key_shares_for_top_validator`.
-/

namespace Serai.ValidatorSets

variable {K : Type}

/-- One round of `amortize_excess_key_shares`' loop. -/
def amortizeStep (vs : List (K × UInt64)) (i : ℕ) : List (K × UInt64) :=
  vs.modify (vs.length - ((i % vs.length) + 1)) fun (k, sh) => (k, sh - 1)

/-- The participants after the loop's first `k` rounds. -/
def amortizeAfter (vs : List (K × UInt64)) (k : ℕ) : List (K × UInt64) := (List.range k).foldl amortizeStep vs

/-- The excess the loop takes: `total_key_shares.saturating_sub(MAX_KEY_SHARES_PER_SET)`. -/
def excessKeyShares (vs : List (K × UInt64)) : ℕ := (saturatingSub (vs.map (·.2)).sum maxKeySharesPerSet).toNat

theorem amortizeExcessKeyShares_eq (vs : List (K × UInt64)) :
    amortizeExcessKeyShares vs = amortizeAfter vs (excessKeyShares vs) := rfl

/-- The participant lists `new_set` builds: each has `1 ..= MAX_KEY_SHARES_PER_SET` key
    shares, in order from the most, and those before the last are fewer than
    `MAX_KEY_SHARES_PER_SET`. -/
structure NewSetShape (vs : List (K × UInt64)) : Prop where
  pos : ∀ p ∈ vs, 1 ≤ p.2.toNat
  le_max : ∀ p ∈ vs, p.2.toNat ≤ maxKeySharesPerSet.toNat
  sorted : (vs.map (·.2.toNat)).Pairwise (· ≥ ·)
  dropLast_lt : (vs.dropLast.map (·.2.toNat)).sum < maxKeySharesPerSet.toNat

/-! ## The round robin's counts -/

theorem div_succ_add {n j : ℕ} (hn : 0 < n) (hj : j < n) (k : ℕ) :
    (k + 1 + j) / n = (k + j) / n + if j = n - 1 - k % n then 1 else 0 := by
  rw [show k + 1 + j = k + j + 1 by omega, Nat.succ_div]
  congr 1
  have hr := Nat.mod_lt k hn
  have hmod : (k + j + 1) % n = (k % n + (j + 1)) % n := by rw [Nat.mod_add_mod, Nat.add_assoc]
  -- `k % n + j + 1` lies in `1 .. 2n - 1`, a multiple of `n` only at `n`
  have hdvd : n ∣ k + j + 1 ↔ j = n - 1 - k % n := by
    rw [Nat.dvd_iff_mod_eq_zero, hmod]
    rcases lt_trichotomy (k % n + (j + 1)) n with hlt | heq | hgt
    · rw [Nat.mod_eq_of_lt hlt]
      omega
    · rw [heq, Nat.mod_self]
      omega
    · rw [Nat.mod_eq_sub_mod hgt.le, Nat.mod_eq_of_lt (by omega)]
      omega
  by_cases h : j = n - 1 - k % n
  · rw [if_pos (hdvd.mpr h), if_pos h]
  · rw [if_neg (mt hdvd.mp h), if_neg h]

theorem sum_div_range {n : ℕ} (hn : 0 < n) (k : ℕ) : ∑ j ∈ Finset.range n, (k + j) / n = k := by
  induction k with
  | zero => exact Finset.sum_eq_zero fun j hj => Nat.div_eq_of_lt (by simpa using Finset.mem_range.mp hj)
  | succ k ih =>
    rw [Finset.sum_congr rfl fun j hj => div_succ_add hn (Finset.mem_range.mp hj) k, Finset.sum_add_distrib, ih,
      Finset.sum_ite_eq' (Finset.range n) (n - 1 - k % n), if_pos (Finset.mem_range.mpr (by omega))]

theorem div_le_div_add_one {n j k : ℕ} (hn : 0 < n) (hj : j < n) (E : ℕ) : (E + j) / n ≤ (E + k) / n + 1 := by
  calc (E + j) / n ≤ (E + k + n) / n := Nat.div_le_div_right (by omega)
    _ = (E + k) / n + 1 := Nat.add_div_right _ hn

theorem div_le_self_of_lt {n j : ℕ} (hj : j < n) (E : ℕ) : (E + j) / n ≤ E := by
  rcases Nat.eq_zero_or_pos E with rfl | hE
  · rw [Nat.zero_add, Nat.div_eq_of_lt hj]
  · obtain ⟨m, rfl⟩ : ∃ m, n = m + 1 := ⟨n - 1, by omega⟩
    have hm : m ≤ m * E := Nat.le_mul_of_pos_right m hE
    exact Nat.div_le_of_le_mul (by rw [Nat.succ_mul]; omega)

/-! ## The loop -/

variable {vs : List (K × UInt64)}

theorem amortizeAfter_eq (vs : List (K × UInt64)) (hn : 0 < vs.length) (k : ℕ) :
    amortizeAfter vs k = vs.mapIdx fun j p => (p.1, p.2 - UInt64.ofNat ((k + j) / vs.length)) := by
  induction k with
  | zero =>
    rw [show amortizeAfter vs 0 = vs from rfl]
    refine List.ext_getElem (by simp) fun j h₁ h₂ => ?_
    simp [Nat.div_eq_of_lt h₁]
  | succ k ih =>
    rw [amortizeAfter, List.range_succ, List.foldl_append, ← amortizeAfter, ih, List.foldl_cons, List.foldl_nil]
    refine List.ext_getElem (by simp [amortizeStep]) fun j h₁ h₂ => ?_
    rw [List.length_mapIdx] at h₂
    have hr := Nat.mod_lt k hn
    simp only [amortizeStep, List.length_mapIdx, List.getElem_modify, List.getElem_mapIdx, div_succ_add hn h₂ k]
    by_cases h : j = vs.length - 1 - k % vs.length
    · -- the participant this round names loses one more
      simp only [if_pos (show vs.length - (k % vs.length + 1) = j by omega), if_pos h, UInt64.ofNat_add, sub_sub]
      rfl
    · simp only [if_neg (show ¬vs.length - (k % vs.length + 1) = j by omega), if_neg h, Nat.add_zero]

theorem getElem_amortize (hn : 0 < vs.length) {j : ℕ} (hj : j < vs.length)
    (h : j < (amortizeExcessKeyShares vs).length) :
    (amortizeExcessKeyShares vs)[j] =
      (vs[j].1, vs[j].2 - UInt64.ofNat ((excessKeyShares vs + j) / vs.length)) := by
  simp only [amortizeExcessKeyShares_eq, amortizeAfter_eq vs hn, List.getElem_mapIdx]

theorem toNat_sub_ofNat {a : UInt64} {c : ℕ} (h : c ≤ a.toNat) : (a - UInt64.ofNat c).toNat = a.toNat - c := by
  have hc : (UInt64.ofNat c).toNat = c := by
    rw [UInt64.toNat_ofNat']
    exact Nat.mod_eq_of_lt (h.trans_lt a.toNat_lt)
  rw [UInt64.toNat_sub_of_le _ _ (by rw [UInt64.le_iff_toNat_le, hc]; exact h), hc]

theorem toNat_amortizeAfter (hn : 0 < vs.length) {k j : ℕ} (hj : j < vs.length) (h : j < (amortizeAfter vs k).length)
    (hle : (k + j) / vs.length ≤ vs[j].2.toNat) :
    (amortizeAfter vs k)[j].2.toNat = vs[j].2.toNat - (k + j) / vs.length := by
  simp only [amortizeAfter_eq vs hn, List.getElem_mapIdx]
  exact toNat_sub_ofNat hle

theorem toNat_sum_of_lt (l : List (K × UInt64)) (hl : (l.map (·.2.toNat)).sum < 2 ^ 64) :
    ((l.map fun p : K × UInt64 => p.2).sum).toNat = (l.map (·.2.toNat)).sum := by
  induction l with
  | nil => rfl
  | cons p l ih =>
    simp only [List.map_cons, List.sum_cons] at hl ⊢
    rw [UInt64.toNat_add, ih (by omega), Nat.mod_eq_of_lt hl]

/-! ## On the lists `new_set` builds -/

section Shape

variable (hs : NewSetShape vs)
include hs

theorem length_le_sum : vs.length ≤ (vs.map (·.2.toNat)).sum := by
  have h := List.length_le_sum_of_one_le (vs.map (·.2.toNat)) fun x hx => by
    obtain ⟨p, hp, rfl⟩ := List.mem_map.mp hx
    exact hs.pos p hp
  rwa [List.length_map] at h

theorem sum_lt (hn : 0 < vs.length) :
    (vs.map (·.2.toNat)).sum < maxKeySharesPerSet.toNat + (vs.getLast (List.ne_nil_of_length_pos hn)).2.toNat := by
  have hsplit := congrArg (fun l => (l.map (·.2.toNat)).sum) (List.dropLast_append_getLast (List.ne_nil_of_length_pos hn))
  simp only [List.map_append, List.sum_append, List.map_singleton, List.sum_singleton] at hsplit
  have := hs.dropLast_lt
  omega

theorem toNat_sum (hn : 0 < vs.length) :
    ((vs.map fun p : K × UInt64 => p.2).sum).toNat = (vs.map (·.2.toNat)).sum := by
  have hlast := hs.le_max _ (List.getLast_mem (List.ne_nil_of_length_pos hn))
  have hlt := sum_lt hs hn
  have hmax : maxKeySharesPerSet.toNat = 150 := rfl
  exact toNat_sum_of_lt vs (by omega)

theorem excessKeyShares_eq (hn : 0 < vs.length) :
    excessKeyShares vs = (vs.map (·.2.toNat)).sum - maxKeySharesPerSet.toNat := by
  rw [excessKeyShares, saturatingSub_toNat, toNat_sum hs hn]

theorem excess_lt (hn : 0 < vs.length) {j : ℕ} (hj : j < vs.length) : excessKeyShares vs < vs[j].2.toNat := by
  have hlt := sum_lt hs hn
  have hpos := hs.pos vs[j] (List.getElem_mem hj)
  rw [excessKeyShares_eq hs hn]
  -- the last participant has the fewest
  have hle : (vs.getLast (List.ne_nil_of_length_pos hn)).2.toNat ≤ vs[j].2.toNat := by
    rw [List.getLast_eq_getElem]
    rcases Nat.lt_or_ge j (vs.length - 1) with hjl | hjl
    · have := List.pairwise_iff_getElem.mp hs.sorted j (vs.length - 1) (by simpa using hj) (by simp; omega) hjl
      simpa using this
    · obtain rfl : j = vs.length - 1 := by omega
      exact le_rfl
  omega

theorem loss_lt (hn : 0 < vs.length) {j : ℕ} (hj : j < vs.length) :
    (excessKeyShares vs + j) / vs.length < vs[j].2.toNat :=
  (div_le_self_of_lt hj _).trans_lt (excess_lt hs hn hj)

theorem toNat_amortize (hn : 0 < vs.length) {j : ℕ} (hj : j < vs.length)
    (h : j < (amortizeExcessKeyShares vs).length) :
    (amortizeExcessKeyShares vs)[j].2.toNat = vs[j].2.toNat - (excessKeyShares vs + j) / vs.length := by
  simp only [amortizeExcessKeyShares_eq]
  exact toNat_amortizeAfter hn hj _ (loss_lt hs hn hj).le

theorem amortizeAfter_pos (hn : 0 < vs.length) {i : ℕ} (hi : i < excessKeyShares vs) :
    ∃ p, (amortizeAfter vs i)[vs.length - (i % vs.length + 1)]? = some p ∧ 1 ≤ p.2.toNat := by
  have hr := Nat.mod_lt i hn
  have hidx : vs.length - (i % vs.length + 1) < vs.length := by omega
  -- the round names this participant, so it has lost one share less than it will
  have hnext := div_succ_add hn hidx i
  rw [if_pos (by omega)] at hnext
  have hmono : (i + 1 + (vs.length - (i % vs.length + 1))) / vs.length ≤
      (excessKeyShares vs + (vs.length - (i % vs.length + 1))) / vs.length := Nat.div_le_div_right (by omega)
  have hloss := loss_lt hs hn hidx
  have hlen : vs.length - (i % vs.length + 1) < (amortizeAfter vs i).length := by
    rw [amortizeAfter_eq vs hn, List.length_mapIdx]
    exact hidx
  refine ⟨_, List.getElem?_eq_getElem hlen, ?_⟩
  rw [toNat_amortizeAfter hn hidx hlen (by omega)]
  omega

theorem amortize_pos (hn : 0 < vs.length) : ∀ p ∈ amortizeExcessKeyShares vs, 1 ≤ p.2.toNat := by
  intro p hp
  obtain ⟨j, hj', rfl⟩ := List.mem_iff_getElem.mp hp
  have hj : j < vs.length := by rwa [amortizeExcessKeyShares_eq, amortizeAfter_eq vs hn, List.length_mapIdx] at hj'
  rw [toNat_amortize hs hn hj hj']
  have := loss_lt hs hn hj
  omega

theorem sum_amortize (hn : 0 < vs.length) :
    ((amortizeExcessKeyShares vs).map (·.2.toNat)).sum = min (vs.map (·.2.toNat)).sum maxKeySharesPerSet.toNat := by
  have hloss : ∀ i : Fin vs.length, (excessKeyShares vs + i) / vs.length ≤ (vs.get i).2.toNat :=
    fun i => (loss_lt hs hn i.isLt).le
  have hterm : ∀ i : Fin vs.length, ((vs.get i).2 - UInt64.ofNat ((excessKeyShares vs + i) / vs.length)).toNat =
      (vs.get i).2.toNat - (excessKeyShares vs + i) / vs.length :=
    fun i => toNat_sub_ofNat (hloss i)
  have hsum : (vs.map (·.2.toNat)).sum = ∑ i : Fin vs.length, (vs.get i).2.toNat := by
    conv_lhs => rw [← @List.ofFn_getElem _ vs]
    rw [List.map_ofFn, List.sum_ofFn]
    rfl
  have hlosses : ∑ i : Fin vs.length, (excessKeyShares vs + i) / vs.length = excessKeyShares vs := by
    rw [Fin.sum_univ_eq_sum_range (fun j => (excessKeyShares vs + j) / vs.length), sum_div_range hn]
  rw [amortizeExcessKeyShares_eq, amortizeAfter_eq vs hn, List.mapIdx_eq_ofFn, List.map_ofFn, List.sum_ofFn]
  simp only [Function.comp_apply, hterm]
  rw [Finset.sum_tsub_distrib _ fun i _ => hloss i, ← hsum, hlosses, excessKeyShares_eq hs hn]
  omega

theorem loss_le_loss_add_one (hn : 0 < vs.length) {j k : ℕ} (hj : j < vs.length) (hk : k < vs.length)
    (hj' : j < (amortizeExcessKeyShares vs).length) (hk' : k < (amortizeExcessKeyShares vs).length) :
    vs[j].2.toNat - (amortizeExcessKeyShares vs)[j].2.toNat ≤
      vs[k].2.toNat - (amortizeExcessKeyShares vs)[k].2.toNat + 1 := by
  rw [toNat_amortize hs hn hj hj', toNat_amortize hs hn hk hk']
  have hlj := loss_lt hs hn hj
  have hlk := loss_lt hs hn hk
  have := div_le_div_add_one (k := k) hn hj (excessKeyShares vs)
  omega

theorem head_amortize {p : K × UInt64} (hp : vs.head? = some p) :
    (amortizeExcessKeyShares vs).head? =
      some (p.1, postAmortizationKeySharesForTopValidator vs.length p.2 (vs.map fun p : K × UInt64 => p.2).sum) := by
  obtain ⟨rest, rfl⟩ : ∃ rest, vs = p :: rest := by
    cases vs with
    | nil => cases hp
    | cons q rest => exact ⟨rest, by simpa using hp⟩
  have hn : 0 < (p :: rest).length := by simp
  have hlen : (p :: rest).length < 2 ^ 64 := by
    have := length_le_sum hs
    have := sum_lt hs hn
    have hmax : maxKeySharesPerSet.toNat = 150 := rfl
    have := hs.le_max _ (List.getLast_mem (List.ne_nil_of_length_pos hn))
    omega
  have hofNat : (UInt64.ofNat (p :: rest).length).toNat = (p :: rest).length := by
    rw [UInt64.toNat_ofNat']
    exact Nat.mod_eq_of_lt hlen
  -- the top validator loses `excess / len`, as the formula divides on `u64`
  have hdiv : UInt64.ofNat ((excessKeyShares (p :: rest) + 0) / (p :: rest).length) =
      saturatingSub ((p :: rest).map fun p : K × UInt64 => p.2).sum maxKeySharesPerSet /
        UInt64.ofNat (p :: rest).length := by
    apply UInt64.toNat_inj.mp
    rw [UInt64.toNat_div, hofNat, UInt64.toNat_ofNat', Nat.add_zero, excessKeyShares]
    exact Nat.mod_eq_of_lt ((Nat.div_le_self _ _).trans_lt (UInt64.toNat_lt _))
  have h0 : 0 < (amortizeExcessKeyShares (p :: rest)).length := by
    rw [amortizeExcessKeyShares_eq, amortizeAfter_eq _ hn, List.length_mapIdx]
    exact hn
  rw [List.head?_eq_getElem?, List.getElem?_eq_getElem h0, getElem_amortize hn hn h0, hdiv]
  rfl

end Shape

theorem amortize_excess_key_shares (vs : List (K × UInt64)) (hs : NewSetShape vs) :
    -- no round takes a share from a participant without one
    (∀ i < excessKeyShares vs, ∃ p, (amortizeAfter vs i)[vs.length - (i % vs.length + 1)]? = some p ∧
      1 ≤ p.2.toNat) ∧
    (∀ p ∈ amortizeExcessKeyShares vs, 1 ≤ p.2.toNat) ∧
    ((amortizeExcessKeyShares vs).map (·.2.toNat)).sum =
      min (vs.map (·.2.toNat)).sum maxKeySharesPerSet.toNat ∧
    (∀ j k (hj : j < vs.length) (hk : k < vs.length) (hj' : j < (amortizeExcessKeyShares vs).length)
      (hk' : k < (amortizeExcessKeyShares vs).length),
      vs[j].2.toNat - (amortizeExcessKeyShares vs)[j].2.toNat ≤
        vs[k].2.toNat - (amortizeExcessKeyShares vs)[k].2.toNat + 1) ∧
    (∀ p, vs.head? = some p → (amortizeExcessKeyShares vs).head? =
      some (p.1, postAmortizationKeySharesForTopValidator vs.length p.2 (vs.map fun p : K × UInt64 => p.2).sum)) := by
  rcases Nat.eq_zero_or_pos vs.length with h0 | hn
  · -- no participants: nothing to take
    rw [List.length_eq_zero_iff] at h0
    subst h0
    have hE : excessKeyShares ([] : List (K × UInt64)) = 0 := rfl
    have hnil : amortizeExcessKeyShares ([] : List (K × UInt64)) = [] := rfl
    rw [hnil]
    exact ⟨fun i hi => absurd hi (by omega), fun p hp => absurd hp List.not_mem_nil, by simp,
      fun j k hj => absurd hj (by simp), fun p hp => by cases hp⟩
  exact ⟨fun i hi => amortizeAfter_pos hs hn hi, amortize_pos hs hn, sum_amortize hs hn,
    fun j k hj hk hj' hk' => loss_le_loss_add_one hs hn hj hk hj' hk', fun p hp => head_amortize hs hp⟩

/-- Three participants with 170 key shares keep 150. -/
theorem amortize_excess_key_shares_three :
    ((amortizeExcessKeyShares [((0 : ℕ), (100 : UInt64)), (1, 40), (2, 30)]).map (·.2.toNat)).sum =
      min ([((0 : ℕ), (100 : UInt64)), (1, 40), (2, 30)].map (·.2.toNat)).sum maxKeySharesPerSet.toNat :=
  (amortize_excess_key_shares _ ⟨by decide, by decide, by decide, by decide⟩).2.2.1

end Serai.ValidatorSets
