import Mathlib
import Serai.Tendermint.Machine
/-
  Serai.Tendermint.Quorum — the weights' thresholds (tendermint `ext.rs`:
  `Weights::threshold`, `Weights::fault_threshold`) and the weight test of
  `Network::verify_commit`.

  The code computes both thresholds on `u64`: `total_weight * 2 / 3 + 1` and
  `total_weight - threshold + 1` (`thresholdU64`, `faultThresholdU64`). For a total weight
  `w` with `1 ≤ w < 2 ^ 63` the product stays below `2 ^ 64` and the threshold below `w`, so
  both are the natural-number thresholds of `Weights` (`thresholdU64_toNat`,
  `faultThresholdU64_toNat`): `⌊2w/3⌋ + 1` and `w - ⌊2w/3⌋`, which add up to `w + 1` and
  of which twice the threshold is at least `w` plus the fault threshold.

  Over validators whose weights sum to `w`, two sets lose at most `w` to their union
  (`sum_add_sum_le_sum_inter`), so two sets at the threshold share the fault threshold's
  weight (`threshold_inter_weight`) and a set at the fault threshold shares weight with
  every set at the threshold (`faultThreshold_inter_weight`): the round jump
  (participation past the fault threshold) always includes a validator of any quorum, and
  two commits `verifyCommit` accepts were signed by validators with the fault threshold's
  weight in common (`verifyCommit_signers_inter`).

  - `weighted_quorum`: the `u64` arithmetic is exact, `1 ≤ fault_threshold ≤ threshold ≤ w`,
    and the two intersections.
-/

namespace Serai.Tendermint

variable {V : Type}

/-! ## The `u64` thresholds -/

/-- `Weights::threshold` as the code computes it, on `u64`. -/
def thresholdU64 (totalWeight : UInt64) : UInt64 := totalWeight * 2 / 3 + 1

/-- `Weights::fault_threshold` as the code computes it, on `u64`. -/
def faultThresholdU64 (totalWeight : UInt64) : UInt64 := totalWeight - thresholdU64 totalWeight + 1

theorem thresholdU64_toNat {t : UInt64} (h : t.toNat < 2 ^ 63) :
    (thresholdU64 t).toNat = t.toNat * 2 / 3 + 1 := by
  have hmul : (t * 2).toNat = t.toNat * 2 := by
    simp only [UInt64.toNat_mul, UInt64.reduceToNat]
    omega
  simp only [thresholdU64, UInt64.toNat_add, UInt64.toNat_div, hmul, UInt64.reduceToNat]
  omega

theorem faultThresholdU64_toNat {t : UInt64} (hpos : 1 ≤ t.toNat) (h : t.toNat < 2 ^ 63) :
    (faultThresholdU64 t).toNat = t.toNat - (t.toNat * 2 / 3 + 1) + 1 := by
  have hth := thresholdU64_toNat h
  -- the subtraction does not wrap: the threshold is at most the total
  have hle : thresholdU64 t ≤ t := by
    rw [UInt64.le_iff_toNat_le, hth]
    omega
  simp only [faultThresholdU64, UInt64.toNat_add, UInt64.toNat_sub_of_le _ _ hle, hth, UInt64.reduceToNat]
  omega

/-! ## The thresholds' bounds -/

section Bounds

variable (w : Weights V)

theorem threshold_le_totalWeight (hpos : 1 ≤ w.totalWeight) : w.threshold ≤ w.totalWeight := by
  unfold Weights.threshold
  omega

theorem one_le_faultThreshold : 1 ≤ w.faultThreshold := by
  unfold Weights.faultThreshold
  omega

theorem faultThreshold_le_threshold : w.faultThreshold ≤ w.threshold := by
  unfold Weights.faultThreshold Weights.threshold
  omega

theorem totalWeight_add_faultThreshold_le : w.totalWeight + w.faultThreshold ≤ 2 * w.threshold := by
  unfold Weights.faultThreshold Weights.threshold
  omega

theorem totalWeight_lt_faultThreshold_add_threshold : w.totalWeight < w.faultThreshold + w.threshold := by
  unfold Weights.faultThreshold
  omega

end Bounds

/-! ## Intersections -/

theorem sum_add_sum_le_sum_inter [DecidableEq V] (f : V → ℕ) {S T U : Finset V} (hS : S ⊆ U) (hT : T ⊆ U) :
    ∑ v ∈ S, f v + ∑ v ∈ T, f v ≤ ∑ v ∈ U, f v + ∑ v ∈ S ∩ T, f v := by
  rw [← Finset.sum_union_inter]
  exact Nat.add_le_add_right (Finset.sum_le_sum_of_subset (Finset.union_subset hS hT)) _

/-- The weight of a set of validators. -/
def weightOf (w : Weights V) (S : Finset V) : ℕ := ∑ v ∈ S, w.weight v

section Intersections

variable [DecidableEq V] (w : Weights V) {validators S T : Finset V}
  (htotal : weightOf w validators = w.totalWeight) (hS : S ⊆ validators) (hT : T ⊆ validators)
include htotal hS hT

theorem inter_weight_ge : weightOf w S + weightOf w T ≤ w.totalWeight + weightOf w (S ∩ T) :=
  htotal ▸ sum_add_sum_le_sum_inter w.weight hS hT

theorem threshold_inter_weight (h₁ : w.threshold ≤ weightOf w S) (h₂ : w.threshold ≤ weightOf w T) :
    w.faultThreshold ≤ weightOf w (S ∩ T) := by
  have hinter := inter_weight_ge w htotal hS hT
  have hquorums := totalWeight_add_faultThreshold_le w
  omega

theorem faultThreshold_inter_weight (h₁ : w.faultThreshold ≤ weightOf w S) (h₂ : w.threshold ≤ weightOf w T) :
    0 < weightOf w (S ∩ T) := by
  have hinter := inter_weight_ge w htotal hS hT
  have hboth := totalWeight_lt_faultThreshold_add_threshold w
  omega

end Intersections

/-! ## Commits -/

/-- `Network::verify_commit`: no signer twice, the aggregate signature of
    `commit_msg(end_time, id)` valid, and the signers' weight at the threshold. -/
def verifyCommit {Id Sig : Type} [DecidableEq V] (w : Weights V) (verifyAggregate : List V → ℕ → Id → Sig → Bool)
    (id : Id) (commit : Commit V Sig) : Bool :=
  decide commit.validators.Nodup && verifyAggregate commit.validators commit.endTime id commit.signature &&
    decide (w.threshold ≤ (commit.validators.map w.weight).sum)

theorem threshold_le_of_verifyCommit {Id Sig : Type} [DecidableEq V] {w : Weights V}
    {verifyAggregate : List V → ℕ → Id → Sig → Bool} {id : Id} {commit : Commit V Sig}
    (h : verifyCommit w verifyAggregate id commit = true) :
    w.threshold ≤ weightOf w commit.validators.toFinset := by
  simp only [verifyCommit, Bool.and_eq_true, decide_eq_true_eq] at h
  rw [weightOf, List.sum_toFinset _ h.1.1]
  exact h.2

theorem verifyCommit_signers_inter {Id Sig : Type} [DecidableEq V] {w : Weights V} {validators : Finset V}
    (htotal : weightOf w validators = w.totalWeight) {verifyAggregate : List V → ℕ → Id → Sig → Bool}
    {id₁ id₂ : Id} {c₁ c₂ : Commit V Sig}
    (h₁ : verifyCommit w verifyAggregate id₁ c₁ = true) (h₂ : verifyCommit w verifyAggregate id₂ c₂ = true)
    (hv₁ : ∀ v ∈ c₁.validators, v ∈ validators) (hv₂ : ∀ v ∈ c₂.validators, v ∈ validators) :
    w.faultThreshold ≤ weightOf w (c₁.validators.toFinset ∩ c₂.validators.toFinset) :=
  threshold_inter_weight w htotal (fun v hv => hv₁ v (List.mem_toFinset.mp hv))
    (fun v hv => hv₂ v (List.mem_toFinset.mp hv)) (threshold_le_of_verifyCommit h₁) (threshold_le_of_verifyCommit h₂)

/-! ## The weighted quorums -/

theorem weighted_quorum [DecidableEq V] (w : Weights V) (validators : Finset V)
    (htotal : weightOf w validators = w.totalWeight) (hpos : 1 ≤ w.totalWeight) (hlt : w.totalWeight < 2 ^ 63) :
    (w.totalWeight * 2 < 2 ^ 64 ∧ w.threshold ≤ w.totalWeight ∧
      (thresholdU64 (UInt64.ofNat w.totalWeight)).toNat = w.threshold ∧
      (faultThresholdU64 (UInt64.ofNat w.totalWeight)).toNat = w.faultThreshold) ∧
    1 ≤ w.faultThreshold ∧ w.faultThreshold ≤ w.threshold ∧ w.threshold ≤ w.totalWeight ∧
    (∀ S T, S ⊆ validators → T ⊆ validators → w.threshold ≤ weightOf w S → w.threshold ≤ weightOf w T →
      w.faultThreshold ≤ weightOf w (S ∩ T)) ∧
    (∀ S T, S ⊆ validators → T ⊆ validators → w.faultThreshold ≤ weightOf w S → w.threshold ≤ weightOf w T →
      0 < weightOf w (S ∩ T)) := by
  have hof : (UInt64.ofNat w.totalWeight).toNat = w.totalWeight := by
    rw [UInt64.toNat_ofNat']
    exact Nat.mod_eq_of_lt (by omega)
  have hle := threshold_le_totalWeight w hpos
  refine ⟨⟨by omega, hle, ?_, ?_⟩, one_le_faultThreshold w, faultThreshold_le_threshold w, hle,
    fun S T hS hT => threshold_inter_weight w htotal hS hT, fun S T hS hT => faultThreshold_inter_weight w htotal hS hT⟩
  · rw [thresholdU64_toNat (by omega), hof]
    rfl
  · rw [faultThresholdU64_toNat (by omega) (by omega), hof]
    rfl

/-- Four validators of weight one. -/
def fourWeights : Weights (Fin 4) := ⟨4, fun _ => 1, fun _ _ => 0⟩

/-- Validators `0, 1, 2` and `1, 2, 3` are both quorums; they share two validators. -/
theorem weighted_quorum_four :
    fourWeights.faultThreshold ≤ weightOf fourWeights ({0, 1, 2} ∩ {1, 2, 3}) :=
  (weighted_quorum fourWeights Finset.univ (by decide) (by decide) (by decide)).2.2.2.2.1 {0, 1, 2} {1, 2, 3}
    (Finset.subset_univ _) (Finset.subset_univ _) (by decide) (by decide)

end Serai.Tendermint
