import Serai.Tendermint.MessageLog
/-
  Serai.Tendermint.Round — a round's timing (coordinator/tributary/tendermint/src/round.rs,
  time.rs, block.rs): when each of its steps times out, when it ends, and the end times a
  block's data keeps for its rounds, filled in as the machine moves to a later round
  (`populate_end_time`).

  A time is the canonical part of a `CanonicalInstant`, in seconds since the epoch. The
  source keeps it as a `u64` beside an `Instant` that every addition moves too; the
  `Instant`'s seconds are an `i64` close to the canonical ones, so its addition overflows
  and panics long before the canonical seconds could pass 2^64. The model takes times as
  natural numbers and leaves the `Instant` out, with the sleeps it serves. A step's timeout
  is `BLOCK_PROCESSING_TIME` and `LATENCY_TIME` scaled by the round number plus one, in `u32`
  milliseconds as the source computes them (wrapping), whose whole seconds are added to the
  round's start.

  - `endTimeFrom`: the end time of a round from a block's start time, as
    `verify_tendermint_evience` recomputes it; `endTimeFrom_succ` says each round ends its
    length after the one before it.
  - `populateEndTime_spec`: populating from the current round to a later one, over end
    times that are those from a start time up to the current round, writes those of every
    round up to the later one and leaves the rest.
-/

namespace Serai.Tendermint

/-- `Network::BLOCK_PROCESSING_TIME` and `Network::LATENCY_TIME`, in milliseconds. -/
structure Timing where
  blockProcessingTime : UInt32
  latencyTime : UInt32

/-- `RoundData`: its number, start time and step, and the time each timeout set fires at. -/
structure RoundData where
  number : UInt32
  startTime : ℕ
  step : Step
  timeouts : Step → Option ℕ

/-- `RoundData::new`. -/
def RoundData.new (number : UInt32) (startTime : ℕ) : RoundData :=
  ⟨number, startTime, .propose, fun _ => none⟩

/-- The offset of a step's timeout from its round's start, in `u32` milliseconds. -/
def Timing.offset (tm : Timing) (number : UInt32) (step : Step) : UInt32 :=
  let adjustedBlock := tm.blockProcessingTime * (number + 1)
  let adjustedLatency := tm.latencyTime * (number + 1)
  match step with
  | .propose => adjustedBlock + adjustedLatency
  | .prevote => adjustedBlock + 2 * adjustedLatency
  | .precommit => adjustedBlock + 3 * adjustedLatency

/-- `RoundData::timeout`: the start plus the offset's whole seconds
    (`CanonicalInstant + Duration::from_millis`). -/
def RoundData.timeout (tm : Timing) (r : RoundData) (step : Step) : ℕ :=
  r.startTime + (tm.offset r.number step).toNat / 1000

/-- `RoundData::end_time`. -/
def RoundData.endTime (tm : Timing) (r : RoundData) : ℕ := r.timeout tm .precommit

/-- `RoundData::set_timeout`: a timeout already set keeps its time. -/
def RoundData.setTimeout (tm : Timing) (r : RoundData) (step : Step) : RoundData :=
  match r.timeouts step with
  | some _ => r
  | none => { r with timeouts := Function.update r.timeouts step (some (r.timeout tm step)) }

/-- How long round `number` lasts, in whole seconds. -/
def Timing.length (tm : Timing) (number : UInt32) : ℕ := (tm.offset number .precommit).toNat / 1000

@[simp] theorem endTime_new (tm : Timing) (number : UInt32) (startTime : ℕ) :
    (RoundData.new number startTime).endTime tm = startTime + tm.length number := rfl

/-- The rounds `a ..= b`. -/
def roundRange (a b : UInt32) : List UInt32 :=
  (List.range' a.toNat (b.toNat + 1 - a.toNat)).map UInt32.ofNat

/-- The end time of round `round` from a block's start time `t`: the loop of
    `verify_tendermint_evience`, each round started when the one before ended. -/
def endTimeFrom (tm : Timing) (t : ℕ) (round : UInt32) : ℕ :=
  (roundRange 0 round).foldl (fun last r => (RoundData.new r last).endTime tm) t

/-- `BlockData::populate_end_time`, from the current round: each later round up to `round`
    ends its length after the one before; `None` is the panic of `self.end_time[&(r - 1)]`. -/
def populateEndTime (tm : Timing) (current round : UInt32) (endTime : UInt32 → Option ℕ) :
    Option (UInt32 → Option ℕ) :=
  (roundRange (current + 1) round).foldlM (fun endTime r =>
    (endTime (r - 1)).map fun prev => Function.update endTime r (some ((RoundData.new r prev).endTime tm)))
    endTime

/-! ## End times -/

theorem roundRange_succ {a b : UInt32} (hab : a.toNat ≤ b.toNat + 1) (hb : b < UInt32.ofNat (2 ^ 32 - 1)) :
    roundRange a (b + 1) = roundRange a b ++ [b + 1] := by
  have hb' : b.toNat < 2 ^ 32 - 1 := by
    rw [UInt32.lt_iff_toNat_lt] at hb
    simpa using hb
  have hsucc : (b + 1).toNat = b.toNat + 1 := by
    rw [UInt32.toNat_add]
    simp only [UInt32.toNat_one]
    omega
  unfold roundRange
  rw [hsucc, show b.toNat + 1 + 1 - a.toNat = (b.toNat + 1 - a.toNat) + 1 by omega, List.range'_concat,
    List.map_append]
  simp only [List.map_cons, List.map_nil]
  congr 2
  apply UInt32.toNat_inj.mp
  rw [UInt32.toNat_ofNat', hsucc]
  omega

@[simp] theorem endTimeFrom_zero (tm : Timing) (t : ℕ) : endTimeFrom tm t 0 = t + tm.length 0 := by
  rfl

theorem endTimeFrom_succ (tm : Timing) (t : ℕ) {round : UInt32} (h : round < UInt32.ofNat (2 ^ 32 - 1)) :
    endTimeFrom tm t (round + 1) = endTimeFrom tm t round + tm.length (round + 1) := by
  unfold endTimeFrom
  rw [roundRange_succ (by simp) h, List.foldl_append]
  rfl

/-- End times that are those from start time `t` for every round up to `current`. -/
def EndTimesUpTo (tm : Timing) (t : ℕ) (current : UInt32) (endTime : UInt32 → Option ℕ) : Prop :=
  ∀ r, r ≤ current → endTime r = some (endTimeFrom tm t r)

/-- The end times a block's data keeps in round `current` when its round 0 started at `t`:
    those from `t` up to `current`, and none after it. -/
def endTimesFrom (tm : Timing) (t : ℕ) (current : UInt32) : UInt32 → Option ℕ :=
  fun r => if r ≤ current then some (endTimeFrom tm t r) else none

@[simp] theorem endTimesFrom_of_le {tm : Timing} {t : ℕ} {current r : UInt32} (h : r ≤ current) :
    endTimesFrom tm t current r = some (endTimeFrom tm t r) := if_pos h

theorem endTimesFrom_of_lt {tm : Timing} {t : ℕ} {current r : UInt32} (h : current < r) :
    endTimesFrom tm t current r = none := if_neg (UInt32.not_le.mpr h)

theorem le_foldl_endTime (tm : Timing) : ∀ (l : List UInt32) (last : ℕ),
    last ≤ l.foldl (fun last r => (RoundData.new r last).endTime tm) last
  | [], _ => le_rfl
  | r :: l, last => by
    rw [List.foldl_cons]
    exact le_trans (by simp) (le_foldl_endTime tm l _)

theorem endTimeFrom_mono (tm : Timing) (t : ℕ) {r r' : UInt32} (h : r ≤ r') :
    endTimeFrom tm t r ≤ endTimeFrom tm t r' := by
  rw [UInt32.le_iff_toNat_le] at h
  -- the rounds up to `r'` are those up to `r` and then the rest
  have hsplit : roundRange 0 r' =
      roundRange 0 r ++ (List.range' (r.toNat + 1) (r'.toNat - r.toNat)).map UInt32.ofNat := by
    unfold roundRange
    rw [← List.map_append]
    congr 1
    simp only [UInt32.toNat_zero, Nat.sub_zero]
    rw [show r'.toNat + 1 = (r.toNat + 1) + (r'.toNat - r.toNat) by omega, ← List.range'_append]
    simp
  unfold endTimeFrom
  rw [hsplit, List.foldl_append]
  exact le_foldl_endTime tm _ _

section Populate

variable {tm : Timing} {t : ℕ}

theorem toNat_succ_of_lt {r : UInt32} (h : r.toNat < 2 ^ 32 - 1) : (r + 1).toNat = r.toNat + 1 := by
  rw [UInt32.toNat_add]
  simp only [UInt32.toNat_one]
  omega

theorem toNat_lt_of_lt {r r' : UInt32} (h : r < r') : r.toNat < 2 ^ 32 - 1 := by
  rw [UInt32.lt_iff_toNat_lt] at h
  have := r'.toNat_lt
  omega

theorem ne_zero_of_lt {r r' : UInt32} (h : r < r') : r' ≠ 0 := by
  rintro rfl
  rw [UInt32.lt_iff_toNat_lt] at h
  simp at h

theorem sub_one_le_of_lt {r r' : UInt32} (h : r < r') : r' - 1 ≤ r' := by
  have hpos := UInt32.lt_iff_toNat_lt.mp h
  have h1 : (1 : UInt32) ≤ r' := UInt32.le_iff_toNat_le.mpr (by simp; omega)
  rw [UInt32.le_iff_toNat_le, UInt32.toNat_sub_of_le _ _ h1]
  omega

theorem populateEndTime_self {current : UInt32} (hcur : current.toNat < 2 ^ 32 - 1) (endTime : UInt32 → Option ℕ) :
    populateEndTime tm current current endTime = some endTime := by
  simp [populateEndTime, roundRange, toNat_succ_of_lt hcur]

theorem populateEndTime_succ {current round : UInt32} (hcur : current.toNat ≤ round.toNat)
    (hround : round.toNat < 2 ^ 32 - 1) (hcur' : current.toNat < 2 ^ 32 - 1) (endTime : UInt32 → Option ℕ) :
    populateEndTime tm current (round + 1) endTime =
      (populateEndTime tm current round endTime).bind fun et =>
        (et round).map fun prev => Function.update et (round + 1) (some ((RoundData.new (round + 1) prev).endTime tm)) := by
  have hlt : round < UInt32.ofNat (2 ^ 32 - 1) := by
    rw [UInt32.lt_iff_toNat_lt, UInt32.toNat_ofNat']
    omega
  unfold populateEndTime
  rw [roundRange_succ (by rw [toNat_succ_of_lt hcur']; omega) hlt, List.foldlM_append]
  have hsub : round + 1 - 1 = round := by
    apply UInt32.toNat_inj.mp
    rw [UInt32.toNat_sub_of_le _ _ (by rw [UInt32.le_iff_toNat_le, toNat_succ_of_lt hround]; simp), toNat_succ_of_lt hround]
    simp
  simp only [List.foldlM_cons, List.foldlM_nil, hsub, bind_pure]
  rfl

theorem populateEndTime_upTo {current : UInt32} {endTime : UInt32 → Option ℕ}
    (h : EndTimesUpTo tm t current endTime) (hcur : current.toNat < 2 ^ 32 - 1) :
    ∀ n : ℕ, current.toNat ≤ n → n < 2 ^ 32 → ∃ et, populateEndTime tm current (UInt32.ofNat n) endTime = some et ∧
      EndTimesUpTo tm t (UInt32.ofNat n) et ∧ ∀ r, UInt32.ofNat n < r → et r = endTime r := by
  intro n
  induction n with
  | zero =>
    intro hle _
    have hc : current = UInt32.ofNat 0 := UInt32.toNat_inj.mp (by simp; omega)
    subst hc
    exact ⟨endTime, populateEndTime_self hcur endTime, h, fun _ _ => rfl⟩
  | succ n ih =>
    intro hle hn
    by_cases hcn : current.toNat = n + 1
    · -- the later round is the current one: nothing is written
      have hc : current = UInt32.ofNat (n + 1) := UInt32.toNat_inj.mp (by rw [UInt32.toNat_ofNat']; omega)
      subst hc
      exact ⟨endTime, populateEndTime_self hcur endTime, h, fun _ _ => rfl⟩
    obtain ⟨et, het, hup, hrest⟩ := ih (by omega) (by omega)
    have hsucc : UInt32.ofNat (n + 1) = UInt32.ofNat n + 1 := UInt32.toNat_inj.mp (by
      rw [UInt32.toNat_ofNat', toNat_succ_of_lt (by rw [UInt32.toNat_ofNat']; omega), UInt32.toNat_ofNat']
      omega)
    have hnat : (UInt32.ofNat n).toNat = n := by rw [UInt32.toNat_ofNat']; omega
    have hprev : et (UInt32.ofNat n) = some (endTimeFrom tm t (UInt32.ofNat n)) := hup _ (UInt32.le_refl _)
    rw [hsucc, populateEndTime_succ (by omega) (by omega) (by omega), het]
    simp only [Option.bind_some, hprev, Option.map_some]
    refine ⟨_, rfl, ?_, ?_⟩
    · intro r hr
      by_cases hrn : r = UInt32.ofNat n + 1
      · subst hrn
        rw [Function.update_self, endTime_new,
          endTimeFrom_succ tm t (by simp only [UInt32.lt_iff_toNat_lt, UInt32.toNat_ofNat']; omega)]
      · rw [Function.update_of_ne hrn]
        apply hup
        rw [UInt32.le_iff_toNat_le] at hr ⊢
        have hne : r.toNat ≠ n + 1 := fun heq => hrn (UInt32.toNat_inj.mp (by
          rw [toNat_succ_of_lt (by omega), hnat, heq]))
        rw [toNat_succ_of_lt (by omega), hnat] at hr
        omega
    · intro r hr
      have hne : r ≠ UInt32.ofNat n + 1 := by
        rintro rfl
        exact UInt32.lt_irrefl _ hr
      rw [Function.update_of_ne hne]
      apply hrest
      rw [UInt32.lt_iff_toNat_lt] at hr ⊢
      rw [toNat_succ_of_lt (by omega), hnat] at hr
      omega

theorem endTimeFrom_pred {round : UInt32} (h : round ≠ 0) :
    endTimeFrom tm t round = endTimeFrom tm t (round - 1) + tm.length round := by
  have hpos : 0 < round.toNat := by
    rcases Nat.eq_zero_or_pos round.toNat with h0 | h0
    · exact absurd (UInt32.toNat_inj.mp (by simpa using h0)) h
    · exact h0
  have hsub : (round - 1).toNat = round.toNat - 1 :=
    UInt32.toNat_sub_of_le _ _ (by rw [UInt32.le_iff_toNat_le]; simp; omega)
  have hlt : round - 1 < UInt32.ofNat (2 ^ 32 - 1) := by
    rw [UInt32.lt_iff_toNat_lt, UInt32.toNat_ofNat', hsub]
    have := round.toNat_lt
    omega
  conv_lhs => rw [← UInt32.sub_add_cancel round 1]
  rw [endTimeFrom_succ tm t hlt, UInt32.sub_add_cancel]

theorem endTimesUpTo_endTimesFrom {current R : UInt32} (h : current ≤ R) :
    EndTimesUpTo tm t current (endTimesFrom tm t R) := by
  intro r hr
  simp [endTimesFrom, UInt32.le_trans hr h]

theorem populateEndTime_of_le {current round : UInt32} (hcur : current.toNat < 2 ^ 32 - 1) (hle : round ≤ current)
    (endTime : UInt32 → Option ℕ) : populateEndTime tm current round endTime = some endTime := by
  rw [UInt32.le_iff_toNat_le] at hle
  simp [populateEndTime, roundRange, toNat_succ_of_lt hcur, show round.toNat + 1 - (current.toNat + 1) = 0 by omega]


theorem populateEndTime_spec {current round : UInt32} {endTime : UInt32 → Option ℕ}
    (h : EndTimesUpTo tm t current endTime) (hlt : current < round) :
    ∃ et, populateEndTime tm current round endTime = some et ∧ EndTimesUpTo tm t round et ∧
      ∀ r, round < r → et r = endTime r := by
  rw [UInt32.lt_iff_toNat_lt] at hlt
  have hround := round.toNat_lt
  have := populateEndTime_upTo h (by omega) round.toNat (by omega) hround
  simpa using this

theorem le_ite_of_le {a R round : UInt32} (h : a ≤ R) : a ≤ (if round ≤ R then R else round) := by
  split_ifs with hle
  · exact h
  · exact UInt32.le_of_lt (UInt32.lt_of_le_of_lt h (UInt32.not_le.mp hle))

theorem self_le_ite {R round : UInt32} : round ≤ (if round ≤ R then R else round) := by
  split_ifs with hle
  · exact hle
  · exact UInt32.le_refl _

theorem populateEndTime_endTimesFrom {current R : UInt32} (hcur : current.toNat < 2 ^ 32 - 1) (hcR : current ≤ R)
    (round : UInt32) :
    populateEndTime tm current round (endTimesFrom tm t R) = some (endTimesFrom tm t (if round ≤ R then R else round)) := by
  by_cases hround : round ≤ current
  · rw [populateEndTime_of_le hcur hround, if_pos (UInt32.le_trans hround hcR)]
  · obtain ⟨et, het, hup, hrest⟩ := populateEndTime_spec (endTimesUpTo_endTimesFrom hcR) (UInt32.not_le.mp hround)
    rw [het]
    congr 1
    funext r
    by_cases hr : r ≤ round
    · rw [hup r hr]
      by_cases hR : round ≤ R
      · simp [endTimesFrom, hR, UInt32.le_trans hr hR]
      · simp [endTimesFrom, hR, hr]
    · rw [hrest r (UInt32.not_le.mp hr)]
      by_cases hR : round ≤ R
      · rw [if_pos hR]
      · have hrR : ¬r ≤ R := fun h => hr (UInt32.le_of_lt (UInt32.lt_of_le_of_lt h (UInt32.not_le.mp hR)))
        simp [endTimesFrom, hR, hr, hrR]

end Populate

end Serai.Tendermint
