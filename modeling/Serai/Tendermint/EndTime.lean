import Serai.Tendermint.Finalizer
/-
  Serai.Tendermint.EndTime — the end times a machine keeps for its rounds
  (coordinator/tributary/tendermint/src/block.rs, `populate_end_time` and `new_round`),
  those `verify_tendermint_evience` recomputes from the previous commit (lib.rs), and
  `reset_by_commit`'s search for the round of a commit.

  A block's round 0 starts when the previous block's commit says it ended, `t`; round `r`
  ends at `endTimeFrom t r`, as the evidence verifier computes it. `StartedAt t m`: the
  machine keeps those end times up to its round, and none after it.
  - `Reach.startedAt`: every machine a run reaches from `TendermintMachine::new` keeps the
    end times from some `t`, whatever jumps it made: a later round (a timeout's or a
    jump's) populates the rounds before it from `t` (`round_startedAt`), and a new block
    starts from the end time of the round its commit is of (`reset_startedAt`).
  - `invalidPrecommit_accepted`: the evidence `verify_precommit_signature` gives on a
    precommit of such a machine's block is accepted by a node holding the previous commit.
  - `resetByCommit_found`: `reset_by_commit` finds the round of a commit whose end time is
    one from `t`, and starts the next block at it.
  - `end_times_agree`: the three together.
  - `verifyTendermintEvidence_eq_none_iff`: the verifier's one panic is its `todo!`, which
    any validly signed precommit of block 0 reaches (`block_zero_precommit_evidence_panics`).

  The round number is a `u32`. In a release build the precommit timeout of round u32::MAX
  moves to round 0 with no start time, and `new_round` takes round 0's start from the end
  of round u32::MAX (`newRound_after_last_round`): from there on round 0's end time is not
  the one from `t` (`end_time_after_last_round_diverges`). So every result here is for runs
  whose steps start short of the last round, which is what `Reach` allows.
-/

namespace Serai.Tendermint

open Serai.Lib

variable {V B Id Sig : Type} (net : Network V B Id Sig)

/-! ## The evidence verifier -/

section Verifier

variable [DecidableEq V]

/-- `PartialEq for Message`, derived: field by field, the data by `Data.same`. -/
def Message.same [DecidableEq B] [DecidableEq Id] (a b : Message V B Id Sig) : Bool :=
  decide (a.sender = b.sender) && decide (a.block = b.block) && decide (a.round = b.round) && a.data.same b.data

/-- `verify_tendermint_evience`, on evidence decoded already; `commit` is the node's commit
    of each block, and `none` is the `todo!` for a precommit of block 0. -/
def verifyTendermintEvidence [DecidableEq B] [DecidableEq Id] (evidence : Evidence V B Id Sig)
    (commit : UInt64 → Option (Commit V Sig)) : Option (Except (TendermintError V B Id Sig) Unit) :=
  match evidence with
  | .conflictingMessages first second =>
    some <|
      if !net.verifySigned first || !net.verifySigned second then throw .invalidEvidence
      -- distinct messages, from the same sender, within the same block
      else if first.msg.same second.msg || decide (first.msg.sender ≠ second.msg.sender) ||
          decide (first.msg.block ≠ second.msg.block) then throw .invalidEvidence
      -- within the same round and step
      else if !(decide (first.msg.round = second.msg.round) && decide (first.msg.data.step = second.msg.data.step)) then
        throw .invalidEvidence
      else pure ()
  | .invalidPrecommit signed =>
    if !net.verifySigned signed then some (throw .invalidEvidence)
    else
      match signed.msg.data with
      | .precommit (some (id, sig)) =>
        if signed.msg.block = 0 then none
        else
          match commit (signed.msg.block - 1) with
          | none => some (throw .invalidEvidence)
          | some prior =>
            -- the end time of the message's round from the previous commit's
            some <|
              if net.verifyCommitSig signed.msg.sender (endTimeFrom net.timing prior.endTime signed.msg.round) id sig then
                throw .invalidEvidence
              else pure ()
      | _ => some (throw .invalidEvidence)
  | .invalidValidRound signed =>
    some <|
      if !net.verifySigned signed then throw .invalidEvidence
      else
        match signed.msg.data with
        | .proposal (some validRound) _ => if validRound < signed.msg.round then throw .invalidEvidence else pure ()
        | _ => throw .invalidEvidence

variable [DecidableEq B] [DecidableEq Id]

theorem verifyTendermintEvidence_eq_none_iff (evidence : Evidence V B Id Sig) (commit : UInt64 → Option (Commit V Sig)) :
    verifyTendermintEvidence net evidence commit = none ↔
      ∃ signed id sig, evidence = .invalidPrecommit signed ∧ net.verifySigned signed = true ∧
        signed.msg.block = 0 ∧ signed.msg.data = .precommit (some (id, sig)) := by
  cases evidence with
  | conflictingMessages first second => simp [verifyTendermintEvidence]
  | invalidValidRound signed => simp [verifyTendermintEvidence]
  | invalidPrecommit signed =>
    simp only [verifyTendermintEvidence, Evidence.invalidPrecommit.injEq, exists_and_left, exists_eq_left']
    cases hsig : net.verifySigned signed with
    | false => simp
    | true =>
      -- past the signature, only a precommit of a block reaches the block-0 test
      simp only [Bool.not_true, Bool.false_eq_true, if_false, true_and]
      split
      · rename_i id sig hdata
        simp only [hdata, Data.precommit.injEq, Option.some.injEq, Prod.mk.injEq, exists_and_left, exists_eq',
          and_true]
        split
        · simp [*]
        · split <;> simp [*]
      · rename_i hdata
        simp only [reduceCtorEq, false_iff, not_and, not_exists]
        intro _ id sig h
        exact hdata id sig h

/-- Evidence of an invalid precommit signature on block 0, validly signed, reaches the
    `todo!` whatever the commits the node holds and whatever the round. -/
theorem block_zero_precommit_evidence_panics {signed : SignedMessage V B Id Sig} {id : Id} {sig : Sig}
    (hsig : net.verifySigned signed = true) (hblock : signed.msg.block = 0)
    (hdata : signed.msg.data = .precommit (some (id, sig))) (commit : UInt64 → Option (Commit V Sig)) :
    verifyTendermintEvidence net (.invalidPrecommit signed) commit = none :=
  (verifyTendermintEvidence_eq_none_iff net _ commit).mpr ⟨signed, id, sig, rfl, hsig, hblock, hdata⟩

end Verifier

/-- Validator 1's precommit of block 0, round u32::MAX, submitted as evidence to a node
    holding no commits. -/
theorem block_zero_precommit_evidence_panics_four :
    verifyTendermintEvidence fourEqual (.invalidPrecommit ⟨⟨1, 0, UInt32.ofNat (2 ^ 32 - 1), .precommit (some (8, ()))⟩, ()⟩)
      (fun _ => none) = none :=
  block_zero_precommit_evidence_panics fourEqual rfl rfl rfl _

/-! ## The end times a machine keeps -/

/-- The machine keeps the end times of its block's rounds from `t`, up to its round. -/
def StartedAt (t : ℕ) (m : Machine V B Id Sig) : Prop :=
  m.block.endTime = endTimesFrom net.timing t m.block.round.number

variable {net} {m m' : Machine V B Id Sig} {t : ℕ}

theorem StartedAt.of_sameKeys (hq : StartedAt net t m) (h : SameKeys m m') : StartedAt net t m' := by
  unfold StartedAt at *
  rw [h.endTime, h.round, hq]

theorem StartedAt.of_sameCore (hq : StartedAt net t m) (h : SameCore m m') : StartedAt net t m' :=
  hq.of_sameKeys h.sameKeys

section Rounds

variable [DecidableEq V] (net)

theorem newRound_endTimesFrom {b b' : BlockData V B Id Sig} {round : UInt32} {proposer : V}
    {data : Option (Data B Id Sig)} (hq : b.endTime = endTimesFrom net.timing t b.round.number)
    (hlt : b.round.number < round) (h : b.newRound net round proposer none = some (b', data)) :
    b'.endTime = endTimesFrom net.timing t round ∧ b'.round.number = round := by
  obtain ⟨-, -, hround, endTime, start, hend, hstart, hb'⟩ := newRound_fields net h
  have hne := ne_zero_of_lt hlt
  rw [if_pos hne, hq, populateEndTime_endTimesFrom (toNat_lt_of_lt hlt) (UInt32.le_refl _),
    if_neg (UInt32.not_le.mpr hlt), Option.some.injEq] at hend
  subst hend
  -- round `round`'s start is round `round - 1`'s end
  rw [endTimesFrom_of_le (sub_one_le_of_lt hlt), Option.some.injEq] at hstart
  subst hstart
  refine ⟨?_, hround⟩
  rw [hb']
  funext r
  by_cases hr : r = round
  · subst hr
    rw [Function.update_self, endTimesFrom_of_le (UInt32.le_refl _), endTimeFrom_pred hne]
  · rw [Function.update_of_ne hr]

theorem newRound_isSome_of_lt {b : BlockData V B Id Sig} {round : UInt32} (proposer : V)
    (hq : b.endTime = endTimesFrom net.timing t b.round.number) (hlt : b.round.number < round) :
    ∃ b' data, b.newRound net round proposer none = some (b', data) := by
  unfold BlockData.newRound
  rw [if_pos (ne_zero_of_lt hlt), hq, populateEndTime_endTimesFrom (toNat_lt_of_lt hlt) (UInt32.le_refl _),
    if_neg (UInt32.not_le.mpr hlt), Option.bind_some]
  dsimp only
  rw [endTimesFrom_of_le (sub_one_le_of_lt hlt), Option.bind_some]
  split <;> exact ⟨_, _, rfl⟩

theorem newRound_after_last_round {b : BlockData V B Id Sig} (proposer : V)
    (hlast : b.round.number = UInt32.ofNat (2 ^ 32 - 1)) (hq : b.endTime = endTimesFrom net.timing t b.round.number) :
    ∃ b' data, b.newRound net (b.round.number + 1) proposer none = some (b', data) ∧ b'.round.number = 0 ∧
      b'.endTime 0 = some (endTimeFrom net.timing t (UInt32.ofNat (2 ^ 32 - 1)) + net.timing.length 0) := by
  rw [hlast, show UInt32.ofNat (2 ^ 32 - 1) + 1 = 0 by decide]
  have hstart : b.endTime (0 - 1) = some (endTimeFrom net.timing t (UInt32.ofNat (2 ^ 32 - 1))) := by
    rw [hq, hlast, show (0 : UInt32) - 1 = UInt32.ofNat (2 ^ 32 - 1) by decide, endTimesFrom_of_le (UInt32.le_refl _)]
  obtain ⟨b', data, h⟩ : ∃ b' data, b.newRound net 0 proposer none = some (b', data) := by
    unfold BlockData.newRound
    simp only [ne_eq, not_true_eq_false, if_false, Option.bind_some, hstart]
    split <;> exact ⟨_, _, rfl⟩
  obtain ⟨-, -, hround, endTime, start, hend, hst, hb'⟩ := newRound_fields net h
  simp only [ne_eq, not_true_eq_false, if_false, Option.some.injEq] at hend
  subst hend
  dsimp only at hst
  rw [hstart, Option.some.injEq] at hst
  subst hst
  exact ⟨b', data, h, hround, by rw [hb', Function.update_self]⟩

theorem newRound_zero {b b' : BlockData V B Id Sig} {proposer : V} {s : ℕ} {data : Option (Data B Id Sig)}
    (hnone : b.endTime = fun _ => none) (h : b.newRound net 0 proposer (some s) = some (b', data)) :
    b'.endTime = endTimesFrom net.timing s 0 ∧ b'.round.number = 0 := by
  obtain ⟨-, -, hround, endTime, start, hend, hstart, hb'⟩ := newRound_fields net h
  simp only [ne_eq, not_true_eq_false, if_false, Option.some.injEq] at hend hstart
  subst hend hstart
  refine ⟨?_, hround⟩
  rw [hb', hnone]
  funext r
  by_cases hr : r = 0
  · subst hr
    simp
  · rw [Function.update_of_ne hr, endTimesFrom_of_lt (UInt32.not_le.mp (mt UInt32.le_zero_iff.mp hr))]

theorem newRound_zero_isSome (b : BlockData V B Id Sig) (proposer : V) (s : ℕ) :
    ∃ b' data, b.newRound net 0 proposer (some s) = some (b', data) := by
  unfold BlockData.newRound
  simp only [ne_eq, not_true_eq_false, if_false, Option.bind_some]
  split <;> exact ⟨_, _, rfl⟩

theorem round_startedAt (hq : StartedAt net t m) {r : UInt32} {proposer : Bool} (hlt : m.block.round.number < r)
    (h : m.round net r none = some (m', proposer)) : StartedAt net t m' := by
  obtain ⟨b, data, hnew, hsame⟩ := round_fields net h
  obtain ⟨hend, hround⟩ := newRound_endTimesFrom net hq hlt hnew
  unfold StartedAt
  rw [hsame.endTime, hsame.round]
  exact hround ▸ hend

theorem round_zero_startedAt {s : ℕ} {proposer : Bool} (hnone : m.block.endTime = fun _ => none)
    (h : m.round net 0 (some s) = some (m', proposer)) : StartedAt net s m' := by
  obtain ⟨b, data, hnew, hsame⟩ := round_fields net h
  obtain ⟨hend, hround⟩ := newRound_zero net hnone hnew
  unfold StartedAt
  rw [hsame.endTime, hsame.round]
  exact hround ▸ hend

theorem round_zero_isSome (m : Machine V B Id Sig) (s : ℕ) : ∃ m' proposer, m.round net 0 (some s) = some (m', proposer) := by
  obtain ⟨b, data, hnew⟩ := newRound_zero_isSome net m.block (net.weights.proposer m.block.number 0) s
  unfold Machine.round
  rw [hnew, Option.map_some]
  exact ⟨_, _, rfl⟩

end Rounds

/-! ## `reset_by_commit`'s search -/

section Search

variable (net)

theorem searchUp_succ {current round R : UInt32} {target : ℕ} (fuel : ℕ) (hcur : current.toNat < 2 ^ 32 - 1)
    (hcR : current ≤ R) (hround : round ≤ R) :
    Machine.searchUp net current target (fuel + 1) round (endTimesFrom net.timing t R) =
      if endTimeFrom net.timing t round < target then
        Machine.searchUp net current target fuel (round + 1)
          (endTimesFrom net.timing t (if round + 1 ≤ R then R else round + 1))
      else pure (round, endTimesFrom net.timing t R) := by
  rw [Machine.searchUp, endTimesFrom_of_le hround]
  dsimp only
  rw [populateEndTime_endTimesFrom hcur hcR]

theorem searchUp_inv {current : UInt32} {target : ℕ} (hcur : current.toNat < 2 ^ 32 - 1) :
    ∀ (fuel : ℕ) (round R R' : UInt32) (et : UInt32 → Option ℕ), current ≤ R → round ≤ R →
      Machine.searchUp net current target fuel round (endTimesFrom net.timing t R) = .ok (R', et) →
      ∃ R'', current ≤ R'' ∧ R' ≤ R'' ∧ et = endTimesFrom net.timing t R'' := by
  intro fuel
  induction fuel with
  | zero =>
    intro _ _ _ _ _ _ h
    cases h
  | succ fuel ih =>
    intro round R R' et hcR hround h
    rw [searchUp_succ net fuel hcur hcR hround] at h
    by_cases hlt : endTimeFrom net.timing t round < target
    · -- one round up: the end times up to the later of `R` and it
      rw [if_pos hlt] at h
      exact ih (round + 1) _ R' et (le_ite_of_le hcR) self_le_ite h
    · rw [if_neg hlt] at h
      cases h
      exact ⟨R, hcR, hround, rfl⟩

variable (t) in
theorem searchUp_found {current : UInt32} (r : UInt32) (hcur : current.toNat < 2 ^ 32 - 1) :
    ∀ (k fuel : ℕ) (round R : UInt32), r.toNat - round.toNat = k → k < fuel → current ≤ R → round ≤ R →
      ∃ R' et, Machine.searchUp net current (endTimeFrom net.timing t r) fuel round (endTimesFrom net.timing t R) =
        .ok (R', et) ∧ endTimeFrom net.timing t r ≤ endTimeFrom net.timing t R' := by
  intro k
  induction k with
  | zero =>
    intro fuel round R hk hfuel hcR hround
    obtain ⟨fuel, rfl⟩ : ∃ f, fuel = f + 1 := ⟨fuel - 1, by omega⟩
    -- the round searched for is reached: its end is not before the target
    have hge : endTimeFrom net.timing t r ≤ endTimeFrom net.timing t round :=
      endTimeFrom_mono _ _ (by rw [UInt32.le_iff_toNat_le]; omega)
    rw [searchUp_succ net fuel hcur hcR hround, if_neg (Nat.not_lt.mpr hge)]
    exact ⟨round, _, rfl, hge⟩
  | succ k ih =>
    intro fuel round R hk hfuel hcR hround
    obtain ⟨fuel, rfl⟩ : ∃ f, fuel = f + 1 := ⟨fuel - 1, by omega⟩
    rw [searchUp_succ net fuel hcur hcR hround]
    by_cases hlt : endTimeFrom net.timing t round < endTimeFrom net.timing t r
    · rw [if_pos hlt]
      have hsucc : (round + 1).toNat = round.toNat + 1 := toNat_succ_of_lt (by have := r.toNat_lt; omega)
      exact ih fuel (round + 1) _ (by omega) (by omega) (le_ite_of_le hcR) self_le_ite
    · rw [if_neg hlt]
      exact ⟨round, _, rfl, Nat.le_of_not_lt hlt⟩

theorem searchDown_found {R r : UInt32} :
    ∀ n : ℕ, n ≤ R.toNat → (r.toNat ≤ n ∨ endTimeFrom net.timing t (UInt32.ofNat n) = endTimeFrom net.timing t r) →
      ∃ k, Machine.searchDown (endTimeFrom net.timing t r) (endTimesFrom net.timing t R) n = .ok k ∧
        endTimeFrom net.timing t k = endTimeFrom net.timing t r := by
  intro n
  induction n with
  | zero =>
    intro _ hr
    -- round 0 ends when `r` does: every round ends no earlier than it
    have heq : endTimeFrom net.timing t 0 = endTimeFrom net.timing t r := by
      rcases hr with hr | hr
      · rw [UInt32.toNat_inj.mp (show r.toNat = (0 : UInt32).toNat by simp; omega)]
      · simpa using hr
    refine ⟨0, ?_, heq⟩
    unfold Machine.searchDown
    rw [endTimesFrom_of_le UInt32.zero_le]
    dsimp only
    rw [if_neg (by omega)]
    rfl
  | succ n ih =>
    intro hn hr
    have hnat : (UInt32.ofNat (n + 1)).toNat = n + 1 := by
      rw [UInt32.toNat_ofNat']
      have := R.toNat_lt
      omega
    have hle : UInt32.ofNat (n + 1) ≤ R := by
      rw [UInt32.le_iff_toNat_le, hnat]
      exact hn
    unfold Machine.searchDown
    rw [endTimesFrom_of_le hle]
    dsimp only
    split_ifs with hgt
    · -- round `n + 1` ends after `r`: `r` is before it
      refine ih (by omega) (.inl ?_)
      rcases hr with hr | hr
      · rcases Nat.lt_or_ge r.toNat (n + 1) with h | h
        · omega
        · have : r = UInt32.ofNat (n + 1) := UInt32.toNat_inj.mp (by rw [hnat]; omega)
          subst this
          omega
      · omega
    · refine ⟨_, rfl, ?_⟩
      rcases hr with hr | hr
      · have hmono := endTimeFrom_mono net.timing t (show r ≤ UInt32.ofNat (n + 1) by
          rw [UInt32.le_iff_toNat_le, hnat]; exact hr)
        omega
      · exact hr

end Search

/-! ## A new block -/

section Reset

variable [DecidableEq V] (net)

theorem reset_started {endRound : UInt32} {proposal : Option B} (h : m.reset net endRound proposal = .ok m') :
    ∃ t', StartedAt net t' m' := by
  unfold Machine.reset at h
  split at h
  · cases h
  · split at h
    · cases h
    · dsimp only at h
      split at h
      · cases h
      · rename_i m₁ proposer hround
        cases h
        exact ⟨_, round_zero_startedAt net rfl hround⟩

theorem reset_startedAt {R endRound : UInt32} {proposal : Option B} (h : m.reset net endRound proposal = .ok m')
    (hq : m.block.endTime = endTimesFrom net.timing t R) (hcur : m.block.round.number.toNat < 2 ^ 32 - 1)
    (hcR : m.block.round.number ≤ R) :
    StartedAt net (endTimeFrom net.timing t endRound) m' := by
  unfold Machine.reset at h
  rw [hq, populateEndTime_endTimesFrom hcur hcR] at h
  dsimp only at h
  rw [endTimesFrom_of_le self_le_ite] at h
  dsimp only at h
  split at h
  · cases h
  · rename_i m₁ proposer hround
    cases h
    exact round_zero_startedAt net rfl hround

theorem reset_ok {R : UInt32} (endRound : UInt32) (proposal : Option B)
    (hq : m.block.endTime = endTimesFrom net.timing t R) (hcur : m.block.round.number.toNat < 2 ^ 32 - 1)
    (hcR : m.block.round.number ≤ R) :
    ∃ m', m.reset net endRound proposal = .ok m' ∧ StartedAt net (endTimeFrom net.timing t endRound) m' := by
  have hok : ∃ m', m.reset net endRound proposal = .ok m' := by
    unfold Machine.reset
    rw [hq, populateEndTime_endTimesFrom hcur hcR]
    dsimp only
    rw [endTimesFrom_of_le self_le_ite]
    dsimp only
    obtain ⟨m₁, proposer, hround⟩ := round_zero_isSome net
      { m with queue := [], block := BlockData.new (m.block.number + 1) m.block.validatorId proposal }
      (endTimeFrom net.timing t endRound)
    rw [hround]
    exact ⟨m₁, rfl⟩
  obtain ⟨m', hm'⟩ := hok
  exact ⟨m', hm', reset_startedAt net hm' hq hcur hcR⟩

theorem resetByCommit_started {commit : Commit V Sig} {proposal : Option B}
    (h : m.resetByCommit net commit proposal = .ok m') : ∃ t', StartedAt net t' m' := by
  unfold Machine.resetByCommit at h
  obtain ⟨⟨round, endTime⟩, -, h⟩ := except_bind_ok h
  obtain ⟨round', -, h⟩ := except_bind_ok h
  exact reset_started net h

theorem resetByCommit_found {commit : Commit V Sig} {r : UInt32} (proposal : Option B) (hq : StartedAt net t m)
    (hcur : m.block.round.number.toNat < 2 ^ 32 - 1) (hc : commit.endTime = endTimeFrom net.timing t r) :
    ∃ m', m.resetByCommit net commit proposal = .ok m' ∧ StartedAt net commit.endTime m' := by
  -- the search up stops at a round ending no earlier than the commit
  obtain ⟨R, et, hup, hge⟩ := searchUp_found net t r hcur (r.toNat - m.block.round.number.toNat) (2 ^ 32)
    m.block.round.number m.block.round.number rfl (by have := r.toNat_lt; omega) (UInt32.le_refl _) (UInt32.le_refl _)
  obtain ⟨R', hcR', hRR', rfl⟩ := searchUp_inv net hcur _ _ _ _ _ (UInt32.le_refl _) (UInt32.le_refl _) hup
  -- the search down, from there, finds a round ending exactly then
  have hstart : r.toNat ≤ R.toNat ∨ endTimeFrom net.timing t (UInt32.ofNat R.toNat) = endTimeFrom net.timing t r := by
    rcases Nat.lt_or_ge R.toNat r.toNat with hlt | hle
    · have hmono := endTimeFrom_mono net.timing t (UInt32.le_of_lt (UInt32.lt_iff_toNat_lt.mpr hlt))
      exact .inr (by rw [UInt32.ofNat_toNat]; omega)
    · exact .inl hle
  obtain ⟨k, hdown, hk⟩ := searchDown_found net R.toNat (UInt32.le_iff_toNat_le.mp hRR') hstart
  obtain ⟨m', hreset, hm'⟩ := reset_ok net k proposal
    (show ({ m with block.endTime := endTimesFrom net.timing t R' } : Machine V B Id Sig).block.endTime = _ from rfl)
    hcur hcR'
  refine ⟨m', ?_, ?_⟩
  swap
  · rw [hc, ← hk]
    exact hm'
  unfold Machine.resetByCommit
  rw [hq, hc, hup]
  exact (except_bind_of_ok rfl).trans ((except_bind_of_ok hdown).trans hreset)

theorem finalize_startedAt [DecidableEq Id] {msg : Message V B Id Sig} {block : B} {proposal : Option B}
    (hq : StartedAt net t m) (hcur : m.block.round.number.toNat < 2 ^ 32 - 1)
    (h : m.finalize net msg block proposal = .ok m') :
    ∃ e, m.block.endTime msg.round = some e ∧ StartedAt net e m' := by
  unfold Machine.finalize at h
  split at h
  · cases h
  · dsimp only at h
    split at h
    · cases h
    · rename_i e he
      refine ⟨e, he, ?_⟩
      have hstart := reset_startedAt net h hq hcur (UInt32.le_refl _)
      rw [hq] at he
      by_cases hr : msg.round ≤ m.block.round.number
      · rw [endTimesFrom_of_le hr, Option.some.injEq] at he
        exact he ▸ hstart
      · rw [endTimesFrom_of_lt (UInt32.not_le.mp hr)] at he
        cases he

end Reset


/-! ## Runs -/

section Steps

variable [DecidableEq V] [DecidableEq B] [DecidableEq Id]

theorem message_startedAt (hq : StartedAt net t m) {signed : SignedMessage V B Id Sig}
    {r : Except (TendermintError V B Id Sig) (Option B)} (h : m.message net signed = .ok (m', r)) :
    StartedAt net t m' := by
  rcases message_ok net h with rfl | ⟨log, -, h⟩
  · exact hq
  · have hq₀ : StartedAt net t ({ m with block.log := log } : Machine V B Id Sig) := hq
    rcases afterLog_ok net h with ⟨-, -, rfl, -⟩ | ⟨-, m₁, goOn, hjump, hrest⟩
    · exact hq₀
    · have hq₁ : StartedAt net t m₁ := by
        rcases jump_cases net hjump with ⟨-, rfl⟩ | ⟨-, -, rfl⟩ | ⟨hlt, -, m₂, proposer, hround, hkeys⟩
        · exact hq₀
        · exact hq₀
        · exact (round_startedAt net hq₀ hlt hround).of_sameKeys hkeys
      rcases hrest with ⟨-, rfl, -⟩ | ⟨-, hcur⟩
      · exact hq₁
      · exact hq₁.of_sameCore (onCurrent_sameCore net hcur)

theorem step_startedAt (hq : StartedAt net t m) (hlast : m.block.round.number.toNat < 2 ^ 32 - 1)
    {ev : Event V B Id Sig} (h : m.step net ev = .ok m') : ∃ t', StartedAt net t' m' := by
  cases ev with
  | synced number block commit proposal =>
    dsimp only [Machine.step] at h
    split_ifs at h
    · cases h
      exact ⟨t, hq⟩
    · cases h
      exact ⟨t, hq⟩
    · exact resetByCommit_started net h
  | own proposal =>
    dsimp only [Machine.step] at h
    split at h
    · cases h
      exact ⟨t, hq⟩
    · rename_i msg rest _
      obtain ⟨⟨m₁, res⟩, hmsg, h⟩ := except_bind_ok h
      have hq₀ : StartedAt net t ({ m with queue := rest } : Machine V B Id Sig) := hq
      have hq₁ := message_startedAt hq₀ hmsg
      split at h
      · cases h
      · cases h
        exact ⟨t, hq₁⟩
      · unfold Machine.finalize at h
        split at h
        · cases h
        · dsimp only at h
          split at h
          · cases h
          · exact reset_started net h
  | timeout step =>
    dsimp only [Machine.step] at h
    split at h
    · cases h
      exact ⟨t, hq⟩
    · have hq₀ : StartedAt net t ({ m with block.round.timeouts := Function.update m.block.round.timeouts step none } :
          Machine V B Id Sig) := hq
      split_ifs at h
      · split at h
        · cases h
          refine ⟨t, hq₀.of_sameCore (SameCore.trans ?_ (Machine.sameCore_broadcast _ _))⟩
          exact Machine.sameCore_slash _ _ _
        · cases h
          exact ⟨t, hq₀.of_sameCore (Machine.sameCore_broadcast _ _)⟩
        · -- the next round, after the current one as it is not the last
          split at h
          · cases h
          · rename_i m₁ proposer hround
            cases h
            have hlt : m.block.round.number < m.block.round.number + 1 := by
              rw [UInt32.lt_iff_toNat_lt, toNat_succ_of_lt hlast]
              omega
            exact ⟨t, round_startedAt net hq₀ hlt hround⟩
      · cases h
        exact ⟨t, hq₀⟩
  | received signed proposal =>
    dsimp only [Machine.step] at h
    split_ifs at h
    · cases h
      exact ⟨t, hq⟩
    · obtain ⟨⟨m₁, res⟩, hmsg, h⟩ := except_bind_ok h
      have hq₁ := message_startedAt hq hmsg
      split at h
      · cases h
        exact ⟨t, hq₁⟩
      · unfold Machine.finalize at h
        split at h
        · cases h
        · dsimp only at h
          split at h
          · cases h
          · exact reset_started net h
      · cases h
        unfold Machine.onError
        split
        · exact ⟨t, hq₁.of_sameCore (Machine.sameCore_slash _ _ _)⟩
        · exact ⟨t, hq₁⟩

theorem Reach.startedAt (h : Reach net m) : ∃ t, StartedAt net t m := by
  induction h with
  | start hstart =>
    unfold Machine.start at hstart
    obtain ⟨⟨m₁, proposer⟩, hround, rfl⟩ := Option.map_eq_some_iff.mp hstart
    exact ⟨_, round_zero_startedAt net rfl hround⟩
  | step _ hlast hstep ih =>
    obtain ⟨t, ht⟩ := ih
    exact step_startedAt ht hlast hstep

theorem invalidPrecommit_accepted (hq : StartedAt net t m) {signed : SignedMessage V B Id Sig} {v : V}
    {ev : Evidence V B Id Sig} (h : m.verifyPrecommitSignature net signed = .error (.malicious v (some ev)))
    (hsig : net.verifySigned signed = true) (hblock : signed.msg.block ≠ 0)
    {commit : UInt64 → Option (Commit V Sig)} {prior : Commit V Sig} (hprior : commit (signed.msg.block - 1) = some prior)
    (ht : prior.endTime = t) : verifyTendermintEvidence net ev commit = some (.ok ()) := by
  unfold Machine.verifyPrecommitSignature at h
  split at h
  · cases h
  · rename_i id sig hdata
    split at h
    · rename_i e he
      split_ifs at h with hbad
      · cases h
        -- the machine's end time of the round is the one from `t`
        have he' : e = endTimeFrom net.timing t signed.msg.round := by
          rw [hq] at he
          by_cases hr : signed.msg.round ≤ m.block.round.number
          · rw [endTimesFrom_of_le hr, Option.some.injEq] at he
            exact he.symm
          · rw [endTimesFrom_of_lt (UInt32.not_le.mp hr)] at he
            cases he
        subst he' ht
        unfold verifyTendermintEvidence
        simp only [hsig, Bool.not_true, hdata, hblock, hprior, if_false]
        simp only [Bool.not_eq_true'] at hbad
        simp only [hbad, Bool.false_eq_true, if_false]
        rfl
      · cases h
    · cases h
  · cases h

end Steps


/-! ## End-time agreement -/

section Agreement

variable [DecidableEq V] [DecidableEq B] [DecidableEq Id] (net)

/-- Over runs whose steps start short of the last round: the end times a machine keeps are
    those from its block's start, the evidence it gives of an invalid precommit signature is
    accepted by a node whose previous commit ended at that start, and `reset_by_commit`
    finds the round of a commit ending at an end time from that start. -/
theorem end_times_agree :
    (∀ m : Machine V B Id Sig, Reach net m → ∃ t, StartedAt net t m) ∧
    (∀ (t : ℕ) (m : Machine V B Id Sig) (signed : SignedMessage V B Id Sig) (v : V) (ev : Evidence V B Id Sig)
        (commit : UInt64 → Option (Commit V Sig)) (prior : Commit V Sig),
        StartedAt net t m → m.verifyPrecommitSignature net signed = .error (.malicious v (some ev)) →
        net.verifySigned signed = true → signed.msg.block ≠ 0 → commit (signed.msg.block - 1) = some prior →
        prior.endTime = t → verifyTendermintEvidence net ev commit = some (.ok ())) ∧
    (∀ (t : ℕ) (m : Machine V B Id Sig) (commit : Commit V Sig) (r : UInt32) (proposal : Option B),
        StartedAt net t m → m.block.round.number.toNat < 2 ^ 32 - 1 → commit.endTime = endTimeFrom net.timing t r →
        ∃ m', m.resetByCommit net commit proposal = .ok m' ∧ StartedAt net commit.endTime m') := by
  refine ⟨fun m hreach => hreach.startedAt, ?_, ?_⟩
  · intro t m signed v ev commit prior hq h hsig hblock hprior ht
    exact invalidPrecommit_accepted hq h hsig hblock hprior ht
  · intro t m commit r proposal hq hcur hc
    exact resetByCommit_found net proposal hq hcur hc

end Agreement

/-! ## Four validators -/

/-- `fourEqual`, under which every commit signature fails to verify. -/
def fourRejecting : Network ℕ ℕ ℕ Unit := { fourEqual with verifyCommitSig := fun _ _ _ _ => false }

/-- A machine started for block 1 keeps end times from its start, and a commit of its round 0
    is found; a node holding a commit of block 0 ending at 0 accepts the evidence of a
    precommit of round 0 by validator 1. -/
theorem end_times_agree_four_validators :
    (∃ m t, Machine.start fourRejecting [] 0 0 (some 3) 7 = some m ∧ StartedAt fourRejecting t m ∧
      ∃ m', m.resetByCommit fourRejecting ⟨endTimeFrom fourRejecting.timing t 0, [], ()⟩ none = .ok m' ∧
        StartedAt fourRejecting (endTimeFrom fourRejecting.timing t 0) m') ∧
    verifyTendermintEvidence fourRejecting (.invalidPrecommit ⟨⟨1, 1, 0, .precommit (some (8, ()))⟩, ()⟩)
      (fun _ => some ⟨0, [], ()⟩) = some (.ok ()) := by
  obtain ⟨hreach, hevidence, hreset⟩ := end_times_agree fourRejecting
  refine ⟨?_, ?_⟩
  · obtain ⟨m, hm⟩ : ∃ m, Machine.start fourRejecting [] 0 0 (some 3) 7 = some m :=
      Option.isSome_iff_exists.mp (by decide)
    obtain ⟨t, ht⟩ := hreach m (Reach.start hm)
    have hround : m.block.round.number = 0 := by
      unfold Machine.start at hm
      obtain ⟨⟨m₁, proposer⟩, hr, rfl⟩ := Option.map_eq_some_iff.mp hm
      exact (round_log fourRejecting hr).2
    obtain ⟨m', hm', ht'⟩ := hreset t m ⟨_, [], ()⟩ 0 none ht (by rw [hround]; decide) rfl
    exact ⟨m, t, hm, ht, m', hm', ht'⟩
  · exact hevidence 0 ⟨[], [], { BlockData.new 1 (some 3) (some 7) with endTime := endTimesFrom fourRejecting.timing 0 0 },
      [], []⟩ ⟨⟨1, 1, 0, .precommit (some (8, ()))⟩, ()⟩ 1 _ _ ⟨0, [], ()⟩ rfl rfl rfl (by decide) rfl rfl

/-- Block 1 started at 0 under the Tributary's timing: after a jump to round u32::MAX and the
    round its precommit timeout moves to, u32::MAX + 1 = 0, round 0 ends at round u32::MAX's
    end plus 6 seconds, not at 6 seconds as the evidence verifier computes. -/
theorem end_time_after_last_round_diverges :
    ∃ (b₁ b₂ b₃ : BlockData ℕ ℕ ℕ Unit) (d₁ d₂ d₃ : Option (Data ℕ ℕ Unit)),
      (BlockData.new 1 (some 3) (some 7)).newRound fourEqual 0 (fourEqual.weights.proposer 1 0) (some 0) = some (b₁, d₁) ∧
      b₁.newRound fourEqual (UInt32.ofNat (2 ^ 32 - 1)) (fourEqual.weights.proposer 1 (UInt32.ofNat (2 ^ 32 - 1))) none =
        some (b₂, d₂) ∧
      b₂.newRound fourEqual (b₂.round.number + 1) (fourEqual.weights.proposer 1 (b₂.round.number + 1)) none =
        some (b₃, d₃) ∧
      b₃.round.number = 0 ∧ b₃.endTime 0 ≠ some (endTimeFrom fourEqual.timing 0 0) := by
  obtain ⟨b₁, d₁, h₁⟩ := newRound_zero_isSome fourEqual (BlockData.new 1 (some 3) (some 7)) (fourEqual.weights.proposer 1 0) 0
  obtain ⟨hend₁, hround₁⟩ := newRound_zero fourEqual rfl h₁
  have hq₁ : b₁.endTime = endTimesFrom fourEqual.timing 0 b₁.round.number := hround₁ ▸ hend₁
  have hlt : b₁.round.number < UInt32.ofNat (2 ^ 32 - 1) := by
    rw [hround₁]
    decide
  obtain ⟨b₂, d₂, h₂⟩ := newRound_isSome_of_lt fourEqual (fourEqual.weights.proposer 1 (UInt32.ofNat (2 ^ 32 - 1))) hq₁ hlt
  obtain ⟨hend₂, hround₂⟩ := newRound_endTimesFrom fourEqual hq₁ hlt h₂
  obtain ⟨b₃, d₃, h₃, hround₃, hend₃⟩ := newRound_after_last_round fourEqual
    (fourEqual.weights.proposer 1 (b₂.round.number + 1)) hround₂ (hround₂ ▸ hend₂)
  refine ⟨b₁, b₂, b₃, d₁, d₂, d₃, h₁, h₂, h₃, hround₃, ?_⟩
  -- round u32::MAX ends no earlier than round 1, at 18 seconds
  have hmono := endTimeFrom_mono fourEqual.timing 0 (show (1 : UInt32) ≤ UInt32.ofNat (2 ^ 32 - 1) by decide)
  have hone : endTimeFrom fourEqual.timing 0 1 = 18 := by decide
  have hzero : endTimeFrom fourEqual.timing 0 0 = 6 := by decide
  have hlen : fourEqual.timing.length 0 = 6 := by decide
  rw [hend₃, hzero, hlen, Ne, Option.some.injEq]
  omega

end Serai.Tendermint
