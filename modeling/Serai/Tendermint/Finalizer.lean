import Serai.Tendermint.Machine
/-
  Serai.Tendermint.Finalizer — the finalizer's `assert!(msg.round.0 <= self.block.round().number.0)`
  (coordinator/tributary/tendermint/src/lib.rs, `TendermintMachine::message`).

  The finalizer runs on a message before the jump does. It asserts that a round whose
  proposal has precommits reaching the threshold is not later than the machine's round:
  a later round would have been jumped to once its participation passed the fault
  threshold. That holds as long as no single message can carry a later round from at
  most the fault threshold to the threshold, which is what `Weights.Generous` says:
  - `FutureQuiet`: no round after the machine's has participation past the fault
    threshold. A new block starts with an empty log (`reset_log`) and every step keeps
    it (`step_futureQuiet`), so every reachable machine has it (`Reach.futureQuiet`).
  - `message_no_future_finalize`: from such a machine, with generous weights, the
    message handler never panics at the finalizer; `reach_no_future_finalize` is the
    same for every step of every run.
  - `equalWeights_generous`: equal weights are generous for 3 or at least 5 validators.

  For 4 validators of equal weight the fault threshold is 2 and the threshold 3, so one
  precommit takes a later round from the first to the second:
  `four_validators_finalize_future_round` is such a run, every validator honest.
-/

namespace Serai.Tendermint

open Serai.Lib

variable {V B Id Sig : Type}

/-! ## Participation -/

section Participation

variable (w : Weights V)

theorem roundParticipation_congr {l l' : MessageLog V B Id Sig} {r : UInt32}
    (h : (l'.log r).map AList.keys = (l.log r).map AList.keys) :
    roundParticipation w l' r = roundParticipation w l r := by
  unfold roundParticipation
  cases hl : l.log r <;> cases hl' : l'.log r <;> simp_all

@[simp] theorem roundParticipation_empty (r : UInt32) :
    roundParticipation w (MessageLog.empty : MessageLog V B Id Sig) r = 0 := rfl

theorem threshold_le_of_hasConsensus [DecidableEq B] [DecidableEq Id] {l : MessageLog V B Id Sig} {r : UInt32} {data : Data B Id Sig}
    (h : hasConsensus w l r data = some true) : w.threshold ≤ roundParticipation w l r := by
  unfold hasConsensus at h
  obtain ⟨i, hi, hdec⟩ := Option.map_eq_some_iff.mp h
  have hle := messageInstances_le w hi
  have : w.threshold ≤ i.2 := of_decide_eq_true hdec
  omega

end Participation

/-- No single validator carries a round from the fault threshold to the threshold. -/
def Weights.Generous (w : Weights V) : Prop :=
  ∀ v, w.faultThreshold + w.weight v < w.threshold

theorem equalWeights_generous (n : ℕ) (proposer : UInt64 → UInt32 → V) (hn : n = 3 ∨ 5 ≤ n) :
    (⟨n, fun _ => 1, proposer⟩ : Weights V).Generous := by
  intro v
  simp only [Weights.faultThreshold, Weights.threshold]
  omega

theorem equalWeights_generous_five : (⟨5, fun _ => 1, fun _ _ => 0⟩ : Weights ℕ).Generous :=
  equalWeights_generous 5 (fun _ _ => 0) (.inr le_rfl)

/-! ## The invariant -/

variable (net : Network V B Id Sig)

/-- No round after the machine's has participation past the fault threshold. -/
def FutureQuiet (m : Machine V B Id Sig) : Prop :=
  ∀ r, m.block.round.number < r → roundParticipation net.weights m.block.log r ≤ net.weights.faultThreshold

variable {net} {m m' : Machine V B Id Sig}

theorem FutureQuiet.of_sameKeys (hq : FutureQuiet net m) (h : SameKeys m m') : FutureQuiet net m' := by
  intro r hr
  rw [roundParticipation_congr net.weights (h.keys r)]
  exact hq r (h.round ▸ hr)

theorem FutureQuiet.of_sameCore (hq : FutureQuiet net m) (h : SameCore m m') : FutureQuiet net m' :=
  hq.of_sameKeys h.sameKeys

theorem futureQuiet_of_empty (h : m.block.log = MessageLog.empty) : FutureQuiet net m := by
  intro r _
  simp [h]

/-! ## A new block -/

section Reset

variable [DecidableEq V] (net)

theorem round_log {r : UInt32} {time : Option ℕ} {proposer : Bool} (h : m.round net r time = some (m', proposer)) :
    m'.block.log = m.block.log ∧ m'.block.round.number = r := by
  obtain ⟨b, data, hnew, hsame⟩ := round_fields net h
  obtain ⟨-, hlog, hround, -⟩ := newRound_fields net hnew
  exact ⟨hsame.log.trans hlog, hsame.round.trans hround⟩

theorem reset_log {endRound : UInt32} {proposal : Option B} (h : m.reset net endRound proposal = .ok m') :
    m'.block.log = MessageLog.empty := by
  unfold Machine.reset at h
  split at h
  · cases h
  · split at h
    · cases h
    · dsimp only at h
      split at h
      · cases h
      · rename_i hround
        cases h
        exact (round_log net hround).1

theorem resetByCommit_log {commit : Commit V Sig} {proposal : Option B}
    (h : m.resetByCommit net commit proposal = .ok m') : m'.block.log = MessageLog.empty := by
  unfold Machine.resetByCommit at h
  obtain ⟨⟨round, endTime⟩, -, h⟩ := except_bind_ok h
  obtain ⟨round', -, h⟩ := except_bind_ok h
  exact reset_log net h

theorem finalize_log [DecidableEq Id] {msg : Message V B Id Sig} {block : B} {proposal : Option B}
    (h : m.finalize net msg block proposal = .ok m') : m'.block.log = MessageLog.empty := by
  unfold Machine.finalize at h
  split at h
  · cases h
  · dsimp only at h
    split at h
    · cases h
    · exact reset_log net h

theorem start_futureQuiet {sent : List (UInt64 × UInt32 × Step)} {lastBlock : UInt64} {lastTime : ℕ}
    {validatorId : Option V} {proposal : B} (h : Machine.start net sent lastBlock lastTime validatorId proposal = some m) :
    FutureQuiet net m := by
  unfold Machine.start at h
  obtain ⟨⟨m₁, proposer⟩, hround, rfl⟩ := Option.map_eq_some_iff.mp h
  exact futureQuiet_of_empty (round_log net hround).1

end Reset

/-! ## The message handler -/

section Message

variable [DecidableEq V] [DecidableEq B] [DecidableEq Id] {signed : SignedMessage V B Id Sig}
  {log : MessageLog V B Id Sig}

variable (net) in
theorem finalized_some {msg : Message V B Id Sig} {block : B} (h : m.finalized net msg = .ok (some block)) :
    msg.round ≤ m.block.round.number := by
  unfold Machine.finalized at h
  split at h
  · cases h
  · split at h
    · split at h
      · split at h
        · cases h
        · split at h
          · assumption
          · cases h
        · cases h
      · cases h
    · cases h

theorem participation_logged (w : Weights V) (hlog : logMessage m.block.log signed = .ok (true, log)) (r : UInt32) :
    roundParticipation w log r ≤ roundParticipation w m.block.log r + w.weight signed.msg.sender ∧
    (r ≠ signed.msg.round → roundParticipation w log r = roundParticipation w m.block.log r) := by
  rw [roundParticipation_logMessage w hlog r]
  constructor
  · split <;> omega
  · intro hne
    simp [hne]

theorem futureQuiet_logged (hq : FutureQuiet net m) (hlog : logMessage m.block.log signed = .ok (true, log))
    {r : UInt32} (hr : m.block.round.number < r) (hne : r ≠ signed.msg.round) :
    roundParticipation net.weights log r ≤ net.weights.faultThreshold := by
  rw [(participation_logged net.weights hlog r).2 hne]
  exact hq r hr

theorem afterLog_futureQuiet (hq : FutureQuiet net m) (hlog : logMessage m.block.log signed = .ok (true, log))
    {r : Except (TendermintError V B Id Sig) (Option B)}
    (h : ({ m with block.log := log } : Machine V B Id Sig).afterLog net signed = .ok (m', r)) :
    FutureQuiet net m' := by
  rcases afterLog_ok net h with ⟨block, hfin, rfl, -⟩ | ⟨-, m₁, goOn, hjump, hrest⟩
  · -- the finalizer's block: the message's round is not after the machine's
    have hle := finalized_some net hfin
    intro r hr
    exact futureQuiet_logged hq hlog hr (fun he => UInt32.not_lt.mpr hle (he ▸ hr))
  · have hq₁ : FutureQuiet net m₁ := by
      rcases jump_cases net hjump with ⟨hle, rfl⟩ | ⟨-, hpart, rfl⟩ | ⟨hlt, -, m₂, proposer, hround, hkeys⟩
      · intro r hr
        exact futureQuiet_logged hq hlog hr (fun he => UInt32.not_lt.mpr hle (he ▸ hr))
      · intro r hr
        by_cases he : r = signed.msg.round
        · subst he
          exact hpart
        · exact futureQuiet_logged hq hlog hr he
      · -- the jump: the machine moves to the message's round, with the same senders
        obtain ⟨hlog₂, hround₂⟩ := round_log net hround
        refine FutureQuiet.of_sameKeys ?_ hkeys
        intro r hr
        rw [hround₂] at hr
        rw [hlog₂]
        exact futureQuiet_logged hq hlog (UInt32.lt_trans hlt hr) (UInt32.ne_of_lt hr).symm
    rcases hrest with ⟨-, rfl, -⟩ | ⟨-, hcur⟩
    · exact hq₁
    · exact hq₁.of_sameCore (onCurrent_sameCore net hcur)

theorem message_futureQuiet (hq : FutureQuiet net m) {r : Except (TendermintError V B Id Sig) (Option B)}
    (h : m.message net signed = .ok (m', r)) : FutureQuiet net m' := by
  rcases message_ok net h with rfl | ⟨log, hlog, h⟩
  · exact hq
  · exact afterLog_futureQuiet hq hlog h

theorem message_no_future_finalize (hw : net.weights.Generous) (hq : FutureQuiet net m) :
    m.message net signed ≠ .error .futureRoundFinalized := by
  intro h
  obtain ⟨log, hlog, h⟩ := message_panic net h
  obtain ⟨hlt, block, hcons⟩ := finalized_panic net (afterLog_panic net h)
  have hthr := threshold_le_of_hasConsensus net.weights hcons
  have hle := (participation_logged net.weights hlog signed.msg.round).1
  have hquiet := hq signed.msg.round hlt
  have hgen := hw signed.msg.sender
  dsimp only at hthr
  omega

end Message

/-! ## Runs -/

section Run

variable [DecidableEq V] [DecidableEq B] [DecidableEq Id]

theorem step_futureQuiet (hq : FutureQuiet net m) (hlast : m.block.round.number.toNat < 2 ^ 32 - 1)
    {ev : Event V B Id Sig} (h : m.step net ev = .ok m') : FutureQuiet net m' := by
  cases ev with
  | synced number block commit proposal =>
    dsimp only [Machine.step] at h
    split_ifs at h
    · cases h
      exact hq
    · cases h
      exact hq
    · exact futureQuiet_of_empty (resetByCommit_log net h)
  | own proposal =>
    dsimp only [Machine.step] at h
    split at h
    · cases h
      exact hq
    · rename_i msg rest _
      obtain ⟨⟨m₁, res⟩, hmsg, h⟩ := except_bind_ok h
      have hq₀ : FutureQuiet net ({ m with queue := rest } : Machine V B Id Sig) := hq.of_sameCore ⟨rfl, rfl, rfl, rfl⟩
      have hq₁ := message_futureQuiet hq₀ hmsg
      split at h
      · cases h
      · cases h
        exact hq₁
      · exact futureQuiet_of_empty (finalize_log net h)
  | timeout step =>
    dsimp only [Machine.step] at h
    split at h
    · cases h
      exact hq
    · split_ifs at h
      · split at h
        · cases h
          refine hq.of_sameCore (SameCore.trans ?_ (Machine.sameCore_broadcast _ _))
          refine SameCore.trans ?_ (Machine.sameCore_slash _ _ _)
          exact ⟨rfl, rfl, rfl, rfl⟩
        · cases h
          refine hq.of_sameCore (SameCore.trans ?_ (Machine.sameCore_broadcast _ _))
          exact ⟨rfl, rfl, rfl, rfl⟩
        · -- the next round: every round after it is after the current one
          split at h
          · cases h
          · rename_i m₁ proposer hround
            cases h
            obtain ⟨hlog, hround₁⟩ := round_log net hround
            intro r hr
            rw [hround₁] at hr
            rw [hlog]
            have hsucc := toNat_succ_of_lt hlast
            exact hq r (by simp only [UInt32.lt_iff_toNat_lt] at hr ⊢; omega)
      · cases h
        exact hq.of_sameCore ⟨rfl, rfl, rfl, rfl⟩
  | received signed proposal =>
    dsimp only [Machine.step] at h
    split_ifs at h
    · cases h
      exact hq
    · obtain ⟨⟨m₁, res⟩, hmsg, h⟩ := except_bind_ok h
      have hq₁ := message_futureQuiet hq hmsg
      split at h
      · cases h
        exact hq₁
      · exact futureQuiet_of_empty (finalize_log net h)
      · cases h
        unfold Machine.onError
        split
        · exact hq₁.of_sameCore (Machine.sameCore_slash _ _ _)
        · exact hq₁

theorem step_no_future_finalize (hw : net.weights.Generous) (hq : FutureQuiet net m) (ev : Event V B Id Sig) :
    m.step net ev ≠ .error .futureRoundFinalized := by
  intro h
  obtain ⟨m₀, signed, hsame, hmsg⟩ := step_panic net h
  exact message_no_future_finalize hw (hq.of_sameCore hsame) hmsg

variable (net) in
/-- The machines a run reaches from one `TendermintMachine::new` starts, one event at a
    time, while the round is short of the last. -/
inductive Reach : Machine V B Id Sig → Prop
  | start {sent : List (UInt64 × UInt32 × Step)} {lastBlock : UInt64} {lastTime : ℕ} {validatorId : Option V}
      {proposal : B} {m : Machine V B Id Sig} :
      Machine.start net sent lastBlock lastTime validatorId proposal = some m → Reach m
  | step {m m' : Machine V B Id Sig} {ev : Event V B Id Sig} :
      Reach m → m.block.round.number.toNat < 2 ^ 32 - 1 → m.step net ev = .ok m' → Reach m'

theorem Reach.futureQuiet (h : Reach net m) : FutureQuiet net m := by
  induction h with
  | start hstart => exact start_futureQuiet net hstart
  | step _ hlast hstep ih => exact step_futureQuiet ih hlast hstep

theorem reach_no_future_finalize (hw : net.weights.Generous) (h : Reach net m) (ev : Event V B Id Sig) :
    m.step net ev ≠ .error .futureRoundFinalized :=
  step_no_future_finalize hw h.futureQuiet ev

end Run

/-! ## Four validators of equal weight -/

/-- Four validators `0..3` of weight 1, the proposer of round `r` being `r % 4`, the
    Tributary's timing, and blocks and signatures that all verify. -/
def fourEqual : Network ℕ ℕ ℕ Unit where
  weights := ⟨4, fun _ => 1, fun _ r => r.toNat % 4⟩
  timing := ⟨999, 1667⟩
  id := fun block => block
  validate := fun _ => .ok ()
  verifySigned := fun _ => true
  sign := fun _ => ()
  verifyCommitSig := fun _ _ _ _ => true
  signCommit := fun _ _ => ()
  junk := ()
  aggregate := fun _ _ _ _ => ()
  verifyCommit := fun _ _ => true

/-- `v`'s precommit for block 8 in round 1 of block 1. -/
def precommitOf (v : ℕ) : Event ℕ ℕ ℕ Unit :=
  .received ⟨⟨v, 1, 1, .precommit (some (8, ()))⟩, ()⟩ none

/-- Validator 3 is still in round 0 of block 1 when round 1's proposal, by validator 1, and
    three precommits for it arrive. After two of them round 1's participation is 2, the
    fault threshold, so there is no jump; the third takes its precommits to 3, the
    threshold, and the finalizer, which runs before the jump, asserts a later round. -/
theorem four_validators_finalize_future_round :
    ∃ m, Machine.start fourEqual [] 0 0 (some 3) 7 = some m ∧
      m.run fourEqual [.received ⟨⟨1, 1, 1, .proposal none 8⟩, ()⟩ none, precommitOf 1, precommitOf 0, precommitOf 2] =
        .error .futureRoundFinalized := by
  have hrun : (Machine.start fourEqual [] 0 0 (some 3) 7).map (fun m => exceptError (m.run fourEqual
      [.received ⟨⟨1, 1, 1, .proposal none 8⟩, ()⟩ none, precommitOf 1, precommitOf 0, precommitOf 2])) =
        some (some .futureRoundFinalized) := by
    decide
  obtain ⟨m, hstart, herr⟩ := Option.map_eq_some_iff.mp hrun
  exact ⟨m, hstart, eq_error_of_exceptError herr⟩

end Serai.Tendermint
