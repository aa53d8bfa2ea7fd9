import Serai.Tendermint.EndTime
/-
  Serai.Tendermint.Locking — the machine's lock and valid value
  (coordinator/tributary/tendermint/src/lib.rs, lines 22-43 of `message`; block.rs, `locked`
  and `valid`).

  Only lines 36-43 (`onPrevotes`) touch the two: once the current round's prevotes for its
  proposal reach the threshold, the proposal is the valid value of the round, and in the
  Prevote step it is also locked and precommitted to. A new block clears both. Every other
  part of the handling keeps them and queues no prevote for a block (`KeepsLock`); only
  lines 22-33 (`onProposal`) prevote for one, and against a lock only as the paper allows.
  - `step_lock`: what one step does to the lock, the valid value and the queue.
  - `Reach.lockInv`: in every reachable machine the valid value is of a round no later than
    the current one, and the lock of a round no later than the valid value's.
  - `locking_rule`: every prevote a step queues for a block other than the locked one is for
    the round's proposal, whose valid round is at or after the lock's and before the round,
    with the threshold of prevotes for it in that round; and within a block the lock and the
    valid value only move to later rounds.

  A run's steps start short of round u32::MAX (`Reach`): in a release build the precommit
  timeout of that round moves to round 0 of the same block (`WrapsRound`), keeping the lock
  and the valid value of round u32::MAX, and round 0's prevotes then move both back to
  round 0 (`valid_moves_back_after_last_round`).
-/

namespace Serai.Tendermint

open Serai.Lib

variable {V B Id Sig : Type}

/-! ## What a part of the handling queues and does to the lock -/

/-- The messages in `m'`'s queue that were not in `m`'s all satisfy `P`. -/
def Queues (m m' : Machine V B Id Sig) (P : Message V B Id Sig → Prop) : Prop :=
  ∀ msg ∈ m'.queue, msg ∈ m.queue ∨ P msg

theorem Queues.refl (m : Machine V B Id Sig) (P : Message V B Id Sig → Prop) : Queues m m P :=
  fun _ h => .inl h

theorem Queues.trans {m m₁ m₂ : Machine V B Id Sig} {P : Message V B Id Sig → Prop} (h₁ : Queues m m₁ P)
    (h₂ : Queues m₁ m₂ P) : Queues m m₂ P := by
  intro msg hmsg
  rcases h₂ msg hmsg with hmsg | hp
  · exact h₁ msg hmsg
  · exact .inr hp

theorem Queues.mono {m m' : Machine V B Id Sig} {P Q : Message V B Id Sig → Prop} (h : Queues m m' P)
    (hPQ : ∀ msg, P msg → Q msg) : Queues m m' Q := by
  intro msg hmsg
  exact (h msg hmsg).imp_right (hPQ msg)

/-- A message that is no prevote for a block. -/
def Message.NotPrevoteFor (msg : Message V B Id Sig) : Prop := ∀ id, msg.data ≠ .prevote (some id)

/-- The lock and the valid value stay, or lines 36-43 ran in round `r`, at or after `b`'s and
    at or before `b'`'s: the valid value is then `r`'s, from another round before, and the
    lock stays or is `r`'s. -/
def LockMoves (b b' : BlockData V B Id Sig) : Prop :=
  (b'.locked = b.locked ∧ b'.valid = b.valid) ∨
    ∃ r block, b.round.number ≤ r ∧ r ≤ b'.round.number ∧ Machine.validNotOf b.valid r = true ∧
      b'.valid = some (r, block) ∧ (b'.locked = b.locked ∨ ∃ id, b'.locked = some (r, id))

/-- A part of the handling that keeps the block, the lock and the valid value, moves the
    round up if at all, and queues no prevote for a block. -/
structure KeepsLock (m m' : Machine V B Id Sig) : Prop where
  number : m'.block.number = m.block.number
  round : m.block.round.number ≤ m'.block.round.number
  locked : m'.block.locked = m.block.locked
  valid : m'.block.valid = m.block.valid
  queue : Queues m m' Message.NotPrevoteFor

/-- A part of the handling within a block: the round moves up if at all, and the lock and
    the valid value move as `LockMoves` says. -/
structure MovesLock (m m' : Machine V B Id Sig) : Prop where
  number : m'.block.number = m.block.number
  round : m.block.round.number ≤ m'.block.round.number
  lock : LockMoves m.block m'.block

namespace KeepsLock

theorem refl (m : Machine V B Id Sig) : KeepsLock m m := ⟨rfl, UInt32.le_refl _, rfl, rfl, Queues.refl m _⟩

theorem trans {m m₁ m₂ : Machine V B Id Sig} (h₁ : KeepsLock m m₁) (h₂ : KeepsLock m₁ m₂) : KeepsLock m m₂ :=
  ⟨h₂.number.trans h₁.number, UInt32.le_trans h₁.round h₂.round, h₂.locked.trans h₁.locked,
    h₂.valid.trans h₁.valid, h₁.queue.trans h₂.queue⟩

theorem movesLock {m m' : Machine V B Id Sig} (h : KeepsLock m m') : MovesLock m m' :=
  ⟨h.number, h.round, .inl ⟨h.locked, h.valid⟩⟩

theorem trans_movesLock {m m₁ m₂ : Machine V B Id Sig} (h₁ : KeepsLock m m₁) (h₂ : MovesLock m₁ m₂) :
    MovesLock m m₂ := by
  refine ⟨h₂.number.trans h₁.number, UInt32.le_trans h₁.round h₂.round, ?_⟩
  rcases h₂.lock with ⟨hl, hv⟩ | ⟨r, block, hr₁, hr₂, hnot, hv, hl⟩
  · exact .inl ⟨hl.trans h₁.locked, hv.trans h₁.valid⟩
  · refine .inr ⟨r, block, UInt32.le_trans h₁.round hr₁, hr₂, h₁.valid ▸ hnot, hv, ?_⟩
    rw [← h₁.locked]
    exact hl

end KeepsLock

theorem MovesLock.trans_keepsLock {m m₁ m₂ : Machine V B Id Sig} (h₁ : MovesLock m m₁) (h₂ : KeepsLock m₁ m₂) :
    MovesLock m m₂ := by
  refine ⟨h₂.number.trans h₁.number, UInt32.le_trans h₁.round h₂.round, ?_⟩
  rcases h₁.lock with ⟨hl, hv⟩ | ⟨r, block, hr₁, hr₂, hnot, hv, hl⟩
  · exact .inl ⟨h₂.locked.trans hl, h₂.valid.trans hv⟩
  · refine .inr ⟨r, block, hr₁, UInt32.le_trans hr₂ h₂.round, hnot, h₂.valid.trans hv, ?_⟩
    rw [h₂.locked]
    exact hl

theorem movesLock_lock (m : Machine V B Id Sig) (block : B) (id : Id)
    (hnot : Machine.validNotOf m.block.valid m.block.round.number = true) :
    MovesLock m { m with block.valid := some (m.block.round.number, block),
                         block.locked := some (m.block.round.number, id) } :=
  ⟨rfl, UInt32.le_refl _, .inr ⟨_, block, UInt32.le_refl _, UInt32.le_refl _, hnot, rfl, .inr ⟨id, rfl⟩⟩⟩

theorem movesLock_valid (m : Machine V B Id Sig) (block : B)
    (hnot : Machine.validNotOf m.block.valid m.block.round.number = true) :
    MovesLock m { m with block.valid := some (m.block.round.number, block) } :=
  ⟨rfl, UInt32.le_refl _, .inr ⟨_, block, UInt32.le_refl _, UInt32.le_refl _, hnot, rfl, .inl rfl⟩⟩

/-- A new block: the next number, no lock, no valid value, and a queue of no prevote for a
    block. -/
structure NewBlock (m m' : Machine V B Id Sig) : Prop where
  number : m'.block.number = m.block.number + 1
  locked : m'.block.locked = none
  valid : m'.block.valid = none
  queue : ∀ msg ∈ m'.queue, msg.NotPrevoteFor

theorem NewBlock.of_number {m m₁ m' : Machine V B Id Sig} (h : NewBlock m₁ m') (hn : m₁.block.number = m.block.number) :
    NewBlock m m' :=
  ⟨hn ▸ h.number, h.locked, h.valid, h.queue⟩

/-- The precommit timeout of round u32::MAX: in a release build the round wraps to 0, in the
    same block, with the lock and the valid value kept and at most round 0's proposal
    queued. -/
structure WrapsRound (m m' : Machine V B Id Sig) : Prop where
  last : m.block.round.number.toNat = 2 ^ 32 - 1
  round : m'.block.round.number = 0
  number : m'.block.number = m.block.number
  locked : m'.block.locked = m.block.locked
  valid : m'.block.valid = m.block.valid
  queue : Queues m m' Message.NotPrevoteFor

/-! ## The parts of the handling -/

section Parts

variable [DecidableEq V] (net : Network V B Id Sig) {m m' : Machine V B Id Sig}

omit [DecidableEq V] in
theorem broadcast_block (m : Machine V B Id Sig) (data : Data B Id Sig) :
    (m.broadcast data).block = { m.block with round := { m.block.round with step := data.step } } := by
  unfold Machine.broadcast
  dsimp only
  split
  · rfl
  · split <;> rfl

omit [DecidableEq V] in
theorem broadcast_queue (m : Machine V B Id Sig) (data : Data B Id Sig) :
    Queues m (m.broadcast data) fun msg => msg.data = data ∧ msg.block = m.block.number ∧
      msg.round = m.block.round.number := by
  intro msg hmsg
  unfold Machine.broadcast at hmsg
  dsimp only at hmsg
  split at hmsg
  · exact .inl hmsg
  · split at hmsg
    · exact .inl hmsg
    · rcases List.mem_append.mp hmsg with hmsg | hmsg
      · exact .inl hmsg
      · rw [List.mem_singleton] at hmsg
        subst hmsg
        exact .inr ⟨rfl, rfl, rfl⟩

omit [DecidableEq V] in
theorem keepsLock_broadcast (m : Machine V B Id Sig) {data : Data B Id Sig} (hdata : ∀ id, data ≠ .prevote (some id)) :
    KeepsLock m (m.broadcast data) := by
  have hb := broadcast_block m data
  refine ⟨by rw [hb], by rw [hb]; exact UInt32.le_refl _, by rw [hb], by rw [hb], ?_⟩
  refine (broadcast_queue m data).mono fun msg hmsg id => ?_
  rw [hmsg.1]
  exact hdata id

omit [DecidableEq V] in
theorem movesLock_broadcast (m : Machine V B Id Sig) (data : Data B Id Sig) :
    MovesLock m (m.broadcast data) ∧ (m.broadcast data).block.log = m.block.log := by
  have hb := broadcast_block m data
  exact ⟨⟨by rw [hb], by rw [hb]; exact UInt32.le_refl _, .inl ⟨by rw [hb], by rw [hb]⟩⟩, by rw [hb]⟩

omit [DecidableEq V] in
theorem keepsLock_setTimeout (m : Machine V B Id Sig) (step : Step) : KeepsLock m (m.setTimeout net step) := by
  have hround := (Machine.sameCore_setTimeout net m step).round
  exact ⟨rfl, hround ▸ UInt32.le_refl _, rfl, rfl, Queues.refl m _⟩

theorem keepsLock_slash (m : Machine V B Id Sig) (validator : V) (event : SlashEvent V B Id Sig) :
    KeepsLock m (m.slash validator event) := by
  unfold Machine.slash
  split
  · exact KeepsLock.refl m
  · exact ⟨rfl, UInt32.le_refl _, rfl, rfl, Queues.refl m _⟩

theorem newRound_lock {b b' : BlockData V B Id Sig} {round : UInt32} {proposer : V} {time : Option ℕ}
    {data : Option (Data B Id Sig)} (h : b.newRound net round proposer time = some (b', data)) :
    b'.locked = b.locked ∧ b'.valid = b.valid ∧ ∀ d ∈ data, ∀ id, d ≠ .prevote (some id) := by
  unfold BlockData.newRound at h
  obtain ⟨endTime, -, h⟩ := Option.bind_eq_some_iff.mp h
  obtain ⟨start, -, h⟩ := Option.bind_eq_some_iff.mp h
  dsimp only at h
  split at h
  · cases h
    refine ⟨rfl, rfl, fun d hd id => ?_⟩
    obtain ⟨block, -, rfl⟩ := Option.map_eq_some_iff.mp hd
    nofun
  · cases h
    exact ⟨rfl, rfl, nofun⟩

theorem round_lock {r : UInt32} {time : Option ℕ} {proposer : Bool} (h : m.round net r time = some (m', proposer)) :
    m'.block.number = m.block.number ∧ m'.block.round.number = r ∧ m'.block.locked = m.block.locked ∧
      m'.block.valid = m.block.valid ∧ Queues m m' Message.NotPrevoteFor := by
  unfold Machine.round at h
  obtain ⟨⟨b, data⟩, hnew, h⟩ := Option.map_eq_some_iff.mp h
  obtain ⟨hnum, -, hround, -⟩ := newRound_fields net hnew
  obtain ⟨hlocked, hvalid, hdata⟩ := newRound_lock net hnew
  cases data with
  | none =>
    cases h
    exact ⟨hnum, hround, hlocked, hvalid, Queues.refl m _⟩
  | some d =>
    cases h
    have hk := keepsLock_broadcast { m with block := b } (hdata d rfl)
    exact ⟨hk.number.trans hnum, by rw [← hround, (Machine.sameCore_broadcast _ d).round], hk.locked.trans hlocked,
      hk.valid.trans hvalid, hk.queue⟩

theorem keepsLock_round {r : UInt32} {time : Option ℕ} {proposer : Bool} (hr : m.block.round.number ≤ r)
    (h : m.round net r time = some (m', proposer)) : KeepsLock m m' := by
  obtain ⟨hnum, hround, hlocked, hvalid, hqueue⟩ := round_lock net h
  exact ⟨hnum, hround ▸ hr, hlocked, hvalid, hqueue⟩

theorem keepsLock_checkPrecommit {round : UInt32} {entry : Σ _ : V, Msgs V B Id Sig}
    (h : Machine.checkPrecommit net round m entry = .ok m') : KeepsLock m m' := by
  unfold Machine.checkPrecommit at h
  split at h
  · cases h
    exact KeepsLock.refl m
  · split at h
    · split at h
      · cases h
        exact KeepsLock.refl m
      · cases h
    · cases h
      -- an unverified precommit is dropped from the log and its sender slashed
      refine KeepsLock.trans ?_ (keepsLock_slash _ _ _)
      exact ⟨rfl, UInt32.le_refl _, rfl, rfl, Queues.refl m _⟩

theorem keepsLock_jump {msg : Message V B Id Sig} {goOn : Bool} (h : m.jump net msg = .ok (m', goOn)) :
    KeepsLock m m' := by
  unfold Machine.jump at h
  split at h
  · cases h
    exact KeepsLock.refl m
  · split at h
    · rename_i hlt
      split at h
      · split at h
        · cases h
        · rename_i m₁ proposer hround
          split at h
          · cases h
          · rename_i roundMsgs _
            obtain ⟨m₂, hfold, h⟩ := except_bind_ok h
            cases h
            refine (keepsLock_round net (UInt32.le_of_lt hlt) hround).trans ?_
            exact foldlM_except_inv (fun _ m₂ => KeepsLock m₁ m₂) roundMsgs.entries
              (fun _ e _ m₃ m₄ _ h₃ h₄ => h₃.trans (keepsLock_checkPrecommit net h₄)) (KeepsLock.refl m₁) hfold
      · cases h
        exact KeepsLock.refl m
    · cases h
      exact KeepsLock.refl m

omit [DecidableEq V] in
theorem keepsLock_ite_setTimeout (m : Machine V B Id Sig) (c : Prop) [Decidable c] (step : Step) :
    KeepsLock m (if c then m.setTimeout net step else m) := by
  split
  · exact keepsLock_setTimeout net m step
  · exact KeepsLock.refl m

theorem newBlock_reset {endRound : UInt32} {proposal : Option B} (h : m.reset net endRound proposal = .ok m') :
    NewBlock m m' := by
  unfold Machine.reset at h
  split at h
  · cases h
  · split at h
    · cases h
    · dsimp only at h
      split at h
      · cases h
      · rename_i hround
        cases h
        obtain ⟨hnum, -, hlocked, hvalid, hqueue⟩ := round_lock net hround
        refine ⟨hnum, hlocked, hvalid, fun msg hmsg => ?_⟩
        rcases hqueue msg hmsg with hmsg | hnot
        · cases hmsg
        · exact hnot

theorem newBlock_resetByCommit {commit : Commit V Sig} {proposal : Option B}
    (h : m.resetByCommit net commit proposal = .ok m') : NewBlock m m' := by
  unfold Machine.resetByCommit at h
  obtain ⟨⟨round, endTime⟩, -, h⟩ := except_bind_ok h
  obtain ⟨round', -, h⟩ := except_bind_ok h
  have hnew := newBlock_reset net h
  exact ⟨hnew.number, hnew.locked, hnew.valid, hnew.queue⟩

theorem newBlock_finalize [DecidableEq Id] {msg : Message V B Id Sig} {block : B} {proposal : Option B}
    (h : m.finalize net msg block proposal = .ok m') : NewBlock m m' := by
  unfold Machine.finalize at h
  split at h
  · cases h
  · dsimp only at h
    split at h
    · cases h
    · have hnew := newBlock_reset net h
      exact ⟨hnew.number, hnew.locked, hnew.valid, hnew.queue⟩

theorem onError_log (m : Machine V B Id Sig) (signed : SignedMessage V B Id Sig) (e : TendermintError V B Id Sig) :
    (m.onError signed e).block.log = m.block.log := by
  unfold Machine.onError
  split
  · exact (Machine.sameCore_slash _ _ _).log
  · rfl

theorem keepsLock_onError (m : Machine V B Id Sig) (signed : SignedMessage V B Id Sig) (e : TendermintError V B Id Sig) :
    KeepsLock m (m.onError signed e) := by
  unfold Machine.onError
  split
  · exact keepsLock_slash _ _ _
  · exact KeepsLock.refl m

end Parts

/-! ## Lines 22-46 -/

theorem vote_eq_some [DecidableEq Id] {locked : Option (UInt32 × Id)} {valid : Bool} {id Y : Id}
    (h : (if Machine.lockAllows locked id then (if valid then some id else none) else none) = some Y) :
    Y = id ∧ ∀ r X, locked = some (r, X) → X = Y := by
  split_ifs at h with hallow
  cases h
  refine ⟨rfl, fun r X hl => ?_⟩
  subst hl
  simpa [Machine.lockAllows] using hallow

theorem voteWithValidRound_eq_some {r vr : UInt32} {X Y : Id} {vote rawVote : Option Id}
    (h : Machine.voteWithValidRound (some (r, X)) vr vote rawVote = some Y) (hvote : vote = some Y → X = Y)
    (hne : Y ≠ X) : r ≤ vr ∧ rawVote = some Y := by
  unfold Machine.voteWithValidRound at h
  cases vote with
  | some v =>
    cases h
    exact absurd (hvote rfl).symm hne
  | none =>
    simp only [Option.none_or] at h
    split_ifs at h with hle
    exact ⟨hle, h⟩


section Lines

variable [DecidableEq V] [DecidableEq B] [DecidableEq Id] (net : Network V B Id Sig) {m m' : Machine V B Id Sig}
  {signed : SignedMessage V B Id Sig} {r : Except (TendermintError V B Id Sig) (Option B)}

/-- Lines 22-33 against a lock: a prevote for a block other than the locked one is for the
    round's proposal, whose valid round is at or after the lock's and before the round, and
    the log holds the threshold of prevotes for the block in that valid round. -/
def PrevoteJustified (locked : Option (UInt32 × Id)) (log : MessageLog V B Id Sig) (msg : Message V B Id Sig) : Prop :=
  ∀ Y r X, msg.data = .prevote (some Y) → locked = some (r, X) → Y ≠ X →
    ∃ vr block p, log.get msg.round (net.weights.proposer msg.block msg.round) .propose = some p ∧
      p.msg.data = .proposal (some vr) block ∧ net.id block = Y ∧ r ≤ vr ∧ vr < msg.round ∧
      hasConsensus net.weights log vr (.prevote (some Y)) = some true

theorem prevoteJustified_of_not {locked : Option (UInt32 × Id)} {log : MessageLog V B Id Sig}
    {msg : Message V B Id Sig} (h : msg.NotPrevoteFor) : PrevoteJustified net locked log msg :=
  fun Y _ _ hY => absurd hY (h Y)

/-- A part of the handling within a block that moves the lock as lines 36-43 may and queues
    only prevotes the lock justifies. -/
def Handles (m m' : Machine V B Id Sig) : Prop :=
  MovesLock m m' ∧ Queues m m' (PrevoteJustified net m.block.locked m'.block.log)

theorem KeepsLock.handles {m₁ m₂ : Machine V B Id Sig} (h : KeepsLock m₁ m₂) : Handles net m₁ m₂ :=
  ⟨h.movesLock, h.queue.mono fun _ hnot => prevoteJustified_of_not net hnot⟩

theorem Handles.trans_keepsLock {m₁ m₂ m₃ : Machine V B Id Sig} (h₁ : Handles net m₁ m₂) (h₂ : KeepsLock m₂ m₃)
    (hlog : m₃.block.log = m₂.block.log) : Handles net m₁ m₃ := by
  refine ⟨h₁.1.trans_keepsLock h₂, ?_⟩
  rw [hlog]
  exact h₁.2.trans (h₂.queue.mono fun _ hnot => prevoteJustified_of_not net hnot)

theorem KeepsLock.trans_handles {m₁ m₂ m₃ : Machine V B Id Sig} (h₁ : KeepsLock m₁ m₂) (h₂ : Handles net m₂ m₃) :
    Handles net m₁ m₃ := by
  refine ⟨h₁.trans_movesLock h₂.1, ?_⟩
  rw [← h₁.locked]
  exact (h₁.queue.mono fun _ hnot => prevoteJustified_of_not net hnot).trans h₂.2

theorem onProposal_lock {proposer : V} {validRound : Option UInt32} {block : B} {p : SignedMessage V B Id Sig}
    (hp : m.block.log.get m.block.round.number (net.weights.proposer m.block.number m.block.round.number) .propose = some p)
    (hdata : p.msg.data = .proposal validRound block)
    (h : m.onProposal net signed proposer validRound block = .ok (m', r)) :
    KeepsLock m m' ∨ (MovesLock m m' ∧ m'.block.log = m.block.log ∧
      Queues m m' (PrevoteJustified net m.block.locked m'.block.log)) := by
  unfold Machine.onProposal at h
  cases validRound with
  | none =>
    cases h
    obtain ⟨hmoves, hlog⟩ := movesLock_broadcast m _
    refine .inr ⟨hmoves, hlog, (broadcast_queue m _).mono fun msg hmsg Y r X hY hl hne => ?_⟩
    -- with no valid round, the vote is for the locked block or none
    rw [hmsg.1, Data.prevote.injEq] at hY
    exact absurd ((vote_eq_some hY).2 r X hl).symm hne
  | some vr =>
    dsimp only at h
    split at h
    · cases h
      exact .inl (KeepsLock.refl m)
    · rename_i hvr
      split at h
      · cases h
      · rename_i hcons
        cases h
        obtain ⟨hmoves, hlog⟩ := movesLock_broadcast m _
        refine .inr ⟨hmoves, hlog, (broadcast_queue m _).mono fun msg hmsg Y r X hY hl hne => ?_⟩
        obtain ⟨hd, hblock, hround⟩ := hmsg
        rw [hd, Data.prevote.injEq, hl] at hY
        -- against a lock on another block, only the raw vote with a valid round past the lock's
        obtain ⟨hle, hraw⟩ := voteWithValidRound_eq_some hY (fun hvote => (vote_eq_some hvote).2 r X rfl) hne
        split_ifs at hraw
        cases hraw
        refine ⟨vr, block, p, ?_, hdata, rfl, hle, ?_, ?_⟩
        · rw [hblock, hround, hlog]
          exact hp
        · rw [hround]
          exact UInt32.not_le.mp hvr
        · rw [hlog]
          exact hcons
      · cases h
        exact .inl (KeepsLock.refl m)

omit [DecidableEq V] in
theorem onPrevotes_lock {proposer : V} {block : B} (h : m.onPrevotes net proposer block = .ok (m', r)) :
    MovesLock m m' ∧ Queues m m' Message.NotPrevoteFor := by
  unfold Machine.onPrevotes at h
  dsimp only at h
  split at h
  · rename_i hnot
    split at h
    · cases h
    · cases h
      exact ⟨(KeepsLock.refl m).movesLock, Queues.refl m _⟩
    · split at h
      · cases h
        exact ⟨(KeepsLock.refl m).movesLock, Queues.refl m _⟩
      · split at h
        · split at h
          · cases h
          · rename_i endTime _
            cases h
            -- valid and locked in the current round, then the precommit
            have hk := @keepsLock_broadcast _ _ _ _
              { m with block.valid := some (m.block.round.number, block),
                       block.locked := some (m.block.round.number, net.id block) }
              (.precommit (some (net.id block, net.signCommit endTime (net.id block)))) fun _ h => by cases h
            exact ⟨(movesLock_lock m block _ hnot).trans_keepsLock hk, hk.queue⟩
        · cases h
          exact ⟨movesLock_valid m block hnot, Queues.refl m _⟩
  · cases h
    exact ⟨(KeepsLock.refl m).movesLock, Queues.refl m _⟩

omit [DecidableEq V] in
theorem keepsLock_onNilPrevotes {done : Bool} (h : m.onNilPrevotes net signed = .ok (m', done)) : KeepsLock m m' := by
  unfold Machine.onNilPrevotes at h
  split at h
  · split at h
    · cases h
    · dsimp only at h
      split at h
      · cases h
        exact (keepsLock_ite_setTimeout net m _ _).trans (keepsLock_broadcast _ fun _ => nofun)
      · cases h
        exact keepsLock_ite_setTimeout net m _ _
  · cases h
    exact KeepsLock.refl m

omit [DecidableEq V] [DecidableEq B] [DecidableEq Id] in
theorem keepsLock_onPrecommits (h : m.onPrecommits net signed = .ok m') : KeepsLock m m' := by
  unfold Machine.onPrecommits at h
  split at h
  · split at h
    · cases h
    · cases h
      exact keepsLock_setTimeout net m _
    · cases h
      exact KeepsLock.refl m
  · cases h
    exact KeepsLock.refl m

theorem onProposalLogged_lock (h : m.onProposalLogged net signed = .ok (m', r)) : Handles net m m' := by
  unfold Machine.onProposalLogged at h
  dsimp only at h
  split at h
  · cases h
    exact (KeepsLock.refl m).handles net
  · rename_i p hp
    split at h
    · rename_i validRound block hdata
      split at h
      · rcases onProposal_lock net hp hdata h with hk | ⟨hmoves, -, hqueue⟩
        · exact hk.handles net
        · exact ⟨hmoves, hqueue⟩
      · obtain ⟨hmoves, hqueue⟩ := onPrevotes_lock net h
        exact ⟨hmoves, hqueue.mono fun _ hnot => prevoteJustified_of_not net hnot⟩
    · cases h

theorem onCurrent_lock (h : m.onCurrent net signed = .ok (m', r)) : Handles net m m' := by
  unfold Machine.onCurrent at h
  obtain ⟨⟨m₁, done⟩, h₁, h⟩ := except_bind_ok h
  have hk₁ := keepsLock_onNilPrevotes net h₁
  dsimp only at h
  cases done with
  | true =>
    cases h
    exact hk₁.handles net
  | false =>
    simp only [Bool.false_eq_true, ↓reduceIte] at h
    obtain ⟨m₂, h₂, h⟩ := except_bind_ok h
    exact (hk₁.trans (keepsLock_onPrecommits net h₂)).trans_handles net (onProposalLogged_lock net h)

theorem afterLog_lock (h : m.afterLog net signed = .ok (m', r)) : Handles net m m' := by
  rcases afterLog_ok net h with ⟨-, -, rfl, -⟩ | ⟨-, m₁, goOn, hjump, hrest⟩
  · exact (KeepsLock.refl _).handles net
  · have hk := keepsLock_jump net hjump
    rcases hrest with ⟨-, rfl, -⟩ | ⟨-, hcur⟩
    · exact hk.handles net
    · exact hk.trans_handles net (onCurrent_lock net hcur)

theorem message_lock (h : m.message net signed = .ok (m', r)) : Handles net m m' := by
  rcases message_ok net h with rfl | ⟨log, -, h⟩
  · exact (KeepsLock.refl _).handles net
  · refine KeepsLock.trans_handles net ?_ (afterLog_lock net h)
    exact ⟨rfl, UInt32.le_refl _, rfl, rfl, Queues.refl m _⟩

end Lines

/-! ## Steps and runs -/

/-- The valid value is of a round no later than the current one, and the lock of a round no
    later than the valid value's. -/
def LockInv (b : BlockData V B Id Sig) : Prop :=
  (∀ vr block, b.valid = some (vr, block) → vr ≤ b.round.number) ∧
    ∀ lr id, b.locked = some (lr, id) → ∃ vr block, b.valid = some (vr, block) ∧ lr ≤ vr

/-- `o'` is `o`, or of a round later than `o`'s. -/
def LaterRound {α : Type} (o o' : Option (UInt32 × α)) : Prop :=
  o' = o ∨ ∃ r' a', o' = some (r', a') ∧ ∀ r a, o = some (r, a) → r < r'

theorem lt_of_validNotOf {valid : Option (UInt32 × B)} {r vr : UInt32} {block : B}
    (hv : valid = some (vr, block)) (hnot : Machine.validNotOf valid r = true) (hle : vr ≤ r) : vr < r := by
  subst hv
  simp only [Machine.validNotOf, ne_eq, decide_eq_true_eq] at hnot
  rw [UInt32.lt_iff_toNat_lt]
  rw [UInt32.le_iff_toNat_le] at hle
  have : vr.toNat ≠ r.toNat := fun h => hnot (UInt32.toNat_inj.mp h)
  omega

theorem LockInv.movesLock {m m' : Machine V B Id Sig} (hi : LockInv m.block) (h : MovesLock m m') :
    LockInv m'.block ∧ LaterRound m.block.locked m'.block.locked ∧ LaterRound m.block.valid m'.block.valid := by
  obtain ⟨hvalid, hlocked⟩ := hi
  rcases h.lock with ⟨hl, hv⟩ | ⟨r, block, hr₁, hr₂, hnot, hv, hl⟩
  · refine ⟨⟨fun vr block hvr => ?_, fun lr id hlr => ?_⟩, .inl hl, .inl hv⟩
    · rw [hv] at hvr
      exact UInt32.le_trans (hvalid vr block hvr) h.round
    · rw [hl] at hlr
      rw [hv]
      exact hlocked lr id hlr
  · -- the valid value before was of an earlier round
    have hbefore : ∀ vr block', m.block.valid = some (vr, block') → vr < r := fun vr block' hvr =>
      lt_of_validNotOf hvr hnot (UInt32.le_trans (hvalid vr block' hvr) hr₁)
    refine ⟨⟨fun vr block' hvr => ?_, fun lr id hlr => ⟨r, block, hv, ?_⟩⟩, ?_,
      .inr ⟨r, block, hv, fun vr block' hvr => hbefore vr block' hvr⟩⟩
    · rw [hv, Option.some.injEq, Prod.mk.injEq] at hvr
      rw [← hvr.1]
      exact hr₂
    · rcases hl with hl | ⟨id', hl⟩
      · rw [hl] at hlr
        obtain ⟨vr, block', hvr, hle⟩ := hlocked lr id hlr
        exact UInt32.le_of_lt (UInt32.lt_of_le_of_lt hle (hbefore vr block' hvr))
      · rw [hl, Option.some.injEq, Prod.mk.injEq] at hlr
        rw [← hlr.1]
        exact UInt32.le_refl _
    · rcases hl with hl | ⟨id', hl⟩
      · exact .inl hl
      · refine .inr ⟨r, id', hl, fun lr id hlr => ?_⟩
        obtain ⟨vr, block', hvr, hle⟩ := hlocked lr id hlr
        exact UInt32.lt_of_le_of_lt hle (hbefore vr block' hvr)

theorem NewBlock.lockInv {m m' : Machine V B Id Sig} (h : NewBlock m m') : LockInv m'.block := by
  refine ⟨fun vr block hvr => ?_, fun lr id hlr => ?_⟩
  · rw [h.valid] at hvr
    cases hvr
  · rw [h.locked] at hlr
    cases hlr

section Steps

variable [DecidableEq V] [DecidableEq B] [DecidableEq Id] (net : Network V B Id Sig) {m m' : Machine V B Id Sig}

theorem step_lock {ev : Event V B Id Sig} (h : m.step net ev = .ok m') :
    NewBlock m m' ∨ Handles net m m' ∨ WrapsRound m m' := by
  cases ev with
  | synced number block commit proposal =>
    dsimp only [Machine.step] at h
    split_ifs at h
    · cases h
      exact .inr (.inl ((KeepsLock.refl m).handles net))
    · cases h
      exact .inr (.inl ((KeepsLock.refl m).handles net))
    · exact .inl ((newBlock_resetByCommit net h).of_number rfl)
  | own proposal =>
    dsimp only [Machine.step] at h
    split at h
    · cases h
      exact .inr (.inl ((KeepsLock.refl m).handles net))
    · rename_i msg rest hqueue
      obtain ⟨⟨m₁, res⟩, hmsg, h⟩ := except_bind_ok h
      -- the message popped leaves the rest of the queue
      have hpop : KeepsLock m { m with queue := rest } :=
        ⟨rfl, UInt32.le_refl _, rfl, rfl, fun msg' h' => .inl (hqueue ▸ List.mem_cons_of_mem msg h')⟩
      have hhandles := hpop.trans_handles net (message_lock net hmsg)
      split at h
      · cases h
      · cases h
        exact .inr (.inl hhandles)
      · exact .inl ((newBlock_finalize net h).of_number hhandles.1.number)
  | timeout step =>
    dsimp only [Machine.step] at h
    split at h
    · cases h
      exact .inr (.inl ((KeepsLock.refl m).handles net))
    · have hk₀ : KeepsLock m { m with block.round.timeouts := Function.update m.block.round.timeouts step none } :=
        ⟨rfl, UInt32.le_refl _, rfl, rfl, Queues.refl m _⟩
      split_ifs at h
      · split at h
        · -- the Propose timeout: its proposer slashed, and a prevote for nil
          cases h
          refine .inr (.inl (KeepsLock.handles net ?_))
          exact (hk₀.trans (keepsLock_slash _ _ _)).trans (keepsLock_broadcast _ fun _ => nofun)
        · cases h
          refine .inr (.inl (KeepsLock.handles net ?_))
          exact hk₀.trans (keepsLock_broadcast _ fun _ => nofun)
        · split at h
          · cases h
          · rename_i hround
            cases h
            obtain ⟨hnum, hround₁, hlocked, hvalid, hqueue⟩ := round_lock net hround
            by_cases hlast : m.block.round.number.toNat < 2 ^ 32 - 1
            · -- the next round
              refine .inr (.inl ((hk₀.trans ⟨hnum, ?_, hlocked, hvalid, hqueue⟩).handles net))
              rw [hround₁]
              dsimp only
              rw [UInt32.le_iff_toNat_le, toNat_succ_of_lt hlast]
              omega
            · -- the last round: the next is round 0
              have hmax : m.block.round.number.toNat = 2 ^ 32 - 1 := by
                have := m.block.round.number.toNat_lt
                omega
              refine .inr (.inr ⟨hmax, ?_, hnum, hlocked, hvalid, hk₀.queue.trans hqueue⟩)
              rw [hround₁]
              apply UInt32.toNat_inj.mp
              simp only [UInt32.toNat_add, UInt32.toNat_one, UInt32.toNat_zero]
              omega
      · cases h
        exact .inr (.inl (hk₀.handles net))
  | received signed proposal =>
    dsimp only [Machine.step] at h
    split_ifs at h
    · cases h
      exact .inr (.inl ((KeepsLock.refl m).handles net))
    · obtain ⟨⟨m₁, res⟩, hmsg, h⟩ := except_bind_ok h
      have hhandles := message_lock net hmsg
      split at h
      · cases h
        exact .inr (.inl hhandles)
      · exact .inl ((newBlock_finalize net h).of_number hhandles.1.number)
      · cases h
        exact .inr (.inl (hhandles.trans_keepsLock net (keepsLock_onError _ _ _) (onError_log _ _ _)))

omit [DecidableEq B] [DecidableEq Id] in
theorem start_lockInv {sent : List (UInt64 × UInt32 × Step)} {lastBlock : UInt64} {lastTime : ℕ}
    {validatorId : Option V} {proposal : B} (h : Machine.start net sent lastBlock lastTime validatorId proposal = some m) :
    LockInv m.block := by
  unfold Machine.start at h
  obtain ⟨⟨m₁, proposer⟩, hround, rfl⟩ := Option.map_eq_some_iff.mp h
  obtain ⟨-, -, hlocked, hvalid, -⟩ := round_lock net hround
  refine ⟨fun vr block hvr => ?_, fun lr id hlr => ?_⟩
  · rw [hvalid] at hvr
    cases hvr
  · rw [hlocked] at hlr
    cases hlr

theorem Reach.lockInv (h : Reach net m) : LockInv m.block := by
  induction h with
  | start hstart => exact start_lockInv net hstart
  | step _ hlast hstep ih =>
    rcases step_lock net hstep with hnew | hhandles | hwraps
    · exact hnew.lockInv
    · exact (ih.movesLock hhandles.1).1
    · exact absurd hwraps.last (Nat.ne_of_lt hlast)

end Steps

/-! ## The locking rule -/

section Rule

variable [DecidableEq V] [DecidableEq B] [DecidableEq Id] (net : Network V B Id Sig)

/-- Every prevote a step queues for a block other than the locked one is for the round's
    proposal, whose valid round is at or after the lock's and before the round, with the
    threshold of prevotes for the block in that valid round; every reachable machine has
    its valid value of a round up to the current one and its lock of a round up to the
    valid value's; and within a block, every step of a run moves the lock and the valid
    value only to later rounds. -/
theorem locking_rule :
    (∀ (m m' : Machine V B Id Sig) (ev : Event V B Id Sig), m.step net ev = .ok m' →
      ∀ msg ∈ m'.queue, msg ∉ m.queue → PrevoteJustified net m.block.locked m'.block.log msg) ∧
    (∀ m : Machine V B Id Sig, Reach net m → LockInv m.block) ∧
    (∀ (m m' : Machine V B Id Sig) (ev : Event V B Id Sig), Reach net m → m.block.round.number.toNat < 2 ^ 32 - 1 →
      m.step net ev = .ok m' → m'.block.number = m.block.number →
      LaterRound m.block.locked m'.block.locked ∧ LaterRound m.block.valid m'.block.valid) := by
  refine ⟨fun m m' ev h msg hin hnotin => ?_, fun m hreach => hreach.lockInv net, ?_⟩
  · rcases step_lock net h with hnew | hhandles | hwraps
    · exact prevoteJustified_of_not net (hnew.queue msg hin)
    · exact (hhandles.2 msg hin).resolve_left hnotin
    · exact prevoteJustified_of_not net ((hwraps.queue msg hin).resolve_left hnotin)
  · intro m m' ev hreach hlast h hsame
    rcases step_lock net h with hnew | hhandles | hwraps
    · -- a new block has the next number
      have hsucc := hnew.number.symm.trans hsame
      have := congrArg UInt64.toNat hsucc
      rw [UInt64.toNat_add, UInt64.toNat_one] at this
      have := m.block.number.toNat_lt
      omega
    · exact ((hreach.lockInv net).movesLock hhandles.1).2
    · exact absurd hwraps.last (Nat.ne_of_lt hlast)

end Rule

/-- Validator 3 of four equal validators, as `TendermintMachine::new` starts it in round 0 of
    block 1: no lock or valid value, and every step within the block keeps them or moves them
    to later rounds. -/
theorem locking_rule_four_validators :
    ∃ m, Machine.start fourEqual [] 0 0 (some 3) 7 = some m ∧ LockInv m.block ∧
      ∀ ev m', m.step fourEqual ev = .ok m' → m'.block.number = m.block.number →
        LaterRound m.block.locked m'.block.locked ∧ LaterRound m.block.valid m'.block.valid := by
  obtain ⟨-, hinv, hlater⟩ := locking_rule fourEqual
  obtain ⟨m, hm⟩ : ∃ m, Machine.start fourEqual [] 0 0 (some 3) 7 = some m :=
    Option.isSome_iff_exists.mp (by decide)
  have hround : m.block.round.number = 0 := by
    unfold Machine.start at hm
    obtain ⟨⟨m₁, proposer⟩, hr, rfl⟩ := Option.map_eq_some_iff.mp hm
    exact (round_log fourEqual hr).2
  refine ⟨m, hm, hinv m (Reach.start hm), fun ev m' h hsame => ?_⟩
  exact hlater m m' ev (Reach.start hm) (by rw [hround]; decide) h hsame

/-! ## Running a jump forward -/

section Forward

variable [DecidableEq V] (net : Network V B Id Sig) {m m₁ m₂ : Machine V B Id Sig} {t : ℕ}

theorem round_eq_of_later {R : UInt32} (hq : StartedAt net t m) (hlt : m.block.round.number < R)
    (hprop : some (net.weights.proposer m.block.number R) ≠ m.block.validatorId) :
    m.round net R none = some ({ m with
      block := { m.block with
        endTime := endTimesFrom net.timing t R
        round := (RoundData.new R (endTimeFrom net.timing t (R - 1))).setTimeout net.timing .propose } }, false) := by
  -- the round's own end time is the one from `t`
  have hend : Function.update (endTimesFrom net.timing t R) R
      (some ((RoundData.new R (endTimeFrom net.timing t (R - 1))).endTime net.timing)) = endTimesFrom net.timing t R := by
    funext r
    by_cases hr : r = R
    · subst hr
      rw [Function.update_self, endTimesFrom_of_le (UInt32.le_refl _), endTime_new, endTimeFrom_pred (ne_zero_of_lt hlt)]
    · rw [Function.update_of_ne hr]
  unfold Machine.round BlockData.newRound
  rw [if_pos (ne_zero_of_lt hlt), hq, populateEndTime_endTimesFrom (toNat_lt_of_lt hlt) (UInt32.le_refl _),
    if_neg (UInt32.not_le.mpr hlt), Option.bind_some]
  simp only [endTimesFrom_of_le (sub_one_le_of_lt hlt), Option.bind_some, hprop, if_false, Option.map_some, hend]

variable [DecidableEq B] [DecidableEq Id]

omit [DecidableEq B] [DecidableEq Id] in
theorem jump_eq_of_later {msg : Message V B Id Sig} {proposer : Bool} (hlt : m.block.round.number < msg.round)
    (hpart : net.weights.faultThreshold < roundParticipation net.weights m.block.log msg.round)
    (hround : m.round net msg.round none = some (m₁, proposer))
    (hfold : (m₁.block.log.log msg.round).map (fun roundMsgs =>
      roundMsgs.entries.foldlM (Machine.checkPrecommit net msg.round) m₁) = some (.ok m₂)) :
    m.jump net msg = .ok (m₂, !proposer) := by
  unfold Machine.jump
  rw [if_neg (UInt32.not_lt.mpr (UInt32.le_of_lt hlt)), if_pos hlt, if_pos hpart, hround]
  dsimp only
  cases hlog : m₁.block.log.log msg.round with
  | none =>
    rw [hlog] at hfold
    cases hfold
  | some roundMsgs =>
    rw [hlog, Option.map_some, Option.some.injEq] at hfold
    dsimp only
    rw [hfold]
    rfl

theorem afterLog_eq_onCurrent {signed : SignedMessage V B Id Sig} (hfin : m.finalized net signed.msg = .ok none)
    (hjump : m.jump net signed.msg = .ok (m₁, true)) : m.afterLog net signed = m₁.onCurrent net signed := by
  unfold Machine.afterLog
  rw [hfin]
  dsimp only [Except.bind]
  rw [hjump]
  rfl

theorem message_eq_afterLog {signed : SignedMessage V B Id Sig} {log : MessageLog V B Id Sig} {ok : Bool}
    (hblock : signed.msg.block = m.block.number) (hverify : m.verifyPrecommitSignature net signed = .ok ok)
    (hother : Machine.proposedByOther net signed.msg = false) (hlog : logMessage m.block.log signed = .ok (true, log)) :
    m.message net signed = ({ m with block.log := log } : Machine V B Id Sig).afterLog net signed := by
  unfold Machine.message
  dsimp only
  rw [if_neg (not_not.mpr hblock), hverify]
  dsimp only
  rw [hother, hlog]
  rfl

theorem step_received_eq {signed : SignedMessage V B Id Sig} {proposal : Option B}
    (hsig : net.verifySigned signed = true) (h : m.message net signed = .ok (m₁, .ok none)) :
    m.step net (.received signed proposal) = .ok m₁ := by
  dsimp only [Machine.step]
  rw [hsig, h]
  rfl

end Forward

/-! ## Past the last round -/

/-- Validator 0, this machine's, of weight 1, and validator 1, of weight 3, which proposes
    every round and alone reaches the threshold (3 of 4) and passes the fault threshold (2);
    every block is valid and every signature verifies. -/
def heavyOne : Network ℕ ℕ ℕ Unit where
  weights := ⟨4, fun v => if v = 1 then 3 else 1, fun _ _ => 1⟩
  timing := ⟨999, 1667⟩
  id := fun block => block
  validate := fun _ => .ok ()
  verifySigned := fun _ => true
  sign := fun _ => ()
  verifyCommitSig := fun _ _ _ _ => true
  signCommit := fun _ _ => ()
  junk := ()
  aggregate := fun _ _ _ _ => ()
  verifyCommit := fun _ _ => true

/-- Block 1, round 0, as `TendermintMachine::new` starts it for validator 0. -/
def heavyStart : Machine ℕ ℕ ℕ Unit := (Machine.start heavyOne [] 0 0 (some 0) 7).get (by decide)

/-- Validator 1's proposal of block 8 in round u32::MAX. -/
def lastProposal : SignedMessage ℕ ℕ ℕ Unit := ⟨⟨1, 1, UInt32.ofNat (2 ^ 32 - 1), .proposal none 8⟩, ()⟩

/-- The machine once the proposal is logged and it has jumped to round u32::MAX: the end times
    from 0 up to it, and the round waiting for a proposal. -/
def heavyJumped : Machine ℕ ℕ ℕ Unit :=
  let m : Machine ℕ ℕ ℕ Unit := { heavyStart with
    block.log := match logMessage heavyStart.block.log lastProposal with
      | .ok (_, log) => log
      | .error _ => heavyStart.block.log }
  { m with
    block := { m.block with
      endTime := endTimesFrom heavyOne.timing 0 (UInt32.ofNat (2 ^ 32 - 1))
      round := (RoundData.new (UInt32.ofNat (2 ^ 32 - 1))
        (endTimeFrom heavyOne.timing 0 (UInt32.ofNat (2 ^ 32 - 1) - 1))).setTimeout heavyOne.timing .propose } }

/-- Validator 0 jumps to round u32::MAX on validator 1's proposal, prevotes it, and on
    validator 1's prevote locks it and makes it the valid value, in round u32::MAX; validator
    1's precommit for nil sets the Precommit timeout, whose round is u32::MAX + 1 = 0. There
    validator 1's proposal of block 9 and its prevote make block 9 the valid value and the
    lock, of round 0: both move back from round u32::MAX, in the same block. -/
theorem valid_moves_back_after_last_round :
    ∃ m₀ m₁ m₂ : Machine ℕ ℕ ℕ Unit, Machine.start heavyOne [] 0 0 (some 0) 7 = some m₀ ∧
      m₀.run heavyOne [.received lastProposal none,
        .received ⟨⟨1, 1, UInt32.ofNat (2 ^ 32 - 1), .prevote (some 8)⟩, ()⟩ none,
        .received ⟨⟨1, 1, UInt32.ofNat (2 ^ 32 - 1), .precommit none⟩, ()⟩ none] = .ok m₁ ∧
      m₁.block.round.number = UInt32.ofNat (2 ^ 32 - 1) ∧
      m₁.block.valid = some (UInt32.ofNat (2 ^ 32 - 1), 8) ∧ m₁.block.locked = some (UInt32.ofNat (2 ^ 32 - 1), 8) ∧
      m₁.run heavyOne [.timeout .precommit, .received ⟨⟨1, 1, 0, .proposal none 9⟩, ()⟩ none,
        .received ⟨⟨1, 1, 0, .prevote (some 9)⟩, ()⟩ none] = .ok m₂ ∧
      m₂.block.number = m₁.block.number ∧ m₂.block.valid = some (0, 9) ∧ m₂.block.locked = some (0, 9) := by
  have hstart : Machine.start heavyOne [] 0 0 (some 0) 7 = some heavyStart := (Option.some_get _).symm
  have hq : StartedAt heavyOne 0 heavyStart := by
    unfold Machine.start at hstart
    obtain ⟨⟨m₁, p⟩, hround, hm⟩ := Option.map_eq_some_iff.mp hstart
    cases hm
    exact round_zero_startedAt heavyOne rfl hround
  -- the first event, whose jump populates every end time up to round u32::MAX, run forward
  have hmsg := message_eq_afterLog heavyOne (show lastProposal.msg.block = heavyStart.block.number by decide)
    (show heavyStart.verifyPrecommitSignature heavyOne lastProposal = .ok false from rfl) (by decide)
    (show logMessage heavyStart.block.log lastProposal = .ok (true, heavyJumped.block.log) from rfl)
  have hfin : ({ heavyStart with block.log := heavyJumped.block.log } : Machine ℕ ℕ ℕ Unit).finalized heavyOne
      lastProposal.msg = .ok none := rfl
  have hround := round_eq_of_later heavyOne (m := { heavyStart with block.log := heavyJumped.block.log })
    (R := UInt32.ofNat (2 ^ 32 - 1)) hq (by decide) (by decide)
  have hjump : ({ heavyStart with block.log := heavyJumped.block.log } : Machine ℕ ℕ ℕ Unit).jump heavyOne
      lastProposal.msg = .ok (_, !false) := jump_eq_of_later heavyOne (by decide) (by decide) hround rfl
  have hafter : ({ heavyStart with block.log := heavyJumped.block.log } : Machine ℕ ℕ ℕ Unit).afterLog heavyOne
      lastProposal = _ := afterLog_eq_onCurrent heavyOne hfin hjump
  -- the rest reads no end time past round u32::MAX's, and is evaluated
  have hsum : (heavyJumped.onCurrent heavyOne lastProposal).toOption.any (fun r =>
      decide (r.2.toOption = some none) &&
      (r.1.run heavyOne [.received ⟨⟨1, 1, UInt32.ofNat (2 ^ 32 - 1), .prevote (some 8)⟩, ()⟩ none,
        .received ⟨⟨1, 1, UInt32.ofNat (2 ^ 32 - 1), .precommit none⟩, ()⟩ none]).toOption.any fun m₁ =>
          decide (m₁.block.number = 1 ∧ m₁.block.round.number = UInt32.ofNat (2 ^ 32 - 1) ∧
            m₁.block.valid = some (UInt32.ofNat (2 ^ 32 - 1), 8) ∧
            m₁.block.locked = some (UInt32.ofNat (2 ^ 32 - 1), 8)) &&
          (m₁.run heavyOne [.timeout .precommit, .received ⟨⟨1, 1, 0, .proposal none 9⟩, ()⟩ none,
            .received ⟨⟨1, 1, 0, .prevote (some 9)⟩, ()⟩ none]).toOption.any fun m₂ =>
              decide (m₂.block.number = 1 ∧ m₂.block.valid = some (0, 9) ∧ m₂.block.locked = some (0, 9))) = true := by
    decide +kernel
  simp only [Option.any_eq_true, Bool.and_eq_true, decide_eq_true_eq] at hsum
  obtain ⟨⟨mFirst, res⟩, hcur, hres, m₁, hrun₁, ⟨hnum₁, hround₁, hvalid₁, hlocked₁⟩, m₂, hrun₂, hnum₂, hvalid₂,
    hlocked₂⟩ := hsum
  have hstep₁ : heavyStart.step heavyOne (.received lastProposal none) = .ok mFirst := by
    refine step_received_eq heavyOne rfl ?_
    rw [hmsg, hafter, ← eq_ok_of_toOption hres]
    exact eq_ok_of_toOption hcur
  refine ⟨heavyStart, m₁, m₂, hstart, ?_, hround₁, hvalid₁, hlocked₁, eq_ok_of_toOption hrun₂,
    hnum₂.trans hnum₁.symm, hvalid₂, hlocked₂⟩
  show List.foldlM _ _ _ = _
  rw [List.foldlM_cons, hstep₁]
  exact eq_ok_of_toOption hrun₁

end Serai.Tendermint
