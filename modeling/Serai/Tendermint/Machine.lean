import Serai.Tendermint.Round
import Serai.Lib.Layer
/-
  Serai.Tendermint.Machine — the Tributary's Tendermint machine
  (coordinator/tributary/tendermint/src/lib.rs, block.rs): its block data (number, log,
  end times, current round, locked and valid values), `new_round`, `broadcast`, the
  `message` handler with its finalizer, its jump to a later round and its handling of the
  current round, and the run loop: synced blocks, its own queued messages, timeouts and
  received messages, one event at a time.

  What the machine asks of its network is a `Network`: the weights, the validators'
  signature scheme and its own signer, block validity, and the timing. What the network
  returns from `add_block` (the next proposal) comes with the event that leads to it. The
  database's record of messages already sent is `sent`; the slashes and blocks the machine
  hands the network are kept, in order, as `slashed` and `added`. A call that fails ends in
  a `Panic` naming the `panic!`, `assert!`, `unwrap` or index of the source; a run stops at
  the first.

  A handler's result is a state together with the source's `Result`: an error leaves the
  writes made before it, as in the source.
-/

namespace Serai.Tendermint

open Serai.Lib

variable {V B Id Sig : Type}

/-- `BlockError` of `Network::validate`. -/
inductive BlockError where
  | fatal
  | temporal
  deriving DecidableEq, Repr

/-- `Commit`. -/
structure Commit (V Sig : Type) where
  endTime : ℕ
  validators : List V
  signature : Sig

/-- `SlashReason`. -/
inductive SlashReason where
  | failToPropose
  | invalidBlock
  | invalidMessage
  deriving DecidableEq, Repr

/-- `SlashEvent`. -/
inductive SlashEvent (V B Id Sig : Type) where
  | id (reason : SlashReason) (block : UInt64) (round : UInt32)
  | withEvidence (evidence : Evidence V B Id Sig)

/-- What a machine runs against. -/
structure Network (V B Id Sig : Type) where
  weights : Weights V
  timing : Timing
  /-- `Block::id`. -/
  id : B → Id
  /-- `Network::validate`. -/
  validate : B → Except BlockError Unit
  /-- `SignedMessage::verify_signature`. -/
  verifySigned : SignedMessage V B Id Sig → Bool
  /-- The signer's signature of a message's encoding. -/
  sign : Message V B Id Sig → Sig
  /-- `validators.verify(sender, &commit_msg(end_time, id), sig)`. -/
  verifyCommitSig : V → ℕ → Id → Sig → Bool
  /-- The signer's signature of `commit_msg(end_time, id)`. -/
  signCommit : ℕ → Id → Sig
  /-- `signer.sign(&[])`, the junk signature of the finalizer's comparison. -/
  junk : Sig
  /-- `SignatureScheme::aggregate`. -/
  aggregate : List V → ℕ → Id → List Sig → Sig
  /-- `Network::verify_commit`. -/
  verifyCommit : Id → Commit V Sig → Bool

/-- `BlockData`. The source's `round` is `None` only between `BlockData::new` and the
    `new_round` that follows it at once, so here it is the current round. -/
structure BlockData (V B Id Sig : Type) where
  number : UInt64
  validatorId : Option V
  proposal : Option B
  log : MessageLog V B Id Sig
  slashes : List V
  endTime : UInt32 → Option ℕ
  round : RoundData
  locked : Option (UInt32 × Id)
  valid : Option (UInt32 × B)

/-- `BlockData::new`; its round is the first `new_round`'s, which reads nothing of it. -/
def BlockData.new (number : UInt64) (validatorId : Option V) (proposal : Option B) : BlockData V B Id Sig :=
  ⟨number, validatorId, proposal, .empty, [], fun _ => none, RoundData.new 0 0, none, none⟩

/-- `TendermintMachine`'s state. -/
structure Machine (V B Id Sig : Type) where
  /-- The database's `tendermint-machine_already_sent_message` keys: block, round and step. -/
  sent : List (UInt64 × UInt32 × Step)
  queue : List (Message V B Id Sig)
  block : BlockData V B Id Sig
  /-- What the machine handed `Network::slash`. -/
  slashed : List (V × SlashEvent V B Id Sig)
  /-- What it handed `Network::add_block`. -/
  added : List (B × Commit V Sig)

/-- Two machines that agree on what only a new round, the log or a new block change: the
    block number, the log, the end times and the round number. -/
structure SameCore (m m' : Machine V B Id Sig) : Prop where
  number : m'.block.number = m.block.number
  log : m'.block.log = m.block.log
  endTime : m'.block.endTime = m.block.endTime
  round : m'.block.round.number = m.block.round.number

theorem SameCore.refl (m : Machine V B Id Sig) : SameCore m m := ⟨rfl, rfl, rfl, rfl⟩

theorem SameCore.trans {m m₁ m₂ : Machine V B Id Sig} (h₁ : SameCore m m₁) (h₂ : SameCore m₁ m₂) :
    SameCore m m₂ :=
  ⟨h₂.number.trans h₁.number, h₂.log.trans h₁.log, h₂.endTime.trans h₁.endTime, h₂.round.trans h₁.round⟩

/-- Two machines that agree on the block number, the end times, the round number, and the
    senders in each round's log. -/
structure SameKeys (m m' : Machine V B Id Sig) : Prop where
  number : m'.block.number = m.block.number
  endTime : m'.block.endTime = m.block.endTime
  round : m'.block.round.number = m.block.round.number
  keys : ∀ r, (m'.block.log.log r).map AList.keys = (m.block.log.log r).map AList.keys

theorem SameCore.sameKeys {m m' : Machine V B Id Sig} (h : SameCore m m') : SameKeys m m' :=
  ⟨h.number, h.endTime, h.round, fun r => by rw [h.log]⟩

theorem SameKeys.trans {m m₁ m₂ : Machine V B Id Sig} (h₁ : SameKeys m m₁) (h₂ : SameKeys m₁ m₂) :
    SameKeys m m₂ :=
  ⟨h₂.number.trans h₁.number, h₂.endTime.trans h₁.endTime, h₂.round.trans h₁.round,
    fun r => (h₂.keys r).trans (h₁.keys r)⟩

/-- The machine's panics. -/
inductive Panic where
  /-- `assert!(msg.round.0 <= self.block.round().number.0)` in the finalizer. -/
  | futureRoundFinalized
  /-- `self.log[&round]` of a round with no log. -/
  | noRoundLog
  /-- `self.end_time[&round]` of a round with no end time. -/
  | noEndTime
  /-- `panic!("message for Step::Propose didn't have Data::Proposal")`. -/
  | notAProposal
  /-- `assert!(res)` on a precommit of the round jumped to. -/
  | precommitUnverified
  /-- `panic!("honest node (ourselves) had invalid behavior")`. -/
  | ownMessageInvalid
  /-- `panic!("commit isn't for this machine's next block")`. -/
  | commitNotForNextBlock
  /-- `reset_by_commit`'s upward search, which repeats itself once the round wraps. -/
  | searchNeverEnds
  deriving DecidableEq, Repr

/-- What `message` ends with, short of a panic: a state and the source's `Result`. -/
abbrev Handled (V B Id Sig : Type) := Machine V B Id Sig × Except (TendermintError V B Id Sig) (Option B)

variable [DecidableEq V] (net : Network V B Id Sig)

namespace Machine

/-- `TendermintMachine::broadcast` with `BlockData::message`: the round's step becomes the
    data's, and a validator that has sent no message for this block, round and step
    queues one. -/
def broadcast (m : Machine V B Id Sig) (data : Data B Id Sig) : Machine V B Id Sig :=
  let m := { m with block.round.step := data.step }
  match m.block.validatorId with
  | none => m
  | some validatorId =>
    let key := (m.block.number, m.block.round.number, data.step)
    if key ∈ m.sent then m
    else { m with sent := key :: m.sent,
                  queue := m.queue ++ [⟨validatorId, m.block.number, m.block.round.number, data⟩] }

/-- `set_timeout` on the current round. -/
def setTimeout (m : Machine V B Id Sig) (step : Step) : Machine V B Id Sig :=
  { m with block.round := m.block.round.setTimeout net.timing step }

/-- `TendermintMachine::slash`: a validator is slashed once per block. -/
def slash (m : Machine V B Id Sig) (validator : V) (event : SlashEvent V B Id Sig) : Machine V B Id Sig :=
  if validator ∈ m.block.slashes then m
  else { m with block.slashes := validator :: m.block.slashes, slashed := m.slashed ++ [(validator, event)] }

omit [DecidableEq V] in
theorem sameCore_broadcast (m : Machine V B Id Sig) (data : Data B Id Sig) : SameCore m (m.broadcast data) := by
  unfold broadcast
  dsimp only
  split
  · exact ⟨rfl, rfl, rfl, rfl⟩
  · split <;> exact ⟨rfl, rfl, rfl, rfl⟩

omit [DecidableEq V] in
theorem sameCore_setTimeout (m : Machine V B Id Sig) (step : Step) : SameCore m (m.setTimeout net step) := by
  unfold setTimeout RoundData.setTimeout
  split <;> exact ⟨rfl, rfl, rfl, rfl⟩

theorem sameCore_slash (m : Machine V B Id Sig) (validator : V) (event : SlashEvent V B Id Sig) :
    SameCore m (m.slash validator event) := by
  unfold slash
  split <;> exact ⟨rfl, rfl, rfl, rfl⟩

end Machine

/-- `BlockData::new_round`: the end times up to the round, the round itself, and the proposal
    when this validator proposes it; `None` is a missing end time. -/
def BlockData.newRound (b : BlockData V B Id Sig) (round : UInt32) (proposer : V) (time : Option ℕ) :
    Option (BlockData V B Id Sig × Option (Data B Id Sig)) :=
  (if round ≠ 0 then populateEndTime net.timing b.round.number round b.endTime else some b.endTime).bind
    fun endTime =>
  -- `time.unwrap_or_else(|| self.end_time[&RoundNumber(round.0 - 1)])`
  (match time with
    | some t => some t
    | none => endTime (round - 1)).bind fun start =>
  let rd := RoundData.new round start
  let b := { b with endTime := Function.update endTime round (some (rd.endTime net.timing)), round := rd }
  if some proposer = b.validatorId then
    -- propose the valid block, with its round, or else our own proposal
    some (b, ((b.valid.map Prod.snd).or b.proposal).map fun block => .proposal (b.valid.map Prod.fst) block)
  else
    some ({ b with round := b.round.setTimeout net.timing .propose }, none)

namespace Machine

/-- `TendermintMachine::round`: `true` if this validator proposes. -/
def round (m : Machine V B Id Sig) (round : UInt32) (time : Option ℕ) : Option (Machine V B Id Sig × Bool) :=
  (m.block.newRound net round (net.weights.proposer m.block.number round) time).map fun (b, data) =>
    let m := { m with block := b }
    match data with
    | some data => (m.broadcast data, true)
    | none => (m, false)

/-- `verify_precommit_signature`: `true` for a precommit checked (or with nothing to check),
    `false` for one of a round with no end time yet, or any other message. -/
def verifyPrecommitSignature (m : Machine V B Id Sig) (signed : SignedMessage V B Id Sig) :
    Except (TendermintError V B Id Sig) Bool :=
  match signed.msg.data with
  | .precommit none => pure true
  | .precommit (some (id, sig)) =>
    match m.block.endTime signed.msg.round with
    | some endTime =>
      if !net.verifyCommitSig signed.msg.sender endTime id sig then
        throw (.malicious signed.msg.sender (some (.invalidPrecommit signed)))
      else pure true
    | none => pure false
  | _ => pure false

variable [DecidableEq B] [DecidableEq Id]

/-- The finalizer (lines 49-52 of the paper): the block of the message's round's proposal
    once precommits for it reach the threshold, which must not be of a later round than
    the machine's. -/
def finalized (m : Machine V B Id Sig) (msg : Message V B Id Sig) : Except Panic (Option B) :=
  match msg.data with
  | .prevote _ => pure none
  | _ =>
    match m.block.log.get msg.round (net.weights.proposer m.block.number msg.round) .propose with
    | some proposal =>
      match proposal.msg.data with
      | .proposal _ block =>
        match hasConsensus net.weights m.block.log msg.round (.precommit (some (net.id block, net.junk))) with
        | none => throw .noRoundLog
        | some true => if msg.round ≤ m.block.round.number then pure (some block) else throw .futureRoundFinalized
        | some false => pure none
      | _ => pure none
    | none => pure none

/-- The check of a precommit already logged for the round jumped to: one whose signature
    fails is dropped (its sender still counts as participating) and its sender slashed. -/
def checkPrecommit (round : UInt32) (m : Machine V B Id Sig) (entry : Σ _ : V, Msgs V B Id Sig) :
    Except Panic (Machine V B Id Sig) :=
  match entry.2.precommit with
  | none => pure m
  | some existing =>
    match m.verifyPrecommitSignature net existing with
    | .ok res => if res then pure m else throw .precommitUnverified
    | .error _ =>
      let log : MessageLog V B Id Sig := ⟨Function.update m.block.log.log round
        ((m.block.log.log round).map fun r => r.replace entry.1 (entry.2.set .precommit none))⟩
      pure (({ m with block.log := log } : Machine V B Id Sig).slash entry.1
        (.withEvidence (.invalidPrecommit existing)))

/-- The jump (lines 55-56): a message of an earlier round ends the handling; one of a later
    round moves the machine to it once that round's participation passes the fault
    threshold, and else ends it. `true`: go on to the current round's handling. -/
def jump (m : Machine V B Id Sig) (msg : Message V B Id Sig) : Except Panic (Machine V B Id Sig × Bool) :=
  if msg.round < m.block.round.number then pure (m, false)
  else if m.block.round.number < msg.round then
    if net.weights.faultThreshold < roundParticipation net.weights m.block.log msg.round then
      match m.round net msg.round none with
      | none => throw .noEndTime
      | some (m, proposer) =>
        match m.block.log.log msg.round with
        | none => throw .noRoundLog
        | some roundMsgs => do
          let m ← roundMsgs.entries.foldlM (checkPrecommit net msg.round) m
          -- a proposer returns at once: its round has no proposal yet
          pure (m, !proposer)
    else pure (m, false)
  else pure (m, true)

/-- What lines 22-33 make of a proposal's validity: whether it may be voted for, and what
    the handling returns (a fatally invalid block is its proposer's fault). -/
def validity (proposer : V) (block : B) : Bool × Except (TendermintError V B Id Sig) (Option B) :=
  match net.validate block with
  | .ok () => (true, .ok none)
  | .error .temporal => (false, .ok none)
  | .error .fatal => (false, .error (.malicious proposer none))

/-- Whether `Network::validate` finds a block fatally invalid. -/
def isFatal (block : B) : Bool :=
  match net.validate block with
  | .error .fatal => true
  | _ => false

/-- `locked.map_or(true, |(_, id)| id == &block.id())`. -/
def lockAllows (locked : Option (UInt32 × Id)) (id : Id) : Bool :=
  match locked with
  | some (_, lockedId) => decide (lockedId = id)
  | none => true

/-- The vote once a valid round's prevotes reached the threshold: also the raw vote when the
    lock is no later than the valid round. -/
def voteWithValidRound (locked : Option (UInt32 × Id)) (validRound : UInt32) (vote rawVote : Option Id) :
    Option Id :=
  match locked with
  | some (lockedRound, _) => vote.or (if lockedRound ≤ validRound then rawVote else none)
  | none => vote

/-- Lines 22-33: a proposal while the round's step is Propose, prevoted for if valid and
    not against the lock (or with a valid round at or past the lock's). -/
def onProposal (m : Machine V B Id Sig) (signed : SignedMessage V B Id Sig) (proposer : V)
    (validRound : Option UInt32) (block : B) : Except Panic (Handled V B Id Sig) :=
  let err := (validity net proposer block).2
  let rawVote := if (validity net proposer block).1 then some (net.id block) else none
  let vote := if lockAllows m.block.locked (net.id block) then rawVote else none
  match validRound with
  | some vr =>
    if m.block.round.number ≤ vr then
      pure (m, .error (.malicious signed.msg.sender (some (.invalidValidRound signed))))
    else
      match hasConsensus net.weights m.block.log vr (.prevote (some (net.id block))) with
      | none => throw .noRoundLog
      | some true => pure (m.broadcast (.prevote (voteWithValidRound m.block.locked vr vote rawVote)), err)
      | some false => pure (m, .ok none)
  | none => pure (m.broadcast (.prevote vote), err)

/-- `valid.map_or(true, |(round, _)| round != current)`: lines 36-43 run once a round. -/
def validNotOf (valid : Option (UInt32 × B)) (round : UInt32) : Bool :=
  match valid with
  | some (validRound, _) => decide (validRound ≠ round)
  | none => true

/-- Lines 36-43: once the current round's prevotes for the proposal reach the threshold, it
    is the valid value; in the Prevote step it is also locked and precommitted to. -/
def onPrevotes (m : Machine V B Id Sig) (proposer : V) (block : B) : Except Panic (Handled V B Id Sig) :=
  let current := m.block.round.number
  if validNotOf m.block.valid current then
    match hasConsensus net.weights m.block.log current (.prevote (some (net.id block))) with
    | none => throw .noRoundLog
    | some false => pure (m, .ok none)
    | some true =>
      -- a temporal error is ours: a supermajority found the block valid
      if isFatal net block then pure (m, .error (.malicious proposer none))
      else
        let m := { m with block.valid := some (current, block) }
        if m.block.round.step = .prevote then
          match m.block.endTime current with
          | none => throw .noEndTime
          | some endTime =>
            let m := { m with block.locked := some (current, net.id block) }
            pure (m.broadcast (.precommit (some (net.id block, net.signCommit endTime (net.id block)))), .ok none)
        else pure (m, .ok none)
  else pure (m, .ok none)

/-- Lines 34-35 and 44-46, in the Prevote step on a prevote: the Prevote timeout once the
    round's prevotes reach the threshold, and a precommit of nil, ending the handling, once
    those for nil do. -/
def onNilPrevotes (m : Machine V B Id Sig) (signed : SignedMessage V B Id Sig) :
    Except Panic (Machine V B Id Sig × Bool) :=
  match m.block.round.step, signed.msg.data with
  | .prevote, .prevote _ =>
    match messageInstances net.weights m.block.log m.block.round.number (.prevote none) with
    | none => throw .noRoundLog
    | some (participation, weight) =>
      let m := if net.weights.threshold ≤ participation then m.setTimeout net .prevote else m
      if net.weights.threshold ≤ weight then pure (m.broadcast (.precommit none), true) else pure (m, false)
  | _, _ => pure (m, false)

/-- Lines 47-48: the Precommit timeout once the round's precommits reach the threshold. -/
def onPrecommits (m : Machine V B Id Sig) (signed : SignedMessage V B Id Sig) : Except Panic (Machine V B Id Sig) :=
  match signed.msg.data with
  | .precommit _ =>
    match hasParticipation net.weights m.block.log m.block.round.number .precommit with
    | none => throw .noRoundLog
    | some true => pure (m.setTimeout net .precommit)
    | some false => pure m
  | _ => pure m

/-- The rest of the current round's handling, which needs its proposal. -/
def onProposalLogged (m : Machine V B Id Sig) (signed : SignedMessage V B Id Sig) : Except Panic (Handled V B Id Sig) :=
  let proposer := net.weights.proposer m.block.number m.block.round.number
  match m.block.log.get m.block.round.number proposer .propose with
  | none => pure (m, .ok none)
  | some proposal =>
    match proposal.msg.data with
    | .proposal validRound block =>
      if m.block.round.step = .propose then m.onProposal net signed proposer validRound block
      else m.onPrevotes net proposer block
    | _ => throw .notAProposal

/-- The handling of a message of the current round, after the finalizer and the jump. -/
def onCurrent (m : Machine V B Id Sig) (signed : SignedMessage V B Id Sig) : Except Panic (Handled V B Id Sig) := do
  let (m, done) ← m.onNilPrevotes net signed
  if done then pure (m, .ok none)
  else
    let m ← m.onPrecommits net signed
    m.onProposalLogged net signed

/-- What `message` does with a message it logged: the finalizer, then the jump, then the
    current round's handling. -/
def afterLog (m : Machine V B Id Sig) (signed : SignedMessage V B Id Sig) : Except Panic (Handled V B Id Sig) :=
  (m.finalized net signed.msg).bind fun
    | some block => pure (m, .ok (some block))
    | none => (m.jump net signed.msg).bind fun (m, goOn) =>
      if goOn then m.onCurrent net signed else pure (m, .ok none)

/-- A proposal from anyone but the round's proposer. -/
def proposedByOther (msg : Message V B Id Sig) : Bool :=
  match msg.data with
  | .proposal .. => decide (msg.sender ≠ net.weights.proposer msg.block msg.round)
  | _ => false

/-- `TendermintMachine::message`. -/
def message (m : Machine V B Id Sig) (signed : SignedMessage V B Id Sig) : Except Panic (Handled V B Id Sig) :=
  let msg := signed.msg
  if msg.block ≠ m.block.number then pure (m, .error .temporal)
  else
    match m.verifyPrecommitSignature net signed with
    | .error e => pure (m, .error e)
    | .ok _ =>
      -- only the proposer may propose
      if proposedByOther net msg then pure (m, .error (.malicious msg.sender none))
      else
        match logMessage m.block.log signed with
        | .error e => pure (m, .error e)
        | .ok (false, _) => pure (m, .error .alreadyHandled)
        | .ok (true, log) => ({ m with block.log := log } : Machine V B Id Sig).afterLog net signed

/-! ## The run loop -/

/-- `TendermintMachine::reset`: the end times up to the round that ended, then the next
    block's data, with an empty queue, from that round's end. -/
def reset (m : Machine V B Id Sig) (endRound : UInt32) (proposal : Option B) : Except Panic (Machine V B Id Sig) :=
  match populateEndTime net.timing m.block.round.number endRound m.block.endTime with
  | none => throw .noEndTime
  | some endTime =>
    match endTime endRound with
    | none => throw .noEndTime
    | some roundEnd =>
      let m := { m with queue := [], block := BlockData.new (m.block.number + 1) m.block.validatorId proposal }
      match m.round net 0 (some roundEnd) with
      | none => throw .noEndTime
      | some (m, _) => pure m

/-- `reset_by_commit`'s first loop: up from `round` while its end time is before the
    commit's, populating as it goes. In 2^32 iterations every round has been tried and the
    loop repeats itself: `fuel` starts there. -/
def searchUp (current : UInt32) (target : ℕ) : ℕ → UInt32 → (UInt32 → Option ℕ) →
    Except Panic (UInt32 × (UInt32 → Option ℕ))
  | 0, _, _ => throw .searchNeverEnds
  | fuel + 1, round, endTime =>
    match endTime round with
    | none => throw .noEndTime
    | some e =>
      if e < target then
        match populateEndTime net.timing current (round + 1) endTime with
        | none => throw .noEndTime
        | some endTime => searchUp current target fuel (round + 1) endTime
      else pure (round, endTime)

/-- `reset_by_commit`'s second loop: down from round `n` while its end time is after the
    commit's. -/
def searchDown (target : ℕ) (endTime : UInt32 → Option ℕ) : ℕ → Except Panic UInt32
  | 0 =>
    match endTime 0 with
    | none => throw .noEndTime
    | some e => if target < e then throw .commitNotForNextBlock else pure 0
  | n + 1 =>
    match endTime (UInt32.ofNat (n + 1)) with
    | none => throw .noEndTime
    | some e => if target < e then searchDown target endTime n else pure (UInt32.ofNat (n + 1))

/-- `TendermintMachine::reset_by_commit`. -/
def resetByCommit (m : Machine V B Id Sig) (commit : Commit V Sig) (proposal : Option B) :
    Except Panic (Machine V B Id Sig) := do
  let (round, endTime) ← searchUp net m.block.round.number commit.endTime (2 ^ 32) m.block.round.number
    m.block.endTime
  let m := { m with block.endTime := endTime }
  let round ← searchDown commit.endTime endTime round.toNat
  m.reset net round proposal

/-- What the run loop does with a message's `Ok(Some(block))`: the commit from the round's
    precommits for the block, handed to the network with the block, and the next block. -/
def finalize (m : Machine V B Id Sig) (msg : Message V B Id Sig) (block : B) (proposal : Option B) :
    Except Panic (Machine V B Id Sig) :=
  match m.block.log.log msg.round with
  | none => throw .noRoundLog
  | some roundLog =>
    let precommits := roundLog.entries.filterMap fun e =>
      match e.2.precommit with
      | some signed =>
        match signed.msg.data with
        | .precommit (some (id, sig)) => if id = net.id block then some (e.1, sig) else none
        | _ => none
      | none => none
    match m.block.endTime msg.round with
    | none => throw .noEndTime
    | some endTime =>
      let validators := precommits.map (·.1)
      let commit : Commit V Sig :=
        ⟨endTime, validators, net.aggregate validators endTime (net.id block) (precommits.map (·.2))⟩
      ({ m with added := m.added ++ [(block, commit)] } : Machine V B Id Sig).reset net msg.round proposal

/-- What the run loop does with a message's error: a malicious sender is slashed, with the
    evidence unless the message is a proposal. -/
def onError (m : Machine V B Id Sig) (signed : SignedMessage V B Id Sig) (e : TendermintError V B Id Sig) :
    Machine V B Id Sig :=
  match e with
  | .malicious sender evidence =>
    let event : SlashEvent V B Id Sig := match evidence, signed.msg.data with
      | some _, .proposal .. => .id .invalidBlock m.block.number m.block.round.number
      | some ev, _ => .withEvidence ev
      | none, _ => .id .invalidMessage m.block.number m.block.round.number
    m.slash sender event
  | _ => m

end Machine

/-- What the run loop handles next. `proposal` is what `Network::add_block` returns when the
    event adds a block. -/
inductive Event (V B Id Sig : Type) where
  /-- A block from the external sync loop, with its commit. -/
  | synced (number : UInt64) (block : B) (commit : Commit V Sig) (proposal : Option B)
  /-- The first message of the machine's queue. -/
  | own (proposal : Option B)
  /-- A timeout set on the current round fires. -/
  | timeout (step : Step)
  /-- A message from the network. -/
  | received (signed : SignedMessage V B Id Sig) (proposal : Option B)

namespace Machine

variable [DecidableEq B] [DecidableEq Id]

/-- One iteration of `TendermintMachine::run`. An event that cannot happen (an empty queue,
    a timeout not set) leaves the machine as it is. -/
def step (m : Machine V B Id Sig) : Event V B Id Sig → Except Panic (Machine V B Id Sig)
  | .synced number block commit proposal =>
    if number ≠ m.block.number then pure m
    else if !net.verifyCommit (net.id block) commit then pure m
    else ({ m with added := m.added ++ [(block, commit)] } : Machine V B Id Sig).resetByCommit net commit proposal
  | .own proposal =>
    match m.queue with
    | [] => pure m
    | msg :: rest => do
      let signed : SignedMessage V B Id Sig := ⟨msg, net.sign msg⟩
      let (m, res) ← ({ m with queue := rest } : Machine V B Id Sig).message net signed
      match res with
      | .error _ => throw .ownMessageInvalid
      | .ok none => pure m
      | .ok (some block) => m.finalize net msg block proposal
  | .timeout step =>
    match m.block.round.timeouts step with
    | none => pure m
    | some _ =>
      let m := { m with block.round.timeouts := Function.update m.block.round.timeouts step none }
      if m.block.round.step = step then
        match step with
        | .propose =>
          let m := m.slash (net.weights.proposer m.block.number m.block.round.number)
            (.id .failToPropose m.block.number m.block.round.number)
          pure (m.broadcast (.prevote none))
        | .prevote => pure (m.broadcast (.precommit none))
        | .precommit =>
          match m.round net (m.block.round.number + 1) none with
          | none => throw .noEndTime
          | some (m, _) => pure m
      else pure m
  | .received signed proposal =>
    if !net.verifySigned signed then pure m
    else do
      let (m, res) ← m.message net signed
      match res with
      | .ok none => pure m
      | .ok (some block) => m.finalize net signed.msg block proposal
      | .error e => pure (m.onError signed e)

/-- A run: the events one after another, until a panic. -/
def run (m : Machine V B Id Sig) (events : List (Event V B Id Sig)) : Except Panic (Machine V B Id Sig) :=
  events.foldlM (step net) m

end Machine

/-- `TendermintMachine::new`: the first block after `lastBlock`, its round 0 starting at
    `lastTime`; `sent` is what the database recorded before. -/
def Machine.start (sent : List (UInt64 × UInt32 × Step)) (lastBlock : UInt64) (lastTime : ℕ)
    (validatorId : Option V) (proposal : B) : Option (Machine V B Id Sig) :=
  let m : Machine V B Id Sig := ⟨sent, [], BlockData.new (lastBlock + 1) validatorId (some proposal), [], []⟩
  (m.round net 0 (some lastTime)).map (·.1)

/-! ## What each part of the machine changes -/

section Parts

variable {m m' : Machine V B Id Sig}

theorem newRound_fields {b b' : BlockData V B Id Sig} {round : UInt32} {proposer : V} {time : Option ℕ}
    {data : Option (Data B Id Sig)} (h : b.newRound net round proposer time = some (b', data)) :
    b'.number = b.number ∧ b'.log = b.log ∧ b'.round.number = round ∧
      ∃ endTime start,
        (if round ≠ 0 then populateEndTime net.timing b.round.number round b.endTime else some b.endTime) = some endTime ∧
        (match time with
          | some t => some t
          | none => endTime (round - 1)) = some start ∧
        b'.endTime = Function.update endTime round (some (start + net.timing.length round)) := by
  unfold BlockData.newRound at h
  obtain ⟨endTime, hend, h⟩ := Option.bind_eq_some_iff.mp h
  obtain ⟨start, hstart, h⟩ := Option.bind_eq_some_iff.mp h
  dsimp only at h
  split at h
  · cases h
    exact ⟨rfl, rfl, rfl, endTime, start, hend, hstart, rfl⟩
  · cases h
    refine ⟨rfl, rfl, ?_, endTime, start, hend, hstart, rfl⟩
    unfold RoundData.setTimeout
    split <;> rfl

theorem round_fields {r : UInt32} {time : Option ℕ} {proposer : Bool}
    (h : m.round net r time = some (m', proposer)) :
    ∃ b data, m.block.newRound net r (net.weights.proposer m.block.number r) time = some (b, data) ∧
      SameCore { m with block := b } m' := by
  unfold Machine.round at h
  obtain ⟨⟨b, data⟩, hnew, h⟩ := Option.map_eq_some_iff.mp h
  refine ⟨b, data, hnew, ?_⟩
  cases data with
  | some data =>
    cases h
    exact Machine.sameCore_broadcast _ _
  | none =>
    cases h
    exact SameCore.refl _

section Current

variable [DecidableEq B] [DecidableEq Id] {signed : SignedMessage V B Id Sig} {r : Except (TendermintError V B Id Sig) (Option B)}
  {p : Panic}

omit [DecidableEq V] in
theorem onProposal_sameCore {proposer : V} {validRound : Option UInt32} {block : B}
    (h : m.onProposal net signed proposer validRound block = .ok (m', r)) : SameCore m m' := by
  unfold Machine.onProposal at h
  cases validRound with
  | none =>
    cases h
    exact Machine.sameCore_broadcast _ _
  | some vr =>
    dsimp only at h
    split at h
    · cases h
      exact SameCore.refl _
    · split at h
      · cases h
      · cases h
        exact Machine.sameCore_broadcast _ _
      · cases h
        exact SameCore.refl _

omit [DecidableEq V] in
theorem onProposal_panic {proposer : V} {validRound : Option UInt32} {block : B}
    (h : m.onProposal net signed proposer validRound block = .error p) : p = .noRoundLog := by
  unfold Machine.onProposal at h
  cases validRound with
  | none => cases h
  | some vr =>
    dsimp only at h
    split at h
    · cases h
    · split at h
      · cases h
        rfl
      · cases h
      · cases h

omit [DecidableEq V] in
theorem onPrevotes_sameCore {proposer : V} {block : B} (h : m.onPrevotes net proposer block = .ok (m', r)) :
    SameCore m m' := by
  unfold Machine.onPrevotes at h
  dsimp only at h
  split at h
  · split at h
    · cases h
    · cases h
      exact SameCore.refl _
    · split at h
      · cases h
        exact SameCore.refl _
      · split at h
        · split at h
          · cases h
          · cases h
            refine SameCore.trans ?_ (Machine.sameCore_broadcast _ _)
            exact ⟨rfl, rfl, rfl, rfl⟩
        · cases h
          exact ⟨rfl, rfl, rfl, rfl⟩
  · cases h
    exact SameCore.refl _

omit [DecidableEq V] in
theorem onPrevotes_panic {proposer : V} {block : B} (h : m.onPrevotes net proposer block = .error p) :
    p = .noRoundLog ∨ p = .noEndTime := by
  unfold Machine.onPrevotes at h
  dsimp only at h
  split at h
  · split at h
    · cases h
      exact .inl rfl
    · cases h
    · split at h
      · cases h
      · split at h
        · split at h
          · cases h
            exact .inr rfl
          · cases h
        · cases h
  · cases h

omit [DecidableEq V] [DecidableEq B] [DecidableEq Id] in
theorem sameCore_ite_setTimeout (m : Machine V B Id Sig) (c : Prop) [Decidable c] (step : Step) :
    SameCore m (if c then m.setTimeout net step else m) := by
  split
  · exact Machine.sameCore_setTimeout net m step
  · exact SameCore.refl m

omit [DecidableEq V] in
theorem onNilPrevotes_sameCore {done : Bool} (h : m.onNilPrevotes net signed = .ok (m', done)) : SameCore m m' := by
  unfold Machine.onNilPrevotes at h
  split at h
  · split at h
    · cases h
    · dsimp only at h
      split at h
      · cases h
        exact SameCore.trans (sameCore_ite_setTimeout net m _ _) (Machine.sameCore_broadcast _ _)
      · cases h
        exact sameCore_ite_setTimeout net m _ _
  · cases h
    exact SameCore.refl m

omit [DecidableEq V] in
theorem onNilPrevotes_panic (h : m.onNilPrevotes net signed = .error p) : p = .noRoundLog := by
  unfold Machine.onNilPrevotes at h
  split at h
  · split at h
    · cases h
      rfl
    · dsimp only at h
      split at h <;> cases h
  · cases h

omit [DecidableEq V] [DecidableEq B] [DecidableEq Id] in
theorem onPrecommits_sameCore (h : m.onPrecommits net signed = .ok m') : SameCore m m' := by
  unfold Machine.onPrecommits at h
  split at h
  · split at h
    · cases h
    · cases h
      exact Machine.sameCore_setTimeout net m _
    · cases h
      exact SameCore.refl m
  · cases h
    exact SameCore.refl m

omit [DecidableEq V] [DecidableEq B] [DecidableEq Id] in
theorem onPrecommits_panic (h : m.onPrecommits net signed = .error p) : p = .noRoundLog := by
  unfold Machine.onPrecommits at h
  split at h
  · split at h
    · cases h
      rfl
    · cases h
    · cases h
  · cases h

theorem onProposalLogged_sameCore (h : m.onProposalLogged net signed = .ok (m', r)) : SameCore m m' := by
  unfold Machine.onProposalLogged at h
  dsimp only at h
  split at h
  · cases h
    exact SameCore.refl m
  · split at h
    · split at h
      · exact onProposal_sameCore net h
      · exact onPrevotes_sameCore net h
    · cases h

theorem onProposalLogged_panic (h : m.onProposalLogged net signed = .error p) : p ≠ .futureRoundFinalized := by
  unfold Machine.onProposalLogged at h
  dsimp only at h
  split at h
  · cases h
  · split at h
    · split at h
      · rw [onProposal_panic net h]
        nofun
      · rcases onPrevotes_panic net h with rfl | rfl <;> nofun
    · cases h
      nofun

theorem onCurrent_sameCore (h : m.onCurrent net signed = .ok (m', r)) : SameCore m m' := by
  unfold Machine.onCurrent at h
  obtain ⟨⟨m₁, done⟩, h₁, h⟩ := except_bind_ok h
  have hcore₁ := onNilPrevotes_sameCore net h₁
  dsimp only at h
  cases done with
  | true =>
    cases h
    exact hcore₁
  | false =>
    simp only [Bool.false_eq_true, ↓reduceIte] at h
    obtain ⟨m₂, h₂, h⟩ := except_bind_ok h
    exact hcore₁.trans ((onPrecommits_sameCore net h₂).trans (onProposalLogged_sameCore net h))

theorem onCurrent_panic (h : m.onCurrent net signed = .error p) : p ≠ .futureRoundFinalized := by
  unfold Machine.onCurrent at h
  rcases except_bind_error h with h₁ | ⟨⟨m₁, done⟩, -, h⟩
  · rw [onNilPrevotes_panic net h₁]
    nofun
  · dsimp only at h
    cases done with
    | true => cases h
    | false =>
      simp only [Bool.false_eq_true, ↓reduceIte] at h
      rcases except_bind_error h with h₂ | ⟨m₂, -, h⟩
      · rw [onPrecommits_panic net h₂]
        nofun
      · exact onProposalLogged_panic net h

/-! ### The jump -/

omit [DecidableEq B] [DecidableEq Id] in
theorem checkPrecommit_sameKeys {round : UInt32} {entry : Σ _ : V, Msgs V B Id Sig}
    (h : Machine.checkPrecommit net round m entry = .ok m') : SameKeys m m' := by
  unfold Machine.checkPrecommit at h
  split at h
  · cases h
    exact (SameCore.refl m).sameKeys
  · split at h
    · split at h
      · cases h
        exact (SameCore.refl m).sameKeys
      · cases h
    · cases h
      refine SameKeys.trans ?_ (Machine.sameCore_slash _ _ _).sameKeys
      refine ⟨rfl, rfl, rfl, fun r => ?_⟩
      by_cases hr : r = round
      · subst hr
        cases m.block.log.log r <;> simp [AList.keys_replace]
      · simp [Function.update_of_ne hr]

omit [DecidableEq B] [DecidableEq Id] in
theorem checkPrecommit_panic {round : UInt32} {entry : Σ _ : V, Msgs V B Id Sig}
    (h : Machine.checkPrecommit net round m entry = .error p) : p = .precommitUnverified := by
  unfold Machine.checkPrecommit at h
  split at h
  · cases h
  · split at h
    · split at h
      · cases h
      · cases h
        rfl
    · cases h

omit [DecidableEq B] [DecidableEq Id] in
theorem jump_cases {msg : Message V B Id Sig} {goOn : Bool} (h : m.jump net msg = .ok (m', goOn)) :
    (msg.round ≤ m.block.round.number ∧ m' = m) ∨
    (m.block.round.number < msg.round ∧
      roundParticipation net.weights m.block.log msg.round ≤ net.weights.faultThreshold ∧ m' = m) ∨
    (m.block.round.number < msg.round ∧
      net.weights.faultThreshold < roundParticipation net.weights m.block.log msg.round ∧
      ∃ m₁ proposer, m.round net msg.round none = some (m₁, proposer) ∧ SameKeys m₁ m') := by
  unfold Machine.jump at h
  split at h
  · cases h
    exact .inl ⟨UInt32.le_of_lt ‹_›, rfl⟩
  · split at h
    · rename_i hlt
      split at h
      · rename_i hpart
        split at h
        · cases h
        · rename_i m₁ proposer hround
          split at h
          · cases h
          · rename_i roundMsgs _
            obtain ⟨m₂, hfold, h⟩ := except_bind_ok h
            cases h
            refine .inr (.inr ⟨hlt, hpart, m₁, proposer, hround, ?_⟩)
            exact foldlM_except_inv (fun _ m₂ => SameKeys m₁ m₂) roundMsgs.entries
              (fun _ e _ m₃ m₄ _ h₃ h₄ => h₃.trans (checkPrecommit_sameKeys net h₄))
              (SameCore.refl m₁).sameKeys hfold
      · cases h
        exact .inr (.inl ⟨hlt, Nat.le_of_not_lt ‹_›, rfl⟩)
    · cases h
      exact .inl ⟨UInt32.not_lt.mp ‹_›, rfl⟩

omit [DecidableEq B] [DecidableEq Id] in
theorem jump_panic {msg : Message V B Id Sig} (h : m.jump net msg = .error p) : p ≠ .futureRoundFinalized := by
  unfold Machine.jump at h
  split at h
  · cases h
  · split at h
    · split at h
      · split at h
        · cases h
          nofun
        · split at h
          · cases h
            nofun
          · rcases except_bind_error h with hfold | ⟨_, -, h⟩
            · have := foldlM_except_error (fun e => e = .precommitUnverified)
                (fun _ _ _ he => checkPrecommit_panic net he) _ _ _ hfold
              rw [this]
              nofun
            · cases h
      · cases h
    · cases h

/-! ### The message handler -/

theorem afterLog_ok {signed : SignedMessage V B Id Sig} (h : m.afterLog net signed = .ok (m', r)) :
    (∃ block, m.finalized net signed.msg = .ok (some block) ∧ m' = m ∧ r = .ok (some block)) ∨
    (m.finalized net signed.msg = .ok none ∧ ∃ m₁ goOn, m.jump net signed.msg = .ok (m₁, goOn) ∧
      ((goOn = false ∧ m' = m₁ ∧ r = .ok none) ∨ (goOn = true ∧ m₁.onCurrent net signed = .ok (m', r)))) := by
  unfold Machine.afterLog at h
  obtain ⟨found, hfin, h⟩ := except_bind_ok h
  cases found with
  | some block =>
    cases h
    exact .inl ⟨block, hfin, rfl, rfl⟩
  | none =>
    obtain ⟨⟨m₁, goOn⟩, hjump, h⟩ := except_bind_ok h
    refine .inr ⟨hfin, m₁, goOn, hjump, ?_⟩
    cases goOn with
    | true => exact .inr ⟨rfl, h⟩
    | false =>
      cases h
      exact .inl ⟨rfl, rfl, rfl⟩

theorem afterLog_panic {signed : SignedMessage V B Id Sig} (h : m.afterLog net signed = .error .futureRoundFinalized) :
    m.finalized net signed.msg = .error .futureRoundFinalized := by
  unfold Machine.afterLog at h
  rcases except_bind_error h with hfin | ⟨found, -, h⟩
  · exact hfin
  · cases found with
    | some block => cases h
    | none =>
      rcases except_bind_error h with hjump | ⟨⟨m₁, goOn⟩, -, h⟩
      · exact absurd rfl (jump_panic net hjump)
      · cases goOn with
        | true => exact absurd rfl (onCurrent_panic net h)
        | false => cases h

theorem message_ok {signed : SignedMessage V B Id Sig} (h : m.message net signed = .ok (m', r)) :
    m' = m ∨ ∃ log, logMessage m.block.log signed = .ok (true, log) ∧
      ({ m with block.log := log } : Machine V B Id Sig).afterLog net signed = .ok (m', r) := by
  unfold Machine.message at h
  dsimp only at h
  split at h
  · cases h
    exact .inl rfl
  · split at h
    · cases h
      exact .inl rfl
    · split at h
      · cases h
        exact .inl rfl
      · split at h
        · cases h
          exact .inl rfl
        · cases h
          exact .inl rfl
        · rename_i log hlog
          exact .inr ⟨log, hlog, h⟩

theorem message_panic {signed : SignedMessage V B Id Sig} (h : m.message net signed = .error p) :
    ∃ log, logMessage m.block.log signed = .ok (true, log) ∧
      ({ m with block.log := log } : Machine V B Id Sig).afterLog net signed = .error p := by
  unfold Machine.message at h
  dsimp only at h
  split at h
  · cases h
  · split at h
    · cases h
    · split at h
      · cases h
      · split at h
        · cases h
        · cases h
        · rename_i log hlog
          exact ⟨log, hlog, h⟩

theorem finalized_panic {msg : Message V B Id Sig} (h : m.finalized net msg = .error .futureRoundFinalized) :
    m.block.round.number < msg.round ∧
      ∃ block, hasConsensus net.weights m.block.log msg.round (.precommit (some (net.id block, net.junk))) = some true := by
  unfold Machine.finalized at h
  split at h
  · cases h
  · split at h
    · split at h
      · rename_i block _
        split at h
        · cases h
        · rename_i hcons
          split at h
          · cases h
          · exact ⟨UInt32.not_le.mp ‹_›, block, hcons⟩
        · cases h
      · cases h
    · cases h

/-! ### The run loop -/

omit [DecidableEq B] [DecidableEq Id] in
theorem reset_panic {endRound : UInt32} {proposal : Option B} (h : m.reset net endRound proposal = .error p) :
    p ≠ .futureRoundFinalized := by
  unfold Machine.reset at h
  split at h
  · cases h
    nofun
  · split at h
    · cases h
      nofun
    · dsimp only at h
      split at h
      · cases h
        nofun
      · cases h

omit [DecidableEq V] [DecidableEq B] [DecidableEq Id] in
theorem searchUp_panic {current : UInt32} {target : ℕ} :
    ∀ (fuel : ℕ) (round : UInt32) (endTime : UInt32 → Option ℕ),
      Machine.searchUp net current target fuel round endTime = .error p → p ≠ .futureRoundFinalized := by
  intro fuel
  induction fuel with
  | zero =>
    intro _ _ h
    cases h
    nofun
  | succ fuel ih =>
    intro round endTime h
    unfold Machine.searchUp at h
    split at h
    · cases h
      nofun
    · split at h
      · split at h
        · cases h
          nofun
        · exact ih _ _ h
      · cases h

omit [DecidableEq V] in
theorem searchDown_panic {target : ℕ} {endTime : UInt32 → Option ℕ} :
    ∀ n : ℕ, Machine.searchDown target endTime n = .error p → p ≠ .futureRoundFinalized := by
  intro n
  induction n with
  | zero =>
    intro h
    unfold Machine.searchDown at h
    split at h
    · cases h
      nofun
    · split at h <;> cases h
      nofun
  | succ n ih =>
    intro h
    unfold Machine.searchDown at h
    split at h
    · cases h
      nofun
    · split at h
      · exact ih h
      · cases h

omit [DecidableEq B] [DecidableEq Id] in
theorem resetByCommit_panic {commit : Commit V Sig} {proposal : Option B}
    (h : m.resetByCommit net commit proposal = .error p) : p ≠ .futureRoundFinalized := by
  unfold Machine.resetByCommit at h
  rcases except_bind_error h with hup | ⟨⟨round, endTime⟩, -, h⟩
  · exact searchUp_panic net _ _ _ hup
  · rcases except_bind_error h with hdown | ⟨round', -, h⟩
    · exact searchDown_panic _ hdown
    · exact reset_panic net h

omit [DecidableEq B] in
theorem finalize_panic {msg : Message V B Id Sig} {block : B} {proposal : Option B}
    (h : m.finalize net msg block proposal = .error p) : p ≠ .futureRoundFinalized := by
  unfold Machine.finalize at h
  split at h
  · cases h
    nofun
  · dsimp only at h
    split at h
    · cases h
      nofun
    · exact reset_panic net h

theorem step_panic {ev : Event V B Id Sig} (h : m.step net ev = .error .futureRoundFinalized) :
    ∃ m₀ signed, SameCore m m₀ ∧ m₀.message net signed = .error .futureRoundFinalized := by
  cases ev with
  | synced number block commit proposal =>
    dsimp only [Machine.step] at h
    split_ifs at h
    · cases h
    · cases h
    · exact absurd rfl (resetByCommit_panic net h)
  | own proposal =>
    dsimp only [Machine.step] at h
    split at h
    · cases h
    · rcases except_bind_error h with hmsg | ⟨⟨m₁, res⟩, -, h⟩
      · refine ⟨_, _, ?_, hmsg⟩
        exact ⟨rfl, rfl, rfl, rfl⟩
      · split at h
        · cases h
        · cases h
        · exact absurd rfl (finalize_panic net h)
  | timeout step =>
    -- a timeout moves the machine to a later round at most: it never finalizes
    dsimp only [Machine.step] at h
    split at h
    · cases h
    · split_ifs at h
      · split at h
        · cases h
        · cases h
        · split at h <;> cases h
      · cases h
  | received signed proposal =>
    dsimp only [Machine.step] at h
    split_ifs at h
    · cases h
    · rcases except_bind_error h with hmsg | ⟨⟨m₁, res⟩, -, h⟩
      · exact ⟨m, signed, SameCore.refl m, hmsg⟩
      · split at h
        · cases h
        · exact absurd rfl (finalize_panic net h)
        · cases h

end Current

end Parts

end Serai.Tendermint
