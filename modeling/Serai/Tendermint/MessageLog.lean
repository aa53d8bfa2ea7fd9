import Serai.Lib.Ledger
/-
  Serai.Tendermint.MessageLog — the messages of the Tributary's Tendermint machine
  (coordinator/tributary/tendermint/src/lib.rs, ext.rs, message_log.rs): their steps and
  data, the validators' weights with the thresholds of BFT consensus, and the log a machine
  keeps of its block's messages, per round and sender, over which `message_instances`,
  `round_participation`, `has_participation` and `has_consensus` sum weights.

  A `Data`'s equality is the source's `PartialEq`, which disregards a precommit's signature
  (`Data.same`). Round numbers are `u32` and block numbers `u64`, as in the source; weights
  and their sums are natural numbers (`u64` in the source, where the Tributary's weights are
  key shares, at most 150 in all). A round's log is an association list of senders; the
  sums do not depend on its order. Evidence holds the messages it encodes.

  - `logMessage_cases`: logging a message either fails on a conflicting message, finds it
    logged already, or adds it to its sender's messages of its round.
  - `roundParticipation_logMessage`: logging adds the sender's weight to the participation
    of the message's round when the sender is new to the round, and nothing else.
  - `messageInstances_le`: the weight agreeing with some data is at most the weight
    participating in its step, which is at most the round's participation.
-/

namespace Serai.Tendermint

open Serai.Lib

/-- `Step`. -/
inductive Step where
  | propose
  | prevote
  | precommit
  deriving DecidableEq, Repr

/-- `Data`: a proposal with its valid round, a prevote, or a precommit with the block's id
    and a signature of the commit message. -/
inductive Data (B Id Sig : Type) where
  | proposal (validRound : Option UInt32) (block : B)
  | prevote (id : Option Id)
  | precommit (commit : Option (Id × Sig))

variable {V B Id Sig : Type}

/-- `Data::step`. -/
def Data.step : Data B Id Sig → Step
  | .proposal .. => .propose
  | .prevote _ => .prevote
  | .precommit _ => .precommit

/-- `PartialEq for Data`: two precommits for one block are equal whatever their signatures. -/
def Data.same [DecidableEq B] [DecidableEq Id] : Data B Id Sig → Data B Id Sig → Bool
  | .proposal vr b, .proposal vr' b' => decide (vr = vr') && decide (b = b')
  | .prevote id, .prevote id' => decide (id = id')
  | .precommit none, .precommit none => true
  | .precommit (some (id, _)), .precommit (some (id', _)) => decide (id = id')
  | _, _ => false

/-- `Message`. -/
structure Message (V B Id Sig : Type) where
  sender : V
  block : UInt64
  round : UInt32
  data : Data B Id Sig

/-- `SignedMessage`. -/
structure SignedMessage (V B Id Sig : Type) where
  msg : Message V B Id Sig
  sig : Sig

/-- `Evidence`. -/
inductive Evidence (V B Id Sig : Type) where
  | conflictingMessages (first second : SignedMessage V B Id Sig)
  | invalidPrecommit (msg : SignedMessage V B Id Sig)
  | invalidValidRound (msg : SignedMessage V B Id Sig)

/-- `TendermintError`. -/
inductive TendermintError (V B Id Sig : Type) where
  | malicious (sender : V) (evidence : Option (Evidence V B Id Sig))
  | temporal
  | alreadyHandled
  | invalidEvidence

/-- `Weights`. -/
structure Weights (V : Type) where
  totalWeight : ℕ
  weight : V → ℕ
  /-- The weighted round robin: the proposer of a block number's round. -/
  proposer : UInt64 → UInt32 → V

/-- `Weights::threshold`. -/
def Weights.threshold (w : Weights V) : ℕ := w.totalWeight * 2 / 3 + 1

/-- `Weights::fault_threshold`. -/
def Weights.faultThreshold (w : Weights V) : ℕ := w.totalWeight - w.threshold + 1

/-! ## The log -/

/-- A sender's messages in one round, one per step (`HashMap<Step, SignedMessage>`). -/
structure Msgs (V B Id Sig : Type) where
  propose : Option (SignedMessage V B Id Sig)
  prevote : Option (SignedMessage V B Id Sig)
  precommit : Option (SignedMessage V B Id Sig)

def Msgs.empty : Msgs V B Id Sig := ⟨none, none, none⟩

def Msgs.get (m : Msgs V B Id Sig) : Step → Option (SignedMessage V B Id Sig)
  | .propose => m.propose
  | .prevote => m.prevote
  | .precommit => m.precommit

def Msgs.set (m : Msgs V B Id Sig) (step : Step) (v : Option (SignedMessage V B Id Sig)) : Msgs V B Id Sig :=
  match step with
  | .propose => { m with propose := v }
  | .prevote => { m with prevote := v }
  | .precommit => { m with precommit := v }

@[simp] theorem Msgs.get_empty (step : Step) : (Msgs.empty : Msgs V B Id Sig).get step = none := by
  cases step <;> rfl

@[simp] theorem Msgs.get_set_self (m : Msgs V B Id Sig) (step : Step) (v : Option (SignedMessage V B Id Sig)) :
    (m.set step v).get step = v := by
  cases step <;> rfl

theorem Msgs.get_set_ne (m : Msgs V B Id Sig) {step step' : Step} (v : Option (SignedMessage V B Id Sig))
    (h : step' ≠ step) : (m.set step v).get step' = m.get step' := by
  cases step <;> cases step' <;> first | rfl | exact absurd rfl h

/-- A round's log (`RoundLog`): each sender's messages. -/
abbrev RoundLog (V B Id Sig : Type) := AList fun _ : V => Msgs V B Id Sig

/-- `MessageLog`'s map of rounds. -/
structure MessageLog (V B Id Sig : Type) where
  log : UInt32 → Option (RoundLog V B Id Sig)

def MessageLog.empty : MessageLog V B Id Sig := ⟨fun _ => none⟩

section Log

variable [DecidableEq V] (w : Weights V)

/-- `MessageLog::log`: `true` for a new message, `false` for one logged already, and
    `Malicious` with both messages for another message of the same sender, round and step. -/
def logMessage [DecidableEq B] [DecidableEq Id] (l : MessageLog V B Id Sig) (signed : SignedMessage V B Id Sig) :
    Except (TendermintError V B Id Sig) (Bool × MessageLog V B Id Sig) :=
  let msg := signed.msg
  let round := (l.log msg.round).getD ∅
  let msgs := (round.lookup msg.sender).getD Msgs.empty
  match msgs.get msg.data.step with
  | some existing =>
    if !existing.msg.data.same msg.data then
      throw (.malicious msg.sender (some (.conflictingMessages existing signed)))
    else pure (false, l)
  | none =>
    pure (true, ⟨Function.update l.log msg.round
      (some (round.insert msg.sender (msgs.set msg.data.step (some signed))))⟩)

/-- `MessageLog::message_instances`: the weight of the round's messages of the data's step,
    and of those equal to it; `None` is the panic of `self.log[&round]` on a round with no
    log. -/
def messageInstances [DecidableEq B] [DecidableEq Id] (l : MessageLog V B Id Sig) (round : UInt32)
    (data : Data B Id Sig) : Option (ℕ × ℕ) :=
  (l.log round).map fun r =>
    ((r.entries.map fun e => if (e.2.get data.step).isSome then w.weight e.1 else 0).sum,
     (r.entries.map fun e => match e.2.get data.step with
       | some msg => if data.same msg.msg.data then w.weight e.1 else 0
       | none => 0).sum)

/-- `MessageLog::round_participation`. -/
def roundParticipation (l : MessageLog V B Id Sig) (round : UInt32) : ℕ :=
  match l.log round with
  | some r => (r.keys.map w.weight).sum
  | none => 0

/-- `MessageLog::has_participation`. -/
def hasParticipation (l : MessageLog V B Id Sig) (round : UInt32) (step : Step) : Option Bool :=
  (l.log round).map fun r =>
    decide (w.threshold ≤ (r.entries.map fun e => if (e.2.get step).isSome then w.weight e.1 else 0).sum)

/-- `MessageLog::has_consensus`. -/
def hasConsensus [DecidableEq B] [DecidableEq Id] (l : MessageLog V B Id Sig) (round : UInt32)
    (data : Data B Id Sig) : Option Bool :=
  (messageInstances w l round data).map fun i => decide (w.threshold ≤ i.2)

/-- `MessageLog::get`. -/
def MessageLog.get (l : MessageLog V B Id Sig) (round : UInt32) (sender : V) (step : Step) :
    Option (SignedMessage V B Id Sig) :=
  (l.log round).bind fun r => (r.lookup sender).bind fun m => m.get step

/-! ## What logging a message does -/

theorem MessageLog.get_eq (l : MessageLog V B Id Sig) (round : UInt32) (sender : V) (step : Step) :
    l.get round sender step = ((((l.log round).getD ∅).lookup sender).getD Msgs.empty).get step := by
  unfold MessageLog.get
  cases l.log round with
  | none => simp [AList.lookup_empty]
  | some r => cases hm : r.lookup sender <;> simp [hm]

theorem mem_of_get_isSome {l : MessageLog V B Id Sig} {round : UInt32} {sender : V} {step : Step}
    (h : (l.get round sender step).isSome) : sender ∈ (l.log round).getD ∅ := by
  unfold MessageLog.get at h
  cases hr : l.log round with
  | none => simp [hr] at h
  | some r =>
    rw [hr] at h
    cases hm : r.lookup sender with
    | none => simp [hm] at h
    | some m => exact AList.lookup_isSome.mp (by simp [hm])

variable [DecidableEq B] [DecidableEq Id]

theorem logMessage_cases {l l' : MessageLog V B Id Sig} {signed : SignedMessage V B Id Sig} {fresh : Bool}
    (h : logMessage l signed = .ok (fresh, l')) :
    (fresh = false ∧ l' = l ∧ (l.get signed.msg.round signed.msg.sender signed.msg.data.step).isSome) ∨
      (fresh = true ∧ l.get signed.msg.round signed.msg.sender signed.msg.data.step = none ∧
        l' = ⟨Function.update l.log signed.msg.round (some (((l.log signed.msg.round).getD ∅).insert
          signed.msg.sender ((((l.log signed.msg.round).getD ∅).lookup signed.msg.sender).getD Msgs.empty
            |>.set signed.msg.data.step (some signed))))⟩) := by
  unfold logMessage at h
  dsimp only at h
  rw [MessageLog.get_eq]
  split at h
  · rename_i existing hsome
    split at h
    · cases h
    · cases h
      exact .inl ⟨rfl, rfl, by rw [hsome]; rfl⟩
  · rename_i hnone
    cases h
    exact .inr ⟨rfl, hnone, rfl⟩

theorem roundParticipation_logMessage {l l' : MessageLog V B Id Sig} {signed : SignedMessage V B Id Sig}
    {fresh : Bool} (h : logMessage l signed = .ok (fresh, l')) (round : UInt32) :
    roundParticipation w l' round =
      roundParticipation w l round +
        if round = signed.msg.round ∧ signed.msg.sender ∉ (l.log round).getD ∅ then w.weight signed.msg.sender else 0 := by
  rcases logMessage_cases h with ⟨-, rfl, hlogged⟩ | ⟨-, -, rfl⟩
  · -- a message logged already: its sender is in its round
    have hs := mem_of_get_isSome hlogged
    by_cases hr : round = signed.msg.round
    · subst hr
      simp [hs]
    · simp [hr]
  · by_cases hr : round = signed.msg.round
    · subst hr
      unfold roundParticipation
      simp only [Function.update_self]
      rw [sum_keys_insert]
      cases hl : l.log signed.msg.round with
      | none => simp
      | some r => simp
    · simp [roundParticipation, hr]

omit [DecidableEq V] in
theorem messageInstances_le {l : MessageLog V B Id Sig} {round : UInt32} {data : Data B Id Sig} {i : ℕ × ℕ}
    (h : messageInstances w l round data = some i) : i.2 ≤ i.1 ∧ i.1 ≤ roundParticipation w l round := by
  unfold messageInstances at h
  cases hr : l.log round with
  | none => simp [hr] at h
  | some r =>
    rw [hr, Option.map_some, Option.some.injEq] at h
    subst h
    have hkeys : (r.keys.map w.weight).sum = (r.entries.map fun e => w.weight e.1).sum := by
      simp [AList.keys, List.keys, Function.comp_def]
    refine ⟨List.sum_le_sum fun e _ => ?_, ?_⟩
    · -- a sender counts towards the agreeing weight only with a message of the step
      split <;> split <;> simp_all
    · simp only [roundParticipation, hr, hkeys]
      exact List.sum_le_sum fun e _ => by split <;> omega

end Log

end Serai.Tendermint
