import Serai.Coordinator.Transaction
/-
  Serai.Coordinator.Handle — how the coordinator's Tributary handler accumulates what the
  validators publish for a topic (coordinator/src/tributary/handle.rs, `accumulate` and
  `handle_data`).

  Each contributor adds its key shares (the width of its range of participant indices) to
  `DataReceived`; the call whose range of received shares holds `needed` (all shares left
  for the DKG topics, `t` for the others) collects the data of every contributor, keyed by
  the start of its range, and asserts there are `needed` of them. Shares and contributors
  are counted in different units:
  - `accumulate_weighted_panics`: a validator of two key shares and one of one, in a
    Tributary of three shares, publish for a signing topic; the second call reaches
    `t = 3` with two contributors and panics at the assertion.
-/

namespace Serai.Coordinator

open Serai.Tributary.Spec

/-- `Topic`; `S` is `SubstrateSignableId`. -/
inductive Topic (S : Type) where
  | dkg
  | dkgConfirmation
  | substrateSign (id : S)
  | sign (plan : Bytes 32)

/-- `DataSpecification`. -/
structure DataSpecification (S : Type) where
  topic : Topic S
  label : Label
  attempt : UInt32

/-- `DataSet`: the other contributors' data by the start of their range, when we contributed. -/
inductive DataSet where
  | participating (data : List (Participant × List UInt8))
  | notParticipating

/-- `Accumulation`. -/
inductive Accumulation where
  | ready (set : DataSet)
  | notReady

/-- What the handler keeps for one data specification: each signer's data (`DataDb`), the
    shares received (`DataReceived`), the topic's attempt (`AttemptDb`), the re-attempts
    scheduled, and the signers fatally slashed. -/
structure Handler (G : Type) where
  data : G → Option (List UInt8)
  received : Option UInt16
  attempt : Option UInt32
  reattempts : ℕ
  slashed : List G

variable {G S : Type}

/-- `(data_spec.topic == Topic::Dkg) || (data_spec.topic == Topic::DkgConfirmation)`. -/
def Topic.needsEveryone : Topic S → Bool
  | .dkg | .dkgConfirmation => true
  | _ => false

def Topic.isDkgConfirmation : Topic S → Bool
  | .dkgConfirmation => true
  | _ => false

/-- `received_range.contains(&x)` for `received_range = (prior + 1) ..= now` on `u16`s. -/
def receivedContains (prior now x : UInt16) : Bool := decide (prior + 1 ≤ x) && decide (x ≤ now)

/-- `HashMap::insert`. -/
def insertData (k : Participant) (v : List UInt8) (m : List (Participant × List UInt8)) :
    List (Participant × List UInt8) :=
  (k, v) :: m.filter fun e => e.1 ≠ k

variable [DecidableEq G] (spec : TributarySpec G) (ourKey : G) (removed : List G)

/-- The data `accumulate` collects: every validator still in with data, by the start of its
    range, in the spec's order. -/
def collectData (h : Handler G) : List (G × UInt16) → List (Participant × List UInt8) →
    Except String (List (Participant × List UInt8))
  | [], data => .ok data
  | (validator, _) :: rest, data => do
    let i ← spec.i removed validator
    match i, h.data validator with
    | some i, some d => collectData h rest (insertData i.start d data)
    | _, _ => collectData h rest data

/-- `accumulate`; an error is a panic, with its text. -/
def accumulate (dataSpec : DataSpecification S) (signer : G) (bytes : List UInt8) (h : Handler G) :
    Except String (Accumulation × Handler G) := do
  if (h.data signer).isSome then throw "accumulating data for a participant multiple times"
  match ← spec.i removed signer with
  -- a removed signer's data is not accumulated
  | none => pure (.notReady, h)
  | some signerI =>
    let prior := h.received.getD 0
    let now := prior + signerI.shares
    let h := { h with received := some now, data := Function.update h.data signer (some bytes) }
    -- two thirds of the network preprocessed: a re-attempt is scheduled
    let h ← if dataSpec.label = .preprocess && receivedContains prior now spec.t &&
        !dataSpec.topic.isDkgConfirmation then
        if h.attempt = some dataSpec.attempt then pure { h with reattempts := h.reattempts + 1 }
        else throw "assertion `left == right` failed"
      else pure h
    let needed := if dataSpec.topic.needsEveryone then spec.n removed else spec.t
    if receivedContains prior now needed then
      let data ← collectData spec removed h spec.validators []
      if data.length ≠ needed.toNat then throw "assertion `left == right` failed"
      -- our own piece of data is removed, if we contributed
      match ← spec.i removed ourKey with
      | some ourI =>
        if data.any (·.1 = ourI.start) then
          pure (.ready (.participating (data.filter fun e => e.1 ≠ ourI.start)), h)
        else pure (.ready .notParticipating, h)
      | none => pure (.ready .notParticipating, h)
    else pure (.notReady, h)

/-- `handle_data`: data for no attempt, published twice or for a later attempt is fatally
    slashed; data for an earlier attempt is ignored. -/
def handleData (dataSpec : DataSpecification S) (signer : G) (bytes : List UInt8) (h : Handler G) :
    Except String (Accumulation × Handler G) :=
  let slash := { h with slashed := h.slashed ++ [signer] }
  match h.attempt with
  | none => pure (.notReady, slash)
  | some currAttempt =>
    if (h.data signer).isSome then pure (.notReady, slash)
    else if dataSpec.attempt < currAttempt then pure (.notReady, h)
    else if currAttempt < dataSpec.attempt then pure (.notReady, slash)
    else accumulate spec ourKey removed dataSpec signer bytes h

section Weighted

/-- A Tributary of two validators, of two key shares and of one: `t = 3` shares, two
    contributors. -/
def twoAndOne (a b : G) : TributarySpec G := ⟨[(a, 2), (b, 1)]⟩

theorem twoAndOne_i {a b : G} (hab : a ≠ b) :
    (twoAndOne a b).i [] a = .ok (some ⟨⟨1, by decide⟩, ⟨3, by decide⟩⟩) ∧
      (twoAndOne a b).i [] b = .ok (some ⟨⟨3, by decide⟩, ⟨4, by decide⟩⟩) := by
  simp [twoAndOne, TributarySpec.i, TributarySpec.allIs, TributarySpec.allIsFrom, Participant.new, unwrap, bind,
    Except.bind, hab, TributarySpec.shiftLoop]

theorem twoAndOne_t (a b : G) : (twoAndOne a b).t = 3 := by
  simp [twoAndOne, TributarySpec.t, TributarySpec.n]

omit [DecidableEq G] in
theorem twoAndOne_validators (a b : G) : (twoAndOne a b).validators = [(a, 2), (b, 1)] := rfl

/-- The first validator's two shares leave the count below `t`; the second's one share
    reaches `t = 3`, and the assertion compares the two contributors collected with `3`. -/
theorem accumulate_weighted_panics {a b : G} (hab : a ≠ b) (ourKey : G) (plan : Bytes 32) (attempt : UInt32)
    (da db : List UInt8) :
    ∃ h₁, handleData (twoAndOne a b) ourKey [] (⟨.sign plan, .share, attempt⟩ : DataSpecification S) a da
        ⟨fun _ => none, none, some attempt, 0, []⟩ = .ok (.notReady, h₁) ∧
      handleData (twoAndOne a b) ourKey [] (⟨.sign plan, .share, attempt⟩ : DataSpecification S) b db h₁ =
        .error "assertion `left == right` failed" := by
  obtain ⟨ha, hb⟩ := twoAndOne_i hab
  refine ⟨⟨Function.update (fun _ => none) a (some da), some 2, some attempt, 0, []⟩, ?first, ?second⟩
  case first =>
    simp [handleData, accumulate, ha, bind, Except.bind, receivedContains, Topic.needsEveryone, Range.shares,
      twoAndOne_t, pure, Except.pure]
  -- both validators' data is collected: two entries, against `needed = 3`
  case second =>
    simp [handleData, accumulate, hb, bind, Except.bind, receivedContains, Ne.symm hab, Topic.needsEveryone,
      Range.shares, twoAndOne_t, twoAndOne_validators, pure, Except.pure, collectData, ha, insertData,
      Function.update_of_ne hab, throw, throwThe, MonadExceptOf.throw]

end Weighted

theorem accumulate_weighted_panics_signing :
    ∃ h₁, handleData (twoAndOne 0 1) 0 [] (⟨.sign ⟨List.replicate 32 0, rfl⟩, .share, 0⟩ : DataSpecification Unit)
        0 [1] ⟨fun _ => none, none, some 0, 0, []⟩ = .ok (.notReady, h₁) ∧
      handleData (twoAndOne 0 1) 0 [] (⟨.sign ⟨List.replicate 32 0, rfl⟩, .share, 0⟩ : DataSpecification Unit)
        1 [2] h₁ = .error "assertion `left == right` failed" :=
  accumulate_weighted_panics (by decide) 0 ⟨List.replicate 32 0, rfl⟩ 0 [1] [2]

end Serai.Coordinator
