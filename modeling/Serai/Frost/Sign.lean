import Serai.Frost.Nonce
/-
  Serai.Frost.Sign — FROST's signing machines for the Schnorr algorithm (crypto/frost/src/
  sign.rs: `AlgorithmMachine`, `AlgorithmSignMachine`, `AlgorithmSignatureMachine`;
  algorithm.rs: `Schnorr`; lib.rs: `FrostError`, `validate_map`).

  A preprocess draws a nonce `(d, e)` for the generator and commits to it, against a
  challenge of the algorithm's transcript. `sign` takes everyone else's preprocess: it
  checks the signing set (at least `t`, none above `n`, none twice), takes the keys' view
  of it, transcripts every participant's commitments in order, derives the binding factors
  from the rho transcript, sums the session's nonce `R = ∑_l D_l + ρ_l·E_l`, and answers
  `s_i = c·x_i + (d_i + ρ_i·e_i)` with `c = H(R, Y, m)`. `complete` sums the shares and
  checks the signature `(R, ∑ s_l)`; when it fails it batch-verifies every share
  `s_l·G = D_l + ρ_l·E_l + c·V_l` and blames the one the batch finds.

  Each panic of the code is an outcome: `FrostError.panic` where the function returns a
  `Result`. The addendum of `Schnorr` is `()`, and writes nothing.

  - `sign_signing_set_valid`: `sign` succeeds only for a signing set of `t` to `n`
    distinct participants of `1..=n`, ours among them, with a preprocess from each other.
  - `complete_blames_invalid_share`: `complete` blames only a participant of the set whose
    share fails its verification equation.
  - `complete_eq_of_verify`: when the summed signature verifies, `complete` returns it.
  - `complete_ne_internalError`: over a signing set whose verification shares sum to the
    group key, with a blame batch that verifies only if every share does, `complete` never
    ends in its internal error.
-/

namespace Serai.Frost

open Serai.Crypto Serai.Lib Serai.Dkg
open Serai.Tributary.Spec (Participant)

variable {F G : Type} [Field F] [AddCommGroup G] [Module F G]

/-- `FrostError`, with the panics of the code as one more outcome. -/
inductive FrostError where
  | internalError (msg : String)
  | invalidParticipant (n : UInt16) (p : Participant)
  | invalidSigningSet (msg : String)
  | invalidParticipantQuantity (expected got : ℕ)
  | duplicatedParticipant (p : Participant)
  | missingParticipant (p : Participant)
  | invalidPreprocess (p : Participant)
  | invalidShare (p : Participant)
  | panic
  deriving DecidableEq

/-- The `FrostError` of each error `validate_map` raises: FROST's `validate_map` is the
    DKG's, raising the same three errors. -/
def FrostError.ofValidateMap : DkgError Unit → FrostError
  | .invalidParticipantQuantity expected got => .invalidParticipantQuantity expected got
  | .duplicatedParticipant p => .duplicatedParticipant p
  | .missingParticipant p => .missingParticipant p
  | _ => .panic

/-- `validate_map`. -/
def validateMap {T : Type} (map : Std.HashMap Participant T) (included : List Participant) (ours : Participant) :
    Except FrostError Unit :=
  (Dkg.validateMap (B := Unit) map included ours).mapError FrostError.ofValidateMap

/-! ## The Schnorr algorithm and the machines -/

/-- `Schnorr`: the transcript it continues, and the challenge `sign_share` sets. -/
structure Schnorr (F : Type) where
  transcript : DigestTranscript
  c : Option F

/-- `Schnorr::new`. -/
def Schnorr.new (transcript : DigestTranscript) : Schnorr F := ⟨transcript, none⟩

/-- `Schnorr::nonces`: one nonce, over the generator. -/
def Schnorr.nonces (c : Curve F G) : List (List G) := [[c.suite.generator]]

/-- `Params`. -/
structure Params (F G : Type) where
  algorithm : Schnorr F
  keys : ThresholdKeys F G

/-- `Preprocess`; Schnorr's addendum is `()`. -/
structure Preprocess (F G : Type) where
  commitments : Commitments F G

/-- `Preprocess::write`: the commitments, then the addendum, which writes nothing. -/
def Preprocess.write (c : Curve F G) (p : Preprocess F G) : List UInt8 := p.commitments.write c

/-- `AlgorithmMachine`. -/
structure AlgorithmMachine (F G : Type) where
  params : Params F G

/-- `AlgorithmMachine::new`. -/
def AlgorithmMachine.new (algorithm : Schnorr F) (keys : ThresholdKeys F G) : AlgorithmMachine F G :=
  ⟨⟨algorithm, keys⟩⟩

/-- What the RNG a preprocess seeds draws: the nonces, and, from the blame entropy, the
    weights of the batch `complete` verifies shares in. -/
structure PreprocessDraws (F : Type) [Field F] where
  nonces : NonceDraws F
  blame : Weights F

/-- `AlgorithmSignMachine`. -/
structure AlgorithmSignMachine (F G : Type) [Field F] where
  params : Params F G
  commitmentsChallenge : List UInt8
  nonces : List (Nonce F)
  preprocess : Preprocess F G
  blame : Weights F

/-- `AlgorithmSignatureMachine`. -/
structure AlgorithmSignatureMachine (F G : Type) [Field F] where
  params : Params F G
  view : ThresholdView F G
  B : BindingFactor F G
  Rs : List (List G)
  share : F
  blame : Weights F

/-- `AlgorithmMachine::seeded_preprocess`: a challenge of the transcript for the commitments'
    proof, then the nonces and their commitments; `none` is the panic of `Commitments::new`. -/
def AlgorithmMachine.seededPreprocess (c : Curve F G) (H : Digest) (m : AlgorithmMachine F G)
    (draws : PreprocessDraws F) : Option (AlgorithmSignMachine F G × Preprocess F G) := do
  let challenged := m.params.algorithm.transcript.challenge H (byteString "commitments")
  let made ← Commitments.new c H draws.nonces (Schnorr.nonces c) challenged.1
  pure (⟨⟨⟨challenged.2, m.params.algorithm.c⟩, m.params.keys⟩, challenged.1, made.1, ⟨made.2⟩, draws.blame⟩,
    ⟨made.2⟩)

/-- `AlgorithmSignMachine::read_preprocess`: the commitments over the algorithm's nonces,
    against the commitments challenge; Schnorr's addendum reads nothing. -/
def AlgorithmSignMachine.readPreprocess [DecidableEq F] [DecidableEq G] (c : Curve F G) (H : Digest)
    (m : AlgorithmSignMachine F G) : Reader (Preprocess F G) := do
  let commitments ← Commitments.read c H (Schnorr.nonces c) m.commitmentsChallenge
  pure ⟨commitments⟩

/-- `AlgorithmSignatureMachine::read_share`. -/
def readShare (c : Curve F G) : Reader F := readF c.suite

/-- `SignatureShare::write`. -/
def writeShare (c : Curve F G) (share : F) : List UInt8 := c.suite.toRepr share

/-! ## `sign` -/

/-- The first participant a sorted set lists twice in a row: the loop comparing
    `included[i]` with `included[i + 1]`. -/
def adjacentDuplicate : List Participant → Option Participant
  | a :: b :: rest => if a = b then some a else adjacentDuplicate (b :: rest)
  | _ => none

/-- The checks `sign` makes of the sorted signing set: enough signers, the last one at most
    `n`, none twice; `.panic` is the underflow of `included.len() - 1`. -/
def checkSigningSet (params : ThresholdParams) (included : List Participant) : Except FrostError Unit := do
  if included.length < params.t.toNat then throw (.invalidSigningSet "not enough signers")
  let some last := included.getLast? | throw .panic
  if params.n < last.val then throw (.invalidParticipant params.n last)
  match adjacentDuplicate included with
  | some l => throw (.duplicatedParticipant l)
  | none => pure ()

/-- Participant `l`'s part of the transcript and the binding factors: its index, its
    commitments and its addendum, which writes nothing, into the transcript; its commitments
    into the binding factors. -/
def absorb (c : Curve F G) (acc : DigestTranscript × BindingFactor F G) (l : Participant)
    (commitments : Commitments F G) : DigestTranscript × BindingFactor F G :=
  (((commitments.transcript c (acc.1.appendMessage (byteString "participant") (c.suite.toRepr (toScalar (F := F) l)))).appendMessage
    (byteString "addendum") []), acc.2.insert l commitments)

/-- Parsing participant `l`'s preprocess, `lookup l` being the commitments `sign` finds for it;
    `none` is the panic of `preprocesses.remove(l).unwrap()`. -/
def parsePreprocess (c : Curve F G) (lookup : Participant → Option (Commitments F G))
    (acc : DigestTranscript × BindingFactor F G) (l : Participant) : Except FrostError (DigestTranscript × BindingFactor F G) :=
  match lookup l with
  | some commitments => pure (absorb c acc l commitments)
  | none => throw .panic

/-- The rho transcript: the group key, to which the offset is added once more, the hash of
    the message, and the hash of a challenge of the algorithm's transcript. -/
def rhoTranscript (c : Curve F G) (keys : ThresholdKeys F G) (msg preprocesses : List UInt8) : DigestTranscript :=
  (((DigestTranscript.new (byteString "FROST_rho")).appendMessage (byteString "group_key")
      (c.suite.toBytes (keys.groupKey c.suite + (keys.offset.getD 0) • c.suite.generator))).appendMessage
    (byteString "message") (c.hashMsg msg)).appendMessage (byteString "preprocesses") (c.hashCommitments preprocesses)

/-- Our nonces, each `d + e·ρ_n` with our binding factor for it; `none` is the panic of the
    index `our_binding_factors[n]`. -/
def bindNonces (nonces : List (Nonce F)) (rhos : List F) : Option (List F) :=
  nonces.zipIdx.mapM fun p => rhos[p.2]?.map fun rho => p.1.e * rho + p.1.d

/-- What `sign` does once every preprocess is parsed into the transcript and the binding
    factors: the binding factors from the rho transcript, the session's nonces, our bound
    nonce, and Schnorr's `sign_share`, `H(R, Y, m)` for the first nonce `R` and the view's
    group key `Y`, with our share of the signature under it. -/
def AlgorithmSignMachine.signParsed (c : Curve F G) (H : Digest) (hram : G → G → List UInt8 → F)
    (m : AlgorithmSignMachine F G) (view : ThresholdView F G) (parsed : DigestTranscript × BindingFactor F G)
    (msg : List UInt8) : Except FrostError (AlgorithmSignatureMachine F G × F) := do
  let challenged := parsed.1.challenge H (byteString "preprocesses")
  let rho := rhoTranscript c m.params.keys msg challenged.1
  let B := parsed.2.calculateBindingFactors c H rho
  let transcript := challenged.2.appendMessage (byteString "rho_transcript") (rho.challenge H (byteString "merge")).1
  let some Rs := B.nonces (Schnorr.nonces c) | throw .panic
  let some nonces := (B.bindingFactors m.params.keys.core.params.i).bind (bindNonces m.nonces) | throw .panic
  let some R := Rs[0]?.bind (·[0]?) | throw .panic
  let some nonce := nonces[0]? | throw .panic
  let challenge := hram R view.groupKey msg
  let share := (SchnorrSignature.sign c.suite view.secretShare nonce challenge).s
  pure (⟨⟨⟨transcript, some challenge⟩, m.params.keys⟩, view, B, Rs, share, m.blame⟩, share)

/-- `AlgorithmSignMachine::sign`: the checks of the signing set, the view of it, the
    preprocesses parsed in its order, then `signParsed`. -/
def AlgorithmSignMachine.sign [DecidableEq F] (c : Curve F G) (H : Digest) (hram : G → G → List UInt8 → F)
    (m : AlgorithmSignMachine F G) (preprocesses : Std.HashMap Participant (Preprocess F G)) (msg : List UInt8) :
    Except FrostError (AlgorithmSignatureMachine F G × F) := do
  let params := m.params.keys.core.params
  let included := sortParticipants (params.i :: preprocesses.keys)
  checkSigningSet params included
  let view ← match m.params.keys.view c.suite included with
    | .ok view => pure view
    | .error _ => throw .panic
  validateMap preprocesses included params.i
  let lookup := fun l => if l = params.i then some m.preprocess.commitments else preprocesses[l]?.map (·.commitments)
  let parsed ← included.foldlM (parsePreprocess c lookup)
    (m.params.algorithm.transcript.domainSeparate (byteString "FROST"), ⟨∅⟩)
  m.signParsed c H hram view parsed msg

/-! ## `complete` -/

/-- The statements `verify_share` gives for participant `l`'s share, `R_l + c·V_l - s_l·G`
    with `R_l` its first bound nonce; `none` is the panic of an index. -/
def AlgorithmSignatureMachine.shareStatements (c : Curve F G) (m : AlgorithmSignatureMachine F G) (challenge : F)
    (responses : Std.HashMap Participant F) (l : Participant) : Option (List (F × G)) := do
  let share ← m.view.verificationShares[l]?
  let bound ← m.B.bound l
  let response ← responses[l]?
  let R ← bound[0]?.bind (·[0]?)
  pure (SchnorrSignature.batchStatements c.suite ⟨R, response⟩ share challenge)

/-- The batch `complete` verifies every share in, in the order of the signing set; `.panic` is
    the panic of an index. -/
def AlgorithmSignatureMachine.blameBatch (c : Curve F G) (m : AlgorithmSignatureMachine F G) (challenge : F)
    (responses : Std.HashMap Participant F) : Except FrostError (BatchVerifier Participant F G) :=
  m.view.included.foldlM (fun batch l =>
    match m.shareStatements c challenge responses l with
    | some statements => pure (batch.queue m.blame l statements)
    | none => throw .panic) BatchVerifier.new

/-- `AlgorithmSignatureMachine::complete`: the signature `(R, ∑ s_l)` if it verifies, else
    every share into one batch, blaming the participant it finds. -/
def AlgorithmSignatureMachine.complete [DecidableEq G] (c : Curve F G) (m : AlgorithmSignatureMachine F G)
    (shares : Std.HashMap Participant F) : Except FrostError (SchnorrSignature F G) := do
  let params := m.params.keys.core.params
  validateMap shares m.view.included params.i
  -- `validate_map` has ruled our index out of `shares`, so which is inserted last is moot
  let responses := shares.insert params.i m.share
  let sum := m.share + (shares.toList.map (·.2)).sum
  let some R := m.Rs[0]?.bind (·[0]?) | throw .panic
  let some challenge := m.params.algorithm.c | throw .panic
  let sig : SchnorrSignature F G := ⟨R, sum⟩
  if sig.verify c.suite m.view.groupKey challenge then pure sig
  else
    let batch ← m.blameBatch c challenge responses
    match batch.verifyWithVartimeBlame with
    | .error (some l) => throw (.invalidShare l)
    | .error none => throw .panic
    | .ok () => throw (.internalError "everyone had a valid share yet the signature was still invalid")

/-! ## Signing sets -/

theorem eq_of_val_eq {a b : Participant} (h : a.val = b.val) : a = b := by
  cases a
  cases b
  cases h
  rfl

theorem pairwise_sortParticipants (included : List Participant) :
    (sortParticipants included).Pairwise fun a b => a.val ≤ b.val := by
  have : Std.Total fun a b : Participant => a.val ≤ b.val := ⟨fun a b => UInt16.le_total a.val b.val⟩
  have : IsTrans Participant fun a b => a.val ≤ b.val := ⟨fun _ _ _ => UInt16.le_trans⟩
  exact List.pairwise_insertionSort _ included

theorem sortParticipants_eq_of_perm {l l' : List Participant} (h : l.Perm l') :
    sortParticipants l = sortParticipants l' :=
  ((perm_sortParticipants l).trans (h.trans (perm_sortParticipants l').symm)).eq_of_pairwise
    (fun _ _ _ _ hab hba => eq_of_val_eq (UInt16.le_antisymm hab hba))
    (pairwise_sortParticipants l) (pairwise_sortParticipants l')

theorem le_getLast_of_pairwise {l : List Participant} (hl : l.Pairwise fun a b => a.val ≤ b.val)
    {last : Participant} (hlast : l.getLast? = some last) : ∀ x ∈ l, x.val ≤ last.val := by
  obtain ⟨ys, rfl⟩ := List.getLast?_eq_some_iff.mp hlast
  rw [List.pairwise_append] at hl
  intro x hx
  rcases List.mem_append.mp hx with hx | hx
  · exact hl.2.2 x hx last List.mem_cons_self
  · rw [List.mem_singleton.mp hx]
    exact UInt16.le_refl _

theorem adjacentDuplicate_eq_none_iff {l : List Participant} (hl : l.Pairwise fun a b => a.val ≤ b.val) :
    adjacentDuplicate l = none ↔ l.Nodup := by
  fun_induction adjacentDuplicate l with
  | case1 b rest => simp
  | case2 a b rest hab ih =>
    rw [ih hl.of_cons]
    refine ⟨fun hnodup => List.nodup_cons.mpr ⟨fun ha => ?_, hnodup⟩, fun hnodup => hnodup.of_cons⟩
    -- `a` is below `b`, which is below the rest: it can be none of them
    have hb : a.val ≤ b.val := List.rel_of_pairwise_cons hl List.mem_cons_self
    rcases List.mem_cons.mp ha with h | h
    · exact hab h
    · have hba : b.val ≤ a.val := List.rel_of_pairwise_cons hl.of_cons h
      exact hab (eq_of_val_eq (UInt16.le_antisymm hb hba))
  | case3 l hl' =>
    match l, hl' with
    | [], _ => simp
    | [_], _ => simp
    | _ :: _ :: _, h => exact (h _ _ _ rfl).elim

theorem checkSigningSet_ok {params : ThresholdParams} {included : List Participant}
    (hl : included.Pairwise fun a b => a.val ≤ b.val) :
    checkSigningSet params included = .ok () ↔
      params.t.toNat ≤ included.length ∧ included.Nodup ∧ ∀ l ∈ included, l ∈ participants params.n := by
  unfold checkSigningSet
  by_cases ht : included.length < params.t.toNat
  · simp [ht, throw, throwThe, MonadExceptOf.throw, bind, Except.bind]
  -- the set is not empty, since `t` is not
  obtain ⟨last, hlast⟩ : ∃ last, included.getLast? = some last := by
    have ht0 : params.t.toNat ≠ 0 := params.t_toNat_ne_zero
    cases h : included.getLast? with
    | none =>
      rw [List.getLast?_eq_none_iff] at h
      subst h
      simp only [List.length_nil] at ht
      omega
    | some last => exact ⟨last, rfl⟩
  have hmem : last ∈ included := List.mem_of_getLast? hlast
  by_cases hn : params.n < last.val
  · have hout : last ∉ participants params.n := fun h => UInt16.not_le.mpr hn (mem_participants.mp h)
    simp only [ht, hlast, hn, if_false, if_true]
    simp only [throw, throwThe, MonadExceptOf.throw, bind, Except.bind, reduceCtorEq, false_iff, not_and]
    exact fun _ _ hrange => hout (hrange last hmem)
  · -- every participant is at most the last, so of `1..=n`
    have hrange : ∀ l ∈ included, l ∈ participants params.n := fun l hl' =>
      mem_participants.mpr (UInt16.le_trans (le_getLast_of_pairwise hl hlast l hl') (UInt16.not_lt.mp hn))
    simp only [ht, hlast, hn, if_false, Nat.not_lt.mp ht, true_and, ← adjacentDuplicate_eq_none_iff hl]
    cases adjacentDuplicate included with
    | some l => simp [throw, throwThe, MonadExceptOf.throw]
    | none => simpa [pure, Except.pure] using hrange

/-- `sign` signs only for a valid signing set: ours and the participants it has a preprocess
    from, at least `t` of them, all of `1..=n`, ours not among the others. -/
theorem sign_signing_set_valid [DecidableEq F] {c : Curve F G} {H : Digest} {hram : G → G → List UInt8 → F}
    {m : AlgorithmSignMachine F G} {preprocesses : Std.HashMap Participant (Preprocess F G)} {msg : List UInt8}
    {r : AlgorithmSignatureMachine F G × F} (h : m.sign c H hram preprocesses msg = .ok r) :
    m.params.keys.core.params.i ∉ preprocesses ∧ m.params.keys.core.params.t.toNat ≤ preprocesses.size + 1 ∧
      ∀ l ∈ preprocesses, l ∈ participants m.params.keys.core.params.n := by
  unfold AlgorithmSignMachine.sign at h
  obtain ⟨_, hcheck, -⟩ := except_bind_ok h
  rw [checkSigningSet_ok (pairwise_sortParticipants _)] at hcheck
  obtain ⟨ht, hnodup, hrange⟩ := hcheck
  have hnodup' := (perm_sortParticipants _).nodup_iff.mp hnodup
  refine ⟨fun hi => (List.nodup_cons.mp hnodup').1 (Std.HashMap.mem_keys.mpr hi), ?_, fun l hl => hrange l ?_⟩
  · rwa [length_sortParticipants, List.length_cons, Std.HashMap.length_keys] at ht
  · exact mem_sortParticipants.mpr (List.mem_cons_of_mem _ (Std.HashMap.mem_keys.mpr hl))

theorem sign_eq_signParsed [DecidableEq F] {c : Curve F G} {H : Digest} {hram : G → G → List UInt8 → F}
    {m : AlgorithmSignMachine F G} {preprocesses : Std.HashMap Participant (Preprocess F G)} {msg : List UInt8}
    {included : List Participant} (hincluded : sortParticipants (m.params.keys.core.params.i :: preprocesses.keys) = included)
    (hcheck : checkSigningSet m.params.keys.core.params included = .ok ())
    {view : ThresholdView F G} (hview : m.params.keys.view c.suite included = .ok view)
    (hvalid : validateMap preprocesses included m.params.keys.core.params.i = .ok ())
    {commitments : Participant → Commitments F G} (hours : m.preprocess.commitments = commitments m.params.keys.core.params.i)
    (hothers : ∀ l ∈ preprocesses, preprocesses[l]?.map (·.commitments) = some (commitments l)) :
    m.sign c H hram preprocesses msg = m.signParsed c H hram view
      (included.foldl (fun acc l => absorb c acc l (commitments l))
        (m.params.algorithm.transcript.domainSeparate (byteString "FROST"), ⟨∅⟩)) msg := by
  -- every participant of the set is ours or has a preprocess
  have hlookup : ∀ acc, ∀ l ∈ included, parsePreprocess c (fun l => if l = m.params.keys.core.params.i then
      some m.preprocess.commitments else preprocesses[l]?.map (·.commitments)) acc l =
        .ok (absorb c acc l (commitments l)) := by
    intro acc l hl
    rw [← hincluded, mem_sortParticipants, List.mem_cons] at hl
    unfold parsePreprocess
    by_cases hi : l = m.params.keys.core.params.i
    · simp only [hi, if_true, hours]
      rfl
    · simp only [hi, if_false, hothers l (Std.HashMap.mem_keys.mp (hl.resolve_left hi))]
      rfl
  unfold AlgorithmSignMachine.sign
  simp only [hincluded]
  rw [except_bind_of_ok hcheck]
  simp only [hview]
  rw [except_bind_of_ok (show (pure view : Except FrostError _) = .ok view from rfl),
    except_bind_of_ok hvalid, except_bind_of_ok (foldlM_except_ok hlookup _)]

/-! ## Completing a signature -/

theorem validateMap_ok_iff {T : Type} {map : Std.HashMap Participant T} {included : List Participant}
    {ours : Participant} :
    validateMap map included ours = .ok () ↔ Dkg.validateMap (B := Unit) map included ours = .ok () := by
  unfold validateMap
  cases Dkg.validateMap (B := Unit) map included ours <;> simp [Except.mapError]

theorem validateMap_error {T : Type} {map : Std.HashMap Participant T} {included : List Participant}
    {ours : Participant} {e : FrostError} (h : validateMap map included ours = .error e) :
    (∀ l, e ≠ .invalidShare l) ∧ ∀ msg, e ≠ .internalError msg := by
  unfold validateMap at h
  cases hv : Dkg.validateMap (B := Unit) map included ours with
  | ok u => simp [hv, Except.mapError] at h
  | error e' =>
    simp only [hv, Except.mapError, Except.error.injEq] at h
    subst h
    cases e' <;> simp [FrostError.ofValidateMap]

theorem shareStatements_eq_some {c : Curve F G} {m : AlgorithmSignatureMachine F G} {challenge : F}
    {responses : Std.HashMap Participant F} {l : Participant} {statements : List (F × G)} :
    m.shareStatements c challenge responses l = some statements ↔ ∃ V R s, m.view.verificationShares[l]? = some V ∧
      ((m.B.bound l).bind (·[0]?)).bind (·[0]?) = some R ∧ responses[l]? = some s ∧
      statements = SchnorrSignature.batchStatements c.suite ⟨R, s⟩ V challenge := by
  constructor
  · intro h
    obtain ⟨V, hV, h⟩ := Option.bind_eq_some_iff.mp h
    obtain ⟨bound, hb, h⟩ := Option.bind_eq_some_iff.mp h
    obtain ⟨s, hs, h⟩ := Option.bind_eq_some_iff.mp h
    obtain ⟨R, hR, h⟩ := Option.bind_eq_some_iff.mp h
    exact ⟨V, R, s, hV, by rw [hb, Option.bind_some, hR], hs, (Option.some.inj h).symm⟩
  · rintro ⟨V, R, s, hV, hR, hs, rfl⟩
    cases hb : m.B.bound l with
    | none => simp [hb] at hR
    | some bound =>
      rw [hb, Option.bind_some] at hR
      simp only [AlgorithmSignatureMachine.shareStatements, hV, hb, hs, hR, Option.bind_eq_bind, Option.bind_some,
        Option.pure_def]

theorem foldlM_queue_entries {f : Participant → Option (List (F × G))} (ws : Weights F) :
    ∀ (ls : List Participant) (b b' : BatchVerifier Participant F G),
      ls.foldlM (fun batch l => match f l with
        | some statements => pure (batch.queue ws l statements)
        | none => (throw FrostError.panic : Except FrostError _)) b = .ok b' →
      (∀ e ∈ b'.entries, e ∈ b.entries ∨
        ∃ statements, e.1 ∈ ls ∧ f e.1 = some statements ∧ (multiexp e.2 = 0 ↔ multiexp statements = 0)) ∧
      (∀ e ∈ b.entries, e ∈ b'.entries) ∧
      (∀ l ∈ ls, ∃ statements, f l = some statements ∧
        ∃ e ∈ b'.entries, e.1 = l ∧ (multiexp e.2 = 0 ↔ multiexp statements = 0)) := by
  intro ls
  induction ls with
  | nil =>
    intro b b' h
    cases h
    exact ⟨fun e he => .inl he, fun _ he => he, fun _ hl => nomatch hl⟩
  | cons l ls ih =>
    intro b b' h
    rw [List.foldlM_cons] at h
    obtain ⟨b₁, h₁, h⟩ := except_bind_ok h
    cases hf : f l with
    | none => simp [hf, throw, throwThe, MonadExceptOf.throw] at h₁
    | some statements =>
      simp only [hf, pure, Except.pure, Except.ok.injEq] at h₁
      subst h₁
      obtain ⟨hnew, hkeep, hall⟩ := ih _ b' h
      -- the entry queued for `l`
      have hl : (l, statements.map fun p => (p.1 * b.weight ws, p.2)) ∈ (b.queue ws l statements).entries := by
        simp
      refine ⟨fun e he => ?_, fun e he => hkeep e (by simp [he]), fun l' hl' => ?_⟩
      · rcases hnew e he with he | ⟨st, hmem, hst, hiff⟩
        · rw [BatchVerifier.queue_entries, List.mem_append, List.mem_singleton] at he
          rcases he with he | rfl
          · exact .inl he
          · exact .inr ⟨statements, List.mem_cons_self, hf, BatchVerifier.multiexp_queued b ws statements⟩
        · exact .inr ⟨st, List.mem_cons_of_mem _ hmem, hst, hiff⟩
      · rcases List.mem_cons.mp hl' with rfl | hl'
        · exact ⟨statements, hf, _, hkeep _ hl, rfl, BatchVerifier.multiexp_queued b ws statements⟩
        · exact hall l' hl'

theorem blameBatch_entries {c : Curve F G} {m : AlgorithmSignatureMachine F G} {challenge : F}
    {responses : Std.HashMap Participant F} {b : BatchVerifier Participant F G}
    (h : m.blameBatch c challenge responses = .ok b) :
    (∀ e ∈ b.entries, ∃ statements, e.1 ∈ m.view.included ∧
      m.shareStatements c challenge responses e.1 = some statements ∧ (multiexp e.2 = 0 ↔ multiexp statements = 0)) ∧
    (∀ l ∈ m.view.included, ∃ statements, m.shareStatements c challenge responses l = some statements ∧
      ∃ e ∈ b.entries, e.1 = l ∧ (multiexp e.2 = 0 ↔ multiexp statements = 0)) := by
  obtain ⟨hnew, -, hall⟩ := foldlM_queue_entries m.blame _ _ _ h
  refine ⟨fun e he => ?_, hall⟩
  rcases hnew e he with he | hst
  · exact absurd he List.not_mem_nil
  · exact hst

theorem blameBatch_error {c : Curve F G} {m : AlgorithmSignatureMachine F G} {challenge : F}
    {responses : Std.HashMap Participant F} {e : FrostError} (h : m.blameBatch c challenge responses = .error e) :
    e = .panic := by
  refine foldlM_except_error (fun e => e = .panic) (fun b l e h => ?_) _ _ e h
  split at h
  · cases h
  · exact (Except.error.inj h).symm

theorem complete_blames_invalid_share [DecidableEq G] {c : Curve F G} {m : AlgorithmSignatureMachine F G}
    {shares : Std.HashMap Participant F} {l : Participant} (h : m.complete c shares = .error (.invalidShare l)) :
    l ∈ m.view.included ∧ ∃ challenge V R s, m.params.algorithm.c = some challenge ∧
      m.view.verificationShares[l]? = some V ∧ ((m.B.bound l).bind (·[0]?)).bind (·[0]?) = some R ∧
      (shares.insert m.params.keys.core.params.i m.share)[l]? = some s ∧ s • c.suite.generator ≠ R + challenge • V := by
  unfold AlgorithmSignatureMachine.complete at h
  rcases except_bind_error h with hv | ⟨_, -, h⟩
  · exact absurd rfl ((validateMap_error hv).1 l)
  cases hR : m.Rs[0]?.bind (·[0]?) with
  | none => simp [hR, throw, throwThe, MonadExceptOf.throw] at h
  | some R =>
  cases hc : m.params.algorithm.c with
  | none => simp [hR, hc, throw, throwThe, MonadExceptOf.throw] at h
  | some challenge =>
  simp only [hR, hc] at h
  split at h
  · cases h
  rcases except_bind_error h with hb | ⟨b, hb, h⟩
  · cases blameBatch_error hb
  split at h
  · rename_i l' hblame
    obtain rfl : l' = l := FrostError.invalidShare.inj (Except.error.inj h)
    -- the blamed entry does not sum to the identity, and is `l`'s statements
    obtain ⟨e, he, hbl, hne⟩ := BatchVerifier.verifyWithVartimeBlame_error hblame
    obtain ⟨st, hmem, hst, hiff⟩ := (blameBatch_entries hb).1 e he
    obtain rfl := Option.some.inj hbl
    obtain ⟨V, R', s, hV, hR', hs, rfl⟩ := shareStatements_eq_some.mp hst
    refine ⟨hmem, challenge, V, R', s, rfl, hV, hR', hs, fun heq => hne (hiff.mpr ?_)⟩
    rw [SchnorrSignature.multiexp_batchStatements, heq, sub_self]
  · cases h
  · cases h

theorem sum_responses {shares : Std.HashMap Participant F} {included : List Participant} {i : Participant}
    (share : F) (hvalid : validateMap shares included i = .ok ()) (hnodup : included.Nodup) (hi : i ∈ included) :
    share + (shares.toList.map (·.2)).sum = (included.map fun l => (shares.insert i share)[l]?.getD 0).sum := by
  have hkeys : ∀ l, l ∈ shares ↔ l ∈ included.erase i := fun l => by
    rw [keys_of_validateMap (validateMap_ok_iff.mp hvalid) hnodup hi, hnodup.mem_erase_iff, and_comm]
  rw [sum_toList (hnodup.erase i) hkeys fun _ v => v, ((List.perm_cons_erase hi).map _).sum_eq, List.map_cons,
    List.sum_cons, Std.HashMap.getElem?_insert_self, Option.getD_some]
  congr 1
  refine congrArg List.sum (List.map_congr_left fun l hl => ?_)
  have hne : (i == l) = false := beq_false_of_ne fun h => ((hnodup.mem_erase_iff).mp hl).1 h.symm
  simp only [Std.HashMap.getElem?_insert, hne, Bool.false_eq_true, if_false, Option.map_id']

theorem verify_sum [DecidableEq G] (C : Ciphersuite F G) (included : List Participant) (Rl V : Participant → G)
    (s : Participant → F) {Y : G} {challenge : F} (hY : (included.map V).sum = Y)
    (hs : ∀ l ∈ included, s l • C.generator = Rl l + challenge • V l) :
    SchnorrSignature.verify C ⟨(included.map Rl).sum, (included.map s).sum⟩ Y challenge = true := by
  have hsum : (included.map s).sum • C.generator = (included.map Rl).sum + challenge • Y :=
    calc (included.map s).sum • C.generator = (included.map fun l => s l • C.generator).sum := by
          rw [List.sum_smul, List.map_map]
          rfl
      _ = (included.map fun l => Rl l + challenge • V l).sum := congrArg List.sum (List.map_congr_left hs)
      _ = (included.map Rl).sum + challenge • Y := by
          rw [List.sum_map_add, ← hY, List.smul_sum, List.map_map]
          rfl
  simp [SchnorrSignature.verify, SchnorrSignature.multiexp_batchStatements, hsum]

theorem complete_eq_of_verify [DecidableEq G] {c : Curve F G} {m : AlgorithmSignatureMachine F G}
    {shares : Std.HashMap Participant F}
    (hvalid : validateMap shares m.view.included m.params.keys.core.params.i = .ok ()) {R : G}
    (hR : m.Rs[0]?.bind (·[0]?) = some R) {challenge : F} (hc : m.params.algorithm.c = some challenge)
    (hverify : SchnorrSignature.verify c.suite ⟨R, m.share + (shares.toList.map (·.2)).sum⟩ m.view.groupKey challenge) :
    m.complete c shares = .ok ⟨R, m.share + (shares.toList.map (·.2)).sum⟩ := by
  unfold AlgorithmSignatureMachine.complete
  rw [except_bind_of_ok hvalid]
  simp only [hR, hc, hverify, if_true]
  rfl

theorem complete_ne_internalError [DecidableEq G] {c : Curve F G} {m : AlgorithmSignatureMachine F G}
    {shares : Std.HashMap Participant F} (hnodup : m.view.included.Nodup)
    (hi : m.params.keys.core.params.i ∈ m.view.included)
    (hR : m.Rs[0]?.bind (·[0]?) = some (m.view.included.map fun l => m.B.boundAt l 0 0).sum)
    (hY : (m.view.included.map fun l => m.view.verificationShares[l]?.getD 0).sum = m.view.groupKey)
    (hsep : ∀ challenge b, m.blameBatch c challenge (shares.insert m.params.keys.core.params.i m.share) = .ok b →
      b.Separates)
    (msg : String) : m.complete c shares ≠ .error (.internalError msg) := by
  intro h
  unfold AlgorithmSignatureMachine.complete at h
  rcases except_bind_error h with hv | ⟨_, hvalid, h⟩
  · exact (validateMap_error hv).2 msg rfl
  cases hc : m.params.algorithm.c with
  | none => simp [hR, hc, throw, throwThe, MonadExceptOf.throw] at h
  | some challenge =>
  simp only [hR, hc] at h
  split at h
  · cases h
  rename_i hverify
  rcases except_bind_error h with hb | ⟨b, hb, h⟩
  · cases blameBatch_error hb
  split at h
  · cases h
  · cases h
  rename_i hok
  -- the batch verified, so every share did, so the signature does
  have hzero := hsep challenge b hb ((BatchVerifier.verifyWithVartimeBlame_ok_iff b).mp hok)
  apply hverify
  rw [sum_responses m.share hvalid hnodup hi]
  refine verify_sum c.suite m.view.included _ _ _ hY fun l hl => ?_
  obtain ⟨st, hst, e, he, rfl, hiff⟩ := (blameBatch_entries hb).2 l hl
  obtain ⟨V, R, s, hV, hR', hs, rfl⟩ := shareStatements_eq_some.mp hst
  have h0 := hiff.mp (hzero e he)
  rw [SchnorrSignature.multiexp_batchStatements, sub_eq_zero] at h0
  simp only [BindingFactor.boundAt, hR', hV, hs, Option.getD_some]
  exact h0.symm

end Serai.Frost
