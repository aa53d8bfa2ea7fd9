import Serai.Dkg.Encryption
/-
  Serai.Dkg.Frost — the PedPoP distributed key generation (crypto/dkg/src/frost.rs:
  `KeyGenMachine`, `SecretShareMachine`, `KeyMachine`).

  Round one (`generate_coefficients`): a participant draws the `t` coefficients of its
  polynomial, commits to each as `a_k·G`, proves knowledge of `a_0` with a Schnorr
  signature over the commitments, and broadcasts them with its encryption key. Round two
  (`generate_secret_shares`): it checks everyone else's round-one messages
  (`verify_r1`: one from each other participant, `t` commitments each, the proofs of
  knowledge in one batch), and sends each other participant `l` its polynomial at `l`,
  encrypted. Round three (`calculate_share`): it decrypts the shares sent to it, adds them
  to its own, and checks each against the sender's commitments (`share_verification_
  statements`: `∑ l^k·C_k - share·G` must be the identity) in one batch with the
  encryption's proofs of possession. The group's commitments are then summed per
  coefficient (`stripes`), the group key is the sum of the constant terms, and each
  participant's verification share is the stripes' polynomial at its index, its own
  being `secret·G`.

  The machines are consumed by each round, so a round is a function from a machine and
  the messages it receives to the next machine and the messages it sends; what a round
  draws from the RNG is an argument. `HashMap`s are `Std.HashMap`s, iterated in their own
  order.
-/

namespace Serai.Dkg

open Serai.Crypto Serai.Lib
open Serai.Tributary.Spec (Participant)

/-- `Commitments`: the commitments, their encoding, and the proof of knowledge. -/
structure Commitments (F G : Type) where
  commitments : List G
  cachedMsg : List UInt8
  sig : SchnorrSignature F G

structure KeyGenMachine where
  params : ThresholdParams
  context : String

structure SecretShareMachine (F G : Type) where
  params : ThresholdParams
  context : String
  coefficients : List F
  ourCommitments : List G
  encryption : Encryption F G

structure KeyMachine (F G : Type) where
  params : ThresholdParams
  secret : F
  commitments : Std.HashMap Participant (List G)
  encryption : Encryption F G

structure BlameMachine (F G : Type) where
  commitments : Std.HashMap Participant (List G)
  encryption : Encryption F G
  result : Option (ThresholdCore F G)

/-- `BatchId`: which check of a sender a queued list is. -/
inductive BatchId where
  | decryption (l : Participant)
  | share (l : Participant)
  deriving DecidableEq

variable {F G : Type} [Field F] [DecidableEq F] [AddCommGroup G] [Module F G] [DecidableEq G]

/-! ## Round one -/

/-- `generate_coefficients`: `coefficient k` is the `k`-th coefficient drawn, `r` the
    proof of knowledge's nonce and `encKey` the encryption key. -/
def generateCoefficients (C : Ciphersuite F G) (H : Transcripts F G) (m : KeyGenMachine)
    (coefficient : ℕ → F) (r encKey : F) :
    SecretShareMachine F G × EncryptionKeyMessage (Commitments F G) G :=
  let coefficients := (List.range m.params.t.toNat).map coefficient
  let commitments := coefficients.map (· • C.generator)
  let cachedMsg := commitments.flatMap C.toBytes
  let nonce := r • C.generator
  -- `coefficients[0]`, which exists since `t` is nonzero
  let sig := SchnorrSignature.sign C (coefficient 0) r
    (H.challenge m.context m.params.i (C.toBytes nonce) cachedMsg)
  let encryption := Encryption.new C m.context (some m.params.i) encKey
  (⟨m.params, m.context, coefficients, commitments, encryption⟩,
    encryption.registration ⟨commitments, cachedMsg, sig⟩)

/-- `polynomial`: Horner's rule from the highest coefficient; `None` is the panic of its
    assertion that the index is a nonzero scalar. -/
def polynomial (coefficients : List F) (l : Participant) : Option F :=
  let lF : F := toScalar l
  if lF = 0 then none
  else some (coefficients.reverse.zipIdx.foldl (fun share (coefficient, idx) =>
    let share := share + coefficient
    if idx ≠ coefficients.length - 1 then share * lF else share) 0)

/-! ## Round two -/

/-- One iteration of `verify_r1`'s loop: register the participant's encryption key, check
    its number of commitments, and queue its proof of knowledge. -/
def verifyR1Step (C : Ciphersuite F G) (H : Transcripts F G) (m : SecretShareMachine F G) (ws : Weights F)
    (commitmentMsgs : Std.HashMap Participant (EncryptionKeyMessage (Commitments F G) G))
    (acc : Encryption F G × BatchVerifier Participant F G × Std.HashMap Participant (List G))
    (l : Participant) :
    Except (DkgError (EncryptionKeyProof G))
      (Encryption F G × BatchVerifier Participant F G × Std.HashMap Participant (List G)) :=
  match commitmentMsgs[l]? with
  | none => pure acc
  | some msg =>
    match acc.1.register l msg with
    | none => throw .panic
    | some (encryption, msg) =>
      if msg.commitments.length ≠ m.params.t.toNat then throw (.invalidCommitments l)
      else match msg.commitments with
        | [] => throw .panic
        | c0 :: _ =>
          let batch := msg.sig.batchVerify C ws acc.2.1 l c0
            (H.challenge m.context l (C.toBytes msg.sig.R) msg.cachedMsg)
          pure (encryption, batch, acc.2.2.insert l msg.commitments)

/-- `verify_r1`: the machine, with the encryption keys registered, and every participant's
    commitments, ours included. -/
def verifyR1 (C : Ciphersuite F G) (H : Transcripts F G) (m : SecretShareMachine F G) (ws : Weights F)
    (commitmentMsgs : Std.HashMap Participant (EncryptionKeyMessage (Commitments F G) G)) :
    Except (DkgError (EncryptionKeyProof G)) (SecretShareMachine F G × Std.HashMap Participant (List G)) := do
  validateMap commitmentMsgs (participants m.params.n) m.params.i
  let (encryption, batch, commitments) ← (participants m.params.n).foldlM
    (verifyR1Step C H m ws commitmentMsgs) (m.encryption, BatchVerifier.new, ∅)
  match batch.verifyWithVartimeBlame with
  | .error (some l) => throw (.invalidCommitments l)
  | .error none => throw .panic
  | .ok () =>
    pure ({ m with encryption, ourCommitments := [] }, commitments.insert m.params.i m.ourCommitments)

/-- `generate_secret_shares`: `ephemeral l` is the key and nonce drawn to encrypt `l`'s
    share. -/
def generateSecretShares (C : Ciphersuite F G) (H : Transcripts F G) (m : SecretShareMachine F G)
    (ws : Weights F) (ephemeral : Participant → F × F)
    (commitmentMsgs : Std.HashMap Participant (EncryptionKeyMessage (Commitments F G) G)) :
    Except (DkgError (EncryptionKeyProof G))
      (KeyMachine F G × Std.HashMap Participant (EncryptedMessage F G)) := do
  let (m, commitments) ← verifyR1 C H m ws commitmentMsgs
  let res ← (participants m.params.n).foldlM (fun (res : Std.HashMap Participant (EncryptedMessage F G)) l =>
    if l = m.params.i then pure res
    else match polynomial m.coefficients l with
      | none => throw .panic
      | some share =>
        match m.encryption.encrypt C H l (C.toRepr share) (ephemeral l).1 (ephemeral l).2 with
        | none => throw .panic
        | some msg => pure (res.insert l msg)) ∅
  match polynomial m.coefficients m.params.i with
  | none => throw .panic
  | some share => pure (⟨m.params, share, commitments, m.encryption⟩, res)

/-! ## Round three -/

/-- `exponential`: the values, paired with the powers `i^0, i^1, …`. -/
def exponential (i : Participant) (values : List G) : List (F × G) :=
  (values.foldl (fun (acc : F × List (F × G)) v => (acc.1 * toScalar i, acc.2 ++ [(acc.1, v)])) (1, [])).2

/-- `share_verification_statements`: `∑ target^k·C_k - share·G`. -/
def shareVerificationStatements (C : Ciphersuite F G) (target : Participant) (commitments : List G)
    (share : F) : List (F × G) :=
  exponential target commitments ++ [(1, (-share) • C.generator)]

/-- One iteration of `calculate_share`'s loop: decrypt the share, add it to the secret,
    and queue its check against the sender's commitments. -/
def decryptShare (C : Ciphersuite F G) (H : Transcripts F G) (m : KeyMachine F G) (ws : Weights F)
    (acc : F × BatchVerifier BatchId F G × Std.HashMap Participant (EncryptionKeyProof G))
    (entry : Participant × EncryptedMessage F G) :
    Except (DkgError (EncryptionKeyProof G))
      (F × BatchVerifier BatchId F G × Std.HashMap Participant (EncryptionKeyProof G)) :=
  let ((shareBytes, blame), batch) := m.encryption.decrypt C H ws acc.2.1 (.decryption entry.1) entry.1 entry.2
  match C.fromRepr shareBytes with
  | none => throw (.invalidShare entry.1 (some blame))
  | some share =>
    match m.commitments[entry.1]? with
    | none => throw .panic
    | some commitments =>
      pure (acc.1 + share, batch.queue ws (.share entry.1) (shareVerificationStatements C m.params.i commitments share),
        acc.2.2.insert entry.1 blame)

/-- `calculate_share`'s loop over the shares received, in the map's order. -/
def decryptShares (C : Ciphersuite F G) (H : Transcripts F G) (m : KeyMachine F G) (ws : Weights F)
    (shares : List (Participant × EncryptedMessage F G)) :
    Except (DkgError (EncryptionKeyProof G))
      (F × BatchVerifier BatchId F G × Std.HashMap Participant (EncryptionKeyProof G)) :=
  shares.foldlM (decryptShare C H m ws) (m.secret, BatchVerifier.new, ∅)

/-- `stripes`: the sum of every participant's `k`-th commitment, for each `k < t`; `None`
    is the panic of an index past a list of commitments. -/
def stripes (t : ℕ) (commitments : Std.HashMap Participant (List G)) : Option (List G) :=
  (List.range t).mapM fun k => (commitments.toList.mapM fun entry => entry.2[k]?).map List.sum

/-- The verification shares: `secret·G` for us, the stripes' polynomial at the index for
    every other participant. -/
def verificationShares (C : Ciphersuite F G) (params : ThresholdParams) (secret : F) (stripes : List G) :
    Std.HashMap Participant G :=
  (participants params.n).foldl (fun shares i =>
    shares.insert i (if i = params.i then secret • C.generator else multiexp (exponential (F := F) i stripes))) ∅

/-- `calculate_share`. -/
def calculateShare (C : Ciphersuite F G) (H : Transcripts F G) (m : KeyMachine F G) (ws : Weights F)
    (shares : Std.HashMap Participant (EncryptedMessage F G)) :
    Except (DkgError (EncryptionKeyProof G)) (BlameMachine F G) := do
  validateMap shares (participants m.params.n) m.params.i
  let (secret, batch, blames) ← decryptShares C H m ws shares.toList
  match batch.verifyWithVartimeBlame with
  | .error none => throw .panic
  | .error (some (.decryption l)) => throw (.invalidShare l none)
  | .error (some (.share l)) =>
    match blames[l]? with
    | some blame => throw (.invalidShare l (some blame))
    | none => throw .panic
  | .ok () =>
    match stripes m.params.t.toNat m.commitments with
    | none => throw .panic
    | some stripes =>
      match stripes[0]? with
      | none => throw .panic
      | some groupKey =>
        pure ⟨m.commitments, m.encryption,
          some ⟨m.params, secret, groupKey, verificationShares C m.params secret stripes⟩⟩

end Serai.Dkg
