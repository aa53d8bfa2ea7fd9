import Serai.Crypto.Schnorr
import Serai.Dkg.Core
/-
  Serai.Dkg.Encryption — the encryption of the DKG's secret shares
  (crypto/dkg/src/encryption.rs: `Encryption`, `encrypt`, `decrypt`).

  Each participant registers an encryption key `e·G` with its commitments. A message to a
  participant is encrypted under a fresh key `k`: the ECDH point `k·(e·G)` keys a ChaCha20
  stream that is XORed onto the bytes, and `k·G` is sent with a Schnorr proof of
  possession of `k` over the ciphertext, bound to the sender. Decrypting queues that proof
  in the receiver's batch verifier and XORs the stream of `e·(k·G)` back off.

  The transcript hashes and the ChaCha20 keystream are parameters (`Transcripts`): every
  theorem holds for any of them. The DLEq proof that `decrypt` attaches for blame is left
  out of `EncryptionKeyProof`.
  - `applyKeystream_applyKeystream`: the XOR of one stream twice is the identity.
  - `decrypt_encrypt`: both sides compute the same ECDH point, so decrypting what was
    encrypted to a participant's registered key gives the plaintext back, and the proof of
    possession it queues holds (`multiexp_pop`).
-/

namespace Serai.Dkg

open Serai.Crypto Serai.Lib
open Serai.Tributary.Spec (Participant)

/-- What the DKG derives from its transcripts: `challenge` for the proofs of knowledge
    (frost.rs), `pop_challenge`, and the ChaCha20 keystream `cipher` keys with the context
    and an ECDH point. -/
structure Transcripts (F G : Type) where
  challenge : String → Participant → List UInt8 → List UInt8 → F
  popChallenge : String → G → G → Participant → List UInt8 → F
  keystream : String → G → ℕ → UInt8

/-- `apply_keystream`: the `k`-th byte is XORed with the stream's `k`-th. -/
def applyKeystream (keystream : ℕ → UInt8) (msg : List UInt8) : List UInt8 :=
  msg.mapIdx fun k b => b ^^^ keystream k

/-- `EncryptedMessage`: the message's public key, its proof of possession, the ciphertext. -/
structure EncryptedMessage (F G : Type) where
  key : G
  pop : SchnorrSignature F G
  msg : List UInt8

/-- `EncryptionKeyProof`: the ECDH point a decryption used (its DLEq proof left out). -/
structure EncryptionKeyProof (G : Type) where
  key : G

/-- `EncryptionKeyMessage`: a message with the sender's encryption key. -/
structure EncryptionKeyMessage (M G : Type) where
  msg : M
  encKey : G

/-- `Encryption`. -/
structure Encryption (F G : Type) where
  context : String
  i : Option Participant
  encKey : F
  encPubKey : G
  encKeys : Std.HashMap Participant G

variable {F G I M : Type} [Field F] [AddCommGroup G] [Module F G]

/-- `encrypt`: `key` and `nonce` are the two scalars it draws. -/
def encrypt (C : Ciphersuite F G) (H : Transcripts F G) (context : String) (sender : Participant) (recipient : G)
    (msg : List UInt8) (key nonce : F) : EncryptedMessage F G :=
  let msg := applyKeystream (H.keystream context (key • recipient)) msg
  let pubKey := key • C.generator
  let pubNonce := nonce • C.generator
  ⟨pubKey, SchnorrSignature.sign C key nonce (H.popChallenge context pubNonce pubKey sender msg), msg⟩

namespace Encryption

/-- `Encryption::new`: `encKey` is the scalar it draws. -/
def new (C : Ciphersuite F G) (context : String) (i : Option Participant) (encKey : F) : Encryption F G :=
  ⟨context, i, encKey, encKey • C.generator, ∅⟩

def registration (e : Encryption F G) (msg : M) : EncryptionKeyMessage M G := ⟨msg, e.encPubKey⟩

/-- `register`; `None` is the panic of its assertion on a participant registered twice. -/
def register (e : Encryption F G) (participant : Participant) (msg : EncryptionKeyMessage M G) :
    Option (Encryption F G × M) :=
  if e.encKeys.contains participant then none
  else some ({ e with encKeys := e.encKeys.insert participant msg.encKey }, msg.msg)

/-- `Encryption::encrypt`; `None` is the panic of `self.i.unwrap()` or of the index of an
    unregistered participant. -/
def encrypt (C : Ciphersuite F G) (H : Transcripts F G) (e : Encryption F G) (participant : Participant)
    (msg : List UInt8) (key nonce : F) : Option (EncryptedMessage F G) :=
  match e.i, e.encKeys[participant]? with
  | some i, some recipient => some (Serai.Dkg.encrypt C H e.context i recipient msg key nonce)
  | _, _ => none

/-- `decrypt`: the plaintext, the blame proof, and the batch with the proof of possession
    queued. -/
def decrypt (C : Ciphersuite F G) (H : Transcripts F G) (e : Encryption F G) (ws : Weights F)
    (batch : BatchVerifier I F G) (batchId : I) (sender : Participant) (msg : EncryptedMessage F G) :
    (List UInt8 × EncryptionKeyProof G) × BatchVerifier I F G :=
  let batch := msg.pop.batchVerify C ws batch batchId msg.key
    (H.popChallenge e.context msg.pop.R msg.key sender msg.msg)
  let key := e.encKey • msg.key
  ((applyKeystream (H.keystream e.context key) msg.msg, ⟨key⟩), batch)

end Encryption

/-! ## Registering and decrypting -/

omit [Field F] [AddCommGroup G] [Module F G] in
theorem register_eq_some {e e' : Encryption F G} {participant : Participant} {msg : EncryptionKeyMessage M G}
    {m : M} :
    e.register participant msg = some (e', m) ↔
      e.encKeys.contains participant = false ∧
        e' = { e with encKeys := e.encKeys.insert participant msg.encKey } ∧ m = msg.msg := by
  unfold Encryption.register
  by_cases h : e.encKeys.contains participant
  · simp [h]
  · simp only [h, Bool.false_eq_true, if_false, Option.some.injEq, Prod.mk.injEq, true_and]
    constructor
    · rintro ⟨rfl, rfl⟩
      exact ⟨rfl, rfl⟩
    · rintro ⟨rfl, rfl⟩
      exact ⟨rfl, rfl⟩

omit [Field F] [AddCommGroup G] [Module F G] in
@[simp] theorem applyKeystream_applyKeystream (keystream : ℕ → UInt8) (msg : List UInt8) :
    applyKeystream keystream (applyKeystream keystream msg) = msg := by
  apply List.ext_getElem (by simp [applyKeystream])
  intro k h₁ h₂
  simp [applyKeystream]

theorem ecdh_comm (C : Ciphersuite F G) (key encKey : F) :
    key • (encKey • C.generator) = encKey • (key • C.generator) := by
  rw [smul_smul, smul_smul, mul_comm]

theorem multiexp_pop (C : Ciphersuite F G) (H : Transcripts F G) (context : String) (sender : Participant)
    (recipient : G) (msg : List UInt8) (key nonce : F) :
    let m := encrypt C H context sender recipient msg key nonce
    multiexp (SchnorrSignature.batchStatements C m.pop m.key (H.popChallenge context m.pop.R m.key sender m.msg)) = 0 :=
  SchnorrSignature.multiexp_batchStatements_sign C key nonce _

theorem decrypt_encrypt (C : Ciphersuite F G) (H : Transcripts F G) (e : Encryption F G)
    (hkey : e.encPubKey = e.encKey • C.generator) (ws : Weights F) (batch : BatchVerifier I F G) (batchId : I)
    (sender : Participant) (msg : List UInt8) (key nonce : F) :
    let m := encrypt C H e.context sender e.encPubKey msg key nonce
    e.decrypt C H ws batch batchId sender m =
      ((msg, ⟨e.encKey • m.key⟩),
        batch.queue ws batchId (SchnorrSignature.batchStatements C m.pop m.key
          (H.popChallenge e.context m.pop.R m.key sender m.msg))) := by
  simp only [Encryption.decrypt, encrypt, hkey, ecdh_comm C key e.encKey, applyKeystream_applyKeystream]
  rfl

end Serai.Dkg
