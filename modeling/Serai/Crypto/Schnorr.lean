import Serai.Crypto.Multiexp
/-
  Serai.Crypto.Schnorr — Schnorr signatures (crypto/schnorr: `SchnorrSignature`).

  A signature of the key `A = x·G` under the challenge `c` is `(R, s)` with `R = r·G` for
  a nonce `r` and `s = c·x + r`. Verifying checks `R + c·A - s·G` is the identity, as one
  multiexp over the three `batch_statements`; `batch_verify` queues the same statements.
  - `multiexp_batchStatements`: the statements sum to `R + c·A - s·G`.
  - `multiexp_batchStatements_sign`: an honest signature's statements sum to the identity,
    so it verifies (`verify_sign`) and its queued statements do too.
-/

namespace Serai.Crypto

variable {F G Id : Type} [Field F] [AddCommGroup G] [Module F G]

/-- `SchnorrSignature`. -/
structure SchnorrSignature (F G : Type) where
  R : G
  s : F

namespace SchnorrSignature

/-- `sign`. -/
def sign (C : Ciphersuite F G) (privateKey nonce challenge : F) : SchnorrSignature F G :=
  ⟨nonce • C.generator, challenge * privateKey + nonce⟩

/-- `batch_statements`. -/
def batchStatements (C : Ciphersuite F G) (sig : SchnorrSignature F G) (publicKey : G) (challenge : F) :
    List (F × G) :=
  [(1, sig.R), (challenge, publicKey), (-sig.s, C.generator)]

/-- `verify`. -/
def verify [DecidableEq G] (C : Ciphersuite F G) (sig : SchnorrSignature F G) (publicKey : G) (challenge : F) :
    Bool :=
  decide (multiexp (batchStatements C sig publicKey challenge) = 0)

/-- `batch_verify`. -/
def batchVerify (C : Ciphersuite F G) (sig : SchnorrSignature F G) (ws : Weights F) (batch : BatchVerifier Id F G)
    (id : Id) (publicKey : G) (challenge : F) : BatchVerifier Id F G :=
  batch.queue ws id (batchStatements C sig publicKey challenge)

theorem multiexp_batchStatements (C : Ciphersuite F G) (sig : SchnorrSignature F G) (publicKey : G) (challenge : F) :
    multiexp (batchStatements C sig publicKey challenge) = sig.R + challenge • publicKey - sig.s • C.generator := by
  simp [batchStatements, neg_smul, sub_eq_add_neg, add_assoc]

theorem multiexp_batchStatements_sign (C : Ciphersuite F G) (privateKey nonce challenge : F) :
    multiexp (batchStatements C (sign C privateKey nonce challenge) (privateKey • C.generator) challenge) = 0 := by
  rw [multiexp_batchStatements]
  simp only [sign, add_smul, mul_smul]
  rw [sub_eq_zero, add_comm]

theorem verify_sign [DecidableEq G] (C : Ciphersuite F G) (privateKey nonce challenge : F) :
    verify C (sign C privateKey nonce challenge) (privateKey • C.generator) challenge = true := by
  simp [verify, multiexp_batchStatements_sign]

end SchnorrSignature

end Serai.Crypto
