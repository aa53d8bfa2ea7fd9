import Mathlib
import Serai.Lib.Layer
/-
  Serai.Crypto.Ciphersuite — the `Ciphersuite` trait (crypto/ciphersuite) and the byte
  readers the keys are stored with.

  A ciphersuite is a prime-order group `G`, written additively, with its scalar field `F`
  acting on it (`C::generator() * x` is `x • generator`), a byte encoding of scalars
  (`to_repr`, `from_repr`) and of points (`to_bytes`, `from_bytes`), and an `ID`. The
  laws the `ff` and `group` traits state for these encodings, that the encodings have
  their fixed lengths and decode back, are fields of the structure, as is the bound that
  makes `u32::try_from(C::ID.len()).unwrap()` succeed.

  A reader (`std::io::Read`) is a state over the bytes left: `read_exact` fails with
  `UnexpectedEof` when too few are left, and `read_F` and `read_G` refuse encodings that
  do not decode, or, for a point, that decode to a point encoded otherwise. Every value
  written is read back (`readF_toRepr`, `readG_toBytes`, `readU16_toLeBytes`).
-/

namespace Serai.Crypto

open Serai.Lib

/-- `Ciphersuite`: the group, its generator, the scalar and point encodings and the `ID`. -/
structure Ciphersuite (F G : Type) [Field F] [AddCommGroup G] [Module F G] where
  id : List UInt8
  generator : G
  reprLen : ℕ
  toRepr : F → List UInt8
  fromRepr : List UInt8 → Option F
  bytesLen : ℕ
  toBytes : G → List UInt8
  fromBytes : List UInt8 → Option G
  id_length : id.length < 2 ^ 32
  toRepr_length : ∀ x, (toRepr x).length = reprLen
  fromRepr_toRepr : ∀ x, fromRepr (toRepr x) = some x
  toBytes_length : ∀ P, (toBytes P).length = bytesLen
  fromBytes_toBytes : ∀ P, fromBytes (toBytes P) = some P

/-- What a read ends with when it fails: `read_exact`'s `UnexpectedEof`, an
    `io::Error::other` with its text, or a panic of the code reading. -/
inductive IoError where
  | unexpectedEof
  | other (msg : String)
  | panic
  deriving DecidableEq, Repr

/-- A reader: the bytes left, consumed from the front. -/
abbrev Reader := EStateM IoError (List UInt8)

/-! ## Reading bytes -/

/-- `read_exact` into a buffer of `len` bytes. -/
def readExact (len : ℕ) : Reader (List UInt8) := fun buf =>
  if len ≤ buf.length then .ok (buf.take len) (buf.drop len) else .error .unexpectedEof buf

/-- `to_le_bytes` of a `u16`. -/
def u16ToLeBytes (v : UInt16) : List UInt8 := [v.toUInt8, (v / 256).toUInt8]

/-- `u16::from_le_bytes`. -/
def u16FromLeBytes (lo hi : UInt8) : UInt16 := lo.toUInt16 + hi.toUInt16 * 256

/-- `to_le_bytes` of a `u32`. -/
def u32ToLeBytes (v : UInt32) : List UInt8 :=
  [v.toUInt8, (v / 256).toUInt8, (v / 65536).toUInt8, (v / 16777216).toUInt8]

/-- `read_exact` of two bytes, then `u16::from_le_bytes`. -/
def readU16 : Reader UInt16 := fun buf =>
  match buf with
  | lo :: hi :: rest => .ok (u16FromLeBytes lo hi) rest
  | _ => .error .unexpectedEof buf

variable {F G : Type} [Field F] [AddCommGroup G] [Module F G]

/-- `read_F`: a scalar's `Repr`, which must be canonical. -/
def readF (C : Ciphersuite F G) : Reader F := do
  let encoding ← readExact C.reprLen
  match C.fromRepr encoding with
  | some x => pure x
  | none => throw (.other "non-canonical scalar")

/-- `read_G`: a point's encoding, which must decode and be the point's own encoding. -/
def readG [DecidableEq G] (C : Ciphersuite F G) : Reader G := do
  let encoding ← readExact C.bytesLen
  match C.fromBytes encoding with
  | none => throw (.other "invalid point")
  | some point =>
    if C.toBytes point ≠ encoding then throw (.other "non-canonical point") else pure point

/-! ## What is written is read back -/

theorem readExact_append {len : ℕ} {l : List UInt8} (h : l.length = len) (rest : List UInt8) :
    readExact len (l ++ rest) = .ok l rest := by
  subst h
  simp [readExact]

theorem u16FromLeBytes_toLeBytes (v : UInt16) : u16FromLeBytes v.toUInt8 (v / 256).toUInt8 = v := by
  apply UInt16.toNat_inj.mp
  have hv := v.toNat_lt
  simp only [u16FromLeBytes, UInt16.toNat_add, UInt16.toNat_mul, UInt8.toNat_toUInt16,
    UInt16.toNat_toUInt8, UInt16.toNat_div, UInt16.toNat_ofNat, Nat.reduceMod, Nat.reducePow] at *
  omega

@[simp] theorem readU16_toLeBytes (v : UInt16) (rest : List UInt8) :
    readU16 (u16ToLeBytes v ++ rest) = .ok v rest := by
  simp [readU16, u16ToLeBytes, u16FromLeBytes_toLeBytes]

@[simp] theorem readF_toRepr (C : Ciphersuite F G) (x : F) (rest : List UInt8) :
    readF C (C.toRepr x ++ rest) = .ok x rest := by
  simp only [readF, bind_of_ok (readExact_append (C.toRepr_length x) rest), C.fromRepr_toRepr]
  rfl

@[simp] theorem readG_toBytes [DecidableEq G] (C : Ciphersuite F G) (P : G) (rest : List UInt8) :
    readG C (C.toBytes P ++ rest) = .ok P rest := by
  simp only [readG, bind_of_ok (readExact_append (C.toBytes_length P) rest), C.fromBytes_toBytes]
  simp

end Serai.Crypto
