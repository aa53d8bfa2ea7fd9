import Serai.Crypto.Schnorr
import Serai.Tributary.Spec
import Serai.Dkg.Run
/-
  Serai.Coordinator.Transaction — the coordinator's Tributary transactions
  (coordinator/src/tributary/transaction.rs) and their byte codec: `Transaction::read` and
  `write`, `SignData::read` and `write`, with `Signed::read_without_nonce` and
  `write_without_nonce` (coordinator/tributary/src/transaction.rs).

  A reader is the state of the bytes left (`Serai.Crypto.Reader`); a writer returns the
  bytes written or the error it returns (`io::Error::other`), a panic of the writer (an
  `unwrap`, an `assert`, an index out of range) being `IoError.panic`. Points and scalars are
  read with `read_G` and `read_F` of the ciphersuite, a SCALE-encoded id by its `IdCodec`.
  Nonces are not written: each variant's reader gives its signer the nonce
  `Transaction::sign` assigns.
  - `read_writeSignedWithoutNonce`: what the writer of a signed part writes is read back,
    with the nonce the reader gives it.
  - `readShares_no_senders`: `read` accepts `DkgShares` with no senders (or no key shares),
    which `write` cannot write: it indexes `shares[0]` (and `shares[0][0]`), and panics
    (`writeShares_empty`). `dkg_shares_read_then_write_panics` is both.
-/

namespace Serai.Coordinator

open Serai.Crypto Serai.Lib
open Serai.Tributary.Spec (Participant)

/-- `Label`. -/
inductive Label where
  | preprocess
  | share
  deriving DecidableEq, Repr

/-- `Label::nonce`. -/
def Label.nonce : Label → UInt32
  | .preprocess => 0
  | .share => 1

/-- `[u8; n]`. -/
structure Bytes (n : ℕ) where
  val : List UInt8
  length_eq : val.length = n
  deriving DecidableEq

/-- `Signed`: the signer, its nonce and its signature. -/
structure Signed (F G : Type) where
  signer : G
  nonce : UInt32
  signature : SchnorrSignature F G

/-- `SignData`. -/
structure SignData (F G Id : Type) where
  plan : Id
  attempt : UInt32
  label : Label
  data : List (List UInt8)
  signed : Signed F G

/-- `Transaction`; `S` is `SubstrateSignableId`. -/
inductive Transaction (F G S : Type) where
  | removeParticipantDueToDkg (participant : G) (signed : Signed F G)
  | dkgCommitments (attempt : UInt32) (commitments : List (List UInt8)) (signed : Signed F G)
  | dkgShares (attempt : UInt32) (shares : List (List (List UInt8))) (confirmationNonces : Bytes 64)
      (signed : Signed F G)
  | invalidDkgShare (attempt : UInt32) (accuser faulty : Participant) (blame : Option (List UInt8))
      (signed : Signed F G)
  | dkgConfirmed (attempt : UInt32) (confirmationShare : Bytes 32) (signed : Signed F G)
  | cosignSubstrateBlock (block : Bytes 32)
  | batch (block : Bytes 32) (batch : UInt32)
  | substrateBlock (block : UInt64)
  | substrateSign (data : SignData F G S)
  | sign (data : SignData F G (Bytes 32))
  | signCompleted (plan : Bytes 32) (txHash : List UInt8) (firstSigner : G) (signature : SchnorrSignature F G)
  | slashReport (points : List UInt32) (signed : Signed F G)

/-- What SCALE gives an id: its encoding, and a decoder reading it back. -/
structure IdCodec (Id : Type) where
  encode : Id → List UInt8
  decode : List UInt8 → Option (Id × List UInt8)
  decode_encode : ∀ id rest, decode (encode id ++ rest) = some (id, rest)

/-- `TRANSACTION_SIZE_LIMIT`. -/
def transactionSizeLimit : ℕ := 3000000

/-- `MAX_KEY_SHARES_PER_SET`. -/
def maxKeySharesPerSet : ℕ := 150

/-! ## Reading -/

/-- `read_exact` of one byte. -/
def readU8 : Reader UInt8 := fun buf =>
  match buf with
  | b :: rest => .ok b rest
  | [] => .error .unexpectedEof buf

/-- `u32::from_le_bytes`. -/
def u32FromLeBytes (b : List UInt8) : UInt32 :=
  b.foldr (fun byte acc => byte.toUInt32 + acc * 256) 0

/-- `to_le_bytes` of a `u64`. -/
def u64ToLeBytes (v : UInt64) : List UInt8 :=
  (List.range 8).map fun k => (v / UInt64.ofNat (256 ^ k)).toUInt8

/-- `u64::from_le_bytes`. -/
def u64FromLeBytes (b : List UInt8) : UInt64 :=
  b.foldr (fun byte acc => byte.toUInt64 + acc * 256) 0

def readU32 : Reader UInt32 := do
  let b ← readExact 4
  pure (u32FromLeBytes b)

def readU64 : Reader UInt64 := do
  let b ← readExact 8
  pure (u64FromLeBytes b)

/-- `read_exact` into a `[u8; n]`. -/
def readBytes (n : ℕ) : Reader (Bytes n) := fun buf =>
  if h : n ≤ buf.length then .ok ⟨buf.take n, by simp [h]⟩ (buf.drop n) else .error .unexpectedEof buf

/-- `for _ in 0 .. k { .. push(read) }`. -/
def readMany {α : Type} (r : Reader α) : ℕ → Reader (List α)
  | 0 => pure []
  | k + 1 => do
    let a ← r
    let rest ← readMany r k
    pure (a :: rest)

variable {F G S : Type} [Field F] [AddCommGroup G] [Module F G] [DecidableEq G] (C : Ciphersuite F G)

/-- `SchnorrSignature::read`. -/
def readSignature : Reader (SchnorrSignature F G) := do
  let R ← readG C
  let s ← readF C
  pure ⟨R, s⟩

/-- `Signed::read_without_nonce`. -/
def readSignedWithoutNonce (nonce : UInt32) : Reader (Signed F G) := do
  let signer ← readG C
  let signature ← readSignature C
  if signature.R = 0 then throw (.other "signature nonce was identity")
  pure ⟨signer, nonce, signature⟩

/-- `Id::decode`, its error mapped. -/
def readId {Id : Type} (codec : IdCodec Id) : Reader Id := fun buf =>
  match codec.decode buf with
  | some (id, rest) => .ok id rest
  | none => .error (.other "invalid plan in SignData") buf

/-- A `u16` length, then as many bytes. -/
def readU16Prefixed : Reader (List UInt8) := do
  let len ← readU16
  readExact len.toNat

/-- `SignData::read`. -/
def readSignData {Id : Type} (codec : IdCodec Id) : Reader (SignData F G Id) := do
  let plan ← readId codec
  let attempt ← readU32
  let labelByte ← readU8
  let label ← match labelByte with
    | 0 => pure Label.preprocess
    | 1 => pure Label.share
    | _ => throw (.other "invalid label in SignData")
  let dataPieces ← readU8
  if dataPieces = 0 then throw (.other "zero pieces of data in SignData")
  let data ← readMany readU16Prefixed dataPieces.toNat
  let signed ← readSignedWithoutNonce C label.nonce
  pure ⟨plan, attempt, label, data, signed⟩

/-- The `[u8; 32]` ids of `Sign`. -/
def bytes32Codec : IdCodec (Bytes 32) where
  encode b := b.val
  decode buf := if h : 32 ≤ buf.length then some (⟨buf.take 32, by simp [h]⟩, buf.drop 32) else none
  decode_encode b rest := by
    obtain ⟨v, hv⟩ := b
    simp [hv]

/-- `DkgCommitments`' commitments: a count, which must not be 0, a common length, then each. -/
def readCommitments : Reader (List (List UInt8)) := do
  let commitmentsLen ← readU8
  if commitmentsLen = 0 then throw (.other "zero commitments in DkgCommitments")
  let eachCommitmentsLen ← readU16
  if transactionSizeLimit < commitmentsLen.toNat * eachCommitmentsLen.toNat then
    throw (.other "commitments present in transaction exceeded transaction size limit")
  readMany (readExact eachCommitmentsLen.toNat) commitmentsLen.toNat

/-- `DkgShares`' shares: the senders, the key shares each sends to, a common length, then each
    share. Neither count is checked. -/
def readShares : Reader (List (List (List UInt8))) := do
  let shareQuantity ← readU8
  let keyShareQuantity ← readU8
  let shareLen ← readU16
  readMany (readMany (readExact shareLen.toNat) keyShareQuantity.toNat) shareQuantity.toNat

/-- A `u16` read into a `Participant`, which must not be 0. -/
def readParticipant : Reader Participant := do
  let i ← readU16
  match Participant.new i with
  | some p => pure p
  | none => throw (.other "invalid participant in InvalidDkgShare")

/-- `Transaction::read`; `substrate` decodes `SubstrateSignableId`. -/
def readTransaction (substrate : IdCodec S) : Reader (Transaction F G S) := do
  let kind ← readU8
  match kind with
  | 0 => do
    let participant ← readG C
    let signed ← readSignedWithoutNonce C 0
    pure (.removeParticipantDueToDkg participant signed)
  | 1 => do
    let attempt ← readU32
    let commitments ← readCommitments
    let signed ← readSignedWithoutNonce C 0
    pure (.dkgCommitments attempt commitments signed)
  | 2 => do
    let attempt ← readU32
    let shares ← readShares
    let confirmationNonces ← readBytes 64
    let signed ← readSignedWithoutNonce C 1
    pure (.dkgShares attempt shares confirmationNonces signed)
  | 3 => do
    let attempt ← readU32
    let accuser ← readParticipant
    let faulty ← readParticipant
    let blame ← readU16Prefixed
    -- this shares a nonce with `DkgConfirmed`, as only one is expected
    let signed ← readSignedWithoutNonce C 2
    pure (.invalidDkgShare attempt accuser faulty (if blame.isEmpty then none else some blame) signed)
  | 4 => do
    let attempt ← readU32
    let confirmationShare ← readBytes 32
    let signed ← readSignedWithoutNonce C 2
    pure (.dkgConfirmed attempt confirmationShare signed)
  | 5 => do
    let block ← readBytes 32
    pure (.cosignSubstrateBlock block)
  | 6 => do
    let block ← readBytes 32
    let batch ← readU32
    pure (.batch block batch)
  | 7 => do
    let block ← readU64
    pure (.substrateBlock block)
  | 8 => do
    let data ← readSignData C substrate
    pure (.substrateSign data)
  | 9 => do
    let data ← readSignData C bytes32Codec
    pure (.sign data)
  | 10 => do
    let plan ← readBytes 32
    let txHashLen ← readU8
    let txHash ← readExact txHashLen.toNat
    let firstSigner ← readG C
    let signature ← readSignature C
    pure (.signCompleted plan txHash firstSigner signature)
  | 11 => do
    let len ← readU8
    if maxKeySharesPerSet - 1 < len.toNat then throw (.other "more points reported than allowed validator")
    let points ← readMany readU32 len.toNat
    let signed ← readSignedWithoutNonce C 0
    pure (.slashReport points signed)
  | _ => throw (.other "invalid transaction type")

/-! ## Writing -/

/-- `SchnorrSignature::write`. -/
def writeSignature (sig : SchnorrSignature F G) : List UInt8 := C.toBytes sig.R ++ C.toRepr sig.s

/-- `Signed::write_without_nonce`. -/
def writeSignedWithoutNonce (signed : Signed F G) : Except IoError (List UInt8) :=
  if signed.signature.R = 0 then throw (.other "signature nonce was identity")
  else pure (C.toBytes signed.signer ++ writeSignature C signed.signature)

/-- `u8::try_from(n).unwrap()`. -/
def u8OfLen (n : ℕ) : Except IoError UInt8 := if n < 256 then pure n.toUInt8 else throw .panic

/-- `u16::try_from(n).unwrap()`. -/
def u16OfLen (n : ℕ) : Except IoError UInt16 := if n < 65536 then pure n.toUInt16 else throw .panic

def Label.byte : Label → UInt8
  | .preprocess => 0
  | .share => 1

/-- `SignData::write`. -/
def writeSignData {Id : Type} (codec : IdCodec Id) (d : SignData F G Id) : Except IoError (List UInt8) := do
  let dataPieces ← u8OfLen d.data.length
  let pieces ← d.data.mapM fun data =>
    if 65535 < data.length then throw (.other "signing data exceeded 65535 bytes")
    else pure (u16ToLeBytes data.length.toUInt16 ++ data)
  let signed ← writeSignedWithoutNonce C d.signed
  pure (codec.encode d.plan ++ u32ToLeBytes d.attempt ++ [d.label.byte, dataPieces] ++ pieces.flatten ++ signed)

/-- `DkgCommitments`' commitments, which must be there and of one length. -/
def writeCommitments (commitments : List (List UInt8)) : Except IoError (List UInt8) := do
  match commitments with
  | [] => throw (.other "zero commitments in DkgCommitments")
  | first :: _ =>
    let len ← u8OfLen commitments.length
    if commitments.any fun c => c.length ≠ first.length then
      throw (.other "commitments of differing sizes in DkgCommitments")
    let each ← u16OfLen first.length
    pure ([len] ++ u16ToLeBytes each ++ commitments.flatten)

/-- `DkgShares`' shares: `shares[0]` and `shares[0][0]` give the counts written, and every
    row and share must match them. -/
def writeShares (shares : List (List (List UInt8))) : Except IoError (List UInt8) := do
  let shareQuantity ← u8OfLen shares.length
  match shares with
  | [] => throw .panic
  | first :: _ =>
    let keyShareQuantity ← u8OfLen first.length
    match first with
    | [] => throw .panic
    | share :: _ =>
      let shareLen ← u16OfLen share.length
      if shares.any fun row => row.length ≠ first.length then throw .panic
      if shares.any fun row => row.any fun s => s.length ≠ share.length then throw .panic
      pure ([shareQuantity, keyShareQuantity] ++ u16ToLeBytes shareLen ++ (shares.map List.flatten).flatten)

/-- `Transaction::write`; `substrate` encodes `SubstrateSignableId`. -/
def writeTransaction (substrate : IdCodec S) : Transaction F G S → Except IoError (List UInt8)
  | .removeParticipantDueToDkg participant signed => do
    let signed ← writeSignedWithoutNonce C signed
    pure ([0] ++ C.toBytes participant ++ signed)
  | .dkgCommitments attempt commitments signed => do
    let commitments ← writeCommitments commitments
    let signed ← writeSignedWithoutNonce C signed
    pure ([1] ++ u32ToLeBytes attempt ++ commitments ++ signed)
  | .dkgShares attempt shares confirmationNonces signed => do
    let shares ← writeShares shares
    let signed ← writeSignedWithoutNonce C signed
    pure ([2] ++ u32ToLeBytes attempt ++ shares ++ confirmationNonces.val ++ signed)
  | .invalidDkgShare attempt accuser faulty blame signed => do
    -- `Some(vec![])` would be read back as `None`
    if blame = some [] then throw .panic
    let blame := blame.getD []
    let blameLen ← u16OfLen blame.length
    let signed ← writeSignedWithoutNonce C signed
    pure ([3] ++ u32ToLeBytes attempt ++ u16ToLeBytes accuser.val ++ u16ToLeBytes faulty.val ++
      u16ToLeBytes blameLen ++ blame ++ signed)
  | .dkgConfirmed attempt confirmationShare signed => do
    let signed ← writeSignedWithoutNonce C signed
    pure ([4] ++ u32ToLeBytes attempt ++ confirmationShare.val ++ signed)
  | .cosignSubstrateBlock block => pure ([5] ++ block.val)
  | .batch block batch => pure ([6] ++ block.val ++ u32ToLeBytes batch)
  | .substrateBlock block => pure ([7] ++ u64ToLeBytes block)
  | .substrateSign data => do
    let data ← writeSignData C substrate data
    pure ([8] ++ data)
  | .sign data => do
    let data ← writeSignData C bytes32Codec data
    pure ([9] ++ data)
  | .signCompleted plan txHash firstSigner signature => do
    let txHashLen ← u8OfLen txHash.length
    pure ([10] ++ plan.val ++ [txHashLen] ++ txHash ++ C.toBytes firstSigner ++ writeSignature C signature)
  | .slashReport points signed => do
    let len ← u8OfLen points.length
    let signed ← writeSignedWithoutNonce C signed
    pure ([11, len] ++ (points.map u32ToLeBytes).flatten ++ signed)

/-! ## What is written is read back -/

section ReadBack

@[simp] theorem readU8_cons (b : UInt8) (rest : List UInt8) : readU8 (b :: rest) = .ok b rest := rfl

theorem u32FromLeBytes_toLeBytes (v : UInt32) : u32FromLeBytes (u32ToLeBytes v) = v := by
  apply UInt32.toNat_inj.mp
  have hv := v.toNat_lt
  simp only [u32FromLeBytes, u32ToLeBytes, List.foldr, UInt32.toNat_add, UInt32.toNat_mul, UInt8.toNat_toUInt32,
    UInt32.toNat_toUInt8, UInt32.toNat_div, UInt32.toNat_ofNat, Nat.reduceMod, Nat.reducePow] at *
  omega

@[simp] theorem readU32_toLeBytes (v : UInt32) (rest : List UInt8) : readU32 (u32ToLeBytes v ++ rest) = .ok v rest := by
  unfold readU32
  rw [bind_of_ok (readExact_append (show (u32ToLeBytes v).length = 4 from rfl) rest), u32FromLeBytes_toLeBytes]
  rfl

theorem u64FromLeBytes_toLeBytes (v : UInt64) : u64FromLeBytes (u64ToLeBytes v) = v := by
  apply UInt64.toNat_inj.mp
  have hv := v.toNat_lt
  simp only [u64FromLeBytes, u64ToLeBytes, List.range_succ, List.range_zero, List.nil_append, List.cons_append,
    List.map_cons, List.map_nil, List.foldr, UInt64.toNat_add, UInt64.toNat_mul, UInt8.toNat_toUInt64,
    UInt64.toNat_toUInt8, UInt64.toNat_div, UInt64.toNat_ofNat', Nat.reduceMod, Nat.reducePow, UInt64.reduceToNat,
    UInt64.toNat_zero, Nat.zero_mul, Nat.zero_mod, Nat.add_zero, Nat.div_one] at *
  omega

@[simp] theorem readU64_toLeBytes (v : UInt64) (rest : List UInt8) : readU64 (u64ToLeBytes v ++ rest) = .ok v rest := by
  unfold readU64
  rw [bind_of_ok (readExact_append (show (u64ToLeBytes v).length = 8 by simp [u64ToLeBytes]) rest),
    u64FromLeBytes_toLeBytes]
  rfl

theorem readMany_flatten {α : Type} {r : Reader α} {w : α → Except IoError (List UInt8)} {l : List α}
    (hr : ∀ a ∈ l, ∀ bytes, w a = .ok bytes → ∀ rest, r (bytes ++ rest) = .ok a rest)
    {chunks : List (List UInt8)} (hw : l.mapM w = .ok chunks) (rest : List UInt8) :
    readMany r l.length (chunks.flatten ++ rest) = .ok l rest := by
  induction l generalizing chunks with
  | nil =>
    cases hw
    rfl
  | cons a l ih =>
    obtain ⟨b, bs, hb, hbs, rfl⟩ := mapM_cons_except_ok hw
    rw [List.length_cons, List.flatten_cons, List.append_assoc]
    simp only [readMany, bind_of_ok (hr a List.mem_cons_self b hb _),
      bind_of_ok (ih (fun a' ha' => hr a' (List.mem_cons_of_mem _ ha')) hbs)]
    rfl

@[simp] theorem readBytes_val {n : ℕ} (b : Bytes n) (rest : List UInt8) : readBytes n (b.val ++ rest) = .ok b rest := by
  obtain ⟨v, rfl⟩ := b
  simp [readBytes]

@[simp] theorem readSignature_write (sig : SchnorrSignature F G) (rest : List UInt8) :
    readSignature C (writeSignature C sig ++ rest) = .ok sig rest := by
  simp only [readSignature, writeSignature, List.append_assoc, bind_of_ok (readG_toBytes C _ _),
    bind_of_ok (readF_toRepr C _ _)]
  rfl

theorem read_writeSignedWithoutNonce {signed : Signed F G} {bytes : List UInt8} (nonce : UInt32)
    (h : writeSignedWithoutNonce C signed = .ok bytes) (rest : List UInt8) :
    readSignedWithoutNonce C nonce (bytes ++ rest) = .ok { signed with nonce := nonce } rest := by
  unfold writeSignedWithoutNonce at h
  split at h
  · cases h
  · rename_i hR
    cases h
    simp only [readSignedWithoutNonce, List.append_assoc, bind_of_ok (readG_toBytes C _ _),
      bind_of_ok (readSignature_write C _ _), if_neg hR]
    rfl

end ReadBack

/-! ## `DkgShares` with no senders -/

section NoSenders

theorem readShares_no_senders (keyShareQuantity : UInt8) (shareLen : UInt16) (rest : List UInt8) :
    readShares (0 :: keyShareQuantity :: (u16ToLeBytes shareLen ++ rest)) = .ok [] rest := by
  simp only [readShares, bind_of_ok (readU8_cons _ _), bind_of_ok (readU16_toLeBytes _ _)]
  rfl

theorem writeShares_empty {shares : List (List (List UInt8))} (h : shares = [] ∨ ∃ rest, shares = [] :: rest) :
    writeShares shares = .error .panic := by
  rcases h with rfl | ⟨rest, rfl⟩
  · rfl
  · by_cases hlen : rest.length + 1 < 256
    · simp only [writeShares, u8OfLen, List.length_cons, hlen, if_true]
      rfl
    · simp only [writeShares, u8OfLen, List.length_cons, hlen, if_false]
      rfl

/-- A `DkgShares` transaction with no senders is read, and writing it back panics. -/
theorem dkg_shares_read_then_write_panics (substrate : IdCodec S) (attempt : UInt32) (keyShareQuantity : UInt8)
    (shareLen : UInt16) (nonces : Bytes 64) {signed : Signed F G} {signedBytes : List UInt8}
    (hsigned : writeSignedWithoutNonce C signed = .ok signedBytes) (rest : List UInt8) :
    readTransaction C substrate
        (([2] ++ u32ToLeBytes attempt ++ [0, keyShareQuantity] ++ u16ToLeBytes shareLen ++ nonces.val ++ signedBytes) ++
          rest) = .ok (.dkgShares attempt [] nonces { signed with nonce := 1 }) rest ∧
      writeTransaction C substrate (.dkgShares attempt [] nonces { signed with nonce := 1 }) = .error .panic := by
  refine ⟨?_, ?_⟩
  · simp only [readTransaction, List.append_assoc, List.cons_append, List.nil_append, bind_of_ok (readU8_cons _ _)]
    rw [bind_of_ok (readU32_toLeBytes _ _)]
    rw [bind_of_ok (readShares_no_senders _ _ _), bind_of_ok (readBytes_val _ _),
      bind_of_ok (read_writeSignedWithoutNonce C 1 hsigned rest)]
    rfl
  · simp only [writeTransaction, writeShares_empty (.inl rfl)]
    rfl

end NoSenders

open Serai.Dkg in
/-- Over the five-element suite: no senders, three key shares each, shares of 32 bytes. -/
theorem dkg_shares_read_then_write_panics_zmod5 :
    readTransaction zmod5Suite bytes32Codec
        (([2] ++ u32ToLeBytes 0 ++ [0, 3] ++ u16ToLeBytes 32 ++ (⟨List.replicate 64 0, rfl⟩ : Bytes 64).val ++
          [1, 1, 1]) ++ []) =
        .ok (.dkgShares 0 [] ⟨List.replicate 64 0, rfl⟩ { (⟨1, 0, ⟨1, 1⟩⟩ : Signed (ZMod 5) (ZMod 5)) with nonce := 1 }) [] ∧
      writeTransaction zmod5Suite bytes32Codec
        (.dkgShares 0 [] ⟨List.replicate 64 0, rfl⟩ { (⟨1, 0, ⟨1, 1⟩⟩ : Signed (ZMod 5) (ZMod 5)) with nonce := 1 }) =
        .error .panic :=
  dkg_shares_read_then_write_panics zmod5Suite bytes32Codec 0 3 32 ⟨List.replicate 64 0, rfl⟩
    (show writeSignedWithoutNonce zmod5Suite (⟨1, 0, ⟨1, 1⟩⟩ : Signed (ZMod 5) (ZMod 5)) = .ok [1, 1, 1] by decide) []

end Serai.Coordinator
