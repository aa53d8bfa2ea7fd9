import Mathlib
import Serai.Crypto.Ciphersuite
/-
  Serai.Monero.Clsag — CLSAG, the ring signature of RingCT (coins/monero/src/ringct/clsag/
  mod.rs: `ClsagInput::new`, `core`, `Clsag::sign_core`, `Clsag::sign`, `Clsag::verify`,
  `Clsag::write`, `Clsag::read`, with the readers of serialize.rs they use).

  The curve is the prime-order group of Ed25519, with the encodings, the second generator
  `H`, `hash_to_point` and the Keccak hash as parameters (`Ed25519`). Randomness is a stream
  of scalars, drawn in the order the code draws them. A panic (`hash_to_scalar`'s assert on a
  zero scalar) is `none`, or `.panic` where the code returns a `ClsagError`.

  `core` runs one loop for both signing and verifying. Signing starts after the real index
  with the nonce commitments `A` and `AH`; verifying starts at index `0` from `c1`. Both take
  `c1` as the challenge entering index `0`: on verifying, that is the `c1` given.
-/

namespace Serai.Monero

open Serai.Crypto Serai.Lib

/-- What the CLSAG code takes from curve25519-dalek and monero-generators: the prime-order
    group of Ed25519 with its basepoint and 32-byte encodings of scalars and points, Monero's
    second generator `H`, `hash_to_point`, and Keccak-256 reduced to a scalar
    (`Scalar::from_bytes_mod_order(hash(data))`). The group order is odd, so `INV_EIGHT`
    inverts `8`. -/
structure Ed25519 (F G : Type) [Field F] [AddCommGroup G] [Module F G] where
  suite : Ciphersuite F G
  H : G
  hashToPoint : G → G
  keccak : List UInt8 → F
  reprLen_eq : suite.reprLen = 32
  bytesLen_eq : suite.bytesLen = 32
  eight_ne_zero : (8 : F) ≠ 0

variable {F G : Type} [Field F] [DecidableEq F] [AddCommGroup G] [Module F G]

/-- `hash_to_scalar`; `none` is the panic of its `assert!` on a zero scalar. -/
def Ed25519.hashToScalar (E : Ed25519 F G) (data : List UInt8) : Option F :=
  if E.keccak data = 0 then none else some (E.keccak data)

/-- `Commitment`: a mask and an amount. -/
structure Commitment (F : Type) where
  mask : F
  amount : UInt64

/-- `Commitment::calculate`: `mask * G + amount * H`. -/
def Commitment.calculate (E : Ed25519 F G) (commitment : Commitment F) : G :=
  commitment.mask • E.suite.generator + (commitment.amount.toNat : F) • E.H

/-- `Decoys`: the index of the real spend, the offsets of the ring's outputs, and the ring, a
    key and a commitment for each; `Decoys::select` builds a member for every offset. -/
structure Decoys (G : Type) where
  i : UInt8
  offsets : List UInt64
  ring : List (G × G)
  length_ring : ring.length = offsets.length

/-- `Decoys::len`. -/
def Decoys.len (decoys : Decoys G) : ℕ := decoys.offsets.length

/-- `ClsagError`, and `.panic` for a panic of the code that returns one. -/
inductive ClsagError where
  | internalError (msg : String)
  | invalidRing
  | invalidRingMember (i n : UInt8)
  | invalidCommitment
  | invalidImage
  | invalidD
  | invalidS
  | invalidC1
  | panic
  deriving DecidableEq, Repr

/-- `ClsagInput`: the commitment of the real spend, and its decoys. -/
structure ClsagInput (F G : Type) where
  commitment : Commitment F
  decoys : Decoys G

/-- `ClsagInput::new`: at most `u8::MAX` members, the real index among them, and the real
    member holding the commitment. -/
def ClsagInput.new [DecidableEq G] (E : Ed25519 F G) (commitment : Commitment F) (decoys : Decoys G) :
    Except ClsagError (ClsagInput F G) :=
  if 255 < decoys.len then .error (.internalError "max ring size in this library is u8 max") else
  if decoys.len ≤ decoys.i.toNat then .error (.invalidRingMember decoys.i (UInt8.ofNat decoys.len)) else
  if (decoys.ring.getD decoys.i.toNat (0, 0)).2 ≠ commitment.calculate E then .error .invalidCommitment else
  .ok ⟨commitment, decoys⟩

omit [DecidableEq F] in
theorem ClsagInput.new_ok [DecidableEq G] {E : Ed25519 F G} {commitment : Commitment F} {decoys : Decoys G}
    {input : ClsagInput F G} (h : ClsagInput.new E commitment decoys = .ok input) :
    input = ⟨commitment, decoys⟩ ∧ decoys.len ≤ 255 ∧ decoys.i.toNat < decoys.len ∧
      (decoys.ring.getD decoys.i.toNat (0, 0)).2 = commitment.calculate E := by
  unfold ClsagInput.new at h
  split_ifs at h with hlen hi hcommitment
  cases h
  exact ⟨rfl, Nat.le_of_not_lt hlen, Nat.lt_of_not_le hi, not_not.mp hcommitment⟩

/-! ## The core loop -/

/-- `Mode`: signing from the real index `r` with the nonce commitments, or verifying from `c1`. -/
inductive Mode (F G : Type) where
  | sign (r : ℕ) (A AH : G)
  | verify (c1 : F)

/-- `b"CLSAG_"`. -/
def clsagPrefix : List UInt8 := [0x43, 0x4c, 0x53, 0x41, 0x47, 0x5f]

/-- `b"agg_0"`. -/
def agg0 : List UInt8 := [0x61, 0x67, 0x67, 0x5f, 0x30]

/-- `b"round"`. -/
def roundTag : List UInt8 := [0x72, 0x6f, 0x75, 0x6e, 0x64]

/-- The transcript `mu_P` hashes: `CLSAG_agg_0` padded with zeros to 32 bytes, the ring's keys,
    the ring's commitments, `I`, `D / 8` and `pseudo_out`. -/
def aggTranscript (E : Ed25519 F G) (ring : List (G × G)) (I D8 pseudoOut : G) : List UInt8 :=
  clsagPrefix ++ agg0 ++ List.replicate (32 - (clsagPrefix.length + agg0.length)) 0 ++
    ring.flatMap (fun member => E.suite.toBytes member.1) ++ ring.flatMap (fun member => E.suite.toBytes member.2) ++
    E.suite.toBytes I ++ E.suite.toBytes D8 ++ E.suite.toBytes pseudoOut

/-- The transcript of the rounds, from that of `mu_C`: truncated to the prefix and the ring,
    with `round` written over `agg_1`, then `pseudo_out` and the message. -/
def roundTranscript (E : Ed25519 F G) (toHash : List UInt8) (n : ℕ) (pseudoOut : G) (msg : Vector UInt8 32) :
    List UInt8 :=
  (List.range roundTag.length).foldl (fun toHash i => toHash.set (clsagPrefix.length + i) (roundTag.getD i 0))
      (toHash.take ((2 * n + 1) * 32)) ++
    E.suite.toBytes pseudoOut ++ msg.toList

/-- `L` at ring index `i` from the challenge `c`: `s[i] * G + c_p * P[i] + c_c * C[i]`. -/
def ringL (E : Ed25519 F G) (P C : List G) (muP muC : F) (s : List F) (i : ℕ) (c : F) : G :=
  s.getD i 0 • E.suite.generator + (muP * c) • P.getD i 0 + (muC * c) • C.getD i 0

/-- `R` at ring index `i` from the challenge `c`: `s[i] * hash_to_point(P[i])`, and the images
    `I` and `D` itself times `c_p` and `c_c`. -/
def ringR (E : Ed25519 F G) (P : List G) (I D : G) (muP muC : F) (s : List F) (i : ℕ) (c : F) : G :=
  s.getD i 0 • E.hashToPoint (P.getD i 0) + ((muP * c) • I + (muC * c) • D)

/-- One pass of `core`'s loop at ring index `i`: `c1` is the challenge entering index `0`, and
    the next challenge hashes the transcript truncated to `keep` bytes, then `L` and `R`. The
    indices are below the ring's length, as is every response's. -/
def coreStep (E : Ed25519 F G) (P C : List G) (I D : G) (muP muC : F) (s : List F) (keep : ℕ)
    (state : F × Option F × List UInt8) (i : ℕ) : Option (F × Option F × List UInt8) :=
  let c1 := state.2.1.or (if i = 0 then some state.1 else none)
  let toHash := state.2.2.take keep ++ E.suite.toBytes (ringL E P C muP muC s i state.1) ++
    E.suite.toBytes (ringR E P I D muP muC s i state.1)
  (E.hashToScalar toHash).map fun c => (c, c1, toHash)

/-- `core`: the aggregation coefficients, then the loop over `(start .. end).map(|i| i % n)`;
    `D / 8`, the last challenge times each coefficient, and `c1`. -/
def core (E : Ed25519 F G) (ring : List (G × G)) (I pseudoOut : G) (msg : Vector UInt8 32) (D : G) (s : List F)
    (mode : Mode F G) : Option ((G × F × F) × F) := do
  let n := ring.length
  let D8 := (8 : F)⁻¹ • D
  let toHash := aggTranscript E ring I D8 pseudoOut
  let muP ← E.hashToScalar toHash
  -- `agg_0` becomes `agg_1`
  let toHash := toHash.set (clsagPrefix.length + agg0.length - 1) 0x31
  let muC ← E.hashToScalar toHash
  let toHash := roundTranscript E toHash n pseudoOut msg
  let P := ring.map (·.1)
  let C := ring.map fun member => member.2 - pseudoOut
  let start : ℕ × ℕ × F × List UInt8 ← match mode with
    | .sign r A AH =>
      let toHash := toHash ++ E.suite.toBytes A ++ E.suite.toBytes AH
      (E.hashToScalar toHash).map fun c => (r + 1, r + n, c, toHash)
    | .verify c1 => some (0, n, c1, toHash)
  let last ← ((List.range' start.1 (start.2.1 - start.1)).map (· % n)).foldlM
    (coreStep E P C I D muP muC s ((2 * n + 3) * 32)) (start.2.2.1, none, start.2.2.2)
  pure ((D8, last.1 * muP, last.1 * muC), last.2.1.getD last.1)

/-! ## Signing and verifying -/

/-- `Clsag`: `D / 8`, the responses and the first challenge. -/
structure Clsag (F G : Type) where
  D : G
  s : List F
  c1 : F

/-- `Clsag::sign_core`: the pseudo output commits to the amount under `mask`, `D` is the real
    key's hash point times `z`, the difference of the masks, every response is drawn, and
    `core` runs from after the real index. -/
def signCore (E : Ed25519 F G) (rng : Stream' F) (I : G) (input : ClsagInput F G) (mask : F)
    (msg : Vector UInt8 32) (A AH : G) : Option ((Clsag F G × G × F × F) × Stream' F) := do
  let r := input.decoys.i.toNat
  let pseudoOut := Commitment.calculate E ⟨mask, input.commitment.amount⟩
  let z := input.commitment.mask - mask
  let H := E.hashToPoint (input.decoys.ring.getD r (0, 0)).1
  let D := z • H
  let s := rng.take input.decoys.ring.length
  let result ← core E input.decoys.ring I pseudoOut msg D s (.sign r A AH)
  pure ((⟨result.1.1, s, result.2⟩, pseudoOut, result.1.2.1, result.1.2.2 * z), rng.drop input.decoys.ring.length)

/-- One pass of `Clsag::sign`'s loop, at input `k` of `count`: the mask is drawn, but the last
    input's is what makes the masks sum to `sum_outputs`; the nonce is drawn; and the real
    index's response closes the ring. -/
def signStep (E : Ed25519 F G) (count : ℕ) (sumOutputs : F) (msg : Vector UInt8 32)
    (acc : Stream' F × F × List (Clsag F G × G)) (input : (F × G × ClsagInput F G) × ℕ) :
    Option (Stream' F × F × List (Clsag F G × G)) := do
  let x := input.1.1
  let ci := input.1.2.2
  let r := ci.decoys.i.toNat
  let mask := acc.1.head
  let last := input.2 = count - 1
  let sumPseudoOuts := if last then acc.2.1 else acc.2.1 + mask
  let mask := if last then sumOutputs - acc.2.1 else mask
  let nonce := acc.1.tail.head
  let signed ← signCore E acc.1.tail.tail input.1.2.1 ci mask msg (nonce • E.suite.generator)
    (nonce • E.hashToPoint (ci.decoys.ring.getD r (0, 0)).1)
  let clsag := { signed.1.1 with s := signed.1.1.s.set r (-((signed.1.2.2.1 * x) + signed.1.2.2.2) + nonce) }
  pure (signed.2, sumPseudoOuts, acc.2.2 ++ [(clsag, signed.1.2.1)])

/-- `Clsag::sign`: for every input, of the private key, the key image and the `ClsagInput`,
    a signature and its pseudo output. -/
def Clsag.sign (E : Ed25519 F G) (rng : Stream' F) (inputs : List (F × G × ClsagInput F G)) (sumOutputs : F)
    (msg : Vector UInt8 32) : Option (List (Clsag F G × G)) :=
  (inputs.zipIdx.foldlM (signStep E inputs.length sumOutputs msg) (rng, 0, [])).map (·.2.2)

/-- `Clsag::verify`: a ring of as many members as responses, a key image and `8 * D` not the
    identity, and the `c1` `core` returns. -/
def Clsag.verify [DecidableEq G] (E : Ed25519 F G) (clsag : Clsag F G) (ring : List (G × G)) (I pseudoOut : G)
    (msg : Vector UInt8 32) : Except ClsagError Unit :=
  if ring.isEmpty then .error .invalidRing else
  if ring.length ≠ clsag.s.length then .error .invalidS else
  if I = 0 then .error .invalidImage else
  -- `mul_by_cofactor`
  let D := (8 : ℕ) • clsag.D
  if D = 0 then .error .invalidD else
  match core E ring I pseudoOut msg D clsag.s (.verify clsag.c1) with
  | none => .error .panic
  | some result => if result.2 ≠ clsag.c1 then .error .invalidC1 else .ok ()

/-! ## Serialization -/

/-- `Clsag::fee_weight`: the bytes of a signature over a ring of `ringLen` members. -/
def Clsag.feeWeight (ringLen : ℕ) : ℕ := ringLen * 32 + 32 + 32

/-- `Clsag::write`: the responses, `c1`, then `D`. -/
def Clsag.write (E : Ed25519 F G) (clsag : Clsag F G) : List UInt8 :=
  clsag.s.flatMap E.suite.toRepr ++ E.suite.toRepr clsag.c1 ++ E.suite.toBytes clsag.D

/-- `read_scalar`: 32 bytes, a canonical scalar. -/
def readScalar (E : Ed25519 F G) : Reader F := do
  let bytes ← readExact 32
  match E.suite.fromRepr bytes with
  | some x => pure x
  | none => throw (.other "unreduced scalar")

/-- `read_point`: 32 bytes, which `decompress_point` decodes to a point encoded so. -/
def readPoint [DecidableEq G] (E : Ed25519 F G) : Reader G := do
  let bytes ← readExact 32
  match E.suite.fromBytes bytes with
  | some P => if E.suite.toBytes P = bytes then pure P else throw (.other "invalid point")
  | none => throw (.other "invalid point")

/-- `read_raw_vec`: `len` values, one after the other. -/
def readRawVec {α : Type} (f : Reader α) : ℕ → Reader (List α)
  | 0 => pure []
  | len + 1 => do
    let x ← f
    let xs ← readRawVec f len
    pure (x :: xs)

/-- `Clsag::read`: `decoys` responses, `c1`, then `D`. -/
def Clsag.read [DecidableEq G] (E : Ed25519 F G) (decoys : ℕ) : Reader (Clsag F G) := do
  let s ← readRawVec (readScalar E) decoys
  let c1 ← readScalar E
  let D ← readPoint E
  pure ⟨D, s, c1⟩

/-! ## What is written is read back -/

omit [DecidableEq F] in
@[simp] theorem readScalar_toRepr (E : Ed25519 F G) (x : F) (rest : List UInt8) :
    readScalar E (E.suite.toRepr x ++ rest) = .ok x rest := by
  have hlen : (E.suite.toRepr x).length = 32 := by rw [E.suite.toRepr_length, E.reprLen_eq]
  simp only [readScalar, bind_of_ok (readExact_append hlen rest), E.suite.fromRepr_toRepr]
  rfl

omit [DecidableEq F] in
@[simp] theorem readPoint_toBytes [DecidableEq G] (E : Ed25519 F G) (P : G) (rest : List UInt8) :
    readPoint E (E.suite.toBytes P ++ rest) = .ok P rest := by
  have hlen : (E.suite.toBytes P).length = 32 := by rw [E.suite.toBytes_length, E.bytesLen_eq]
  simp only [readPoint, bind_of_ok (readExact_append hlen rest), E.suite.fromBytes_toBytes]
  simp

theorem readRawVec_flatMap {α : Type} (f : Reader α) (write : α → List UInt8)
    (hf : ∀ x rest, f (write x ++ rest) = .ok x rest) :
    ∀ (xs : List α) (rest : List UInt8), readRawVec f xs.length (xs.flatMap write ++ rest) = .ok xs rest
  | [], _ => rfl
  | x :: xs, rest => by
    simp only [List.length_cons, readRawVec, List.flatMap_cons, List.append_assoc]
    rw [bind_of_ok (hf x _), bind_of_ok (readRawVec_flatMap f write hf xs rest)]
    rfl

omit [DecidableEq F] in
theorem read_write [DecidableEq G] (E : Ed25519 F G) (clsag : Clsag F G) (rest : List UInt8) :
    Clsag.read E clsag.s.length (clsag.write E ++ rest) = .ok clsag rest := by
  simp only [Clsag.read, Clsag.write, List.append_assoc]
  rw [bind_of_ok (readRawVec_flatMap _ _ (readScalar_toRepr E) clsag.s _), bind_of_ok (readScalar_toRepr E _ _),
    bind_of_ok (readPoint_toBytes E _ _)]
  rfl

omit [DecidableEq F] in
theorem length_write (E : Ed25519 F G) (clsag : Clsag F G) :
    (clsag.write E).length = Clsag.feeWeight clsag.s.length := by
  have hs : (clsag.s.flatMap E.suite.toRepr).length = clsag.s.length * 32 := by
    rw [List.length_flatMap, List.map_congr_left fun x _ => by rw [E.suite.toRepr_length, E.reprLen_eq],
      List.map_const', List.sum_replicate, smul_eq_mul]
  simp only [Clsag.write, List.length_append, hs, E.suite.toRepr_length, E.reprLen_eq, E.suite.toBytes_length,
    E.bytesLen_eq, Clsag.feeWeight]

end Serai.Monero
