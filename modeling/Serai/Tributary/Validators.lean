import Serai.Crypto.Aggregate
import Serai.Lib.HashMap
/-
  Serai.Tributary.Validators — the Tributary's validators and their signatures
  (coordinator/tributary/src/tendermint/mod.rs: `challenge`, `Signer`, `Validators` and its
  `SignatureScheme` and `Weights`).

  A validator signs a message with a Schnorr signature over Ristretto whose nonce and
  challenge come from transcripts of the genesis, its key and the message; its id and a
  signature are the encodings as `[u8; 32]` and `[u8; 64]`. A commit's signatures are
  half-aggregated (`Serai.Crypto.Aggregate`) with the challenge each signer's nonce gives, and
  `verify_aggregate` recomputes those challenges from the aggregate's nonces. The validator set
  keeps each validator's weight, and the round robin lists each validator as many times as
  its weight, shuffled by a ChaCha12 RNG seeded from a transcript of the set: the shuffle is
  kept as a permutation the seed picks (`Shuffle`). Ristretto is kept as a ciphersuite with
  its encodings' lengths and its two hashes (`Ristretto`). As in the aggregator's model, the
  arithmetic that overflows panics, as debug builds do.

  Proved:
  (1) `sign_verifies`: a signer's signature verifies for validators of its genesis that hold
      its key, unless the nonce it derives is zero, where `sign` panics.
  (2) `commit_aggregate_verifies`: signatures that each verify, aggregated by `aggregate`,
      pass `verify_aggregate` for the same signers: what the machine builds for a commit from
      valid precommits is what the network accepts.
  (3) `proposer_fair`: the round robin is weighted: in any round, over any `robin.len()`
      consecutive blocks, each validator proposes as many blocks as its weight, when no two
      validators share a key.
-/

namespace Serai.Tributary

open Serai.Crypto Serai.Lib
open Serai.Coordinator (Bytes readSignature writeSignature)

variable {F G : Type} [Field F] [AddCommGroup G] [Module F G]

instance (n : ℕ) : Hashable (Bytes n) := ⟨fun b => hash b.val⟩

/-- Ristretto as the Tributary uses it: a ciphersuite with 32-byte encodings, the hash its
    aggregates draw their weights with (`Sha512`), and the recommended transcript's hash
    (`Blake2b512`). -/
structure Ristretto (F G : Type) [Field F] [AddCommGroup G] [Module F G] where
  suite : Ciphersuite F G
  sha512 : Digest
  blake2b512 : Digest
  bytesLen_eq : suite.bytesLen = 32
  reprLen_eq : suite.reprLen = 32
  sha512_outputLen : sha512.outputLen = 64
  blake2b512_outputLen : blake2b512.outputLen = 64

/-- `<Ristretto as Ciphersuite>::F::NUM_BITS`. -/
def ristrettoNumBits : ℕ := 253

/-- `Scalar::from_bytes_mod_order_wide`: the little-endian number, reduced. -/
def fromBytesModOrderWide (bytes : List UInt8) : F := ((Monero.leValue bytes : ℕ) : F)

/-- `DST`. -/
def commitDst : List UInt8 := byteString "Tributary Tendermint Commit Aggregator"

/-- `challenge`. -/
def challenge (r : Ristretto F G) (genesis key nonce msg : List UInt8) : F :=
  fromBytesModOrderWide (((((DigestTranscript.new (byteString "Tributary Chain Tendermint Message")).appendMessage
    (byteString "genesis") genesis).appendMessage (byteString "key") key).appendMessage (byteString "nonce")
      nonce).appendMessage (byteString "message") msg |>.challenge r.blake2b512 (byteString "schnorr")).1

theorem Ristretto.toBytes_length (r : Ristretto F G) (P : G) : (r.suite.toBytes P).length = 32 := by
  rw [r.suite.toBytes_length, r.bytesLen_eq]

theorem Ristretto.writeSignature_length (r : Ristretto F G) (sig : SchnorrSignature F G) :
    (writeSignature r.suite sig).length = 64 := by
  simp [writeSignature, r.suite.toBytes_length, r.suite.toRepr_length, r.bytesLen_eq, r.reprLen_eq]

/-- A point's encoding, as a `[u8; 32]`. -/
def Ristretto.pointBytes (r : Ristretto F G) (P : G) : Bytes 32 := ⟨r.suite.toBytes P, r.toBytes_length P⟩

/-! ## `Signer` -/

/-- `Signer`. -/
structure Signer (F : Type) where
  genesis : Bytes 32
  key : F

namespace Signer

/-- `Signer::validator_id`. -/
def validatorId (r : Ristretto F G) (signer : Signer F) : Bytes 32 := r.pointBytes (signer.key • r.suite.generator)

/-- The nonce `Signer::sign` derives from its transcript. -/
def nonce (r : Ristretto F G) (signer : Signer F) (msg : List UInt8) : F :=
  fromBytesModOrderWide ((((DigestTranscript.new (byteString "Tributary Chain Tendermint Nonce")).appendMessage
    (byteString "genesis") signer.genesis.val).appendMessage (byteString "key") (r.suite.toRepr signer.key)).appendMessage
      (byteString "message") msg |>.challenge r.blake2b512 (byteString "nonce")).1

/-- `Signer::sign`: its `assert!` panics on a zero nonce. -/
def sign [DecidableEq F] (r : Ristretto F G) (signer : Signer F) (msg : List UInt8) : Except IoError (Bytes 64) :=
  if signer.nonce r msg = 0 then .error .panic
  else
    let sig := SchnorrSignature.sign r.suite signer.key (signer.nonce r msg)
      (challenge r signer.genesis.val (signer.validatorId r).val
        (r.suite.toBytes (signer.nonce r msg • r.suite.generator)) msg)
    .ok ⟨writeSignature r.suite sig, r.writeSignature_length sig⟩

end Signer

/-! ## `Validators` -/

/-- `Validators`. -/
structure Validators where
  genesis : Bytes 32
  totalWeight : UInt64
  weights : Std.HashMap (Bytes 32) UInt64
  robin : List (Bytes 32)

/-- `SliceRandom::shuffle` with `ChaCha12Rng::from_seed(seed)`: a permutation the seed picks. -/
structure Shuffle where
  shuffle : List UInt8 → List (Bytes 32) → List (Bytes 32)
  perm : ∀ seed l, (shuffle seed l).Perm l

/-- What the loop of `Validators::new` has built. -/
structure NewState where
  totalWeight : UInt64
  weights : Std.HashMap (Bytes 32) UInt64
  transcript : DigestTranscript
  robin : List (Bytes 32)

/-- One validator of `Validators::new`'s loop: a zero weight returns `None`, and
    `total_weight += weight` panics past `u64::MAX`. -/
def newStep (r : Ristretto F G) (st : NewState) (validator : G) (weight : UInt64) : Except IoError (Option NewState) :=
  if weight = 0 then .ok none
  else if 2 ^ 64 ≤ st.totalWeight.toNat + weight.toNat then .error .panic
  else .ok (some ⟨st.totalWeight + weight, st.weights.insert (r.pointBytes validator) weight,
    (st.transcript.appendMessage (byteString "validator") (r.suite.toBytes validator)).appendMessage
      (byteString "weight") (Coordinator.u64ToLeBytes weight),
    st.robin ++ List.replicate weight.toNat (r.pointBytes validator)⟩)

/-- The loop of `Validators::new`. -/
def newLoop (r : Ristretto F G) : NewState → List (G × UInt64) → Except IoError (Option NewState)
  | st, [] => .ok (some st)
  | st, (validator, weight) :: rest => do
    match ← newStep r st validator weight with
    | none => pure none
    | some st => newLoop r st rest

/-- `Validators::new`. -/
def Validators.new (r : Ristretto F G) (sh : Shuffle) (genesis : Bytes 32) (validators : List (G × UInt64)) :
    Except IoError (Option Validators) := do
  match ← newLoop r ⟨0, ∅, DigestTranscript.new (byteString "Round Robin Randomization"), []⟩ validators with
  | none => pure none
  | some st =>
    pure (some ⟨genesis, st.totalWeight, st.weights,
      sh.shuffle (st.transcript.rngSeed r.blake2b512 (byteString "robin")).1 st.robin⟩)

namespace Validators

/-- `Weights::weight`: indexing the map panics for a key it does not hold. -/
def weight (vs : Validators) (validator : Bytes 32) : Except IoError UInt64 :=
  match vs.weights[validator]? with
  | some w => .ok w
  | none => .error .panic

/-- How far past the block number `proposer` looks: halfway round the robin after the first
    round. -/
def roundOffset (vs : Validators) (round : UInt32) : ℕ := if round = 0 then 0 else round.toNat + vs.robin.length / 2

/-- `Weights::proposer`: the robin's entry at the block number and the round's offset; `%` by an
    empty robin and a sum past `usize::MAX` panic. -/
def proposer (vs : Validators) (block : UInt64) (round : UInt32) : Except IoError (Bytes 32) :=
  if vs.robin.length = 0 ∨ 2 ^ 64 ≤ block.toNat + vs.roundOffset round then .error .panic
  else
    match vs.robin[(block.toNat + vs.roundOffset round) % vs.robin.length]? with
    | some validator => .ok validator
    | none => .error .panic

variable [DecidableEq G]

/-- `SignatureScheme::verify`. -/
def verify (r : Ristretto F G) (vs : Validators) (validator : Bytes 32) (msg : List UInt8) (sig : Bytes 64) : Bool :=
  if validator ∉ vs.weights then false
  else
    match readG r.suite validator.val with
    | .error _ _ => false
    | .ok validatorPoint _ =>
      match readSignature r.suite sig.val with
      | .error _ _ => false
      | .ok actualSig _ =>
        actualSig.verify r.suite validatorPoint (challenge r vs.genesis.val validator.val (sig.val.take 32) msg)

/-- One signature of `SignatureScheme::aggregate`'s loop, its `read` unwrapped. -/
def aggregateStep (r : Ristretto F G) (vs : Validators) (msg : List UInt8) (aggregator : SchnorrAggregator F G)
    (keyAndSig : Bytes 32 × Bytes 64) : Except IoError (SchnorrAggregator F G) :=
  match readSignature r.suite keyAndSig.2.val with
  | .error _ _ => .error .panic
  | .ok actualSig _ =>
    .ok (aggregator.aggregate r.suite (challenge r vs.genesis.val keyAndSig.1.val (r.suite.toBytes actualSig.R) msg)
      actualSig)

/-- `SignatureScheme::aggregate`: `assert_eq!` of the lengths, and `complete().unwrap()`. -/
def aggregate (r : Ristretto F G) (vs : Validators) (validators : List (Bytes 32)) (msg : List UInt8)
    (sigs : List (Bytes 64)) : Except IoError (List UInt8) := do
  if validators.length ≠ sigs.length then throw .panic
  let aggregator ← (validators.zip sigs).foldlM (aggregateStep r vs msg) (SchnorrAggregator.new commitDst)
  match ← aggregator.complete r.sha512 ristrettoNumBits with
  | none => throw .panic
  | some aggregate => aggregate.serialize r.suite

/-- `read_G(..).unwrap()` of a signer. -/
def readSigner (r : Ristretto F G) (signer : Bytes 32) : Except IoError G :=
  match readG r.suite signer.val with
  | .ok P _ => .ok P
  | .error _ _ => .error .panic

/-- `SignatureScheme::verify_aggregate`. -/
def verifyAggregate (r : Ristretto F G) (vs : Validators) (signers : List (Bytes 32)) (msg : List UInt8)
    (sig : List UInt8) : Except IoError Bool :=
  match SchnorrAggregate.read r.suite sig with
  | .error _ _ => pure false
  | .ok aggregate _ =>
    if signers.length ≠ aggregate.Rs.length then pure false
    else do
      let challenges := (signers.zip aggregate.Rs).map fun p =>
        challenge r vs.genesis.val p.1.val (r.suite.toBytes p.2) msg
      let keys ← signers.mapM (readSigner r)
      aggregate.verify r.suite r.sha512 ristrettoNumBits commitDst (keys.zip challenges)

end Validators

/-! ## Reading keys and signatures -/

section Readers

variable [DecidableEq G] (C : Ciphersuite F G)

theorem readExact_ok {len : ℕ} {bytes taken rest : List UInt8} (h : readExact len bytes = .ok taken rest) :
    bytes = taken ++ rest ∧ taken.length = len := by
  unfold readExact at h
  split at h
  · cases h
    exact ⟨(List.take_append_drop len bytes).symm, by simp; omega⟩
  · cases h

theorem readG_ok {bytes rest : List UInt8} {P : G} (h : readG C bytes = .ok P rest) : bytes = C.toBytes P ++ rest := by
  obtain ⟨encoding, s, hread, hdecode⟩ := bind_ok h
  obtain ⟨rfl, -⟩ := readExact_ok hread
  cases hpoint : C.fromBytes encoding with
  | none => simp [hpoint, throw, throwThe, MonadExceptOf.throw, EStateM.throw] at hdecode
  | some point =>
    by_cases hcanonical : C.toBytes point = encoding
    · simp only [hpoint, hcanonical, ne_eq, not_true_eq_false, if_false, pure, EStateM.pure,
        EStateM.Result.ok.injEq] at hdecode
      obtain ⟨rfl, rfl⟩ := hdecode
      rw [hcanonical]
    · simp [hpoint, hcanonical, throw, throwThe, MonadExceptOf.throw, EStateM.throw] at hdecode

theorem readSignature_ok {bytes rest : List UInt8} {sig : SchnorrSignature F G}
    (h : readSignature C bytes = .ok sig rest) : ∃ rest', bytes = C.toBytes sig.R ++ rest' := by
  obtain ⟨R, s, hR, hs⟩ := bind_ok h
  obtain ⟨x, s', -, hpure⟩ := bind_ok hs
  cases hpure
  exact ⟨s, readG_ok C hR⟩

end Readers

/-! ## Signatures verify -/

section Signatures

variable [DecidableEq G] (r : Ristretto F G)

theorem readG_pointBytes (P : G) : readG r.suite (r.pointBytes P).val = .ok P [] := by
  simpa [Ristretto.pointBytes] using readG_toBytes r.suite P []

omit [DecidableEq G] in
theorem take_writeSignature (sig : SchnorrSignature F G) :
    (writeSignature r.suite sig).take 32 = r.suite.toBytes sig.R := by
  rw [writeSignature, List.take_left' (r.toBytes_length _)]

theorem verify_writeSignature (vs : Validators) (key nonce : F) (msg : List UInt8)
    (hmember : r.pointBytes (key • r.suite.generator) ∈ vs.weights) :
    vs.verify r (r.pointBytes (key • r.suite.generator)) msg
      ⟨writeSignature r.suite (SchnorrSignature.sign r.suite key nonce (challenge r vs.genesis.val
        (r.pointBytes (key • r.suite.generator)).val (r.suite.toBytes (nonce • r.suite.generator)) msg)),
        r.writeSignature_length _⟩ = true := by
  have hsig := Coordinator.readSignature_write r.suite (SchnorrSignature.sign r.suite key nonce (challenge r
    vs.genesis.val (r.pointBytes (key • r.suite.generator)).val (r.suite.toBytes (nonce • r.suite.generator)) msg)) []
  rw [List.append_nil] at hsig
  simp only [Validators.verify, hmember, not_true_eq_false, if_false, readG_pointBytes, hsig, take_writeSignature]
  exact SchnorrSignature.verify_sign r.suite _ _ _

/-- A signer's signature of a message verifies, for validators of the signer's genesis that hold
    its key, unless the nonce it derives is zero, where `sign` panics. -/
theorem sign_verifies [DecidableEq F] (vs : Validators) (signer : Signer F) (msg : List UInt8)
    (hgenesis : vs.genesis = signer.genesis) (hmember : signer.validatorId r ∈ vs.weights)
    (hnonce : signer.nonce r msg ≠ 0) :
    ∃ sig, signer.sign r msg = .ok sig ∧ vs.verify r (signer.validatorId r) msg sig = true := by
  refine ⟨_, by rw [Signer.sign, if_neg hnonce], ?_⟩
  rw [← hgenesis]
  exact verify_writeSignature r vs signer.key (signer.nonce r msg) msg hmember

/-- A value below five, from 32 little-endian bytes. -/
def decodeFive (bytes : List UInt8) : Option (ZMod 5) :=
  if bytes.length = 32 ∧ Monero.leValue bytes < 5 then some (Monero.leValue bytes : ZMod 5) else none

theorem decodeFive_leBytes (x : ZMod 5) : decodeFive (Monero.leBytes 32 x.val) = some x := by
  have hx : x.val < 5 := ZMod.val_lt x
  have hval : Monero.leValue (Monero.leBytes 32 x.val) = x.val := by
    rw [Monero.leValue_leBytes, Nat.mod_eq_of_lt (by omega)]
  simp [decodeFive, hval, hx]

theorem length_leBytes_five (x : ZMod 5) : (Monero.leBytes 32 x.val).length = 32 := Monero.length_leBytes 32 x.val

theorem fiveId_length : [(5 : UInt8)].length < 2 ^ 32 := by decide

/-- The field of five elements as a ciphersuite whose group is the field itself, each element
    written as 32 little-endian bytes: Ristretto's encodings' lengths, on a small group. -/
def wideFive : Ciphersuite (ZMod 5) (ZMod 5) :=
  ⟨[5], 1, 32, fun x => Monero.leBytes 32 x.val, decodeFive, 32, fun x => Monero.leBytes 32 x.val, decodeFive,
    fiveId_length, length_leBytes_five, decodeFive_leBytes, length_leBytes_five, decodeFive_leBytes⟩

/-- `wideFive`, with digests of constant bytes for `Sha512` and `Blake2b512`. -/
def ristrettoFive : Ristretto (ZMod 5) (ZMod 5) := ⟨wideFive, constDigest 0, constDigest 1, rfl, rfl, rfl, rfl⟩

theorem length_replicate_thirtyTwo : (List.replicate 32 (0 : UInt8)).length = 32 := List.length_replicate

/-- The genesis of the witnesses: 32 zero bytes. -/
def genesisZero : Bytes 32 := ⟨List.replicate 32 0, length_replicate_thirtyTwo⟩

/-- The signer of key 2. -/
def signerTwo : Signer (ZMod 5) := ⟨genesisZero, ((2 : ℕ) : ZMod 5)⟩

/-- Validators holding the signer of key 2 alone. -/
def validatorsTwo : Validators :=
  ⟨genesisZero, 1, (∅ : Std.HashMap (Bytes 32) UInt64).insert (signerTwo.validatorId ristrettoFive) 1,
    [signerTwo.validatorId ristrettoFive]⟩

theorem sign_verifies_two :
    ∃ sig, signerTwo.sign ristrettoFive [] = .ok sig ∧
      validatorsTwo.verify ristrettoFive (signerTwo.validatorId ristrettoFive) [] sig = true :=
  sign_verifies ristrettoFive validatorsTwo signerTwo [] rfl Std.HashMap.mem_insert_self (by decide)

/-! ## An aggregate of signatures that verify, verifies -/

/-- The key a signer's bytes decode to, or zero. -/
def decodeKey (key : Bytes 32) : G :=
  match readG r.suite key.val with
  | .ok P _ => P
  | .error _ _ => 0

/-- The signature a signature's bytes decode to, or the zero signature. -/
def decodeSig (sig : Bytes 64) : SchnorrSignature F G :=
  match readSignature r.suite sig.val with
  | .ok s _ => s
  | .error _ _ => ⟨0, 0⟩

/-- A signer's key, the challenge of its nonce, and its signature, as decoded. -/
def commitItem (vs : Validators) (msg : List UInt8) (p : Bytes 32 × Bytes 64) : G × F × SchnorrSignature F G :=
  (decodeKey r p.1, challenge r vs.genesis.val p.1.val (r.suite.toBytes (decodeSig r p.2).R) msg, decodeSig r p.2)

theorem verify_eq_true {vs : Validators} {key : Bytes 32} {msg : List UInt8} {sig : Bytes 64}
    (h : vs.verify r key msg sig = true) :
    Validators.readSigner r key = .ok (decodeKey r key) ∧
      (∃ rest, readSignature r.suite sig.val = .ok (decodeSig r sig) rest) ∧
      (commitItem r vs msg (key, sig)).2.2.verify r.suite (commitItem r vs msg (key, sig)).1
        (commitItem r vs msg (key, sig)).2.1 = true := by
  unfold Validators.verify at h
  split at h
  · cases h
  · cases hkey : readG r.suite key.val with
    | error e s => simp [hkey] at h
    | ok P s =>
      cases hsig : readSignature r.suite sig.val with
      | error e s' => simp [hkey, hsig] at h
      | ok actualSig s' =>
        simp only [hkey, hsig] at h
        obtain ⟨rest', hbytes⟩ := readSignature_ok r.suite hsig
        have htake : sig.val.take 32 = r.suite.toBytes actualSig.R := by
          rw [hbytes, List.take_left' (r.toBytes_length _)]
        refine ⟨by simp [Validators.readSigner, decodeKey, hkey], ⟨s', by simp [decodeSig, hsig]⟩, ?_⟩
        simpa [commitItem, decodeKey, decodeSig, hkey, hsig, htake] using h

theorem foldlM_aggregateStep (vs : Validators) (msg : List UInt8) (l : List (Bytes 32 × Bytes 64))
    (hread : ∀ p ∈ l, ∃ rest, readSignature r.suite p.2.val = .ok (decodeSig r p.2) rest) (a : SchnorrAggregator F G) :
    l.foldlM (Validators.aggregateStep r vs msg) a =
      .ok ((l.map (commitItem r vs msg)).foldl (fun a x => a.aggregate r.suite x.2.1 x.2.2) a) := by
  induction l generalizing a with
  | nil => rfl
  | cons p l ih =>
    obtain ⟨rest, hp⟩ := hread p List.mem_cons_self
    have hstep : Validators.aggregateStep r vs msg a p =
        .ok (a.aggregate r.suite (commitItem r vs msg p).2.1 (commitItem r vs msg p).2.2) := by
      simp [Validators.aggregateStep, hp, commitItem]
    rw [List.foldlM_cons, hstep]
    exact ih (fun q hq => hread q (List.mem_cons_of_mem _ hq)) _

omit [DecidableEq G] in
theorem ristretto_weights : 8 ∣ r.sha512.outputLen ∧
    ¬ (r.sha512.outputLen ∣ 8 * weightWords ristrettoNumBits ∧ ¬ 8 ∣ weightBytes ristrettoNumBits) := by
  rw [r.sha512_outputLen]
  decide

/-- Signatures that each verify for their signers, aggregated by `aggregate`, pass
    `verify_aggregate` for those signers: a commit the machine builds from valid precommits
    carries an aggregate signature the network accepts. -/
theorem commit_aggregate_verifies (vs : Validators) (signers : List (Bytes 32)) (msg : List UInt8)
    (sigs : List (Bytes 64)) (hlen : signers.length = sigs.length) (hne : signers ≠ [])
    (hsmall : signers.length < 2 ^ 32) (hvalid : ∀ p ∈ signers.zip sigs, vs.verify r p.1 msg p.2 = true) :
    ∃ bytes, vs.aggregate r signers msg sigs = .ok bytes ∧ vs.verifyAggregate r signers msg bytes = .ok true := by
  have hitems : ∀ x ∈ (signers.zip sigs).map (commitItem r vs msg), x.2.2.verify r.suite x.1 x.2.1 = true := by
    intro x hx
    obtain ⟨p, hp, rfl⟩ := List.mem_map.mp hx
    exact (verify_eq_true r (hvalid p hp)).2.2
  have hzip_ne : (signers.zip sigs).map (commitItem r vs msg) ≠ [] := by
    cases signers with
    | nil => exact absurd rfl hne
    | cons a signers => cases sigs with
      | nil => simp at hlen
      | cons b sigs => simp
  obtain ⟨h8, hbits⟩ := ristretto_weights r
  obtain ⟨agg, hcomplete, hRs, hverify⟩ := complete_verify r.suite r.sha512 ristrettoNumBits h8 hbits commitDst hzip_ne hitems
  have hzip_len : (signers.zip sigs).length = signers.length := by simp [hlen]
  have hagg_len : agg.Rs.length < 2 ^ 32 := by simpa [hRs, hzip_len] using hsmall
  have hserialize : agg.serialize r.suite =
      .ok (u32ToLeBytes (UInt32.ofNat agg.Rs.length) ++ agg.Rs.flatMap r.suite.toBytes ++ r.suite.toRepr agg.s) := by
    rw [SchnorrAggregate.serialize, if_pos hagg_len]
  refine ⟨u32ToLeBytes (UInt32.ofNat agg.Rs.length) ++ agg.Rs.flatMap r.suite.toBytes ++ r.suite.toRepr agg.s, ?_, ?_⟩
  · -- building the aggregate: every signature reads, and the aggregator completes
    have hfold := foldlM_aggregateStep r vs msg (signers.zip sigs)
      (fun p hp => (verify_eq_true r (hvalid p hp)).2.1) (SchnorrAggregator.new commitDst)
    simp only [Validators.aggregate, hlen, ne_eq, not_true_eq_false, if_false, hfold, bind, Except.bind, hcomplete,
      hserialize]
  · -- verifying it: it reads back, and the challenges and keys it recomputes are the items'
    have hread := read_serialize r.suite hserialize []
    rw [List.append_nil] at hread
    have hsigners : (signers.zip sigs).map Prod.fst = signers := List.map_fst_zip (by omega)
    have hkeys : signers.mapM (Validators.readSigner r) = .ok (signers.map (decodeKey r)) := by
      refine mapM_except_ok fun key hkey => ?_
      obtain ⟨sig, hp⟩ : ∃ sig, (key, sig) ∈ signers.zip sigs := by
        rw [← hsigners] at hkey
        obtain ⟨⟨k, sig⟩, hp, rfl⟩ := List.mem_map.mp hkey
        exact ⟨sig, hp⟩
      exact (verify_eq_true r (hvalid _ hp)).1
    have hpairs : (signers.map (decodeKey r)).zip ((signers.zip agg.Rs).map fun p =>
        challenge r vs.genesis.val p.1.val (r.suite.toBytes p.2) msg) =
        ((signers.zip sigs).map (commitItem r vs msg)).map fun x => (x.1, x.2.1) := by
      rw [hRs]
      generalize signers.zip sigs = l at hsigners ⊢
      subst hsigners
      simp only [List.map_map, List.zip_map']
      rfl
    have hcount : signers.length = agg.Rs.length := by rw [hRs, List.length_map, List.length_map, hzip_len]
    simp only [Validators.verifyAggregate, hread, hcount, ne_eq, not_true_eq_false, if_false]
    rw [hkeys]
    change SchnorrAggregate.verify _ _ _ _ _ _ = _
    rw [hpairs, hverify]

/-- The signer of key 2's signature of the empty message, with nonce 3. -/
def sigTwo : Bytes 64 :=
  let sig := SchnorrSignature.sign wideFive ((2 : ℕ) : ZMod 5) ((3 : ℕ) : ZMod 5) (challenge ristrettoFive
    genesisZero.val (signerTwo.validatorId ristrettoFive).val (wideFive.toBytes (((3 : ℕ) : ZMod 5) • (1 : ZMod 5))) [])
  ⟨writeSignature wideFive sig, ristrettoFive.writeSignature_length sig⟩

/-- The signer of key 3. -/
def signerThree : Signer (ZMod 5) := ⟨genesisZero, ((3 : ℕ) : ZMod 5)⟩

/-- Validators holding the signers of keys 2 and 3, of weight 1 each. -/
def validatorsTwoThree : Validators :=
  ⟨genesisZero, 2, ((∅ : Std.HashMap (Bytes 32) UInt64).insert (signerTwo.validatorId ristrettoFive) 1).insert
    (signerThree.validatorId ristrettoFive) 1, [signerTwo.validatorId ristrettoFive, signerThree.validatorId ristrettoFive]⟩

/-- The signer of key 3's signature of the empty message, with nonce 4. -/
def sigThree : Bytes 64 :=
  let sig := SchnorrSignature.sign wideFive ((3 : ℕ) : ZMod 5) ((4 : ℕ) : ZMod 5) (challenge ristrettoFive
    genesisZero.val (signerThree.validatorId ristrettoFive).val (wideFive.toBytes (((4 : ℕ) : ZMod 5) • (1 : ZMod 5))) [])
  ⟨writeSignature wideFive sig, ristrettoFive.writeSignature_length sig⟩

theorem commit_aggregate_verifies_two :
    ∃ bytes, validatorsTwoThree.aggregate ristrettoFive
        [signerTwo.validatorId ristrettoFive, signerThree.validatorId ristrettoFive] [] [sigTwo, sigThree] = .ok bytes ∧
      validatorsTwoThree.verifyAggregate ristrettoFive
        [signerTwo.validatorId ristrettoFive, signerThree.validatorId ristrettoFive] [] bytes = .ok true :=
  commit_aggregate_verifies ristrettoFive validatorsTwoThree
    [signerTwo.validatorId ristrettoFive, signerThree.validatorId ristrettoFive] [] [sigTwo, sigThree] rfl
    (by simp) (by decide) (by
      intro p hp
      simp only [List.zip_cons_cons, List.zip_nil_right, List.mem_cons, List.not_mem_nil, or_false] at hp
      rcases hp with rfl | rfl
      · exact verify_writeSignature ristrettoFive validatorsTwoThree 2 3 []
          (Std.HashMap.mem_insert.mpr (.inr Std.HashMap.mem_insert_self))
      · exact verify_writeSignature ristrettoFive validatorsTwoThree 3 4 [] Std.HashMap.mem_insert_self)

end Signatures

/-! ## The round robin is weighted -/

section RoundRobin

theorem newLoop_eq_some (r : Ristretto F G) {st st' : NewState} {validators : List (G × UInt64)}
    (h : newLoop r st validators = .ok (some st')) :
    st'.robin = st.robin ++ validators.flatMap (fun p => List.replicate p.2.toNat (r.pointBytes p.1)) := by
  induction validators generalizing st with
  | nil =>
    cases h
    simp
  | cons p validators ih =>
    obtain ⟨validator, weight⟩ := p
    unfold newLoop newStep at h
    by_cases hzero : weight = 0
    · rw [if_pos hzero] at h
      simp [bind, Except.bind, pure, Except.pure] at h
    · by_cases hover : 2 ^ 64 ≤ st.totalWeight.toNat + weight.toNat
      · rw [if_neg hzero, if_pos hover] at h
        simp [bind, Except.bind] at h
      · rw [if_neg hzero, if_neg hover] at h
        simp only [bind, Except.bind] at h
        rw [ih h, List.flatMap_cons, List.append_assoc]

theorem new_eq_some (r : Ristretto F G) {sh : Shuffle} {genesis : Bytes 32} {validators : List (G × UInt64)}
    {vs : Validators} (h : Validators.new r sh genesis validators = .ok (some vs)) :
    vs.robin.Perm (validators.flatMap fun p => List.replicate p.2.toNat (r.pointBytes p.1)) := by
  unfold Validators.new at h
  cases hloop : newLoop r ⟨0, ∅, DigestTranscript.new (byteString "Round Robin Randomization"), []⟩ validators with
  | error e => simp [hloop, bind, Except.bind] at h
  | ok result =>
    cases result with
    | none => simp [hloop, bind, Except.bind, pure, Except.pure] at h
    | some st =>
      simp only [hloop, bind, Except.bind, pure, Except.pure, Except.ok.injEq, Option.some.injEq] at h
      subst h
      have hrobin := newLoop_eq_some r hloop
      simp only [List.nil_append] at hrobin
      rw [← hrobin]
      exact sh.perm _ _

theorem count_flatMap_replicate (r : Ristretto F G) {validators : List (G × UInt64)}
    (hdistinct : (validators.map fun p => r.suite.toBytes p.1).Nodup) {p : G × UInt64} (hp : p ∈ validators) :
    (validators.flatMap fun q => List.replicate q.2.toNat (r.pointBytes q.1)).count (r.pointBytes p.1) = p.2.toNat := by
  obtain ⟨l₁, l₂, rfl⟩ := List.append_of_mem hp
  have hnot : ∀ q ∈ l₁ ++ l₂, r.pointBytes q.1 ≠ r.pointBytes p.1 := by
    intro q hq heq
    have hbytes : r.suite.toBytes q.1 = r.suite.toBytes p.1 := congrArg Bytes.val heq
    simp only [List.map_append, List.map_cons] at hdistinct
    have := List.nodup_middle.mp hdistinct
    rw [List.nodup_cons] at this
    exact this.1 (by rw [← List.map_append]; exact List.mem_map.mpr ⟨q, hq, hbytes⟩)
  have hzero : ∀ l : List (G × UInt64), (∀ q ∈ l, r.pointBytes q.1 ≠ r.pointBytes p.1) →
      (l.flatMap fun q => List.replicate q.2.toNat (r.pointBytes q.1)).count (r.pointBytes p.1) = 0 := by
    intro l hl
    rw [List.count_eq_zero]
    intro hmem
    obtain ⟨q, hq, hrep⟩ := List.mem_flatMap.mp hmem
    exact hl q hq (List.eq_of_mem_replicate hrep).symm
  rw [List.flatMap_append, List.flatMap_cons, List.count_append, List.count_append,
    hzero l₁ fun q hq => hnot q (List.mem_append_left _ hq), hzero l₂ fun q hq => hnot q (List.mem_append_right _ hq),
    List.count_replicate_self]
  simp

theorem map_range_getElem_mod {α : Type} (l : List α) (k : ℕ) (hl : 0 < l.length) :
    (List.range l.length).map (fun j => l.get ⟨(k + j) % l.length, Nat.mod_lt _ hl⟩) = l.rotate k := by
  apply List.ext_getElem (by simp)
  intro j hj _
  simp [List.getElem_rotate, Nat.add_comm]

/-- The round robin is weighted: in any round, over any `robin.len()` consecutive blocks, each
    validator proposes as many blocks as its weight, when no two validators share a key. -/
theorem proposer_fair (r : Ristretto F G) (sh : Shuffle) (genesis : Bytes 32) (validators : List (G × UInt64))
    {vs : Validators} (hnew : Validators.new r sh genesis validators = .ok (some vs))
    (hdistinct : (validators.map fun p => r.suite.toBytes p.1).Nodup) (block : UInt64) (round : UInt32)
    (hroom : block.toNat + round.toNat + 2 * vs.robin.length < 2 ^ 64) :
    ∃ proposers, (List.range vs.robin.length).mapM (fun j => vs.proposer (block + UInt64.ofNat j) round) =
        .ok proposers ∧ ∀ p ∈ validators, proposers.count (r.pointBytes p.1) = p.2.toNat := by
  have hperm := new_eq_some r hnew
  rcases Nat.eq_zero_or_pos vs.robin.length with hzero | hpos
  · -- no robin: every validator has weight zero
    refine ⟨[], by rw [hzero]; rfl, fun p hp => ?_⟩
    have hcount := count_flatMap_replicate r hdistinct hp
    rw [← hperm.count_eq, List.length_eq_zero_iff.mp hzero] at hcount
    simpa using hcount
  · -- the blocks' proposers are the robin rotated by the first block and the round's offset
    refine ⟨vs.robin.rotate (block.toNat + vs.roundOffset round), ?_, fun p hp => ?_⟩
    · rw [← map_range_getElem_mod vs.robin _ hpos]
      apply mapM_except_ok
      intro j hj
      have hj' : j < vs.robin.length := List.mem_range.mp hj
      have hoffset : vs.roundOffset round ≤ round.toNat + vs.robin.length := by
        unfold Validators.roundOffset
        split <;> omega
      have hblock : (block + UInt64.ofNat j).toNat = block.toNat + j := by
        rw [UInt64.toNat_add, UInt64.toNat_ofNat', Nat.mod_eq_of_lt (a := j) (by omega), Nat.mod_eq_of_lt (by omega)]
      rw [Validators.proposer, if_neg (by omega), hblock, Nat.add_right_comm,
        List.getElem?_eq_getElem (Nat.mod_lt _ hpos), List.get_eq_getElem]
    · rw [(List.rotate_perm _ _).count_eq, hperm.count_eq, count_flatMap_replicate r hdistinct hp]

/-- The shuffle that keeps the order. -/
def keepOrder : Shuffle := ⟨fun _ l => l, fun _ l => List.Perm.refl l⟩

theorem proposer_fair_two_three :
    ∃ vs, Validators.new ristrettoFive keepOrder genesisZero [(2, 2), (3, 1)] = .ok (some vs) ∧
      ∃ proposers, (List.range vs.robin.length).mapM (fun j => vs.proposer (0 + UInt64.ofNat j) 0) =
        .ok proposers ∧ ∀ p ∈ [((2 : ZMod 5), (2 : UInt64)), (3, 1)],
          proposers.count (ristrettoFive.pointBytes p.1) = p.2.toNat :=
  ⟨_, rfl, proposer_fair ristrettoFive keepOrder genesisZero _ rfl (by decide) 0 0 (by decide)⟩

end RoundRobin

end Serai.Tributary
