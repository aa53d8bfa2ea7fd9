import Mathlib
/-
  Serai.Monero.Address — Monero addresses (coins/monero/src/wallet/address.rs).

  An address is its metadata (network and type), a spend key and a view key.
  `to_string` writes the type's byte, both compressed keys, a featured address's feature
  byte and the payment ID if there is one, and base58-check encodes the payload.
  `from_str_raw` decodes, reads the byte back (`AddressMeta::from_byte`, which leaves the
  payment ID zero), decompresses both keys, reads a featured address's feature byte,
  checks the length and copies the payment ID. Points and base58-check are parameters
  (`PointCodec`, `Base58Check`), each with the law the code relies on; a panic is `none`.

  Proved, for the Monero network bytes:
  - `fromStrRaw_toString`: every address reads back from its string;
  - `fromRaw_isSome`: reading a payload panics only on 65 bytes whose first byte is
    a featured address's and whose keys decompress, where `raw[65]` is out of bounds;
  - `from_str_raw_mishandles_features`: that panic, and a feature byte with the unknown
    bit 3 set, which the check `raw[read] >= (2 << 3)` lets through and `to_string`
    writes back without.
-/

namespace Serai.Monero

inductive Network where
  | mainnet
  | testnet
  | stagenet
  deriving DecidableEq, Repr

/-- A payment ID: 8 bytes. -/
structure PaymentId where
  bytes : List UInt8
  length_bytes : bytes.length = 8
  deriving DecidableEq

/-- `[0; 8]`. -/
def PaymentId.zero : PaymentId := ⟨List.replicate 8 0, List.length_replicate⟩

inductive AddressType where
  | standard
  | integrated (id : PaymentId)
  | subaddress
  | featured (subaddress : Bool) (paymentId : Option PaymentId) (guaranteed : Bool)
  deriving DecidableEq

/-- `AddressType::payment_id`. -/
def AddressType.paymentId : AddressType → Option PaymentId
  | .integrated id => some id
  | .featured _ paymentId _ => paymentId
  | _ => none

/-- `AddressBytes::network_bytes`: a network's standard, integrated, subaddress and
    featured bytes. -/
structure AddressBytes where
  networkBytes : Network → UInt8 × UInt8 × UInt8 × UInt8

/-- `MoneroAddressBytes`. -/
def MoneroAddressBytes : AddressBytes where
  networkBytes
    | .mainnet => (18, 19, 42, 70)
    | .testnet => (53, 54, 63, 111)
    | .stagenet => (24, 25, 36, 86)

inductive AddressError where
  | invalidByte
  | invalidEncoding
  | invalidLength
  | invalidKey
  | unknownFeatures
  | differentNetwork
  deriving DecidableEq, Repr

structure AddressMeta where
  network : Network
  kind : AddressType
  deriving DecidableEq

/-- `AddressMeta::to_byte`. -/
def AddressMeta.toByte (B : AddressBytes) (metadata : AddressMeta) : UInt8 :=
  let bytes := B.networkBytes metadata.network
  match metadata.kind with
  | .standard => bytes.1
  | .integrated _ => bytes.2.1
  | .subaddress => bytes.2.2.1
  | .featured .. => bytes.2.2.2

/-- The type one network's bytes give a byte, its payment ID zero. -/
def kindOfByte (bytes : UInt8 × UInt8 × UInt8 × UInt8) (byte : UInt8) : Option AddressType :=
  if byte = bytes.1 then some .standard
  else if byte = bytes.2.1 then some (.integrated PaymentId.zero)
  else if byte = bytes.2.2.1 then some .subaddress
  else if byte = bytes.2.2.2 then some (.featured false none false)
  else none

/-- `AddressMeta::from_byte`: the first network, in order, whose bytes hold the byte. -/
def AddressMeta.fromByte (B : AddressBytes) (byte : UInt8) : Except AddressError AddressMeta :=
  match [Network.mainnet, .testnet, .stagenet].findSome? fun network =>
      (kindOfByte (B.networkBytes network) byte).map (⟨network, ·⟩) with
  | some metadata => .ok metadata
  | none => .error .invalidByte

/-- An address type with its payment ID zeroed and its features cleared, as `from_byte`
    reads it. -/
def AddressType.blank : AddressType → AddressType
  | .standard => .standard
  | .integrated _ => .integrated PaymentId.zero
  | .subaddress => .subaddress
  | .featured .. => .featured false none false

/-- Ed25519 points: `compress().to_bytes()` and `CompressedEdwardsY::decompress`, which
    reads back every point's compression. -/
structure PointCodec (P : Type) where
  compress : P → List UInt8
  length_compress : ∀ p, (compress p).length = 32
  decompress : List UInt8 → Option P
  decompress_compress : ∀ p, decompress (compress p) = some p

/-- `decompress_point`: unreduced encodings and `-0` are banned. -/
def decompressPoint {P : Type} (codec : PointCodec P) (bytes : List UInt8) : Option P :=
  (codec.decompress bytes).filter fun p => codec.compress p = bytes

/-- `base58_monero`'s `encode_check` and `decode_check`, which inverts it. -/
structure Base58Check (S : Type) where
  encodeCheck : List UInt8 → S
  decodeCheck : S → Option (List UInt8)
  decode_encode : ∀ data, decodeCheck (encodeCheck data) = some data

structure Address (P : Type) where
  metadata : AddressMeta
  spend : P
  view : P

variable {P S : Type}

/-- The feature byte `to_string` writes. -/
def featureByte (subaddress : Bool) (paymentId : Option PaymentId) (guaranteed : Bool) : UInt8 :=
  subaddress.toUInt8 + (paymentId.isSome.toUInt8 <<< 1) + (guaranteed.toUInt8 <<< 2)

/-- The payload `to_string` base58-check encodes. -/
def Address.payload (B : AddressBytes) (codec : PointCodec P) (a : Address P) : List UInt8 :=
  let data := a.metadata.toByte B :: (codec.compress a.spend ++ codec.compress a.view)
  let data := match a.metadata.kind with
    | .featured subaddress paymentId guaranteed => data ++ [featureByte subaddress paymentId guaranteed]
    | _ => data
  match a.metadata.kind.paymentId with
  | some id => data ++ id.bytes
  | none => data

/-- `to_string`. -/
def Address.toString (B : AddressBytes) (codec : PointCodec P) (b58 : Base58Check S) (a : Address P) : S :=
  b58.encodeCheck (a.payload B codec)

/-- The feature byte of a featured address at `read`: the metadata it completes and the
    bytes read. `raw[read]` out of bounds is a panic. -/
def readFeatures (metadata : AddressMeta) (raw : List UInt8) (read : ℕ) :
    Option (Except AddressError (AddressMeta × ℕ)) :=
  match metadata.kind with
  | .featured .. =>
    match raw[read]? with
    | none => none
    | some f =>
      if (2 : UInt8) <<< 3 ≤ f then some (.error .unknownFeatures)
      else
        let subaddress := (f &&& 1) == 1
        let integrated := ((f >>> 1) &&& 1) == 1
        let guaranteed := ((f >>> 2) &&& 1) == 1
        some (.ok ({ metadata with kind := .featured subaddress (if integrated then some PaymentId.zero else none) guaranteed },
          read + 1))
  | _ => some (.ok (metadata, read))

/-- `copy_from_slice` into a payment ID, which panics on a slice of another length. -/
def PaymentId.ofSlice (slice : List UInt8) : Option PaymentId :=
  if h : slice.length = 8 then some ⟨slice, h⟩ else none

/-- The payment ID copied from the 8 bytes before `read`. -/
def fillPaymentId (kind : AddressType) (raw : List UInt8) (read : ℕ) : Option AddressType :=
  let slice := (raw.drop (read - 8)).take 8
  match kind with
  | .integrated _ => (PaymentId.ofSlice slice).map .integrated
  | .featured subaddress (some _) guaranteed =>
    (PaymentId.ofSlice slice).map fun id => .featured subaddress (some id) guaranteed
  | kind => some kind

/-- `from_str_raw` past the keys: the feature byte, the length check and the payment ID. -/
def Address.readRest (metadata : AddressMeta) (spend view : P) (raw : List UInt8) :
    Option (Except AddressError (Address P)) :=
  match readFeatures metadata raw 65 with
  | none => none
  | some (.error e) => some (.error e)
  | some (.ok (metadata, read)) =>
    -- the payment ID's bytes are counted before the length is checked
    let read := if metadata.kind.paymentId.isSome then read + 8 else read
    if raw.length ≠ read then some (.error .invalidLength)
    else (fillPaymentId metadata.kind raw read).map fun kind => .ok ⟨{ metadata with kind := kind }, spend, view⟩

/-- `from_str_raw` after `decode_check`. -/
def Address.fromRaw (B : AddressBytes) (codec : PointCodec P) (raw : List UInt8) :
    Option (Except AddressError (Address P)) :=
  if raw.length < 1 + 32 + 32 then some (.error .invalidLength)
  else
    match AddressMeta.fromByte B (raw.headD 0) with
    | .error e => some (.error e)
    | .ok metadata =>
      match decompressPoint codec ((raw.drop 1).take 32) with
      | none => some (.error .invalidKey)
      | some spend =>
        match decompressPoint codec ((raw.drop 33).take 32) with
        | none => some (.error .invalidKey)
        | some view => Address.readRest metadata spend view raw

/-- `from_str_raw`. -/
def Address.fromStrRaw (B : AddressBytes) (codec : PointCodec P) (b58 : Base58Check S) (s : S) :
    Option (Except AddressError (Address P)) :=
  match b58.decodeCheck s with
  | none => some (.error .invalidEncoding)
  | some raw => Address.fromRaw B codec raw

/-- `from_str`: the address must be of the network given. -/
def Address.fromStr (B : AddressBytes) (codec : PointCodec P) (b58 : Base58Check S) (network : Network) (s : S) :
    Option (Except AddressError (Address P)) :=
  (Address.fromStrRaw B codec b58 s).map fun r => r.bind fun a =>
    if a.metadata.network = network then .ok a else .error .differentNetwork

/-! ## Reading an address back -/

theorem fromByte_toByte (metadata : AddressMeta) :
    AddressMeta.fromByte MoneroAddressBytes (metadata.toByte MoneroAddressBytes) =
      .ok ⟨metadata.network, metadata.kind.blank⟩ := by
  obtain ⟨network, kind⟩ := metadata
  cases network <;> cases kind <;> rfl

theorem decompressPoint_compress (codec : PointCodec P) (p : P) : decompressPoint codec (codec.compress p) = some p := by
  simp [decompressPoint, codec.decompress_compress]

theorem featureByte_bits (subaddress : Bool) (paymentId : Option PaymentId) (guaranteed : Bool) :
    ¬ (2 : UInt8) <<< 3 ≤ featureByte subaddress paymentId guaranteed ∧
      ((featureByte subaddress paymentId guaranteed &&& 1) == 1) = subaddress ∧
      (((featureByte subaddress paymentId guaranteed >>> 1) &&& 1) == 1) = paymentId.isSome ∧
      (((featureByte subaddress paymentId guaranteed >>> 2) &&& 1) == 1) = guaranteed := by
  unfold featureByte
  generalize paymentId.isSome = integrated
  cases subaddress <;> cases integrated <;> cases guaranteed <;> decide

theorem fromRaw_keys (B : AddressBytes) (codec : PointCodec P) {byte : UInt8} {metadata : AddressMeta}
    (hb : AddressMeta.fromByte B byte = .ok metadata) (spend view : P) (tail : List UInt8) :
    Address.fromRaw B codec (byte :: (codec.compress spend ++ codec.compress view ++ tail)) =
      Address.readRest metadata spend view (byte :: (codec.compress spend ++ codec.compress view ++ tail)) := by
  have hs := codec.length_compress spend
  have hv := codec.length_compress view
  have hlen : ¬ (byte :: (codec.compress spend ++ codec.compress view ++ tail)).length < 1 + 32 + 32 := by
    simp only [List.length_cons, List.length_append, hs, hv]
    omega
  have hspend : ((byte :: (codec.compress spend ++ codec.compress view ++ tail)).drop 1).take 32 = codec.compress spend := by
    rw [List.drop_one, List.tail_cons, List.append_assoc, List.take_left' hs]
  have hview : ((byte :: (codec.compress spend ++ codec.compress view ++ tail)).drop 33).take 32 = codec.compress view := by
    rw [show 33 = (codec.compress spend).length + 1 by omega, List.drop_succ_cons, List.append_assoc, List.drop_left,
      List.take_left' hv]
  simp only [Address.fromRaw, hlen, if_false, List.headD_cons, hb, hspend, hview, decompressPoint_compress]

theorem fromRaw_payload (codec : PointCodec P) (a : Address P) :
    Address.fromRaw MoneroAddressBytes codec (a.payload MoneroAddressBytes codec) = some (.ok a) := by
  obtain ⟨⟨network, kind⟩, spend, view⟩ := a
  have hb := fromByte_toByte ⟨network, kind⟩
  have hs := codec.length_compress spend
  have hv := codec.length_compress view
  -- the payload is the byte, the keys, and a tail that depends on the type
  cases kind with
  | standard =>
    have hraw := fromRaw_keys MoneroAddressBytes codec hb spend view []
    simp only [List.append_nil] at hraw
    simp only [Address.payload, AddressType.paymentId, hraw]
    simp [Address.readRest, readFeatures, AddressType.blank, AddressType.paymentId, fillPaymentId, hs, hv]
  | subaddress =>
    have hraw := fromRaw_keys MoneroAddressBytes codec hb spend view []
    simp only [List.append_nil] at hraw
    simp only [Address.payload, AddressType.paymentId, hraw]
    simp [Address.readRest, readFeatures, AddressType.blank, AddressType.paymentId, fillPaymentId, hs, hv]
  | integrated id =>
    have hraw := fromRaw_keys MoneroAddressBytes codec hb spend view id.bytes
    simp only [Address.payload, AddressType.paymentId, List.cons_append, List.append_assoc] at hraw ⊢
    rw [hraw]
    -- the payment ID is the last 8 bytes
    have hdrop : (codec.compress spend ++ (codec.compress view ++ id.bytes)).drop 64 = id.bytes := by
      rw [← List.append_assoc]
      exact List.drop_left' (by simp [hs, hv])
    obtain ⟨idBytes, hid⟩ := id
    simp [Address.readRest, readFeatures, AddressType.blank, AddressType.paymentId, fillPaymentId, hs, hv,
      hid, PaymentId.ofSlice, hdrop]
  | featured subaddress paymentId guaranteed =>
    obtain ⟨hlt, hsub, hint, hguar⟩ := featureByte_bits subaddress paymentId guaranteed
    cases paymentId with
    | none =>
      have hraw := fromRaw_keys MoneroAddressBytes codec hb spend view [featureByte subaddress none guaranteed]
      simp only [Address.payload, AddressType.paymentId, List.cons_append, List.append_assoc] at hraw ⊢
      rw [hraw]
      simp [Address.readRest, readFeatures, AddressType.blank, AddressType.paymentId, fillPaymentId, hs, hv,
        hlt, hsub, hint, hguar]
    | some id =>
      have hraw := fromRaw_keys MoneroAddressBytes codec hb spend view (featureByte subaddress (some id) guaranteed :: id.bytes)
      simp only [Address.payload, AddressType.paymentId, List.cons_append, List.append_assoc,
        List.nil_append] at hraw ⊢
      rw [hraw]
      have hdrop : (codec.compress spend ++ (codec.compress view ++ featureByte subaddress (some id) guaranteed :: id.bytes)).drop 65 =
          id.bytes := by
        rw [← List.append_assoc, List.drop_append]
        simp [hs, hv]
      obtain ⟨idBytes, hid⟩ := id
      simp [Address.readRest, readFeatures, AddressType.blank, AddressType.paymentId, fillPaymentId, hs, hv,
        hlt, hsub, hint, hguar, hid, PaymentId.ofSlice, hdrop]

theorem fromStrRaw_toString (codec : PointCodec P) (b58 : Base58Check S) (a : Address P) :
    Address.fromStrRaw MoneroAddressBytes codec b58 (a.toString MoneroAddressBytes codec b58) = some (.ok a) := by
  rw [Address.fromStrRaw, Address.toString, b58.decode_encode]
  exact fromRaw_payload codec a

/-! ## Panics -/

theorem readFeatures_isSome (metadata : AddressMeta) {raw : List UInt8} (h : 65 < raw.length) :
    (readFeatures metadata raw 65).isSome := by
  unfold readFeatures
  split
  · rw [List.getElem?_eq_getElem h]
    dsimp only
    split <;> rfl
  · rfl

theorem fillPaymentId_isSome (kind : AddressType) {raw : List UInt8} (h : kind.paymentId.isSome → 8 ≤ raw.length) :
    (fillPaymentId kind raw raw.length).isSome := by
  have hslice : kind.paymentId.isSome → ((raw.drop (raw.length - 8)).take 8).length = 8 := by
    intro hp
    have := h hp
    simp only [List.length_take, List.length_drop]
    omega
  cases kind with
  | integrated id => simp [fillPaymentId, PaymentId.ofSlice, hslice rfl]
  | featured subaddress paymentId guaranteed =>
    cases paymentId with
    | none => rfl
    | some id => simp [fillPaymentId, PaymentId.ofSlice, hslice rfl]
  | standard => rfl
  | subaddress => rfl

theorem readRest_isSome (metadata : AddressMeta) (spend view : P) {raw : List UInt8} (h : 65 < raw.length) :
    (Address.readRest metadata spend view raw).isSome := by
  obtain ⟨r, hr⟩ := Option.isSome_iff_exists.mp (readFeatures_isSome metadata h)
  unfold Address.readRest
  rw [hr]
  rcases r with e | ⟨m, read⟩
  · rfl
  · dsimp only
    by_cases hl : raw.length = if m.kind.paymentId.isSome then read + 8 else read
    · -- the length check passed: the payment ID is the last 8 bytes
      rw [if_neg (not_not.mpr hl), ← hl, Option.isSome_map]
      refine fillPaymentId_isSome m.kind fun hp => ?_
      rw [hl, if_pos hp]
      omega
    · rw [if_pos hl]
      rfl

theorem fromRaw_isSome (B : AddressBytes) (codec : PointCodec P) {raw : List UInt8} (h : raw.length ≠ 65) :
    (Address.fromRaw B codec raw).isSome := by
  unfold Address.fromRaw
  split
  · rfl
  · rename_i hlen
    split
    · rfl
    · split
      · rfl
      · split
        · rfl
        · exact readRest_isSome _ _ _ (by omega)

/-! ## Featured payloads -/

/-- `from_str_raw` indexes the feature byte of a featured address before checking there is
    one, so a featured payload of 65 bytes panics; and it rejects feature bytes from
    `2 << 3` on, so bit 3, which no feature has, is accepted: the address it reads writes
    its payload back with that bit cleared. -/
theorem from_str_raw_mishandles_features (codec : PointCodec P) (b58 : Base58Check S) (network : Network)
    (spend view : P) :
    let featured := (MoneroAddressBytes.networkBytes network).2.2.2 :: (codec.compress spend ++ codec.compress view)
    Address.fromStrRaw MoneroAddressBytes codec b58 (b58.encodeCheck featured) = none ∧
    ∃ a : Address P, Address.fromStrRaw MoneroAddressBytes codec b58 (b58.encodeCheck (featured ++ [8])) = some (.ok a) ∧
      a.payload MoneroAddressBytes codec = featured ++ [0] := by
  intro featured
  have hb : AddressMeta.fromByte MoneroAddressBytes (MoneroAddressBytes.networkBytes network).2.2.2 =
      .ok ⟨network, .featured false none false⟩ := by
    cases network <;> rfl
  have hs := codec.length_compress spend
  have hv := codec.length_compress view
  have hcut := fromRaw_keys MoneroAddressBytes codec hb spend view []
  have hbit := fromRaw_keys MoneroAddressBytes codec hb spend view [8]
  simp only [List.append_nil] at hcut
  simp only [featured, Address.fromStrRaw, b58.decode_encode, List.cons_append]
  refine ⟨?_, ⟨⟨network, .featured false none false⟩, spend, view⟩, ?_, ?_⟩
  · -- `raw[65]` of 65 bytes
    rw [hcut]
    simp [Address.readRest, readFeatures, hs, hv]
  · rw [hbit]
    -- byte 8 passes the check and sets none of the three features
    have h16 : ¬ (2 : UInt8) <<< 3 ≤ 8 := by decide
    have hsub : ((8 : UInt8) &&& 1 == 1) = false := by decide
    have hint : ¬ ((8 : UInt8) >>> 1 &&& 1 = 1) := by decide
    have hguar : ((8 : UInt8) >>> 2 &&& 1 == 1) = false := by decide
    simp [Address.readRest, readFeatures, AddressType.paymentId, fillPaymentId, hs, hv, h16, hsub, hint, hguar]
  · have hzero : featureByte false none false = 0 := rfl
    simp [Address.payload, AddressMeta.toByte, AddressType.paymentId, hzero]

/-- A deployment whose points are the one point of `Unit`, with strings their payloads. -/
def PointCodec.unit : PointCodec Unit := ⟨fun _ => List.replicate 32 0, fun _ => List.length_replicate, fun _ => some (), fun _ => rfl⟩

def Base58Check.identity : Base58Check (List UInt8) := ⟨id, some, fun _ => rfl⟩

theorem from_str_raw_mishandles_features_mainnet :
    let featured := (MoneroAddressBytes.networkBytes .mainnet).2.2.2 ::
      (PointCodec.unit.compress () ++ PointCodec.unit.compress ())
    Address.fromStrRaw MoneroAddressBytes PointCodec.unit Base58Check.identity (Base58Check.identity.encodeCheck featured) =
        none ∧
    ∃ a : Address Unit, Address.fromStrRaw MoneroAddressBytes PointCodec.unit Base58Check.identity
        (Base58Check.identity.encodeCheck (featured ++ [8])) = some (.ok a) ∧
      a.payload MoneroAddressBytes PointCodec.unit = featured ++ [0] :=
  from_str_raw_mishandles_features PointCodec.unit Base58Check.identity .mainnet () ()

end Serai.Monero
