import Mathlib
import Serai.Monero.Seed
/-
  Serai.Monero.Polyseed — polyseeds (coins/monero/src/wallet/seed/polyseed.rs): `elem_mul2`,
  `poly_eval`, `valid_entropy`, `Polyseed::to_poly`, `from_internal`, `from_string` and
  `to_string`.

  A polyseed is 16 coefficients of 11 bits over GF(2¹¹), one word each: the checksum, then 15
  words that each carry 10 of the 150 secret bits (read from the entropy bytes most significant
  bit first, the 19th byte giving 6) and, in the low bit, one of the 15 bits of the features
  (5) and the birthday (10). `to_poly` reads the entropy with a byte cursor, `from_string`
  writes it back with another; both are modelled as the code runs them, a `while` loop on
  fuel that a word never exhausts.

  The word lists are a parameter (`WordList`): 2048 words, each non-empty and without
  whitespace, told apart by their first `PREFIX_LEN` characters in the languages that look
  words up by prefix and by the whole word in the others (after dropping accents in the
  languages that have them). A panic is `SeedFail.panic`.

  Proved, for every word list, language, features, birthday and entropy:
  - `toPoly_spec` / `unpackPoly_spec`: `to_poly` writes bit `j` of the secret as bit
    `10 - j % 10` of coefficient `1 + j / 10`, and `from_string` reads every such bit back
    into the entropy, the 15 low bits into `extra`.
  - `validEntropy_iff`: `valid_entropy` holds exactly when every byte is within its width of
    the secret.
  - `coeff_word`: every word of a list is found at its own index.
  - `polyseed_round_trips`: a seed's polynomial with its checksum has value zero; its words
    read back as the seed with the features' low 5 bits, so as the seed itself when the
    features fit in `FEATURE_BITS`; and the polynomial of a seed `from_string` returns is the
    one its words decode to.
-/

namespace Serai.Monero

namespace Polyseed

/-! ## Parameters -/

/-- `FEATURE_BITS`. -/
abbrev featureBits : ℕ := 5

/-- `RESERVED_FEATURES_MASK`: `((1 << FEATURE_BITS) - 1) ^ ENCRYPTED_MASK`, `ENCRYPTED_MASK`
    being `1 << 4`. -/
abbrev reservedFeaturesMask : UInt8 := 15

/-- `DATE_BITS`. -/
abbrev dateBits : ℕ := 10

/-- `DATE_MASK`: `(1 << DATE_BITS) - 1`. -/
abbrev dateMask : UInt16 := 1023

/-- `SECRET_BITS`. -/
abbrev secretBits : ℕ := 150

/-- `BITS_PER_BYTE`. -/
abbrev bitsPerByte : ℕ := 8

/-- `SECRET_SIZE`: `SECRET_BITS.div_ceil(BITS_PER_BYTE)`. -/
abbrev secretSize : ℕ := 19

/-- `LAST_BYTE_SECRET_BITS_MASK`: `(1 << (BITS_PER_BYTE - CLEAR_BITS)) - 1`, `CLEAR_BITS` being
    `SECRET_SIZE * BITS_PER_BYTE - SECRET_BITS = 2`. -/
abbrev lastByteSecretBitsMask : UInt8 := 63

/-- `SECRET_BITS_PER_WORD`. -/
abbrev secretBitsPerWord : ℕ := 10

/-- `POLYSEED_LENGTH`. -/
abbrev polyseedLength : ℕ := 16

/-- `PREFIX_LEN`. -/
abbrev prefixLen : ℕ := 4

/-- `POLY_NUM_CHECK_DIGITS`. -/
abbrev polyNumCheckDigits : ℕ := 1

/-- `DATA_WORDS`: `POLYSEED_LENGTH - POLY_NUM_CHECK_DIGITS`. -/
abbrev dataWords : ℕ := 15

/-- `GF_BITS`. -/
abbrev gfBits : ℕ := 11

/-- `POLYSEED_MUL2_TABLE`. -/
def polyseedMul2Table : List UInt16 := [5, 7, 1, 3, 13, 15, 9, 11]

/-- `COIN`, Monero's. -/
abbrev coin : UInt16 := 0

/-! ## Languages and word lists -/

inductive Language where
  | english
  | spanish
  | french
  | italian
  | japanese
  | korean
  | czech
  | portuguese
  | chineseSimplified
  | chineseTraditional
  deriving DecidableEq, Repr

/-- The `ascii` closure of `from_string`: the word's ASCII characters. -/
def ascii (word : String) : String := String.ofList (word.toList.filter Char.isAscii)

/-- A word as `from_string` compares it: without its accents where the language has them. -/
def compared (hasAccent : Bool) (word : String) : String := if hasAccent then ascii word else word

/-- What `from_string` tells words apart by: their first `PREFIX_LEN` characters where the
    language has prefixes, the whole word where not, compared as `from_string` compares them. -/
def lookupKey (hasPrefix hasAccent : Bool) (word : String) : List Char :=
  if hasPrefix then (compared hasAccent word).toList.take prefixLen else (compared hasAccent word).toList

/-- `WordList`. The crate's lists have 2048 words, each non-empty and without whitespace,
    whose keys for `from_string` differ. -/
structure WordList where
  words : List String
  hasPrefix : Bool
  hasAccent : Bool
  length_words : words.length = 2048
  word_ne_nil : ∀ w ∈ words, w.toList ≠ []
  no_whitespace : ∀ w ∈ words, ∀ c ∈ w.toList, isWhitespace c = false
  nodup_keys : (words.map (lookupKey hasPrefix hasAccent)).Nodup

/-- `words[i]`, the index being below the list's length wherever it is read. -/
def WordList.word (lang : WordList) (i : ℕ) : String := lang.words.getD i ""

end Polyseed

/-! ## The polyseed -/

/-- `Polyseed`. -/
structure Polyseed where
  language : Polyseed.Language
  features : UInt8
  birthday : UInt16
  entropy : Vector UInt8 32
  checksum : UInt16
  deriving DecidableEq

namespace Polyseed

/-- `Poly`: the 16 coefficients. -/
abbrev Poly := Vector UInt16 polyseedLength

/-- `polyseed_features_supported`. -/
def polyseedFeaturesSupported (features : UInt8) : Bool := features &&& reservedFeaturesMask == 0

/-- `valid_entropy`: the last byte of the secret uses its low 6 bits only, and the bytes
    after it are zero. -/
def validEntropy (entropy : Vector UInt8 32) : Bool :=
  let res := entropy.getD (secretSize - 1) 0 == (entropy.getD (secretSize - 1) 0 &&& lastByteSecretBitsMask)
  (List.range' secretSize (32 - secretSize)).foldl (fun res b => res && entropy.getD b 0 == 0) res

/-- `elem_mul2`: doubling in GF(2¹¹). -/
def elemMul2 (x : UInt16) : UInt16 :=
  if x < 1024 then 2 * x else polyseedMul2Table.getD (x % 8).toNat 0 + 16 * ((x - 1024) / 8)

/-- `poly_eval`: Horner's method at `x = 2`, from the last coefficient down. -/
def polyEval (poly : Poly) : UInt16 :=
  (List.range (polyseedLength - 1)).reverse.foldl (fun result i => elemMul2 result ^^^ poly.getD i 0)
    (poly.getD (polyseedLength - 1) 0)

/-! ## `to_poly`: the entropy's bits into the words -/

/-- `to_poly`'s cursor in the entropy: the byte, the bits of it still to read, and the
    secret's bits after it. -/
structure Packer where
  entropyIdx : ℕ
  secretBits : ℕ
  seedRemBits : ℕ

/-- To the next byte when this one is read: its bits are the secret's next
    `min(seed_rem_bits, BITS_PER_BYTE)`. -/
def Packer.refill (p : Packer) : Packer :=
  if p.secretBits = 0 then
    ⟨p.entropyIdx + 1, min p.seedRemBits bitsPerByte, p.seedRemBits - min p.seedRemBits bitsPerByte⟩
  else p

/-- One pass of `to_poly`'s inner loop: to the next byte if this one is read, then as many of
    its bits as the word still takes. Returns the word's bits and value, and the cursor. -/
def packChunk (entropy : Vector UInt8 32) (wordBits : ℕ) (wordVal : UInt16) (p : Packer) :
    ℕ × UInt16 × Packer :=
  let p := p.refill
  let chunkBits := min p.secretBits (secretBitsPerWord - wordBits)
  let secretBits := p.secretBits - chunkBits
  let wordVal := (wordVal <<< chunkBits.toUInt16) |||
    ((entropy.getD p.entropyIdx 0).toUInt16 >>> secretBits.toUInt16 &&& ((1 <<< chunkBits.toUInt16) - 1))
  (wordBits + chunkBits, wordVal, ⟨p.entropyIdx, secretBits, p.seedRemBits⟩)

/-- `while word_bits < SECRET_BITS_PER_WORD`, on `fuel` passes. -/
def packWord (entropy : Vector UInt8 32) : ℕ → ℕ → UInt16 → Packer → UInt16 × Packer
  | 0, _, wordVal, p => (wordVal, p)
  | fuel + 1, wordBits, wordVal, p =>
    if wordBits < secretBitsPerWord then
      let r := packChunk entropy wordBits wordVal p
      packWord entropy fuel r.1 r.2.1 r.2.2
    else (wordVal, p)

/-- One word of `to_poly`: its 10 secret bits, then the next bit of `extra_val`, at index
    `POLY_NUM_CHECK_DIGITS + i`. The state is `extra_bits`, the cursor and the polynomial. -/
def packStep (entropy : Vector UInt8 32) (extraVal : UInt16) (acc : ℕ × Packer × Poly) (i : ℕ) :
    ℕ × Packer × Poly :=
  let extraBits := acc.1 - 1
  -- a word never takes more passes than it has bits
  let r := packWord entropy secretBitsPerWord 0 0 acc.2.1
  let wordVal := (r.1 <<< 1) ||| ((extraVal >>> extraBits.toUInt16) &&& 1)
  (extraBits, r.2, acc.2.2.setIfInBounds (polyNumCheckDigits + i) wordVal)

/-- `extra_val` of `to_poly`: the features above the birthday's `DATE_BITS`. -/
def extraVal (features : UInt8) (birthday : UInt16) : UInt16 := (features.toUInt16 <<< dateBits.toUInt16) ||| birthday

/-- `Polyseed::to_poly`; the checksum's coefficient is left `0`. -/
def toPoly (seed : Polyseed) : Poly :=
  ((List.range dataWords).foldl (packStep seed.entropy (extraVal seed.features seed.birthday))
    (featureBits + dateBits, ⟨0, bitsPerByte, secretBits - bitsPerByte⟩, Vector.replicate polyseedLength 0)).2.2

/-- `Polyseed::from_internal`: the features and the entropy checked, the checksum computed. -/
def fromInternal (language : Language) (maskedFeatures : UInt8) (encodedBirthday : UInt16)
    (entropy : Vector UInt8 32) : Except SeedFail Polyseed :=
  if !polyseedFeaturesSupported maskedFeatures then .error (.error .unsupportedFeatures)
  else if !validEntropy entropy then .error (.error .invalidEntropy)
  else
    let res : Polyseed := ⟨language, maskedFeatures, encodedBirthday, entropy, 0⟩
    .ok { res with checksum := polyEval res.toPoly }

/-- `Polyseed::to_string`: the polynomial with the checksum (and `COIN`), a word each,
    separated by spaces. -/
def toString (languages : Language → WordList) (seed : Polyseed) : String :=
  let poly := seed.toPoly.set 0 seed.checksum
  let poly := poly.set polyNumCheckDigits (poly[polyNumCheckDigits] ^^^ coin)
  let words := languages seed.language
  (List.range polyseedLength).foldl (fun s i =>
      let s := s ++ words.word (poly.getD i 0).toNat
      if i < polyseedLength - 1 then s.push ' ' else s) ""

/-! ## `from_string`: the words into the coefficients -/

/-- The `PREFIX_LEN` comparisons of `check_if_matches`, character by character, a missing
    character equal only to a missing one. -/
def prefixMatches (langWord word : String) : Bool :=
  (List.range prefixLen).foldl (fun res i => res && langWord.toList[i]? == word.toList[i]?) true

/-- `check_if_matches`: with prefixes, the first word whose prefix matches, if no later one's
    does; otherwise the word's position. -/
def checkIfMatches (hasPrefix : Bool) (langWords : List String) (word : String) : Option ℕ :=
  if hasPrefix then
    match langWords.findIdx? (prefixMatches · word) with
    | none => none
    | some res =>
      -- `get_position` again, on what the first search left of the iterator
      if ((langWords.drop (res + 1)).findIdx? (prefixMatches · word)).isSome then none else some res
  else langWords.findIdx? (· == word)

/-- The coefficient of one word: accents dropped on both sides where the language has them. -/
def WordList.coeff (lang : WordList) (word : String) : Option ℕ :=
  if lang.hasAccent then checkIfMatches lang.hasPrefix (lang.words.map ascii) (ascii word)
  else checkIfMatches lang.hasPrefix lang.words word

/-- The loop of `from_string` over the words: each found, and written at its index, which
    panics past the 16th. -/
def decodeWords (lang : WordList) : ℕ → List String → Poly → Except SeedFail Poly
  | _, [], poly => .ok poly
  | i, word :: words, poly =>
    match lang.coeff word with
    | none => .error (.error .invalidSeed)
    | some coeff =>
      -- `u16::try_from(coeff).expect(..)`, then `poly[i]`
      if coeff < 2 ^ 16 ∧ i < polyseedLength then decodeWords lang (i + 1) words (poly.setIfInBounds i coeff.toUInt16)
      else .error .panic

/-- The coefficients `from_string` decodes, `COIN` taken out. -/
def decodePoly (lang : WordList) (seed : String) : Except SeedFail Poly := do
  let poly ← decodeWords lang 0 (splitWhitespace seed) (Vector.replicate polyseedLength 0)
  pure (poly.set polyNumCheckDigits (poly[polyNumCheckDigits] ^^^ coin))

/-! ## `from_string`: the coefficients into the entropy -/

/-- `from_string`'s cursor in the entropy it writes: the bytes, the byte, and its bits
    written. -/
structure Unpacker where
  entropy : Vector UInt8 32
  entropyIdx : ℕ
  entropyBits : ℕ

/-- To the next byte when this one is full. -/
def Unpacker.advance (u : Unpacker) : Unpacker :=
  if u.entropyBits = bitsPerByte then ⟨u.entropy, u.entropyIdx + 1, 0⟩ else u

/-- One pass of the inner loop: to the next byte if this one is full, then as many of the
    word's `wordBits` remaining bits as fit, shifted in. Returns the word's remaining bits. -/
def unpackChunk (wordVal : UInt16) (wordBits : ℕ) (u : Unpacker) : Except SeedFail (ℕ × Unpacker) :=
  let u := u.advance
  let chunkBits := min wordBits (bitsPerByte - u.entropyBits)
  let wordBits := wordBits - chunkBits
  let chunkMask : UInt16 := (1 <<< chunkBits.toUInt16) - 1
  let byte := u.entropy.getD u.entropyIdx 0
  -- a shift by a whole byte is skipped: the byte is then still `0`
  let byte := if chunkBits < bitsPerByte then byte <<< chunkBits.toUInt8 else byte
  let chunk := (wordVal >>> wordBits.toUInt16) &&& chunkMask
  -- `u8::try_from(..).expect(..)`
  if chunk.toNat < 2 ^ 8 then
    .ok (wordBits, ⟨u.entropy.setIfInBounds u.entropyIdx (byte ||| chunk.toUInt8), u.entropyIdx,
      u.entropyBits + chunkBits⟩)
  else .error .panic

/-- `while word_bits > 0`, on `fuel` passes. -/
def unpackWord (wordVal : UInt16) : ℕ → ℕ → Unpacker → Except SeedFail Unpacker
  | 0, _, u => .ok u
  | fuel + 1, wordBits, u =>
    if 0 < wordBits then do
      let r ← unpackChunk wordVal wordBits u
      unpackWord wordVal fuel r.1 r.2
    else .ok u

/-- One word of the conversion: its low bit into `extra`, its other `GF_BITS - 1` bits into
    the entropy. -/
def unpackStep (acc : UInt16 × Unpacker) (wordVal : UInt16) : Except SeedFail (UInt16 × Unpacker) := do
  let extra := (acc.1 <<< 1) ||| (wordVal &&& 1)
  -- a word never takes more passes than it has bits
  let u ← unpackWord (wordVal >>> 1) (gfBits - 1) (gfBits - 1) acc.2
  pure (extra, u)

/-- The conversion of the polynomial into `extra` and the entropy. -/
def unpackPoly (poly : Poly) : Except SeedFail (UInt16 × Vector UInt8 32) := do
  let r ← (poly.toList.drop polyNumCheckDigits).foldlM unpackStep (0, ⟨Vector.replicate 32 0, 0, 0⟩)
  pure (r.1, r.2.entropy)

/-- `Polyseed::from_string`. -/
def fromString (languages : Language → WordList) (lang : Language) (seed : String) :
    Except SeedFail Polyseed := do
  let poly ← decodePoly (languages lang) seed
  if polyEval poly ≠ 0 then throw (.error .invalidChecksum)
  let r ← unpackPoly poly
  let birthday := r.1 &&& dateMask
  -- `u8::try_from(extra >> DATE_BITS).expect(..)`
  let features := r.1 >>> dateBits.toUInt16
  if 2 ^ 8 ≤ features.toNat then throw .panic
  fromInternal lang features.toUInt8 birthday r.2

/-! ## Machine words -/

theorem toNat_toUInt16_of_lt {n : ℕ} (h : n < 2 ^ 16) : n.toUInt16.toNat = n := by
  simp only [Nat.toUInt16_eq, UInt16.toNat_ofNat']
  exact Nat.mod_eq_of_lt h

theorem toNat_toUInt8_of_lt {n : ℕ} (h : n < 2 ^ 8) : n.toUInt8.toNat = n := by
  simp only [Nat.toUInt8_eq, UInt8.toNat_ofNat']
  exact Nat.mod_eq_of_lt h

theorem toNat_mask {c : ℕ} (hc : c < 16) : ((1 : UInt16) <<< c.toUInt16 - 1).toNat = 2 ^ c - 1 := by
  have hshift : ((1 : UInt16) <<< c.toUInt16).toNat = 2 ^ c := by
    rw [UInt16.toNat_shiftLeft, toNat_toUInt16_of_lt (by omega), Nat.mod_eq_of_lt hc, UInt16.toNat_one,
      Nat.one_shiftLeft]
    exact Nat.mod_eq_of_lt (Nat.pow_lt_pow_right (by decide : 1 < 2) hc)
  rw [UInt16.toNat_sub_of_le _ _ (UInt16.le_iff_toNat_le.mpr (by rw [hshift]; exact Nat.one_le_two_pow)), hshift,
    UInt16.toNat_one]

theorem toNat_shiftLeft_of_lt {x : UInt16} {c : ℕ} (hc : c < 16) (hx : x.toNat < 2 ^ (16 - c)) :
    (x <<< c.toUInt16).toNat = x.toNat <<< c := by
  rw [UInt16.toNat_shiftLeft, toNat_toUInt16_of_lt (by omega), Nat.mod_eq_of_lt hc, Nat.shiftLeft_eq]
  apply Nat.mod_eq_of_lt
  calc x.toNat * 2 ^ c < 2 ^ (16 - c) * 2 ^ c := Nat.mul_lt_mul_of_pos_right hx (Nat.two_pow_pos c)
    _ = 2 ^ 16 := by rw [← Nat.pow_add, Nat.sub_add_cancel hc.le]

theorem testBit_shiftLeft_or_chunk (a b c s t : ℕ) :
    ((a <<< c) ||| ((b >>> s) &&& (2 ^ c - 1))).testBit t = if t < c then b.testBit (s + t) else a.testBit (t - c) := by
  simp only [Nat.testBit_or, Nat.testBit_shiftLeft, Nat.testBit_and, Nat.testBit_shiftRight,
    Nat.testBit_two_pow_sub_one]
  by_cases ht : t < c
  · simp [ht]
  · simp [ht, Nat.le_of_not_lt ht]

theorem getD_eq {α : Type} {n : ℕ} (v : Vector α n) (i : ℕ) (d : α) : v.getD i d = (v[i]?).getD d := by
  simp [Vector.getD]

/-! ## `to_poly` reads the secret's bits in order -/

/-- The width of byte `k` of the secret: 8, and 6 for the 19th. -/
def byteWidth (k : ℕ) : ℕ := min 8 (150 - 8 * k)

/-- Bit `j` of the secret, most significant first: of byte `j / 8`, from its top. -/
def entropyBit (entropy : Vector UInt8 32) (j : ℕ) : Bool :=
  (entropy.getD (j / 8) 0).toNat.testBit (8 * (j / 8) + byteWidth (j / 8) - 1 - j)

theorem entropyBit_of_byte (entropy : Vector UInt8 32) {k j : ℕ} (hk : 8 * k ≤ j) (hj : j < 8 * k + byteWidth k) :
    entropyBit entropy j = (entropy.getD k 0).toNat.testBit (8 * k + byteWidth k - 1 - j) := by
  have hw : byteWidth k ≤ 8 := min_le_left _ _
  obtain rfl : j / 8 = k := by omega
  rfl

/-- The cursor after `c` bits of the secret: in byte `entropyIdx`, `secretBits` of its bits
    left, the bytes after it holding `seedRemBits`. -/
structure Packer.At (p : Packer) (c : ℕ) : Prop where
  idx_le : p.entropyIdx ≤ 18
  secretBits_le : p.secretBits ≤ byteWidth p.entropyIdx
  seedRemBits_eq : p.seedRemBits = 150 - (8 * p.entropyIdx + byteWidth p.entropyIdx)
  pos_eq : c + p.secretBits = 8 * p.entropyIdx + byteWidth p.entropyIdx

/-- The word holds bits `c₀ .. c₀ + wordBits` of the secret, most significant first. -/
def WordHolds (entropy : Vector UInt8 32) (c₀ wordBits : ℕ) (wordVal : UInt16) : Prop :=
  wordVal.toNat < 2 ^ wordBits ∧ ∀ t < wordBits, wordVal.toNat.testBit t = entropyBit entropy (c₀ + wordBits - 1 - t)

theorem refill_at {p : Packer} {c : ℕ} (hp : p.At c) (hc : c < 150) : p.refill.At c ∧ 0 < p.refill.secretBits := by
  obtain ⟨hidx, hsecret, hrem, hpos⟩ := hp
  unfold Packer.refill bitsPerByte
  split
  · -- the byte was a whole one, and the next is within the secret
    unfold byteWidth at hsecret hrem hpos
    refine ⟨⟨?_, ?_, ?_, ?_⟩, ?_⟩ <;> (try dsimp only) <;> (try unfold byteWidth) <;> omega
  · exact ⟨⟨hidx, hsecret, hrem, hpos⟩, Nat.pos_of_ne_zero (by assumption)⟩

theorem testBit_of_lt_two_pow {x n t : ℕ} (hx : x < 2 ^ n) (ht : n ≤ t) : x.testBit t = false :=
  Nat.testBit_lt_two_pow (lt_of_lt_of_le hx (Nat.pow_le_pow_right (by decide) ht))

theorem toNat_chunk {wordVal : UInt16} {byte : UInt8} {k s wordBits : ℕ} (hk : wordBits + k ≤ 10) (hs : s < 16)
    (hwv : wordVal.toNat < 2 ^ wordBits) :
    ((wordVal <<< k.toUInt16) ||| (byte.toUInt16 >>> s.toUInt16 &&& ((1 <<< k.toUInt16) - 1))).toNat =
      (wordVal.toNat <<< k) ||| ((byte.toNat >>> s) &&& (2 ^ k - 1)) := by
  have hwv' : wordVal.toNat < 2 ^ (16 - k) :=
    lt_of_lt_of_le hwv (Nat.pow_le_pow_right (by decide) (by omega))
  rw [UInt16.toNat_or, toNat_shiftLeft_of_lt (by omega) hwv', UInt16.toNat_and, UInt16.toNat_shiftRight,
    UInt8.toNat_toUInt16, toNat_toUInt16_of_lt (by omega), Nat.mod_eq_of_lt hs, toNat_mask (by omega)]

theorem packChunk_spec (entropy : Vector UInt8 32) {p : Packer} {c₀ wordBits : ℕ} {wordVal : UInt16}
    (hp : p.At (c₀ + wordBits)) (hc : c₀ + wordBits < 150) (hwb : wordBits < secretBitsPerWord)
    (hw : WordHolds entropy c₀ wordBits wordVal) :
    ∃ k, 0 < k ∧ wordBits + k ≤ secretBitsPerWord ∧ (packChunk entropy wordBits wordVal p).1 = wordBits + k ∧
      (packChunk entropy wordBits wordVal p).2.2.At (c₀ + (wordBits + k)) ∧
      WordHolds entropy c₀ (wordBits + k) (packChunk entropy wordBits wordVal p).2.1 := by
  obtain ⟨⟨hidx, hsecret, hrem, hpos⟩, hpos₁⟩ := refill_at hp hc
  obtain ⟨hval, hbits⟩ := hw
  obtain ⟨q, hq⟩ : ∃ q, p.refill = q := ⟨_, rfl⟩
  rw [hq] at hidx hsecret hrem hpos hpos₁
  have hwidth : byteWidth q.entropyIdx ≤ 8 := min_le_left _ _
  -- `k` bits of byte `entropyIdx`, above the `secretBits - k` still unread
  obtain ⟨k, hk⟩ : ∃ k, min q.secretBits (secretBitsPerWord - wordBits) = k := ⟨_, rfl⟩
  have hk' : k = min q.secretBits (10 - wordBits) := hk.symm
  have hwb' : wordBits < 10 := hwb
  have hval' := @toNat_chunk wordVal (entropy.getD q.entropyIdx 0) k (q.secretBits - k) wordBits
    (by omega) (by omega) hval
  simp only [packChunk, hq, hk]
  refine ⟨k, by omega, show wordBits + k ≤ 10 by omega, rfl, ⟨hidx, by dsimp only; omega, hrem, by dsimp only; omega⟩, ?_, fun t ht => ?_⟩
  · refine Nat.lt_pow_two_of_testBit _ fun t ht => ?_
    rw [hval', testBit_shiftLeft_or_chunk, if_neg (by omega)]
    exact testBit_of_lt_two_pow hval (by omega)
  · rw [hval', testBit_shiftLeft_or_chunk]
    split
    · rw [entropyBit_of_byte entropy (k := q.entropyIdx) (by omega) (by omega)]
      congr 1
      omega
    · rw [hbits (t - k) (by omega)]
      congr 1
      omega

theorem packWord_spec (entropy : Vector UInt8 32) :
    ∀ (fuel : ℕ) {p : Packer} {c₀ wordBits : ℕ} {wordVal : UInt16}, secretBitsPerWord - wordBits ≤ fuel →
      wordBits ≤ secretBitsPerWord → c₀ + secretBitsPerWord ≤ 150 → p.At (c₀ + wordBits) →
      WordHolds entropy c₀ wordBits wordVal →
      (packWord entropy fuel wordBits wordVal p).2.At (c₀ + secretBitsPerWord) ∧
        WordHolds entropy c₀ secretBitsPerWord (packWord entropy fuel wordBits wordVal p).1
  | 0, p, c₀, wordBits, wordVal, hfuel, hle, _, hp, hw => by
    obtain rfl : wordBits = secretBitsPerWord := by omega
    exact ⟨hp, hw⟩
  | fuel + 1, p, c₀, wordBits, wordVal, hfuel, hle, hend, hp, hw => by
    rw [packWord]
    split
    · rename_i hlt
      obtain ⟨k, hk, hle', hbits, hp', hw'⟩ := packChunk_spec entropy hp (by omega) hlt hw
      dsimp only
      rw [hbits]
      exact packWord_spec entropy fuel (by omega) hle' hend hp' hw'
    · obtain rfl : wordBits = secretBitsPerWord := by omega
      exact ⟨hp, hw⟩

theorem getD_setIfInBounds {α : Type} {n i j : ℕ} (v : Vector α n) (x d : α) :
    (v.setIfInBounds i x).getD j d = if i = j ∧ i < n then x else v.getD j d := by
  rw [getD_eq, getD_eq, Vector.getElem?_setIfInBounds]
  by_cases hij : i = j
  · subst hij
    by_cases hi : i < n <;> simp [hi]
  · simp [hij]

/-- Coefficient `1 + j` as `to_poly` writes it: 11 bits, bits `10 j .. 10 j + 10` of the
    secret above bit `14 - j` of `extra_val`. -/
def CoeffHolds (entropy : Vector UInt8 32) (extra : UInt16) (j : ℕ) (x : UInt16) : Prop :=
  x.toNat < 2 ^ 11 ∧ x.toNat.testBit 0 = extra.toNat.testBit (14 - j) ∧
    ∀ t < 10, x.toNat.testBit (t + 1) = entropyBit entropy (10 * j + 9 - t)

theorem toNat_coeff {wordVal extra : UInt16} {b : ℕ} (hw : wordVal.toNat < 2 ^ 10) (hb : b < 16) :
    ((wordVal <<< 1) ||| ((extra >>> b.toUInt16) &&& 1)).toNat = (wordVal.toNat <<< 1) ||| ((extra.toNat >>> b) &&& (2 ^ 1 - 1)) := by
  have hshift : (wordVal <<< 1).toNat = wordVal.toNat <<< 1 := toNat_shiftLeft_of_lt (c := 1) (by decide)
    (lt_of_lt_of_le hw (by decide))
  rw [UInt16.toNat_or, hshift, UInt16.toNat_and, UInt16.toNat_shiftRight, toNat_toUInt16_of_lt (by omega),
    Nat.mod_eq_of_lt hb, UInt16.toNat_one]
  rfl

theorem packStep_spec (entropy : Vector UInt8 32) (extra : UInt16) {acc : ℕ × Packer × Poly} {i : ℕ}
    (hi : i < dataWords) (hbits : acc.1 = 15 - i) (hp : acc.2.1.At (10 * i)) :
    (packStep entropy extra acc i).1 = 15 - (i + 1) ∧ (packStep entropy extra acc i).2.1.At (10 * (i + 1)) ∧
      ∃ x, CoeffHolds entropy extra i x ∧ (packStep entropy extra acc i).2.2 = acc.2.2.setIfInBounds (1 + i) x := by
  have hi' : i < 15 := hi
  obtain ⟨hp', hval, hwbits⟩ := @packWord_spec entropy secretBitsPerWord acc.2.1 (10 * i) 0 0 (le_refl _)
    (by decide) (by simp only [secretBitsPerWord]; omega) hp ⟨by decide, fun t ht => absurd ht (Nat.not_lt_zero t)⟩
  simp only [secretBitsPerWord] at hp' hval hwbits
  refine ⟨by simp only [packStep, hbits]; omega, hp', _, ⟨?_, ?_, fun t ht => ?_⟩, rfl⟩
  all_goals rw [hbits, toNat_coeff hval (by omega)]
  · refine Nat.lt_pow_two_of_testBit _ fun t ht => ?_
    rw [testBit_shiftLeft_or_chunk, if_neg (by omega)]
    exact testBit_of_lt_two_pow hval (by omega)
  · rw [testBit_shiftLeft_or_chunk, if_pos (by decide)]
    congr 1
    omega
  · rw [testBit_shiftLeft_or_chunk, if_neg (by omega), Nat.add_sub_cancel, hwbits t ht]
    congr 1

theorem packLoop_spec (entropy : Vector UInt8 32) (extra : UInt16) :
    ∀ n ≤ dataWords,
      let acc := (List.range n).foldl (packStep entropy extra)
        (featureBits + dateBits, ⟨0, bitsPerByte, secretBits - bitsPerByte⟩, Vector.replicate polyseedLength 0)
      acc.1 = 15 - n ∧ acc.2.1.At (10 * n) ∧ acc.2.2.getD 0 0 = 0 ∧
        ∀ j < n, CoeffHolds entropy extra j (acc.2.2.getD (1 + j) 0)
  | 0, _ => ⟨rfl, ⟨Nat.zero_le _, le_of_eq rfl, rfl, rfl⟩, by simp [getD_eq], fun j hj => absurd hj (Nat.not_lt_zero j)⟩
  | n + 1, hn => by
    obtain ⟨hbits, hp, hzero, hcoeffs⟩ := packLoop_spec entropy extra n (Nat.le_of_succ_le hn)
    obtain ⟨hbits', hp', x, hx, hpoly⟩ := packStep_spec entropy extra hn hbits hp
    simp only [List.range_succ, List.foldl_append, List.foldl_cons, List.foldl_nil]
    refine ⟨hbits', hp', ?_, fun j hj => ?_⟩
    · rw [hpoly, getD_setIfInBounds, if_neg (by omega), hzero]
    · rw [hpoly, getD_setIfInBounds]
      by_cases hjn : j = n
      · subst hjn
        rw [if_pos ⟨rfl, by simp only [polyseedLength, dataWords] at hn ⊢; omega⟩]
        exact hx
      · rw [if_neg (by omega)]
        exact hcoeffs j (by omega)

theorem toPoly_spec (seed : Polyseed) :
    seed.toPoly.getD 0 0 = 0 ∧
      ∀ j < dataWords, CoeffHolds seed.entropy (extraVal seed.features seed.birthday) j (seed.toPoly.getD (1 + j) 0) :=
  let h := packLoop_spec seed.entropy (extraVal seed.features seed.birthday) dataWords le_rfl
  ⟨h.2.2.1, h.2.2.2⟩

/-! ## `from_string` writes the words' bits in order -/

/-- Bit `j` of the words' secret bits, most significant first: bit `10 - j % 10` of
    coefficient `1 + j / 10`, above its low bit. -/
def wordBit (poly : Poly) (j : ℕ) : Bool := (poly.getD (1 + j / 10) 0).toNat.testBit (10 - j % 10)

/-- How many bits byte `k` holds after `t` bits: 8 for those before, none after. -/
def fill (k t : ℕ) : ℕ := min 8 (t - 8 * k)

/-- The entropy after `t` bits of the words: in byte `entropyIdx`, `entropyBits` of them, and
    every byte holding its bits of the words, most significant first. -/
structure Unpacker.At (u : Unpacker) (poly : Poly) (t : ℕ) : Prop where
  bits_le : u.entropyBits ≤ 8
  pos_eq : t = 8 * u.entropyIdx + u.entropyBits
  lt : ∀ k, (u.entropy.getD k 0).toNat < 2 ^ fill k t
  testBit : ∀ k, ∀ b < fill k t, (u.entropy.getD k 0).toNat.testBit b = wordBit poly (8 * k + fill k t - 1 - b)

theorem advance_at {u : Unpacker} {poly : Poly} {t : ℕ} (hu : u.At poly t) (ht : t < 150) :
    u.advance.At poly t ∧ u.advance.entropyBits < 8 ∧ u.advance.entropyIdx ≤ 18 := by
  obtain ⟨hbits, hpos, hlt, htest⟩ := hu
  unfold Unpacker.advance bitsPerByte
  split
  · exact ⟨⟨Nat.zero_le _, by dsimp only; omega, hlt, htest⟩, by dsimp only; omega, by dsimp only; omega⟩
  · exact ⟨⟨hbits, hpos, hlt, htest⟩, by omega, by omega⟩

theorem toNat_shiftByte {byte : UInt8} {k e : ℕ} (hbyte : byte.toNat < 2 ^ e) (hk : e + k ≤ 8) :
    (if k < bitsPerByte then byte <<< k.toUInt8 else byte).toNat = byte.toNat <<< k := by
  split
  · rename_i hk8
    have hk8' : k < 8 := hk8
    rw [UInt8.toNat_shiftLeft, toNat_toUInt8_of_lt (by omega), show k % 8 = k from Nat.mod_eq_of_lt hk8',
      Nat.shiftLeft_eq]
    apply Nat.mod_eq_of_lt
    calc byte.toNat * 2 ^ k < 2 ^ e * 2 ^ k := Nat.mul_lt_mul_of_pos_right hbyte (Nat.two_pow_pos k)
      _ ≤ 2 ^ 8 := by rw [← Nat.pow_add]; exact Nat.pow_le_pow_right (by decide) hk
  · -- a whole byte's chunk: the byte held nothing
    rename_i hk8
    obtain rfl : e = 0 := by simp only [bitsPerByte] at hk8; omega
    have hzero : byte.toNat = 0 := by simpa using hbyte
    rw [hzero, Nat.zero_shiftLeft]

theorem toNat_wordChunk (wordVal : UInt16) {k wordBits : ℕ} (hk : k ≤ 8) (hwb : wordBits < 16) :
    ((wordVal >>> wordBits.toUInt16) &&& ((1 : UInt16) <<< k.toUInt16 - 1)).toNat =
      (wordVal.toNat >>> wordBits) &&& (2 ^ k - 1) := by
  rw [UInt16.toNat_and, UInt16.toNat_shiftRight, toNat_toUInt16_of_lt (by omega), Nat.mod_eq_of_lt hwb,
    toNat_mask (by omega)]

/-- The word being written: coefficient `1 + i` without its low bit. -/
def WordOf (poly : Poly) (i : ℕ) (wordVal : UInt16) : Prop :=
  wordVal.toNat < 2 ^ 10 ∧ ∀ s < 10, wordVal.toNat.testBit s = wordBit poly (10 * i + 9 - s)

theorem fill_of_ne {k idx e t c : ℕ} (hk : k ≠ idx) (ht : t = 8 * idx + e) (hc : e + c ≤ 8) :
    fill k (t + c) = fill k t := by
  unfold fill
  rcases Nat.lt_or_gt_of_ne hk with hlt | hgt <;> omega

theorem unpackChunk_spec {poly : Poly} {u : Unpacker} {t i wordBits : ℕ} {wordVal : UInt16} (hu : u.At poly t)
    (hpos : t + wordBits = 10 * i + 10) (hwb : 0 < wordBits) (hwb10 : wordBits ≤ 10) (hend : 10 * i + 10 ≤ 150)
    (hword : WordOf poly i wordVal) :
    ∃ k u', 0 < k ∧ k ≤ wordBits ∧ unpackChunk wordVal wordBits u = .ok (wordBits - k, u') ∧ u'.At poly (t + k) := by
  obtain ⟨⟨hbits, hpos₁, hlt, htest⟩, hroom, hidx⟩ := advance_at hu (by omega)
  obtain ⟨hval, hwbits⟩ := hword
  obtain ⟨v, hv⟩ : ∃ v, u.advance = v := ⟨_, rfl⟩
  rw [hv] at hbits hpos₁ hlt htest hroom hidx
  obtain ⟨k, hk⟩ : ∃ k, min wordBits (bitsPerByte - v.entropyBits) = k := ⟨_, rfl⟩
  have hk' : k = min wordBits (8 - v.entropyBits) := hk.symm
  -- byte `entropyIdx` holds its `entropyBits`, and takes `k` more
  have hfill : fill v.entropyIdx t = v.entropyBits := by unfold fill; omega
  have hbyte := hlt v.entropyIdx
  rw [hfill] at hbyte
  have hshift := toNat_shiftByte (k := k) hbyte (by omega)
  have hchunk := @toNat_wordChunk wordVal k (wordBits - k) (by omega) (by omega)
  have hchunk_lt : ((wordVal.toNat >>> (wordBits - k)) &&& (2 ^ k - 1)) < 2 ^ 8 :=
    lt_of_lt_of_le (lt_of_le_of_lt Nat.and_le_right (Nat.sub_lt (Nat.two_pow_pos k) one_pos))
      (Nat.pow_le_pow_right (by decide) (by omega))
  obtain ⟨nb, hnb⟩ : ∃ nb, ((if k < bitsPerByte then v.entropy.getD v.entropyIdx 0 <<< k.toUInt8 else
      v.entropy.getD v.entropyIdx 0) ||| ((wordVal >>> (wordBits - k).toUInt16) &&& ((1 : UInt16) <<< k.toUInt16 - 1)).toUInt8) = nb :=
    ⟨_, rfl⟩
  have hnew : nb.toNat = ((v.entropy.getD v.entropyIdx 0).toNat <<< k) ||| ((wordVal.toNat >>> (wordBits - k)) &&& (2 ^ k - 1)) := by
    rw [← hnb, UInt8.toNat_or, hshift, UInt16.toNat_toUInt8, hchunk, Nat.mod_eq_of_lt hchunk_lt]
  refine ⟨k, ⟨v.entropy.setIfInBounds v.entropyIdx nb, v.entropyIdx, v.entropyBits + k⟩, ?_, ?_, ?_,
    ⟨?_, ?_, fun k' => ?_, fun k' b hb => ?_⟩⟩
  · omega
  · omega
  · simp only [unpackChunk, hv, hk, hchunk, hchunk_lt, if_true, hnb]
  · dsimp only
    omega
  · dsimp only
    omega
  · -- the byte written holds `k` more bits; the others are as they were
    rw [getD_setIfInBounds]
    split
    · rename_i hk'
      obtain ⟨rfl, -⟩ := hk'
      have hfill' : fill v.entropyIdx (t + k) = v.entropyBits + k := by unfold fill; omega
      rw [hfill', hnew]
      refine Nat.lt_pow_two_of_testBit _ fun b hb => ?_
      rw [testBit_shiftLeft_or_chunk, if_neg (by omega)]
      exact testBit_of_lt_two_pow hbyte (by omega)
    · rename_i hk'
      rw [fill_of_ne (fun h => hk' ⟨h.symm, by omega⟩) hpos₁ (by omega)]
      exact hlt k'
  · rw [getD_setIfInBounds]
    split
    · rename_i hk'
      obtain ⟨rfl, -⟩ := hk'
      have hfill' : fill v.entropyIdx (t + k) = v.entropyBits + k := by unfold fill; omega
      rw [hfill'] at hb ⊢
      rw [hnew, testBit_shiftLeft_or_chunk]
      split
      · rw [hwbits _ (by omega)]
        congr 1
        omega
      · rw [htest _ _ (by omega), hfill]
        congr 1
        omega
    · rename_i hk'
      have hfill' := fill_of_ne (fun h => hk' ⟨h.symm, by omega⟩) hpos₁ (c := k) (by omega)
      rw [hfill'] at hb ⊢
      exact htest k' b hb

theorem unpackWord_spec {poly : Poly} {i : ℕ} {wordVal : UInt16} (hword : WordOf poly i wordVal)
    (hend : 10 * i + 10 ≤ 150) :
    ∀ (fuel : ℕ) {u : Unpacker} {t wordBits : ℕ}, wordBits ≤ fuel → wordBits ≤ 10 → t + wordBits = 10 * i + 10 →
      u.At poly t → ∃ u', unpackWord wordVal fuel wordBits u = .ok u' ∧ u'.At poly (10 * i + 10)
  | 0, u, t, wordBits, hfuel, _, hpos, hu => by
    obtain rfl : wordBits = 0 := by omega
    exact ⟨u, rfl, hpos ▸ hu⟩
  | fuel + 1, u, t, wordBits, hfuel, hwb, hpos, hu => by
    rw [unpackWord]
    split
    · rename_i hwb0
      obtain ⟨k, u₁, hk, hkw, hchunk, hu₁⟩ := unpackChunk_spec hu hpos hwb0 hwb hend hword
      obtain ⟨u', hloop, hu'⟩ := @unpackWord_spec poly i wordVal hword hend fuel u₁ (t + k) (wordBits - k) (by omega)
        (by omega) (by omega) hu₁
      exact ⟨u', by rw [hchunk]; exact hloop, hu'⟩
    · obtain rfl : wordBits = 0 := by omega
      exact ⟨u, rfl, hpos ▸ hu⟩

/-- `extra` after `i` words: their low bits, the first one highest. -/
def ExtraHolds (poly : Poly) (i : ℕ) (extra : UInt16) : Prop :=
  extra.toNat < 2 ^ i ∧ ∀ b < i, extra.toNat.testBit b = (poly.getD (1 + (i - 1 - b)) 0).toNat.testBit 0

theorem wordOf_coeff {poly : Poly} {i : ℕ} (hcoeff : (poly.getD (1 + i) 0).toNat < 2 ^ 11) :
    WordOf poly i (poly.getD (1 + i) 0 >>> 1) := by
  have hshift : (poly.getD (1 + i) 0 >>> 1).toNat = (poly.getD (1 + i) 0).toNat >>> 1 := by
    rw [UInt16.toNat_shiftRight, UInt16.toNat_one]
  refine ⟨?_, fun s hs => ?_⟩
  · rw [hshift, Nat.shiftRight_eq_div_pow]
    omega
  · rw [hshift, Nat.testBit_shiftRight, wordBit]
    have hdiv : (10 * i + 9 - s) / 10 = i := by omega
    have hmod : 10 - (10 * i + 9 - s) % 10 = 1 + s := by omega
    rw [hdiv, hmod]

theorem extraHolds_succ {poly : Poly} {i : ℕ} {extra : UInt16} (hi : i < 15) (hex : ExtraHolds poly i extra) :
    ExtraHolds poly (i + 1) ((extra <<< 1) ||| (poly.getD (1 + i) 0 &&& 1)) := by
  obtain ⟨hlt, hbits⟩ := hex
  have hval : ((extra <<< 1) ||| (poly.getD (1 + i) 0 &&& 1)).toNat =
      (extra.toNat <<< 1) ||| ((poly.getD (1 + i) 0).toNat % 2 ^ 1) := by
    have hshift : (extra <<< 1).toNat = extra.toNat <<< 1 :=
      toNat_shiftLeft_of_lt (c := 1) (by decide) (lt_of_lt_of_le hlt (Nat.pow_le_pow_right (by decide) (by omega)))
    rw [UInt16.toNat_or, hshift, UInt16.toNat_and, UInt16.toNat_one, ← Nat.and_two_pow_sub_one_eq_mod]
  have htest : ∀ b, ((extra.toNat <<< 1) ||| ((poly.getD (1 + i) 0).toNat % 2 ^ 1)).testBit b =
      if b = 0 then (poly.getD (1 + i) 0).toNat.testBit 0 else extra.toNat.testBit (b - 1) := by
    intro b
    simp only [Nat.testBit_or, Nat.testBit_shiftLeft, Nat.testBit_mod_two_pow]
    rcases Nat.eq_zero_or_pos b with rfl | hb
    · simp
    · simp [Nat.ne_of_gt hb, Nat.not_lt.mpr hb, Nat.succ_le_of_lt hb]
  refine ⟨?_, fun b hb => ?_⟩
  · refine Nat.lt_pow_two_of_testBit _ fun b hb => ?_
    rw [hval, htest, if_neg (by omega)]
    exact testBit_of_lt_two_pow hlt (by omega)
  · rw [hval, htest]
    split
    · rename_i hb0
      subst hb0
      rfl
    · rw [hbits (b - 1) (by omega)]
      congr 3
      omega

theorem unpackStep_spec {poly : Poly} {i : ℕ} {acc : UInt16 × Unpacker} (hi : i < 15)
    (hcoeff : (poly.getD (1 + i) 0).toNat < 2 ^ 11) (hex : ExtraHolds poly i acc.1) (hu : acc.2.At poly (10 * i)) :
    ∃ r, unpackStep acc (poly.getD (1 + i) 0) = .ok r ∧ ExtraHolds poly (i + 1) r.1 ∧ r.2.At poly (10 * (i + 1)) := by
  obtain ⟨u', hloop, hu'⟩ := @unpackWord_spec poly i _ (wordOf_coeff hcoeff) (by omega) (gfBits - 1) acc.2 (10 * i)
    (gfBits - 1) le_rfl (by decide) rfl hu
  refine ⟨((acc.1 <<< 1) ||| (poly.getD (1 + i) 0 &&& 1), u'), ?_, extraHolds_succ hi hex,
    by rw [Nat.mul_succ]; exact hu'⟩
  simp only [unpackStep, hloop]
  rfl

theorem unpackLoop_spec {poly : Poly} (hcoeff : ∀ j, (poly.getD j 0).toNat < 2 ^ 11) :
    ∀ (l : List UInt16) (i : ℕ) (acc : UInt16 × Unpacker), l = poly.toList.drop (1 + i) → i ≤ 15 →
      ExtraHolds poly i acc.1 → acc.2.At poly (10 * i) →
      ∃ r, l.foldlM unpackStep acc = .ok r ∧ ExtraHolds poly 15 r.1 ∧ r.2.At poly 150
  | [], i, acc, hl, hi, hex, hu => by
    have hlen := congrArg List.length hl
    simp only [List.length_nil, List.length_drop, Vector.length_toList] at hlen
    obtain rfl : i = 15 := by simp only [polyseedLength] at hlen; omega
    exact ⟨acc, rfl, hex, hu⟩
  | w :: l, i, acc, hl, hi, hex, hu => by
    have hlen := congrArg List.length hl
    simp only [List.length_cons, List.length_drop, Vector.length_toList, polyseedLength] at hlen
    rw [List.drop_eq_getElem_cons (by simp only [Vector.length_toList, polyseedLength]; omega)] at hl
    obtain ⟨hw, hl'⟩ := List.cons.inj hl
    have hw' : w = poly.getD (1 + i) 0 := by
      rw [hw, Vector.getElem_toList, getD_eq, Vector.getElem?_eq_getElem]
      rfl
    subst hw'
    obtain ⟨r₁, hstep, hex₁, hu₁⟩ := unpackStep_spec (by omega) (hcoeff _) hex hu
    obtain ⟨r, hloop, hex', hu'⟩ := unpackLoop_spec hcoeff l (i + 1) r₁ (by rw [hl', Nat.add_assoc]) (by omega)
      hex₁ hu₁
    exact ⟨r, by rw [List.foldlM_cons, hstep]; exact hloop, hex', hu'⟩

theorem unpackPoly_spec {poly : Poly} (hcoeff : ∀ j, (poly.getD j 0).toNat < 2 ^ 11) :
    ∃ (extra : UInt16) (u : Unpacker), unpackPoly poly = .ok (extra, u.entropy) ∧ ExtraHolds poly 15 extra ∧ u.At poly 150 := by
  have hinit : (⟨Vector.replicate 32 0, 0, 0⟩ : Unpacker).At poly (10 * 0) :=
    ⟨Nat.zero_le _, rfl, fun k => by simp [getD_eq, Vector.getElem?_replicate]; split <;> simp,
      fun k b hb => absurd hb (by simp [fill])⟩
  obtain ⟨r, hloop, hex, hu⟩ := unpackLoop_spec hcoeff _ 0 (0, _) rfl (by decide)
    ⟨by decide, fun b hb => absurd hb (Nat.not_lt_zero b)⟩ hinit
  exact ⟨r.1, r.2, by simp only [unpackPoly, polyNumCheckDigits, hloop]; rfl, hex, hu⟩

/-! ## The checksum -/

/-- `poly_eval` before its last step: Horner's method over coefficients `15 .. 1`. -/
def horner (poly : Poly) : UInt16 :=
  (List.range' 1 14).reverse.foldl (fun result i => elemMul2 result ^^^ poly.getD i 0) (poly.getD 15 0)

theorem polyEval_eq (poly : Poly) : polyEval poly = elemMul2 (horner poly) ^^^ poly.getD 0 0 := by
  have hrange : List.range (polyseedLength - 1) = 0 :: List.range' 1 14 := rfl
  rw [polyEval, hrange, List.reverse_cons, List.foldl_append]
  rfl

theorem getD_set {α : Type} {n i j : ℕ} (v : Vector α n) (x d : α) (hi : i < n) :
    (v.set i x hi).getD j d = if i = j then x else v.getD j d := by
  rw [getD_eq, getD_eq, Vector.getElem?_set]
  split <;> rfl

theorem horner_congr {poly poly' : Poly} (h : ∀ k, 1 ≤ k → poly.getD k 0 = poly'.getD k 0) :
    horner poly = horner poly' := by
  unfold horner
  rw [h 15 (by decide)]
  refine List.foldl_ext _ _ _ fun r i hi => ?_
  rw [h i (List.mem_range'_1.mp (List.mem_reverse.mp hi)).1]

theorem horner_set_zero (poly : Poly) (x : UInt16) : horner (poly.set 0 x) = horner poly :=
  horner_congr fun k hk => by rw [getD_set, if_neg (by omega)]

theorem polyEval_set_zero (poly : Poly) (x : UInt16) : polyEval (poly.set 0 x) = elemMul2 (horner poly) ^^^ x := by
  rw [polyEval_eq, horner_set_zero, getD_set, if_pos rfl]

theorem mul2Table_lt (n : ℕ) : (polyseedMul2Table.getD n 0).toNat < 16 := by
  by_cases hn : n < 8
  · interval_cases n <;> decide
  · rw [List.getD_eq_default _ _ (by simp only [polyseedMul2Table, List.length_cons, List.length_nil]; omega)]
    decide

theorem elemMul2_lt {x : UInt16} (hx : x.toNat < 2 ^ 11) : (elemMul2 x).toNat < 2 ^ 11 := by
  unfold elemMul2
  split
  · rename_i hlow
    rw [UInt16.lt_iff_toNat_lt] at hlow
    rw [UInt16.toNat_mul]
    simp only [UInt16.reduceToNat] at hlow ⊢
    omega
  · rename_i hhigh
    rw [UInt16.lt_iff_toNat_lt, Nat.not_lt] at hhigh
    have htable := mul2Table_lt (x % 8).toNat
    rw [UInt16.toNat_add, UInt16.toNat_mul, UInt16.toNat_div, UInt16.toNat_sub_of_le _ _ (UInt16.le_iff_toNat_le.mpr hhigh)]
    simp only [UInt16.reduceToNat] at hhigh ⊢
    omega

theorem xor_lt {a b : UInt16} (ha : a.toNat < 2 ^ 11) (hb : b.toNat < 2 ^ 11) : (a ^^^ b).toNat < 2 ^ 11 := by
  rw [UInt16.toNat_xor]
  exact Nat.xor_lt_two_pow ha hb

theorem foldl_horner_lt {poly : Poly} (hpoly : ∀ k, (poly.getD k 0).toNat < 2 ^ 11) :
    ∀ (l : List ℕ) (r : UInt16), r.toNat < 2 ^ 11 →
      (l.foldl (fun result i => elemMul2 result ^^^ poly.getD i 0) r).toNat < 2 ^ 11
  | [], _, hr => hr
  | i :: l, _, hr => foldl_horner_lt hpoly l _ (xor_lt (elemMul2_lt hr) (hpoly i))

theorem horner_lt {poly : Poly} (hpoly : ∀ k, (poly.getD k 0).toNat < 2 ^ 11) : (horner poly).toNat < 2 ^ 11 :=
  foldl_horner_lt hpoly _ _ (hpoly 15)

theorem polyEval_lt {poly : Poly} (hpoly : ∀ k, (poly.getD k 0).toNat < 2 ^ 11) : (polyEval poly).toNat < 2 ^ 11 := by
  rw [polyEval_eq]
  exact xor_lt (elemMul2_lt (horner_lt hpoly)) (hpoly 0)

/-! ## The secret's bytes -/

theorem foldl_and_eq {α : Type} (p : α → Bool) :
    ∀ (l : List α) (b : Bool), l.foldl (fun res x => res && p x) b = (b && l.all p)
  | [], b => by rw [List.foldl_nil, List.all_nil, Bool.and_true]
  | x :: l, b => by rw [List.foldl_cons, foldl_and_eq p l, List.all_cons, Bool.and_assoc]

theorem getD_of_le {α : Type} {n i : ℕ} (v : Vector α n) (d : α) (h : n ≤ i) : v.getD i d = d := by
  rw [getD_eq, Vector.getElem?_eq_none h]
  rfl

theorem validEntropy_iff (entropy : Vector UInt8 32) :
    validEntropy entropy = true ↔ ∀ k, (entropy.getD k 0).toNat < 2 ^ byteWidth k := by
  have hlast : (entropy.getD 18 0 == (entropy.getD 18 0 &&& lastByteSecretBitsMask)) = true ↔
      (entropy.getD 18 0).toNat < 2 ^ 6 := by
    rw [beq_iff_eq, ← UInt8.toNat_inj, UInt8.toNat_and, show lastByteSecretBitsMask.toNat = 2 ^ 6 - 1 from rfl,
      Nat.and_two_pow_sub_one_eq_mod, eq_comm, Nat.mod_eq_iff_lt (by decide)]
  have hzero : ∀ k, 19 ≤ k → byteWidth k = 0 := fun k hk => by unfold byteWidth; omega
  simp only [validEntropy, foldl_and_eq, Bool.and_eq_true, List.all_eq_true, List.mem_range'_1, secretSize,
    Nat.reduceSub, Nat.reduceAdd]
  rw [hlast]
  constructor
  · rintro ⟨h18, hrest⟩ k
    rcases lt_trichotomy k 18 with hk | rfl | hk
    · rw [show byteWidth k = 8 by unfold byteWidth; omega]
      exact UInt8.toNat_lt _
    · exact h18
    · rw [hzero k hk]
      by_cases hk32 : k < 32
      · rw [beq_iff_eq.mp (hrest k ⟨hk, hk32⟩)]
        decide
      · rw [getD_of_le _ _ (by omega)]
        decide
  · intro h
    refine ⟨h 18, fun k hk => ?_⟩
    have hk' := h k
    rw [hzero k hk.1, pow_zero, Nat.lt_one_iff] at hk'
    exact beq_iff_eq.mpr (UInt8.toNat_inj.mp hk')

theorem entropy_eq_of_bits {e e' : Vector UInt8 32} (h : ∀ k, (e.getD k 0).toNat < 2 ^ byteWidth k)
    (h' : ∀ k, (e'.getD k 0).toNat < 2 ^ byteWidth k) (hbits : ∀ j < 150, entropyBit e j = entropyBit e' j) :
    e = e' := by
  apply Vector.ext
  intro k hk
  have hget : ∀ v : Vector UInt8 32, v[k] = v.getD k 0 := fun v => by
    rw [getD_eq, Vector.getElem?_eq_getElem hk]
    rfl
  rw [hget, hget, ← UInt8.toNat_inj]
  apply Nat.eq_of_testBit_eq
  intro b
  by_cases hb : b < byteWidth k
  · -- bit `b` of byte `k` is bit `8 k + width - 1 - b` of the secret
    have hend : 8 * k + byteWidth k ≤ 150 := by unfold byteWidth at hb ⊢; omega
    have hbit : ∀ v : Vector UInt8 32, entropyBit v (8 * k + byteWidth k - 1 - b) = (v.getD k 0).toNat.testBit b := by
      intro v
      rw [entropyBit_of_byte v (k := k) (by omega) (by omega)]
      congr 1
      omega
    rw [← hbit e, ← hbit e', hbits _ (by omega)]
  · rw [testBit_of_lt_two_pow (h k) (by omega), testBit_of_lt_two_pow (h' k) (by omega)]

theorem entropyBit_of_at {u : Unpacker} {poly : Poly} (hu : u.At poly 150) {j : ℕ} (hj : j < 150) :
    entropyBit u.entropy j = wordBit poly j := by
  have hfill : fill (j / 8) 150 = byteWidth (j / 8) := rfl
  have hwidth : j < 8 * (j / 8) + byteWidth (j / 8) := by unfold byteWidth; omega
  rw [entropyBit, hu.testBit (j / 8) _ (by rw [hfill]; omega), hfill]
  congr 1
  omega

theorem wordBit_of_coeffHolds {entropy : Vector UInt8 32} {extra : UInt16} {poly : Poly}
    (hpoly : ∀ j < dataWords, CoeffHolds entropy extra j (poly.getD (1 + j) 0)) {i : ℕ} (hi : i < 150) :
    wordBit poly i = entropyBit entropy i := by
  obtain ⟨-, -, hbits⟩ := hpoly (i / 10) (by simp only [dataWords]; omega)
  rw [wordBit, show 10 - i % 10 = (9 - i % 10) + 1 by omega, hbits _ (by omega)]
  congr 1
  omega

/-! ## `extra`: the features and the birthday -/

theorem toNat_extraVal (features : UInt8) {birthday : UInt16} (hb : birthday.toNat < 2 ^ 10) :
    (extraVal features birthday).toNat = 2 ^ 10 * (features.toNat % 2 ^ 6) + birthday.toNat := by
  rw [extraVal, UInt16.toNat_or, UInt16.toNat_shiftLeft, UInt8.toNat_toUInt16,
    show (dateBits.toUInt16.toNat % 16) = 10 from rfl, Nat.shiftLeft_eq,
    show 2 ^ 16 = 2 ^ 6 * 2 ^ 10 from rfl, Nat.mul_mod_mul_right, Nat.mul_comm, Nat.two_pow_add_eq_or_of_lt hb]

theorem extra_eq_of_coeffHolds {entropy : Vector UInt8 32} {x extra : UInt16} {poly : Poly}
    (hpoly : ∀ j < dataWords, CoeffHolds entropy x j (poly.getD (1 + j) 0)) (hex : ExtraHolds poly 15 extra) :
    extra.toNat = x.toNat % 2 ^ 15 := by
  apply Nat.eq_of_testBit_eq
  intro b
  rw [Nat.testBit_mod_two_pow]
  by_cases hb : b < 15
  · rw [hex.2 b hb, (hpoly (15 - 1 - b) (by simp only [dataWords]; omega)).2.1, decide_eq_true hb, Bool.true_and]
    congr 1
    omega
  · rw [testBit_of_lt_two_pow hex.1 (by omega), decide_eq_false hb, Bool.false_and]

/-! ## Words: `to_string` and their lookup -/

theorem intercalate_append_singleton {α : Type} (sep : List α) {l : List (List α)} (hl : l ≠ []) (x : List α) :
    sep.intercalate (l ++ [x]) = sep.intercalate l ++ sep ++ x := by
  induction l with
  | nil => exact absurd rfl hl
  | cons a l ih =>
    cases l with
    | nil => rw [List.cons_append, List.nil_append, List.intercalate_cons_cons, List.intercalate_singleton,
        List.intercalate_singleton]
    | cons b l =>
      rw [List.cons_append, List.cons_append, List.intercalate_cons_cons, ← List.cons_append,
        ih (List.cons_ne_nil _ _), List.intercalate_cons_cons, List.append_assoc, List.append_assoc,
        List.append_assoc, List.append_assoc, List.append_assoc]

theorem foldl_words_eq (f : ℕ → String) (n : ℕ) : ∀ m ≤ n,
    ((List.range (m + 1)).foldl (fun s i => if i < n then (s ++ f i).push ' ' else s ++ f i) "") =
      String.intercalate " " ((List.range (m + 1)).map f) ++ (if m < n then " " else "")
  | 0, _ => by
    apply String.ext
    by_cases h : 0 < n <;> simp [h]
  | m + 1, hm => by
    rw [List.range_succ, List.foldl_append, foldl_words_eq f n m (by omega), if_pos (by omega), List.map_append]
    apply String.ext
    simp only [List.foldl_cons, List.foldl_nil, List.map_cons, List.map_nil, String.toList_append,
      String.toList_intercalate]
    rw [List.map_append, List.map_singleton, intercalate_append_singleton _ (by simp) _]
    split <;> simp

theorem toString_eq (languages : Language → WordList) (seed : Polyseed) :
    toString languages seed = String.intercalate " "
      ((List.range polyseedLength).map fun i => (languages seed.language).word ((seed.toPoly.set 0 seed.checksum).getD i 0).toNat) := by
  have hcoin : (seed.toPoly.set 0 seed.checksum).set polyNumCheckDigits
      ((seed.toPoly.set 0 seed.checksum)[polyNumCheckDigits] ^^^ coin) = seed.toPoly.set 0 seed.checksum := by
    rw [UInt16.xor_zero, Vector.set_getElem_self]
  have hwords := foldl_words_eq (fun i => (languages seed.language).word ((seed.toPoly.set 0 seed.checksum).getD i 0).toNat)
    15 15 le_rfl
  rw [if_neg (lt_irrefl _), String.append_empty] at hwords
  rw [toString]
  dsimp only
  rw [hcoin]
  exact hwords

theorem WordList.word_mem (lang : WordList) {i : ℕ} (hi : i < 2048) : lang.word i ∈ lang.words := by
  rw [WordList.word, List.getD_eq_getElem _ _ (by rw [lang.length_words]; exact hi)]
  exact List.getElem_mem _

theorem prefixMatches_iff (langWord word : String) :
    prefixMatches langWord word = true ↔ langWord.toList.take prefixLen = word.toList.take prefixLen := by
  rw [prefixMatches, foldl_and_eq, Bool.true_and, List.all_eq_true]
  constructor
  · intro h
    apply List.ext_getElem?
    intro i
    rw [List.getElem?_take, List.getElem?_take]
    split
    · exact beq_iff_eq.mp (h i (List.mem_range.mpr ‹_›))
    · rfl
  · intro h i hi
    have hi' := congrArg (·[i]?) h
    simp only [List.getElem?_take, if_pos (List.mem_range.mp hi)] at hi'
    exact beq_iff_eq.mpr hi'

theorem matches_iff (hasPrefix : Bool) (langWord word : String) :
    (if hasPrefix then prefixMatches langWord word else langWord == word) = true ↔
      lookupKey hasPrefix false langWord = lookupKey hasPrefix false word := by
  cases hasPrefix
  · rw [if_neg Bool.false_ne_true, beq_iff_eq, lookupKey, if_neg Bool.false_ne_true, lookupKey, if_neg Bool.false_ne_true]
    exact String.toList_inj.symm
  · rw [if_pos rfl, prefixMatches_iff]
    rfl

theorem checkIfMatches_getElem (hasPrefix : Bool) {ws : List String}
    (hnodup : (ws.map (lookupKey hasPrefix false)).Nodup) {i : ℕ} (hi : i < ws.length) :
    checkIfMatches hasPrefix ws ws[i] = some i := by
  have hkey : ∀ j (hj : j < ws.length), lookupKey hasPrefix false ws[j] = lookupKey hasPrefix false ws[i] ↔ j = i := by
    intro j hj
    have hinj := @List.Nodup.getElem_inj_iff _ _ hnodup j (by rw [List.length_map]; exact hj) i
      (by rw [List.length_map]; exact hi)
    rwa [List.getElem_map, List.getElem_map] at hinj
  -- the first search stops at `i`, and no word after it matches
  have hfirst : ∀ p : String → Bool, (∀ j (hj : j < ws.length), p ws[j] = true ↔ j = i) → ws.findIdx? p = some i := by
    intro p hp
    rw [List.findIdx?_eq_some_iff_getElem]
    exact ⟨hi, (hp i hi).mpr rfl, fun j hji => by rw [hp j (by omega)]; omega⟩
  have hmatch : ∀ j (hj : j < ws.length), (if hasPrefix then prefixMatches ws[j] ws[i] else ws[j] == ws[i]) = true ↔ j = i :=
    fun j hj => (matches_iff hasPrefix _ _).trans (hkey j hj)
  cases hasPrefix
  · exact hfirst (· == ws[i]) fun j hj => by simpa using hmatch j hj
  · have hrest : ((ws.drop (i + 1)).findIdx? (prefixMatches · ws[i])) = none := by
      rw [List.findIdx?_eq_none_iff]
      intro x hx
      obtain ⟨k, hk, rfl⟩ := List.mem_iff_getElem.mp hx
      rw [List.getElem_drop]
      have hk' := hmatch (i + 1 + k) (by rw [List.length_drop] at hk; omega)
      simp only [if_true] at hk'
      exact Bool.eq_false_iff.mpr fun h => absurd (hk'.mp h) (by omega)
    rw [checkIfMatches, if_pos rfl, hfirst (prefixMatches · ws[i]) fun j hj => by simpa using hmatch j hj]
    dsimp only
    rw [hrest, Option.isSome_none, if_neg Bool.false_ne_true]

theorem checkIfMatches_lt {hasPrefix : Bool} {ws : List String} {word : String} {c : ℕ}
    (h : checkIfMatches hasPrefix ws word = some c) : c < ws.length := by
  have hfound : ∀ p : String → Bool, ws.findIdx? p = some c → c < ws.length := fun p hp =>
    (List.findIdx?_eq_some_iff_getElem.mp hp).1
  unfold checkIfMatches at h
  split at h
  · split at h
    · cases h
    · split at h
      · cases h
      · rename_i res hres _
        cases h
        exact hfound _ hres
  · exact hfound _ h

theorem coeff_eq (lang : WordList) (word : String) :
    lang.coeff word = checkIfMatches lang.hasPrefix (lang.words.map (compared lang.hasAccent))
      (compared lang.hasAccent word) := by
  unfold WordList.coeff compared
  cases lang.hasAccent
  · rw [if_neg Bool.false_ne_true, if_neg Bool.false_ne_true, List.map_id'' fun w => if_neg Bool.false_ne_true]
  · rfl

theorem coeff_word (lang : WordList) {i : ℕ} (hi : i < 2048) : lang.coeff (lang.word i) = some i := by
  have hlen : i < (lang.words.map (compared lang.hasAccent)).length := by
    rw [List.length_map, lang.length_words]
    exact hi
  have hnodup : ((lang.words.map (compared lang.hasAccent)).map (lookupKey lang.hasPrefix false)).Nodup := by
    rw [List.map_map]
    convert lang.nodup_keys using 2
    funext w
    unfold lookupKey compared
    cases lang.hasAccent <;> rfl
  have hword : compared lang.hasAccent (lang.word i) = (lang.words.map (compared lang.hasAccent))[i] := by
    rw [List.getElem_map, WordList.word, List.getD_eq_getElem]
  rw [coeff_eq, hword, checkIfMatches_getElem _ hnodup hlen]

theorem coeff_lt {lang : WordList} {word : String} {c : ℕ} (h : lang.coeff word = some c) : c < 2048 := by
  rw [coeff_eq] at h
  have hc := checkIfMatches_lt h
  rwa [List.length_map, lang.length_words] at hc

theorem vector_eq_of_getD {α : Type} {n : ℕ} {v w : Vector α n} (d : α) (h : ∀ k < n, v.getD k d = w.getD k d) :
    v = w := by
  apply Vector.ext
  intro k hk
  have hk' := h k hk
  rwa [getD_eq, getD_eq, Vector.getElem?_eq_getElem hk, Vector.getElem?_eq_getElem hk] at hk'

theorem decodeWords_words (lang : WordList) {P : Poly} (hP : ∀ k, (P.getD k 0).toNat < 2048) :
    ∀ (n i : ℕ) (poly : Poly), i + n = polyseedLength → (∀ k < i, poly.getD k 0 = P.getD k 0) →
      decodeWords lang i ((List.range' i n).map fun k => lang.word (P.getD k 0).toNat) poly = .ok P
  | 0, i, poly, hn, hpoly => by
    rw [List.range'_zero, List.map_nil, decodeWords]
    exact congrArg Except.ok (vector_eq_of_getD 0 fun k hk => hpoly k (by omega))
  | n + 1, i, poly, hn, hpoly => by
    have hfit : (P.getD i 0).toNat < 2 ^ 16 ∧ i < polyseedLength := ⟨by have := hP i; omega, by omega⟩
    rw [List.range'_succ, List.map_cons, decodeWords, coeff_word lang (hP i)]
    dsimp only
    rw [if_pos hfit, UInt16.toNat_inj.mp (toNat_toUInt16_of_lt hfit.1)]
    refine decodeWords_words lang hP n (i + 1) _ (by omega) fun k hk => ?_
    rw [getD_setIfInBounds]
    split
    · rename_i hik
      rw [hik.1]
    · exact hpoly k (by rename_i hik; omega)

theorem decodeWords_lt (lang : WordList) :
    ∀ (words : List String) (i : ℕ) (poly poly' : Poly), (∀ k, (poly.getD k 0).toNat < 2048) →
      decodeWords lang i words poly = .ok poly' → ∀ k, (poly'.getD k 0).toNat < 2048
  | [], _, poly, poly', hpoly, h => by
    rw [decodeWords] at h
    cases h
    exact hpoly
  | word :: words, i, poly, poly', hpoly, h => by
    rw [decodeWords] at h
    split at h
    · cases h
    · rename_i c hc
      split at h
      · rename_i hfit
        refine decodeWords_lt lang words (i + 1) _ poly' (fun k => ?_) h
        rw [getD_setIfInBounds]
        split
        · rw [toNat_toUInt16_of_lt hfit.1]
          exact coeff_lt hc
        · exact hpoly k
      · cases h

theorem decodePoly_lt {lang : WordList} {seed : String} {poly : Poly} (h : decodePoly lang seed = .ok poly) :
    ∀ k, (poly.getD k 0).toNat < 2 ^ 11 := by
  simp only [decodePoly, bind, Except.bind] at h
  split at h
  · cases h
  · rename_i poly₀ h₀
    cases h
    rw [UInt16.xor_zero, Vector.set_getElem_self]
    exact decodeWords_lt lang _ 0 _ poly₀ (fun k => by simp [getD_eq, Vector.getElem?_replicate]; split <;> simp) h₀

theorem decodePoly_toString (languages : Language → WordList) {seed : Polyseed}
    (hP : ∀ k, ((seed.toPoly.set 0 seed.checksum).getD k 0).toNat < 2048) :
    decodePoly (languages seed.language) (toString languages seed) = .ok (seed.toPoly.set 0 seed.checksum) := by
  have hne : ((List.range polyseedLength).map fun i =>
      (languages seed.language).word ((seed.toPoly.set 0 seed.checksum).getD i 0).toNat) ≠ [] := by simp
  have hsplit := splitWhitespace_intercalate hne fun w hw => by
    obtain ⟨i, -, rfl⟩ := List.mem_map.mp hw
    have hmem := (languages seed.language).word_mem (hP i)
    exact ⟨(languages seed.language).word_ne_nil _ hmem, (languages seed.language).no_whitespace _ hmem⟩
  rw [decodePoly, toString_eq, hsplit, List.range_eq_range']
  have hwords := decodeWords_words (languages seed.language) hP polyseedLength 0 (Vector.replicate polyseedLength 0)
    (Nat.zero_add _) fun k hk => absurd hk (Nat.not_lt_zero k)
  simp only [hwords, bind, Except.bind, pure, Except.pure, UInt16.xor_zero, Vector.set_getElem_self]

/-! ## The round trip -/

theorem fromInternal_eq_ok {lang : Language} {features : UInt8} {birthday : UInt16} {entropy : Vector UInt8 32}
    {seed : Polyseed} :
    fromInternal lang features birthday entropy = .ok seed ↔
      polyseedFeaturesSupported features = true ∧ validEntropy entropy = true ∧
        seed = ⟨lang, features, birthday, entropy, polyEval (Polyseed.toPoly ⟨lang, features, birthday, entropy, 0⟩)⟩ := by
  unfold fromInternal
  by_cases hf : polyseedFeaturesSupported features = true
  · by_cases he : validEntropy entropy = true
    · simp only [hf, he, Bool.not_true, Bool.false_eq_true, if_false, true_and, Except.ok.injEq]
      exact eq_comm
    · simp [hf, he]
  · simp [hf]

theorem toPoly_lt (seed : Polyseed) : ∀ k, (seed.toPoly.getD k 0).toNat < 2 ^ 11 := by
  obtain ⟨hzero, hcoeffs⟩ := toPoly_spec seed
  intro k
  rcases Nat.lt_or_ge k polyseedLength with hk | hk
  · rcases Nat.eq_zero_or_pos k with rfl | hk0
    · rw [hzero]
      decide
    · have h := (hcoeffs (k - 1) (by simp only [dataWords, polyseedLength] at hk ⊢; omega)).1
      rwa [show 1 + (k - 1) = k by omega] at h
  · rw [getD_of_le _ _ hk]
    decide

theorem seedPoly_spec (seed : Polyseed) (hsum : seed.checksum = polyEval seed.toPoly) :
    (∀ k, ((seed.toPoly.set 0 seed.checksum).getD k 0).toNat < 2 ^ 11) ∧
      polyEval (seed.toPoly.set 0 seed.checksum) = 0 := by
  have hlt := toPoly_lt seed
  refine ⟨fun k => ?_, ?_⟩
  · rw [getD_set]
    split
    · rw [hsum]
      exact polyEval_lt hlt
    · exact hlt k
  · rw [polyEval_set_zero, hsum, polyEval_eq, (toPoly_spec seed).1, UInt16.xor_zero, UInt16.xor_self]

theorem coeffHolds_unique {entropy : Vector UInt8 32} {x a b : UInt16} {j : ℕ} (ha : CoeffHolds entropy x j a)
    (hb : CoeffHolds entropy x j b) : a = b := by
  obtain ⟨ha, ha0, has⟩ := ha
  obtain ⟨hb, hb0, hbs⟩ := hb
  refine UInt16.toNat_inj.mp (Nat.eq_of_testBit_eq fun t => ?_)
  cases t with
  | zero => rw [ha0, hb0]
  | succ t =>
    by_cases ht : t < 10
    · rw [has t ht, hbs t ht]
    · rw [testBit_of_lt_two_pow ha (by omega), testBit_of_lt_two_pow hb (by omega)]

theorem coeffHolds_of_unpack {poly : Poly} {extra x : UInt16} {u : Unpacker}
    (hcoeff : ∀ k, (poly.getD k 0).toNat < 2 ^ 11) (hex : ExtraHolds poly 15 extra) (hu : u.At poly 150)
    (hx : x.toNat % 2 ^ 15 = extra.toNat) : ∀ j < dataWords, CoeffHolds u.entropy x j (poly.getD (1 + j) 0) := by
  intro j hj
  have hj' : j < 15 := hj
  refine ⟨hcoeff _, ?_, fun t ht => ?_⟩
  · have hbit := hex.2 (14 - j) (by omega)
    rw [← hx, Nat.testBit_mod_two_pow, decide_eq_true (by omega), Bool.true_and] at hbit
    rw [hbit]
    congr 3
    omega
  · rw [entropyBit_of_at hu (by omega), wordBit]
    congr 3 <;> omega

theorem toNat_and_dateMask (x : UInt16) : (x &&& dateMask).toNat = x.toNat % 2 ^ 10 := by
  rw [UInt16.toNat_and, show dateMask.toNat = 2 ^ 10 - 1 from rfl, Nat.and_two_pow_sub_one_eq_mod]

theorem toNat_shiftRight_dateBits (x : UInt16) : (x >>> dateBits.toUInt16).toNat = x.toNat / 2 ^ 10 := by
  rw [UInt16.toNat_shiftRight, show dateBits.toUInt16.toNat % 16 = 10 from rfl, Nat.shiftRight_eq_div_pow]

theorem fromString_toString_eq (languages : Language → WordList) {lang : Language} {features : UInt8}
    {birthday : UInt16} {entropy : Vector UInt8 32} {seed : Polyseed} (hb : birthday.toNat < 2 ^ 10)
    (h : fromInternal lang features birthday entropy = .ok seed) :
    fromString languages lang (toString languages seed) = fromInternal lang (features % 32) birthday entropy := by
  obtain ⟨-, hvalid, hseed⟩ := fromInternal_eq_ok.mp h
  have hsum : seed.checksum = polyEval seed.toPoly := by rw [hseed]; rfl
  obtain ⟨hlt, hzero⟩ := seedPoly_spec seed hsum
  obtain ⟨extra, u, hunpack, hex, hu⟩ := unpackPoly_spec hlt
  have hdecode := decodePoly_toString languages hlt
  have hcoeffs : ∀ j < dataWords, CoeffHolds entropy (extraVal features birthday) j
      ((seed.toPoly.set 0 seed.checksum).getD (1 + j) 0) := fun j hj => by
    rw [getD_set, if_neg (by omega)]
    have hcoeff := (toPoly_spec seed).2 j hj
    rwa [hseed] at hcoeff ⊢
  have hlang : seed.language = lang := by rw [hseed]
  rw [hlang] at hdecode
  -- the entropy and `extra` converted back are those written
  have hentropy : u.entropy = entropy := entropy_eq_of_bits hu.lt ((validEntropy_iff entropy).mp hvalid)
    fun j hj => by rw [entropyBit_of_at hu hj, wordBit_of_coeffHolds hcoeffs hj]
  have hextra : extra.toNat = 2 ^ 10 * (features.toNat % 32) + birthday.toNat := by
    rw [extra_eq_of_coeffHolds hcoeffs hex, toNat_extraVal features hb]
    omega
  have hbirthday : extra &&& dateMask = birthday := UInt16.toNat_inj.mp (by rw [toNat_and_dateMask, hextra]; omega)
  have hfeatures : (extra >>> dateBits.toUInt16).toNat = features.toNat % 32 := by
    rw [toNat_shiftRight_dateBits, hextra]
    omega
  have hfeatures8 : (extra >>> dateBits.toUInt16).toUInt8 = features % 32 := UInt8.toNat_inj.mp (by
    rw [UInt16.toNat_toUInt8, hfeatures, UInt8.toNat_mod, show (32 : UInt8).toNat = 32 from rfl]
    omega)
  simp only [fromString, hdecode, hzero, hunpack, bind, Except.bind, ne_eq, not_true_eq_false,
    if_false, hfeatures, hfeatures8, hbirthday, hentropy]
  -- the features have 5 bits: `u8::try_from` does not panic
  rw [if_neg (by omega)]

theorem toPoly_fromString (languages : Language → WordList) {lang : Language} {s : String} {seed : Polyseed}
    (h : fromString languages lang s = .ok seed) :
    ∃ poly, decodePoly (languages lang) s = .ok poly ∧ seed.toPoly.set 0 seed.checksum = poly := by
  simp only [fromString, bind, Except.bind] at h
  split at h
  · cases h
  · rename_i poly hdecode
    refine ⟨poly, hdecode, ?_⟩
    have hlt := decodePoly_lt hdecode
    by_cases hzero : polyEval poly = 0
    · obtain ⟨extra, u, hunpack, hex, hu⟩ := unpackPoly_spec hlt
      have hfeatures : (extra >>> dateBits.toUInt16).toNat < 2 ^ 5 := by
        rw [toNat_shiftRight_dateBits]
        have := hex.1
        omega
      simp only [hzero, ne_eq, not_true_eq_false, if_false, hunpack] at h
      rw [if_neg (show ¬ 2 ^ 8 ≤ (extra >>> dateBits.toUInt16).toNat by omega)] at h
      obtain ⟨-, -, hseed⟩ := fromInternal_eq_ok.mp h
      -- `to_poly` writes back the `extra` and entropy the conversion read
      have hx : (extraVal (extra >>> dateBits.toUInt16).toUInt8 (extra &&& dateMask)).toNat % 2 ^ 15 = extra.toNat := by
        have hb : (extra &&& dateMask).toNat < 2 ^ 10 := by
          rw [toNat_and_dateMask]
          exact Nat.mod_lt _ (by decide)
        rw [toNat_extraVal _ hb, UInt16.toNat_toUInt8, toNat_and_dateMask]
        rw [toNat_shiftRight_dateBits] at hfeatures ⊢
        have := hex.1
        omega
      have hpoly := coeffHolds_of_unpack hlt hex hu hx
      have hfields : seed.entropy = u.entropy ∧ seed.features = (extra >>> dateBits.toUInt16).toUInt8 ∧
          seed.birthday = extra &&& dateMask := by
        rw [hseed]
        exact ⟨rfl, rfl, rfl⟩
      have hseed' := (toPoly_spec seed).2
      rw [hfields.1, hfields.2.1, hfields.2.2] at hseed'
      have hagree : ∀ k, 1 ≤ k → seed.toPoly.getD k 0 = poly.getD k 0 := by
        intro k hk
        rcases Nat.lt_or_ge k polyseedLength with hk16 | hk16
        · have hj : k - 1 < dataWords := by simp only [dataWords, polyseedLength] at hk16 ⊢; omega
          have hseedk := hseed' (k - 1) hj
          have hpolyk := hpoly (k - 1) hj
          rw [show 1 + (k - 1) = k by omega] at hseedk hpolyk
          exact coeffHolds_unique hseedk hpolyk
        · rw [getD_of_le _ _ hk16, getD_of_le _ _ hk16]
      -- the checksum: `poly_eval` of the rest, which the zero value makes coefficient `0`
      have hsum : seed.checksum = poly.getD 0 0 := by
        have hpoly0 := hzero
        rw [polyEval_eq, UInt16.xor_eq_zero_iff] at hpoly0
        have hsum : seed.checksum = polyEval seed.toPoly := by rw [hseed]; rfl
        rw [hsum, polyEval_eq, (toPoly_spec seed).1, UInt16.xor_zero, horner_congr hagree, hpoly0]
      refine vector_eq_of_getD 0 fun k hk => ?_
      rw [getD_set]
      split
      · rename_i hk0
        rw [← hk0, hsum]
      · exact hagree k (by omega)
    · simp only [hzero, ne_eq, not_false_eq_true, if_true, throw, throwThe, MonadExceptOf.throw] at h
      cases h

theorem polyseedFeaturesSupported_iff (features : UInt8) :
    polyseedFeaturesSupported features = true ↔ features &&& reservedFeaturesMask = 0 :=
  beq_iff_eq

/-- Polyseeds round trip through their words when their features fit in `FEATURE_BITS`: every
    supported features value, birthday of `DATE_BITS` and valid entropy make a seed whose
    polynomial has value zero and whose words `from_string` reads back as the seed with the
    features' low 5 bits. And every seed `from_string` returns has, as its polynomial with
    the checksum, the coefficients its words decode to. -/
theorem polyseed_round_trips (languages : Language → WordList) (lang : Language) :
    (∀ (features : UInt8) (birthday : UInt16) (entropy : Vector UInt8 32),
      features &&& reservedFeaturesMask = 0 → birthday.toNat < 2 ^ dateBits → validEntropy entropy = true →
      ∃ seed, fromInternal lang features birthday entropy = .ok seed ∧
        polyEval (seed.toPoly.set 0 seed.checksum) = 0 ∧
        fromString languages lang (toString languages seed) = fromInternal lang (features % 32) birthday entropy ∧
        (features.toNat < 2 ^ featureBits → fromString languages lang (toString languages seed) = .ok seed)) ∧
    ∀ (s : String) (seed : Polyseed), fromString languages lang s = .ok seed →
      ∃ poly, decodePoly (languages lang) s = .ok poly ∧ seed.toPoly.set 0 seed.checksum = poly := by
  refine ⟨fun features birthday entropy hf hb he => ?_, fun s seed h => toPoly_fromString languages h⟩
  have hok : fromInternal lang features birthday entropy = .ok _ :=
    fromInternal_eq_ok.mpr ⟨(polyseedFeaturesSupported_iff features).mpr hf, he, rfl⟩
  have hround := fromString_toString_eq languages hb hok
  refine ⟨_, hok, (seedPoly_spec _ rfl).2, hround, fun hlow => ?_⟩
  -- features below `2 ^ FEATURE_BITS` are their own low 5 bits
  have hmod : features % 32 = features := UInt8.toNat_inj.mp (by
    rw [UInt8.toNat_mod, show (32 : UInt8).toNat = 32 from rfl]
    exact Nat.mod_eq_of_lt hlow)
  rw [hround, hmod, hok]

/-- 2048 one-character words, from U+4E00 on. -/
def cjkPolyseedWords : List String := (List.range 2048).map fun i => String.singleton (cjkChar i)

theorem cjkPolyseedWords_no_whitespace : ∀ w ∈ cjkPolyseedWords, ∀ c ∈ w.toList, isWhitespace c = false := by
  simp only [cjkPolyseedWords, List.mem_map, List.mem_range, forall_exists_index, and_imp]
  rintro _ i hi rfl c hc
  rw [String.toList_singleton, List.mem_singleton] at hc
  subst hc
  have hc := toNat_cjkChar hi
  simp only [isWhitespace, hc, Bool.or_eq_false_iff, Bool.and_eq_false_iff, decide_eq_false_iff_not, beq_eq_false_iff_ne]
  omega

theorem cjkPolyseedWords_nodup_keys : (cjkPolyseedWords.map (lookupKey false false)).Nodup := by
  rw [cjkPolyseedWords, List.map_map]
  refine List.nodup_range.map_on fun i hi j hj h => ?_
  have hchars : cjkChar i = cjkChar j := by
    simpa [lookupKey, compared] using h
  have hnat := congrArg Char.toNat hchars
  rw [toNat_cjkChar (List.mem_range.mp hi), toNat_cjkChar (List.mem_range.mp hj)] at hnat
  omega

theorem cjkPolyseedWords_length : cjkPolyseedWords.length = 2048 := by
  rw [cjkPolyseedWords, List.length_map, List.length_range]

theorem cjkPolyseedWords_ne_nil : ∀ w ∈ cjkPolyseedWords, w.toList ≠ [] := by
  simp [cjkPolyseedWords]

/-- The one-character words as a list looked up whole, without accents. -/
def cjkPolyseedWordList : WordList :=
  ⟨cjkPolyseedWords, false, false, cjkPolyseedWords_length, cjkPolyseedWords_ne_nil,
    cjkPolyseedWords_no_whitespace, cjkPolyseedWords_nodup_keys⟩

/-- With the one-character words, the seed of features `16` (the one supported feature bit),
    birthday `0` and zero entropy round trips. -/
theorem polyseed_round_trips_cjk :
    ∃ seed, fromInternal .english 16 0 (Vector.replicate 32 0) = .ok seed ∧
      fromString (fun _ => cjkPolyseedWordList) .english (toString (fun _ => cjkPolyseedWordList) seed) = .ok seed := by
  obtain ⟨seed, hok, -, -, hround⟩ := (polyseed_round_trips (fun _ => cjkPolyseedWordList) .english).1 16 0
    (Vector.replicate 32 0) (by decide) (by decide) (by decide)
  exact ⟨seed, hok, hround (by decide)⟩

end Polyseed

end Serai.Monero
