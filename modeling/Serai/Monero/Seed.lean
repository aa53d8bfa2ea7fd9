import Mathlib
import Serai.Lib.Layer
/-
  Serai.Monero.Seed — classic (25-word) Monero seeds (coins/monero/src/wallet/seed:
  `classic.rs` and the classic arm of `Seed::from_string`).

  `key_to_seed` cuts the scalar's 32 bytes into eight little-endian `u32`s and writes each
  `x` as three words of the 1626-word list, `x`, `x + x / N` and `x + x / N + x / N²`, all
  mod `N`, then, but in Old English, appends the word the CRC32 of the trimmed words picks;
  the words are joined by spaces. `seed_to_bytes` splits on whitespace, looks the words up
  (trimmed, when the checksum is there), checks the checksum, and rebuilds each `x` as
  `a + ((N - a + b) % N) * N + ((N - b + c) % N) * N²` from its three indices, which it
  writes with `u32::try_from(..).unwrap()`.

  The word lists are a parameter (`WordList`): 1626 words, distinct once trimmed to the
  language's unique prefix, each a non-empty word without whitespace. A panic is
  `SeedFail.panic`.

  - `seedToBytes_keyToSeed`, `fromString_toString`: a seed made from a canonical scalar
    gives back its bytes, and reads back to itself.
  - `classic_seed_round_trips_and_panics`: both, and, for every language, the 24 words of
    indices `1625, 1624, 1623` and then `0`, which `Seed::from_string` takes as a
    well-formed seed: the first three rebuild `1626³ - 1 ≥ 2³²`, so the `unwrap` panics.
-/

namespace Serai.Monero

/-! ## Languages, words and errors -/

inductive Language where
  | chinese
  | english
  | dutch
  | french
  | spanish
  | german
  | italian
  | portuguese
  | japanese
  | russian
  | esperanto
  | lojban
  | englishOld
  deriving DecidableEq, Repr

inductive SeedError where
  | invalidSeedLength
  | unknownLanguage
  | invalidChecksum
  | englishOldWithChecksum
  | invalidEntropy
  | invalidSeed
  | unsupportedFeatures
  deriving DecidableEq, Repr

/-- How parsing a seed ends when it fails: a `SeedError`, or a panic. -/
inductive SeedFail where
  | error (e : SeedError)
  | panic
  deriving DecidableEq, Repr

/-- `char::is_whitespace`: Unicode's `White_Space`. -/
def isWhitespace (c : Char) : Bool :=
  let n := c.toNat
  (0x09 ≤ n && n ≤ 0x0D) || n == 0x20 || n == 0x85 || n == 0xA0 || n == 0x1680 ||
    (0x2000 ≤ n && n ≤ 0x200A) || n == 0x2028 || n == 0x2029 || n == 0x202F || n == 0x205F || n == 0x3000

/-- `str::split_whitespace`: the non-empty runs between whitespace. -/
def splitWhitespace (s : String) : List String :=
  ((s.toList.splitOnP isWhitespace).filter (· ≠ [])).map String.ofList

/-- `trim`: the first `len` characters. -/
def trim (word : String) (len : ℕ) : String := String.ofList (word.toList.take len)

/-- The number of words of every list. -/
def listLength : ℕ := 1626

/-- `WordList`: the words and the unique prefix length; `word_map` and
    `trimmed_word_map` are the index of a word and of a trimmed word. The crate's lists have
    1626 words, distinct once trimmed, each non-empty and without whitespace. -/
structure WordList where
  wordList : List String
  uniquePrefixLength : ℕ
  length_wordList : wordList.length = listLength
  nodup_trims : (wordList.map (trim · uniquePrefixLength)).Nodup
  word_ne_nil : ∀ w ∈ wordList, w.toList ≠ []
  no_whitespace : ∀ w ∈ wordList, ∀ c ∈ w.toList, isWhitespace c = false

/-- `word_map.get(word)`. -/
def WordList.wordIndex (lang : WordList) (word : String) : Option ℕ := lang.wordList.idxOf? word

/-- `trimmed_word_map.get(trimmed)`. -/
def WordList.trimmedIndex (lang : WordList) (trimmed : String) : Option ℕ :=
  (lang.wordList.map (trim · lang.uniquePrefixLength)).idxOf? trimmed

/-- `words[i]`, the index being below the list's length wherever it is read. -/
def WordList.word (lang : WordList) (i : ℕ) : String := lang.wordList.getD i ""

/-! ## The checksum -/

/-- `crc32_table()`: the table of the reflected polynomial `0xedb88320`. -/
def crc32Table : List UInt32 :=
  (List.range 256).map fun i =>
    (List.range 8).foldl (fun entry _ => if entry &&& 1 = 1 then (entry >>> 1) ^^^ 0xedb88320 else entry >>> 1)
      (UInt32.ofNat i)

/-- The CRC32 loop of `checksum_index`, from `u32::MAX`. -/
def crc32 (bytes : List UInt8) : UInt32 :=
  bytes.foldl (fun checksum b => crc32Table.getD ((checksum % 256).toUInt8 ^^^ b).toNat 0 ^^^ (checksum >>> 8))
    0xFFFFFFFF

/-- `checksum_index`: the complemented CRC32 of the trimmed words, mod their number. -/
def checksumIndex (words : List String) (lang : WordList) : ℕ :=
  let trimmedWords := String.join (words.map (trim · lang.uniquePrefixLength))
  (~~~crc32 trimmedWords.toUTF8.toList).toNat % words.length

/-! ## Scalars and their bytes -/

/-- `ℓ`, the order of the Ed25519 group's prime-order subgroup. -/
def groupOrder : ℕ := 2 ^ 252 + 27742317777372353535851937790883648493

instance : NeZero groupOrder := ⟨by norm_num [groupOrder]⟩

/-- A `Scalar`, by its canonical representative. -/
abbrev Scalar := ZMod groupOrder

/-- `n` little-endian bytes of `v`. -/
def leBytes (n v : ℕ) : List UInt8 := (List.range n).map fun i => UInt8.ofNat (v / 256 ^ i)

/-- The value of little-endian bytes. -/
def leValue (bytes : List UInt8) : ℕ := Nat.ofDigits 256 (bytes.map UInt8.toNat)

/-- `Scalar::to_bytes`. -/
def Scalar.toBytes (k : Scalar) : List UInt8 := leBytes 32 k.val

/-- `Scalar::from_canonical_bytes`: the bytes' value, if below `ℓ`. -/
def Scalar.fromCanonicalBytes (bytes : List UInt8) : Option Scalar :=
  if leValue bytes < groupOrder then some (leValue bytes : Scalar) else none

/-! ## Key to seed -/

/-- The four bytes of the `i`-th `u32`: `bytes[start .. start + 4]`. -/
def segment (bytes : List UInt8) (i : ℕ) : List UInt8 := (bytes.drop (i * 4)).take 4

/-- The three word indices of a `u32` `x`: `x`, `x / N + x` and `x / N / N + (x / N + x)`,
    each mod `N` (on `u64`, where they do not wrap). -/
def chunkIndices (x : ℕ) : List ℕ :=
  let n := listLength
  [x % n, (x / n + x) % n, (x / n / n + (x / n + x)) % n]

/-- `ClassicSeed`: the language and the words joined by spaces. -/
structure ClassicSeed where
  lang : Language
  words : String
  deriving DecidableEq

variable (languages : Language → WordList)

/-- `key_to_seed`. -/
def keyToSeed (lang : Language) (key : Scalar) : ClassicSeed :=
  let bytes := key.toBytes
  let words := languages lang
  let seed := (List.range 8).flatMap fun i => (chunkIndices (leValue (segment bytes i))).map words.word
  -- a checksum word for every language but Old English
  let seed := if lang ≠ .englishOld then seed ++ [seed.getD (checksumIndex seed words) ""] else seed
  ⟨lang, String.intercalate " " seed⟩

/-! ## Seed to bytes -/

/-- One `u32` rebuilt from its three indices, checked and written as four bytes. -/
def decodeChunk (matchedIndices : List ℕ) (i : ℕ) : Except SeedFail (List UInt8) :=
  let n := listLength
  let i1 := matchedIndices.getD (i * 3) 0
  let i2 := matchedIndices.getD (i * 3 + 1) 0
  let i3 := matchedIndices.getD (i * 3 + 2) 0
  let value := i1 + (n - i1 + i2) % n * n + (n - i2 + i3) % n * n * n
  if value % n ≠ i1 then .error (.error .invalidSeed)
  -- `u32::try_from(indices[0]).unwrap()`
  else if 2 ^ 32 ≤ value then .error .panic
  else .ok (leBytes 4 value)

/-- The index of one word: trimmed when the seed has its checksum. -/
def matchWord (lang : WordList) (hasChecksum : Bool) (word : String) : Except SeedFail ℕ :=
  let found := if hasChecksum then lang.trimmedIndex (trim word lang.uniquePrefixLength) else lang.wordIndex word
  match found with
  | some index => .ok index
  | none => .error (.error .invalidSeed)

/-- `seed_to_bytes`. -/
def seedToBytes (lang : Language) (words : String) : Except SeedFail (List UInt8) := do
  let words := splitWhitespace words
  if words.length ≠ 24 ∧ words.length ≠ 25 then throw .panic
  let hasChecksum := words.length = 25
  if hasChecksum ∧ lang = .englishOld then throw (.error .englishOldWithChecksum)
  let langWordList := languages lang
  let matchedIndices ← words.mapM (matchWord langWordList hasChecksum)
  if hasChecksum then
    let lastWord := words.getLastD ""
    let checksum := words.getD (checksumIndex (words.take (words.length - 1)) langWordList) ""
    if trim checksum langWordList.uniquePrefixLength ≠ trim lastWord langWordList.uniquePrefixLength then
      throw (.error .invalidChecksum)
  let chunks ← (List.range 8).mapM (decodeChunk matchedIndices)
  pure chunks.flatten

/-- `ClassicSeed::from_entropy`. -/
def ClassicSeed.fromEntropy (lang : Language) (entropy : List UInt8) : Option ClassicSeed :=
  (Scalar.fromCanonicalBytes entropy).map (keyToSeed languages lang)

/-- `ClassicSeed::from_string`. -/
def ClassicSeed.fromString (lang : Language) (words : String) : Except SeedFail ClassicSeed := do
  let entropy ← seedToBytes languages lang words
  if (Scalar.fromCanonicalBytes entropy).isNone then throw (.error .invalidSeed)
  match ClassicSeed.fromEntropy languages lang entropy with
  | some seed => pure seed
  | none => throw .panic

/-- `ClassicSeed::to_string`. -/
def ClassicSeed.toString (seed : ClassicSeed) : String := seed.words

/-- `Seed::from_string` at `SeedType::Classic(lang)`. -/
def Seed.fromStringClassic (lang : Language) (words : String) : Except SeedFail ClassicSeed :=
  let wordCount := (splitWhitespace words).length
  if wordCount ≠ 24 ∧ wordCount ≠ 25 then .error (.error .invalidSeedLength)
  else ClassicSeed.fromString languages lang words

/-! ## The word lists -/

namespace WordList

variable (lang : WordList)

theorem nodup_wordList : lang.wordList.Nodup := lang.nodup_trims.of_map _

theorem word_mem {i : ℕ} (hi : i < listLength) : lang.word i ∈ lang.wordList := by
  rw [word, List.getD_eq_getElem _ _ (by rw [lang.length_wordList]; exact hi)]
  exact List.getElem_mem _

theorem wordIndex_word {i : ℕ} (hi : i < listLength) : lang.wordIndex (lang.word i) = some i := by
  have hlen : i < lang.wordList.length := by rw [lang.length_wordList]; exact hi
  rw [wordIndex, word, List.getD_eq_getElem _ _ hlen, List.idxOf?_eq_some_iff]
  exact ⟨hlen, rfl, fun j hj heq => absurd ((lang.nodup_wordList.getElem_inj_iff).mp heq) (by omega)⟩

theorem trimmedIndex_word {i : ℕ} (hi : i < listLength) :
    lang.trimmedIndex (trim (lang.word i) lang.uniquePrefixLength) = some i := by
  have hlen : i < (lang.wordList.map (trim · lang.uniquePrefixLength)).length := by
    rw [List.length_map, lang.length_wordList]; exact hi
  rw [trimmedIndex, word, List.getD_eq_getElem _ _ (by simpa using hlen), List.idxOf?_eq_some_iff]
  refine ⟨hlen, by rw [List.getElem_map], fun j hj heq => ?_⟩
  rw [← List.getElem_map (trim · lang.uniquePrefixLength) (h := by simpa using hlen)] at heq
  exact absurd ((lang.nodup_trims.getElem_inj_iff).mp heq) (by omega)

theorem matchWord_word (hasChecksum : Bool) {i : ℕ} (hi : i < listLength) :
    matchWord lang hasChecksum (lang.word i) = .ok i := by
  cases hasChecksum with
  | false => simp only [matchWord, Bool.false_eq_true, if_false, lang.wordIndex_word hi]
  | true => simp only [matchWord, if_true, lang.trimmedIndex_word hi]

theorem mapM_matchWord (hasChecksum : Bool) {l : List ℕ} (hl : ∀ i ∈ l, i < listLength) :
    (l.map lang.word).mapM (matchWord lang hasChecksum) = .ok l := by
  induction l with
  | nil => rfl
  | cons i l ih =>
    rw [List.map_cons, List.mapM_cons, lang.matchWord_word hasChecksum (hl i List.mem_cons_self),
      ih fun j hj => hl j (List.mem_cons_of_mem _ hj)]
    rfl

end WordList

/-! ## Joining and splitting -/

theorem splitOnP_intercalate {α : Type} (p : α → Bool) {sep : α} (hsep : p sep = true) {ws : List (List α)}
    (hne : ws ≠ []) (hws : ∀ w ∈ ws, ∀ c ∈ w, p c = false) : ([sep].intercalate ws).splitOnP p = ws := by
  induction ws with
  | nil => exact absurd rfl hne
  | cons w ws ih =>
    cases ws with
    | nil => simpa using List.splitOnP_eq_singleton (hws w List.mem_cons_self)
    | cons w' ws =>
      rw [List.intercalate_cons_cons, List.append_assoc, List.singleton_append, List.splitOnP_append_cons _ _ hsep,
        List.splitOnP_eq_singleton (hws w List.mem_cons_self),
        ih (List.cons_ne_nil _ _) fun v hv => hws v (List.mem_cons_of_mem _ hv)]
      rfl

theorem splitWhitespace_intercalate {ws : List String} (hne : ws ≠ [])
    (hword : ∀ w ∈ ws, w.toList ≠ [] ∧ ∀ c ∈ w.toList, isWhitespace c = false) :
    splitWhitespace (String.intercalate " " ws) = ws := by
  have hsplit : (String.intercalate " " ws).toList.splitOnP isWhitespace = ws.map String.toList := by
    rw [String.toList_intercalate]
    exact splitOnP_intercalate isWhitespace (by decide) (by simpa using hne) fun w hw c hc => by
      obtain ⟨v, hv, rfl⟩ := List.mem_map.mp hw
      exact (hword v hv).2 c hc
  rw [splitWhitespace, hsplit, List.filter_eq_self.mpr fun w hw => by
      obtain ⟨v, hv, rfl⟩ := List.mem_map.mp hw
      simpa using (hword v hv).1, List.map_map]
  exact (List.map_congr_left fun w _ => String.ofList_toList).trans (List.map_id _)

/-! ## Little-endian bytes -/

@[simp] theorem length_leBytes (n v : ℕ) : (leBytes n v).length = n := by simp [leBytes]

theorem leBytes_succ (n v : ℕ) : leBytes (n + 1) v = UInt8.ofNat v :: leBytes n (v / 256) := by
  simp only [leBytes, List.range_succ_eq_map, List.map_cons, List.map_map, pow_zero, Nat.div_one,
    List.cons.injEq, true_and]
  refine List.map_congr_left fun i _ => ?_
  rw [Function.comp_apply, pow_succ', Nat.div_div_eq_div_mul]

@[simp] theorem leValue_cons (b : UInt8) (bytes : List UInt8) :
    leValue (b :: bytes) = b.toNat + 256 * leValue bytes := by
  simp [leValue, Nat.ofDigits_cons]

theorem leValue_lt (bytes : List UInt8) : leValue bytes < 256 ^ bytes.length := by
  induction bytes with
  | nil => simp [leValue]
  | cons b bytes ih =>
    have hb := b.toNat_lt
    rw [leValue_cons, List.length_cons, pow_succ']
    change b.toNat < 256 at hb
    nlinarith

theorem leValue_leBytes (n v : ℕ) : leValue (leBytes n v) = v % 256 ^ n := by
  induction n generalizing v with
  | zero => simp [leBytes, leValue, Nat.mod_one]
  | succ n ih =>
    have hmod : v % 256 ^ (n + 1) = v % 256 + 256 * (v / 256 % 256 ^ n) := by
      rw [pow_succ', Nat.mod_mul]
    rw [leBytes_succ, leValue_cons, ih, UInt8.toNat_ofNat', hmod]

theorem leBytes_leValue (bytes : List UInt8) : leBytes bytes.length (leValue bytes) = bytes := by
  induction bytes with
  | nil => rfl
  | cons b bytes ih =>
    have hb := b.toNat_lt
    change b.toNat < 256 at hb
    have hbyte : UInt8.ofNat (b.toNat + 256 * leValue bytes) = b := by
      rw [← UInt8.toNat_inj, UInt8.toNat_ofNat']
      change (b.toNat + 256 * leValue bytes) % 256 = b.toNat
      omega
    have hrest : (b.toNat + 256 * leValue bytes) / 256 = leValue bytes := by omega
    rw [List.length_cons, leBytes_succ, leValue_cons, hbyte, hrest, ih]

theorem flatMap_segment (bytes : List UInt8) (m : ℕ) :
    (List.range m).flatMap (segment bytes) = bytes.take (4 * m) := by
  induction m with
  | zero => simp
  | succ m ih =>
    rw [List.range_succ, List.flatMap_append, ih, List.flatMap_singleton, segment,
      show 4 * (m + 1) = 4 * m + 4 by ring, List.take_add, Nat.mul_comm m 4]

theorem leValue_segment_lt (bytes : List UInt8) (i : ℕ) : leValue (segment bytes i) < 2 ^ 32 := by
  have hlen : (segment bytes i).length ≤ 4 := by simp [segment]
  calc leValue (segment bytes i) < 256 ^ (segment bytes i).length := leValue_lt _
    _ ≤ 256 ^ 4 := Nat.pow_le_pow_right (by decide) hlen
    _ = 2 ^ 32 := by norm_num

/-! ## Chunks of three words -/

theorem chunkIndices_lt (x : ℕ) : ∀ j ∈ chunkIndices x, j < listLength := by
  simp only [chunkIndices, listLength, List.mem_cons, List.not_mem_nil, or_false]
  rintro j (rfl | rfl | rfl) <;> omega

@[simp] theorem length_chunkIndices (x : ℕ) : (chunkIndices x).length = 3 := rfl

theorem digit_of_difference (a b : ℕ) : (1626 - a % 1626 + (b + a) % 1626) % 1626 = b % 1626 := by
  omega

theorem decodeChunk_chunkIndices {matchedIndices : List ℕ} {i x : ℕ} (hx : x < 2 ^ 32)
    (hindices : ∀ j < 3, matchedIndices.getD (i * 3 + j) 0 = (chunkIndices x).getD j 0) :
    decodeChunk matchedIndices i = .ok (leBytes 4 x) := by
  have h1 := hindices 0 (by decide)
  have h2 := hindices 1 (by decide)
  have h3 := hindices 2 (by decide)
  simp only [chunkIndices, listLength, List.getD_cons_zero, List.getD_cons_succ, Nat.add_zero] at h1 h2 h3
  have hx' : x < 4294967296 := hx
  -- the differences of the indices are the base-1626 digits of `x`, which has three
  have hvalue : x % 1626 + (1626 - x % 1626 + (x / 1626 + x) % 1626) % 1626 * 1626 +
      (1626 - (x / 1626 + x) % 1626 + (x / 1626 / 1626 + (x / 1626 + x)) % 1626) % 1626 * 1626 * 1626 = x := by
    rw [digit_of_difference, digit_of_difference, Nat.mod_eq_of_lt (a := x / 1626 / 1626) (by omega)]
    omega
  simp only [decodeChunk, listLength, h1, h2, h3, hvalue, ne_eq, not_true_eq_false, if_false]
  rw [if_neg (by omega)]

theorem length_flatMap_range {f : ℕ → List ℕ} (hf : ∀ i, (f i).length = 3) (m : ℕ) :
    ((List.range m).flatMap f).length = m * 3 := by
  induction m with
  | zero => rfl
  | succ m ih =>
    rw [List.range_succ, List.flatMap_append, List.length_append, ih, List.flatMap_singleton, hf, Nat.succ_mul]

theorem getD_flatMap_range {f : ℕ → List ℕ} (hf : ∀ i, (f i).length = 3) {m i j : ℕ} (hi : i < m) (hj : j < 3) :
    ((List.range m).flatMap f).getD (i * 3 + j) 0 = (f i).getD j 0 := by
  induction m with
  | zero => omega
  | succ m ih =>
    rw [List.range_succ, List.flatMap_append, List.flatMap_singleton]
    rcases Nat.lt_succ_iff_lt_or_eq.mp hi with hlt | rfl
    · rw [List.getD_append _ _ _ _ (by rw [length_flatMap_range hf]; omega), ih hlt]
    · rw [List.getD_append_right _ _ _ _ (by rw [length_flatMap_range hf]; omega), length_flatMap_range hf]
      congr 1
      omega

/-! ## The seed's indices -/

/-- The word indices `key_to_seed` writes for `bytes`, before the checksum: three per `u32`. -/
def seedIndices (bytes : List UInt8) : List ℕ :=
  (List.range 8).flatMap fun i => chunkIndices (leValue (segment bytes i))

@[simp] theorem length_seedIndices (bytes : List UInt8) : (seedIndices bytes).length = 24 :=
  length_flatMap_range (fun _ => rfl) 8

theorem seedIndices_lt (bytes : List UInt8) : ∀ j ∈ seedIndices bytes, j < listLength := by
  intro j hj
  obtain ⟨i, -, hi⟩ := List.mem_flatMap.mp hj
  exact chunkIndices_lt _ j hi

theorem length_segment {bytes : List UInt8} (hlen : bytes.length = 32) {i : ℕ} (hi : i < 8) :
    (segment bytes i).length = 4 := by
  simp only [segment, List.length_take, List.length_drop, hlen]
  omega

theorem decodeChunks_seedIndices {bytes : List UInt8} (hlen : bytes.length = 32) (tail : List ℕ) :
    ((List.range 8).mapM (decodeChunk (seedIndices bytes ++ tail))) = .ok ((List.range 8).map (segment bytes)) := by
  refine Serai.Lib.mapM_except_ok fun i hi => ?_
  have hi8 : i < 8 := List.mem_range.mp hi
  have hchunk : ∀ j < 3, (seedIndices bytes ++ tail).getD (i * 3 + j) 0 =
      (chunkIndices (leValue (segment bytes i))).getD j 0 := by
    intro j hj
    rw [List.getD_append _ _ _ _ (by rw [length_seedIndices]; omega), seedIndices,
      getD_flatMap_range (fun _ => rfl) hi8 hj]
  rw [decodeChunk_chunkIndices (leValue_segment_lt bytes i) hchunk, ← length_segment hlen hi8, leBytes_leValue]

theorem flatten_segments {bytes : List UInt8} (hlen : bytes.length = 32) :
    ((List.range 8).map (segment bytes)).flatten = bytes := by
  rw [← List.flatMap_def, flatMap_segment, List.take_of_length_le (by omega)]

/-! ## The round trip -/

theorem WordList.splitWhitespace_words (lang : WordList) {idx : List ℕ} (hne : idx ≠ [])
    (hidx : ∀ j ∈ idx, j < listLength) :
    splitWhitespace (String.intercalate " " (idx.map lang.word)) = idx.map lang.word := by
  refine splitWhitespace_intercalate (by simpa using hne) fun w hw => ?_
  obtain ⟨j, hj, rfl⟩ := List.mem_map.mp hw
  have hmem := lang.word_mem (hidx j hj)
  exact ⟨lang.word_ne_nil _ hmem, lang.no_whitespace _ hmem⟩

theorem getD_map_word (lang : WordList) {idx : List ℕ} {c : ℕ} (hc : c < idx.length) :
    (idx.map lang.word).getD c "" = lang.word (idx.getD c 0) := by
  rw [List.getD_eq_getElem _ _ (by simpa using hc), List.getD_eq_getElem _ _ hc, List.getElem_map]

theorem seedToBytes_of_seedIndices {bytes : List UInt8} (hlen : bytes.length = 32) {lang : Language} {s : String}
    (hsplit : splitWhitespace s = (seedIndices bytes).map (languages lang).word) :
    seedToBytes languages lang s = .ok bytes := by
  have hmatch := (languages lang).mapM_matchWord false (seedIndices_lt bytes)
  have hchunks := decodeChunks_seedIndices hlen []
  rw [List.append_nil] at hchunks
  simp +decide only [seedToBytes, hsplit, List.length_map, length_seedIndices, false_and, if_false, decide_false,
    hmatch, bind, Except.bind, hchunks, flatten_segments hlen]
  rfl

theorem checksumIndex_lt {words : List String} (lang : WordList) (hne : words ≠ []) :
    checksumIndex words lang < words.length :=
  Nat.mod_lt _ (List.length_pos_of_ne_nil hne)

theorem seedIndices_checksum_lt (bytes : List UInt8) {c : ℕ} (hc : c < (seedIndices bytes).length) :
    ∀ j ∈ seedIndices bytes ++ [(seedIndices bytes).getD c 0], j < listLength := by
  intro j hj
  rcases List.mem_append.mp hj with hj | hj
  · exact seedIndices_lt bytes j hj
  · rw [List.mem_singleton.mp hj, List.getD_eq_getElem _ _ hc]
    exact seedIndices_lt bytes _ (List.getElem_mem _)

theorem seedToBytes_of_seedIndices_checksum {bytes : List UInt8} (hlen : bytes.length = 32) {lang : Language}
    (hlang : lang ≠ .englishOld) {s : String}
    (hsplit : splitWhitespace s = (seedIndices bytes ++
      [(seedIndices bytes).getD (checksumIndex ((seedIndices bytes).map (languages lang).word) (languages lang)) 0]).map
        (languages lang).word) :
    seedToBytes languages lang s = .ok bytes := by
  set idx := seedIndices bytes
  obtain ⟨c, hcdef⟩ : ∃ c, checksumIndex (idx.map (languages lang).word) (languages lang) = c := ⟨_, rfl⟩
  rw [hcdef] at hsplit
  have hlen24 : idx.length = 24 := length_seedIndices bytes
  have hc : c < idx.length := by
    simpa [hcdef] using @checksumIndex_lt (idx.map (languages lang).word) (languages lang)
      (by simp [← List.length_pos_iff, hlen24])
  have hmatch : ((idx ++ [idx.getD c 0]).map (languages lang).word).mapM (matchWord (languages lang) true) =
      .ok (idx ++ [idx.getD c 0]) :=
    (languages lang).mapM_matchWord true (seedIndices_checksum_lt bytes hc)
  have hchunks : (List.range 8).mapM (decodeChunk (idx ++ [idx.getD c 0])) = _ :=
    decodeChunks_seedIndices hlen [idx.getD c 0]
  have htake : ((idx ++ [idx.getD c 0]).map (languages lang).word).take (24 + 1 - 1) = idx.map (languages lang).word := by
    rw [List.map_append, List.take_left' (by simp [hlen24])]
  have hlast : ((idx ++ [idx.getD c 0]).map (languages lang).word).getLastD "" = (languages lang).word (idx.getD c 0) := by
    rw [List.map_append, List.map_singleton, List.getLastD_concat]
  have hchecksum : ((idx ++ [idx.getD c 0]).map (languages lang).word).getD c "" = (languages lang).word (idx.getD c 0) := by
    rw [List.map_append, List.getD_append _ _ _ _ (by simpa using hc), getD_map_word _ hc]
  simp +decide only [seedToBytes, hsplit, List.length_map, List.length_append, hlen24, List.length_singleton, hlang,
    and_false, if_false, decide_true, hmatch, bind, Except.bind, htake, hlast, if_true, hchunks, flatten_segments hlen]
  -- the checksum word is the last word
  rw [hcdef, hchecksum, if_neg (not_not.mpr rfl)]
  rfl

theorem seedToBytes_keyToSeed (lang : Language) (k : Scalar) :
    seedToBytes languages lang (keyToSeed languages lang k).words = .ok k.toBytes := by
  have hlen : k.toBytes.length = 32 := length_leBytes 32 _
  set idx := seedIndices k.toBytes
  have hflat : ((List.range 8).flatMap fun i => (chunkIndices (leValue (segment k.toBytes i))).map
      (languages lang).word) = idx.map (languages lang).word := by
    simp only [idx, seedIndices, List.map_flatMap]
  have hne : idx ≠ [] := by simp [← List.length_pos_iff, idx]
  by_cases hlang : lang = .englishOld
  · -- Old English: the 24 words alone
    refine seedToBytes_of_seedIndices languages hlen ?_
    dsimp only [keyToSeed]
    rw [if_neg (not_not_intro hlang), hflat]
    exact (languages _).splitWhitespace_words hne (seedIndices_lt _)
  · -- the 24 words and the checksum word
    refine seedToBytes_of_seedIndices_checksum languages hlen hlang ?_
    have hc := @checksumIndex_lt (idx.map (languages lang).word) (languages lang) (by simpa using hne)
    rw [List.length_map] at hc
    have hseed : idx.map (languages lang).word ++
        [(idx.map (languages lang).word).getD (checksumIndex (idx.map (languages lang).word) (languages lang)) ""] =
        (idx ++ [idx.getD (checksumIndex (idx.map (languages lang).word) (languages lang)) 0]).map (languages lang).word := by
      rw [getD_map_word _ hc, List.map_append, List.map_singleton]
    dsimp only [keyToSeed]
    rw [if_pos hlang, hflat, hseed]
    exact (languages _).splitWhitespace_words (by simp) (seedIndices_checksum_lt _ hc)

theorem fromCanonicalBytes_toBytes (k : Scalar) : Scalar.fromCanonicalBytes k.toBytes = some k := by
  have hlt : k.val < groupOrder := ZMod.val_lt k
  have hvalue : leValue k.toBytes = k.val := by
    rw [Scalar.toBytes, leValue_leBytes, Nat.mod_eq_of_lt (hlt.trans (by decide))]
  rw [Scalar.fromCanonicalBytes, hvalue, if_pos hlt, ZMod.natCast_zmod_val]

theorem fromString_toString (lang : Language) (k : Scalar) :
    ClassicSeed.fromString languages lang (keyToSeed languages lang k).toString = .ok (keyToSeed languages lang k) := by
  simp only [ClassicSeed.fromString, ClassicSeed.toString, seedToBytes_keyToSeed, bind, Except.bind,
    fromCanonicalBytes_toBytes, Option.isNone_some, ClassicSeed.fromEntropy, Option.map_some]
  rfl

/-! ## The `unwrap` that panics -/

/-- The indices `1625, 1624, 1623` and then 21 zeros: 24 valid words. -/
def overflowSeedIndices : List ℕ := [1625, 1624, 1623] ++ List.replicate 21 0

theorem decodeChunk_overflow : decodeChunk overflowSeedIndices 0 = .error .panic := rfl

theorem seedToBytes_overflow (lang : Language) :
    seedToBytes languages lang (String.intercalate " " (overflowSeedIndices.map (languages lang).word)) =
      .error .panic := by
  have hidx : ∀ j ∈ overflowSeedIndices, j < listLength := by decide
  have hsplit := (languages lang).splitWhitespace_words (by decide) hidx
  have hlen : overflowSeedIndices.length = 24 := rfl
  have hmatch := (languages lang).mapM_matchWord false hidx
  -- the words are found, and the first chunk's `unwrap` fails
  have hchunks : (List.range 8).mapM (decodeChunk overflowSeedIndices) = .error .panic := by
    rw [List.range_succ_eq_map, List.mapM_cons, decodeChunk_overflow]
    rfl
  simp +decide only [seedToBytes, hsplit, List.length_map, hlen, false_and, if_false, decide_false, hmatch, bind,
    Except.bind, hchunks]

theorem fromStringClassic_overflow (lang : Language) :
    Seed.fromStringClassic languages lang (String.intercalate " " (overflowSeedIndices.map (languages lang).word)) =
      .error .panic := by
  have hidx : ∀ j ∈ overflowSeedIndices, j < listLength := by decide
  have hcount : (splitWhitespace (String.intercalate " " (overflowSeedIndices.map (languages lang).word))).length = 24 := by
    rw [(languages lang).splitWhitespace_words (by decide) hidx, List.length_map]
    rfl
  simp +decide only [Seed.fromStringClassic, hcount, ne_eq, false_and, if_false,
    ClassicSeed.fromString, seedToBytes_overflow, bind, Except.bind]

theorem classic_seed_round_trips_and_panics :
    (∀ lang (k : Scalar), seedToBytes languages lang (keyToSeed languages lang k).words = .ok k.toBytes ∧
      ClassicSeed.fromString languages lang (keyToSeed languages lang k).toString = .ok (keyToSeed languages lang k)) ∧
    ∀ lang, Seed.fromStringClassic languages lang
      (String.intercalate " " (overflowSeedIndices.map (languages lang).word)) = .error .panic :=
  ⟨fun lang k => ⟨seedToBytes_keyToSeed languages lang k, fromString_toString languages lang k⟩,
    fromStringClassic_overflow languages⟩

/-- The `i`-th character from U+4E00 on. -/
def cjkChar (i : ℕ) : Char := Char.ofNat (0x4E00 + i)

theorem toNat_cjkChar {i : ℕ} (hi : i < 2048) : (cjkChar i).toNat = 0x4E00 + i := by
  rw [cjkChar, Char.toNat_ofNat, if_pos (Or.inl (by omega))]

theorem toNat_cjkChar_of_lt {i : ℕ} (hi : i < listLength) : (cjkChar i).toNat = 0x4E00 + i :=
  toNat_cjkChar (lt_of_lt_of_le hi (by decide))

/-- 1626 one-character words, from U+4E00 on: distinct, and none of them whitespace. -/
def cjkWordList : WordList where
  wordList := (List.range listLength).map fun i => String.singleton (cjkChar i)
  uniquePrefixLength := 1
  length_wordList := by simp
  nodup_trims := by
    rw [List.map_map]
    refine List.nodup_range.map_on fun i hi j hj h => ?_
    have hchars : cjkChar i = cjkChar j := by
      simpa [trim] using congrArg String.toList h
    have hnat := congrArg Char.toNat hchars
    rw [toNat_cjkChar_of_lt (List.mem_range.mp hi), toNat_cjkChar_of_lt (List.mem_range.mp hj)] at hnat
    omega
  word_ne_nil := by simp
  no_whitespace := by
    simp only [List.mem_map, List.mem_range, forall_exists_index, and_imp]
    rintro _ i hi rfl c hc
    rw [String.toList_singleton, List.mem_singleton] at hc
    subst hc
    have hc := toNat_cjkChar_of_lt hi
    unfold listLength at hi
    simp only [isWhitespace, hc, Bool.or_eq_false_iff, Bool.and_eq_false_iff, decide_eq_false_iff_not, beq_eq_false_iff_ne]
    omega

/-- With the one-character words, in English, the 24 words of `1625, 1624, 1623` and 21
    zeros panic. -/
theorem classic_seed_panics_cjk :
    Seed.fromStringClassic (fun _ => cjkWordList) .english
      (String.intercalate " " (overflowSeedIndices.map cjkWordList.word)) = .error .panic :=
  (classic_seed_round_trips_and_panics (fun _ => cjkWordList)).2 .english

end Serai.Monero
