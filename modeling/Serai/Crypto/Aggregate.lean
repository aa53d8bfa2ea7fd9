import Serai.Crypto.Transcript
import Serai.Coordinator.Transaction
import Serai.Lib.KeyOrder
import Serai.Lib.Msm
/-
  Serai.Crypto.Aggregate — half-aggregated Schnorr signatures (crypto/schnorr/src/aggregate.rs:
  `weight`, `SchnorrAggregate` and `SchnorrAggregator`).

  An aggregator feeds each signature's challenge to a transcript; completing it draws one
  weight per signature from that transcript and sums each `s` times its weight. `verify`
  rebuilds the transcript from the challenges, draws the same weights, and checks the weighted
  sum of every `R + c·A - s·G` is the identity, as one multiexp. A weight is loaded from
  challenges 64 bits at a time, big-endian, enough of them for `NUM_BITS + 128` bits; a
  challenge used up is followed by another. The model is the code as built with debug
  assertions, which its tests run: the two `debug_assert`s and the subtraction `remaining -= i`
  panic when they fail.

  Proved:
  - `weightLoop_eq`, `weight_eq_ofBeBytes_challenges`: `weight` is the number made by the first `⌈BYTES / 8⌉` words
    of its challenges, drawing a further challenge each time one is used up. It panics exactly
    when the digest's length is not a multiple of 8 (a `debug_assert`), or when its last word
    ends a challenge with fewer than 8 bytes left to load (`remaining -= i` underflows).
  - `read_serialize`: `read` reads back what `serialize` writes.
  - `complete_verify`, `aggregate_verifies`: signatures that each verify for their key and
    challenge, aggregated, completed, written and read back, verify for those keys and
    challenges, whatever the weights drawn.
-/

namespace Serai.Crypto

open Serai.Lib

variable {F G : Type} [Field F] [AddCommGroup G] [Module F G]

/-! ## `weight` -/

/-- `BYTES`: enough bytes for `NUM_BITS + 128` bits. -/
def weightBytes (numBits : ℕ) : ℕ := (numBits + 128 + 7) / 8

/-- The loop of `weight`, from the scalar so far, the position in the current challenge, the
    bytes still to load, the challenge, whether no word was loaded yet, and the transcript.
    `remaining -= i` panics when it would go below zero, as the code's debug builds do. -/
def weightLoop (H : Digest) (res : F) (i remaining : ℕ) (bytes : List UInt8) (first : Bool)
    (digest : DigestTranscript) : Except IoError (F × DigestTranscript) :=
  if hi : i < remaining then
    -- shift over the words already loaded, then add the next 64 bits, big-endian
    let res := if first then res else (fun r => r + r)^[64] res
    if i + 8 ≤ bytes.length then
      let res := res + ((ofBeBytes ((bytes.drop i).take 8) : ℕ) : F)
      if i + 8 = bytes.length then
        if i + 8 ≤ remaining then
          weightLoop H res 0 (remaining - (i + 8))
            (digest.challenge H (byteString "aggregation_weight_continued")).1 false
            (digest.challenge H (byteString "aggregation_weight_continued")).2
        else .error .panic
      else weightLoop H res (i + 8) remaining bytes false digest
    else .error .panic
  else .ok (res, digest)
termination_by remaining - i

/-- `weight`: a scalar from the big-endian words of the transcript's challenges, with its two
    `debug_assert`s. -/
def weight (H : Digest) (numBits : ℕ) (digest : DigestTranscript) : Except IoError (F × DigestTranscript) :=
  let bytes := (digest.challenge H (byteString "aggregation_weight")).1
  if bytes.length % 8 = 0 ∧ 32 ≤ bytes.length then
    weightLoop H 0 0 (weightBytes numBits) bytes true (digest.challenge H (byteString "aggregation_weight")).2
  else .error .panic

/-- `k` challenges labelled `aggregation_weight_continued`, one after the other: their bytes,
    concatenated, and the transcript after them. -/
def continuedChallenges (H : Digest) (digest : DigestTranscript) : ℕ → List UInt8 × DigestTranscript
  | 0 => ([], digest)
  | k + 1 =>
    let c := digest.challenge H (byteString "aggregation_weight_continued")
    (c.1 ++ (continuedChallenges H c.2 k).1, (continuedChallenges H c.2 k).2)

/-- The challenges `weight` draws: `aggregation_weight`, then `k` continued ones. -/
def weightChallenges (H : Digest) (digest : DigestTranscript) (k : ℕ) : List UInt8 × DigestTranscript :=
  let c := digest.challenge H (byteString "aggregation_weight")
  (c.1 ++ (continuedChallenges H c.2 k).1, (continuedChallenges H c.2 k).2)

/-- The words the loop loads from position `i` with `remaining` bytes to load: one for every 8
    bytes, rounded up. -/
def wordsLeft (i remaining : ℕ) : ℕ := (remaining - i + 7) / 8

/-- The words `weight` loads. -/
def weightWords (numBits : ℕ) : ℕ := wordsLeft 0 (weightBytes numBits)

theorem length_continuedChallenges (H : Digest) (digest : DigestTranscript) (k : ℕ) :
    (continuedChallenges H digest k).1.length = k * H.outputLen := by
  induction k generalizing digest with
  | zero => simp [continuedChallenges]
  | succ k ih => simp [continuedChallenges, ih, Nat.succ_mul, Nat.add_comm]

theorem ofBeBytes_append_eq (a b : List UInt8) : ofBeBytes (a ++ b) = ofBeBytes a * 256 ^ b.length + ofBeBytes b := by
  rw [ofBeBytes, List.foldl_append]
  exact ofBeBytes_append _ b

theorem load_word {w rest : List UInt8} (hw : w.length = 8) {m : ℕ} (hrest : 8 * m ≤ rest.length) (res : F) :
    (2 : F) ^ (64 * m) * ((2 : F) ^ 64 * res + ((ofBeBytes w : ℕ) : F)) + ((ofBeBytes (rest.take (8 * m)) : ℕ) : F) =
      2 ^ (64 * (m + 1)) * res + ((ofBeBytes ((w ++ rest).take (8 * (m + 1))) : ℕ) : F) := by
  have htake : (w ++ rest).take (8 * (m + 1)) = w ++ rest.take (8 * m) := by
    rw [List.take_append, hw, List.take_of_length_le (by omega), show 8 * (m + 1) - 8 = 8 * m by omega]
  have h256 : (256 : F) ^ (8 * m) = 2 ^ (64 * m) := by
    rw [show (256 : F) = 2 ^ 8 by norm_num, ← pow_mul]
    ring_nf
  rw [htake, ofBeBytes_append_eq, List.length_take_of_le hrest]
  push_cast
  rw [h256]
  ring

theorem shift_first {first : Bool} {res : F} (hfirst : first = true → res = 0) :
    (if first then res else (fun r => r + r)^[64] res) = 2 ^ 64 * res := by
  cases first with
  | true => simp [hfirst rfl]
  | false => simp only [Bool.false_eq_true, if_false, iterate_double, nsmul_eq_mul, Nat.cast_pow, Nat.cast_ofNat]

theorem load_step {c c' : Prop} [Decidable c] [Decidable c'] (hc : c ↔ c') {w rest : List UInt8}
    (hw : w.length = 8) {m : ℕ} (hrest : 8 * m ≤ rest.length) (res : F) (d : DigestTranscript) :
    (if c' then .error .panic
      else .ok ((2 : F) ^ (64 * m) * (2 ^ 64 * res + ((ofBeBytes w : ℕ) : F)) +
        ((ofBeBytes (rest.take (8 * m)) : ℕ) : F), d)) =
      (if c then (.error .panic : Except IoError (F × DigestTranscript))
        else .ok (2 ^ (64 * (m + 1)) * res + ((ofBeBytes ((w ++ rest).take (8 * (m + 1))) : ℕ) : F), d)) := by
  simp only [load_word hw hrest, hc]

theorem continuedChallenges_succ (H : Digest) (digest : DigestTranscript) (k : ℕ) :
    continuedChallenges H digest (k + 1) =
      ((digest.challenge H (byteString "aggregation_weight_continued")).1 ++
        (continuedChallenges H (digest.challenge H (byteString "aggregation_weight_continued")).2 k).1,
      (continuedChallenges H (digest.challenge H (byteString "aggregation_weight_continued")).2 k).2) := rfl

theorem weightLoop_eq (H : Digest) (hH : 8 ∣ H.outputLen) {res : F} {i remaining : ℕ} {bytes : List UInt8}
    {first : Bool} {digest : DigestTranscript} (hbytes : bytes.length = H.outputLen) (hi8 : 8 ∣ i)
    (hiL : i < H.outputLen) (hfirst : first = true → res = 0) :
    weightLoop H res i remaining bytes first digest =
      if 0 < wordsLeft i remaining ∧ H.outputLen ∣ i + 8 * wordsLeft i remaining ∧ ¬ 8 ∣ remaining - i then
        .error .panic
      else .ok (2 ^ (64 * wordsLeft i remaining) * res + ((ofBeBytes ((bytes.drop i ++
          (continuedChallenges H digest ((i + 8 * wordsLeft i remaining) / H.outputLen)).1).take
            (8 * wordsLeft i remaining)) : ℕ) : F),
        (continuedChallenges H digest ((i + 8 * wordsLeft i remaining) / H.outputLen)).2) := by
  have hL : 0 < H.outputLen := by omega
  fun_induction weightLoop H res i remaining bytes first digest with
  | case1 res i remaining bytes first digest hi shifted hword loaded hend hrem ih =>
    -- the word ends the challenge: the loop goes on from the start of the next one
    have hm : wordsLeft i remaining = wordsLeft 0 (remaining - (i + 8)) + 1 := by unfold wordsLeft; omega
    have hpos : remaining ≠ i + 8 → 0 < wordsLeft 0 (remaining - (i + 8)) := by unfold wordsLeft; omega
    rw [ih (DigestTranscript.length_challenge _ _ _) (dvd_zero 8) hL (by simp), hm]
    generalize wordsLeft 0 (remaining - (i + 8)) = m at hpos ⊢
    have hsum : i + 8 * (m + 1) = H.outputLen + 8 * m := by omega
    have hcond : (0 < m + 1 ∧ H.outputLen ∣ i + 8 * (m + 1) ∧ ¬8 ∣ remaining - i) ↔
        (0 < m ∧ H.outputLen ∣ 8 * m ∧ ¬8 ∣ remaining - (i + 8)) := by
      rw [hsum, Nat.dvd_add_right (dvd_refl _)]
      constructor
      · rintro ⟨-, hdvd, h8⟩
        exact ⟨hpos (by omega), hdvd, by omega⟩
      · rintro ⟨-, hdvd, h8⟩
        exact ⟨Nat.succ_pos m, hdvd, by omega⟩
    have hrest : 8 * m ≤ ((digest.challenge H (byteString "aggregation_weight_continued")).1.drop 0 ++
        (continuedChallenges H (digest.challenge H (byteString "aggregation_weight_continued")).2
          (8 * m / H.outputLen)).1).length := by
      have := Nat.lt_div_mul_add (a := 8 * m) hL
      simp only [List.drop_zero, List.length_append, DigestTranscript.length_challenge, length_continuedChallenges]
      omega
    rw [show (i + 8 * (m + 1)) / H.outputLen = 8 * m / H.outputLen + 1 by rw [hsum, Nat.add_div_left _ hL],
      continuedChallenges_succ]
    simp only [loaded, shifted, dite_eq_ite, shift_first hfirst, Nat.zero_add, Nat.sub_zero]
    rw [load_step hcond (List.length_take_of_le (by simp; omega)) hrest, List.drop_zero,
      List.take_of_length_le (l := bytes.drop i) (by simp; omega)]
  | case2 res i remaining bytes first digest hi hword hend hrem =>
    -- the last word ends the challenge with fewer than 8 bytes left: `remaining -= i` underflows
    have hm : wordsLeft i remaining = 1 := by unfold wordsLeft; omega
    rw [hm, if_pos ⟨Nat.one_pos, by rw [mul_one, ← hbytes, hend], by omega⟩]
  | case3 res i remaining bytes first digest hi shifted hword loaded hend ih =>
    -- the word is inside the challenge
    have hm : wordsLeft i remaining = wordsLeft (i + 8) remaining + 1 := by unfold wordsLeft; omega
    have hpos : 0 < wordsLeft (i + 8) remaining → i + 8 < remaining := by unfold wordsLeft; omega
    rw [ih hbytes (by omega) (by omega) (by simp), hm]
    generalize wordsLeft (i + 8) remaining = m at hpos ⊢
    have hsum : i + 8 * (m + 1) = i + 8 + 8 * m := by omega
    have hcond : (0 < m + 1 ∧ H.outputLen ∣ i + 8 * (m + 1) ∧ ¬8 ∣ remaining - i) ↔
        (0 < m ∧ H.outputLen ∣ i + 8 + 8 * m ∧ ¬8 ∣ remaining - (i + 8)) := by
      rw [hsum]
      constructor
      · rintro ⟨-, hdvd, h8⟩
        rcases Nat.eq_zero_or_pos m with rfl | hm0
        · -- one word left, ending inside the challenge: not at a multiple of its length
          exact absurd (Nat.eq_zero_of_dvd_of_lt hdvd (by omega)) (by omega)
        · exact ⟨hm0, hdvd, by have := hpos hm0; omega⟩
      · rintro ⟨hm0, hdvd, h8⟩
        exact ⟨Nat.succ_pos m, hdvd, by have := hpos hm0; omega⟩
    have hrest : 8 * m ≤ (bytes.drop (i + 8) ++
        (continuedChallenges H digest ((i + 8 + 8 * m) / H.outputLen)).1).length := by
      have := Nat.lt_div_mul_add (a := i + 8 + 8 * m) hL
      simp only [List.length_drop, List.length_append, length_continuedChallenges]
      omega
    rw [show (i + 8 * (m + 1)) / H.outputLen = (i + 8 + 8 * m) / H.outputLen by rw [hsum]]
    simp only [loaded, shifted, dite_eq_ite, shift_first hfirst]
    rw [load_step hcond (List.length_take_of_le (by simp; omega)) hrest, ← List.append_assoc,
      ← List.drop_drop, List.take_append_drop]
  | case4 res i remaining bytes first digest hi hword =>
    -- a word never runs past a challenge whose length is a multiple of 8
    omega
  | case5 res i remaining bytes first digest hi =>
    have hm : wordsLeft i remaining = 0 := by unfold wordsLeft; omega
    have hk : i / H.outputLen = 0 := Nat.div_eq_of_lt hiL
    rw [hm]
    simp [hk, continuedChallenges, ofBeBytes]

/-- `weight` loads `⌈BYTES / 8⌉` big-endian words from its challenges, and its scalar is the
    number they make. It panics exactly when a `debug_assert` fails (a digest whose length is
    not a multiple of 8), or when its last word ends a challenge with fewer than 8 bytes left to
    load. -/
theorem weight_eq_ofBeBytes_challenges (H : Digest) (numBits : ℕ) (digest : DigestTranscript) :
    weight H numBits digest =
      if ¬ 8 ∣ H.outputLen ∨ (H.outputLen ∣ 8 * weightWords numBits ∧ ¬ 8 ∣ weightBytes numBits) then
        .error .panic
      else .ok (((ofBeBytes ((weightChallenges H digest (8 * weightWords numBits / H.outputLen)).1.take
          (8 * weightWords numBits)) : ℕ) : F), (weightChallenges H digest (8 * weightWords numBits / H.outputLen)).2) := by
  have hlen := DigestTranscript.length_challenge H digest (byteString "aggregation_weight")
  have hsecure := H.secure
  by_cases h8 : 8 ∣ H.outputLen
  · have hW : 0 < weightWords numBits := by simp only [weightWords, wordsLeft, weightBytes]; omega
    rw [weight, if_pos ⟨by omega, by omega⟩, weightLoop_eq H h8 hlen (dvd_zero 8) (by omega) (fun _ => rfl),
      show wordsLeft 0 (weightBytes numBits) = weightWords numBits from rfl]
    simp only [Nat.sub_zero, List.drop_zero, mul_zero, zero_add, weightChallenges, h8, not_true, false_or, hW,
      true_and]
  · rw [weight, if_neg (by omega), if_pos (.inl h8)]

theorem weight_ok (H : Digest) (numBits : ℕ) (hH : 8 ∣ H.outputLen)
    (hbits : ¬ (H.outputLen ∣ 8 * weightWords numBits ∧ ¬ 8 ∣ weightBytes numBits)) (digest : DigestTranscript) :
    ∃ z digest', weight (F := F) H numBits digest = .ok (z, digest') := by
  have hlen := DigestTranscript.length_challenge H digest (byteString "aggregation_weight")
  have hsecure := H.secure
  rw [weight, if_pos ⟨by omega, by omega⟩, weightLoop_eq H hH hlen (dvd_zero 8) (by omega) (fun _ => rfl),
    if_neg (fun h => hbits ⟨by simpa [weightWords] using h.2.1, by simpa using h.2.2⟩)]
  exact ⟨_, _, rfl⟩

/-! ## `SchnorrAggregate` and `SchnorrAggregator` -/

/-- `SchnorrAggregate`. -/
structure SchnorrAggregate (F G : Type) where
  Rs : List G
  s : F

namespace SchnorrAggregate

/-- `SchnorrAggregate::read`: a `u32` count of nonces, the nonces, then `s`. -/
def read [DecidableEq G] (C : Ciphersuite F G) : Reader (SchnorrAggregate F G) := do
  let len ← readExact 4
  let Rs ← Coordinator.readMany (readG C) (Coordinator.u32FromLeBytes len).toNat
  let s ← readF C
  pure ⟨Rs, s⟩

/-- `SchnorrAggregate::serialize`, through `write`, whose `expect` panics past `u32::MAX`
    nonces. -/
def serialize (C : Ciphersuite F G) (agg : SchnorrAggregate F G) : Except IoError (List UInt8) :=
  if agg.Rs.length < 2 ^ 32 then
    .ok (u32ToLeBytes (UInt32.ofNat agg.Rs.length) ++ agg.Rs.flatMap C.toBytes ++ C.toRepr agg.s)
  else .error .panic

/-- The `pairs` loop of `verify`: each signature's weight, drawn in order, on its nonce and,
    times its challenge, on its key. -/
def verifyPairs (H : Digest) (numBits : ℕ) : DigestTranscript → List (G × G × F) → Except IoError (List (F × G))
  | _, [] => pure []
  | digest, (R, key, challenge) :: rest => do
    let (z, digest) ← weight H numBits digest
    let pairs ← verifyPairs H numBits digest rest
    pure ((z, R) :: (z * challenge, key) :: pairs)

/-- The transcript the weights are drawn from: the DST, `signatures`, then every challenge. -/
def weightTranscript (C : Ciphersuite F G) (dst : List UInt8) (challenges : List F) : DigestTranscript :=
  challenges.foldl (fun digest c => digest.appendMessage (byteString "challenge") (C.toRepr c))
    ((DigestTranscript.new dst).domainSeparate (byteString "signatures"))

/-- `SchnorrAggregate::verify`. -/
def verify [DecidableEq G] (C : Ciphersuite F G) (H : Digest) (numBits : ℕ) (agg : SchnorrAggregate F G)
    (dst : List UInt8) (keysAndChallenges : List (G × F)) : Except IoError Bool :=
  if agg.Rs.length ≠ keysAndChallenges.length then pure false
  else do
    let pairs ← verifyPairs H numBits (weightTranscript C dst (keysAndChallenges.map (·.2)))
      (agg.Rs.zip keysAndChallenges)
    pure (decide (multiexp (pairs ++ [(-agg.s, C.generator)]) = 0))

end SchnorrAggregate

/-- `SchnorrAggregator`. -/
structure SchnorrAggregator (F G : Type) where
  digest : DigestTranscript
  sigs : List (SchnorrSignature F G)

namespace SchnorrAggregator

/-- `SchnorrAggregator::new`. -/
def new (dst : List UInt8) : SchnorrAggregator F G :=
  ⟨(DigestTranscript.new dst).domainSeparate (byteString "signatures"), []⟩

/-- `SchnorrAggregator::aggregate`. -/
def aggregate (C : Ciphersuite F G) (a : SchnorrAggregator F G) (challenge : F) (sig : SchnorrSignature F G) :
    SchnorrAggregator F G :=
  ⟨a.digest.appendMessage (byteString "challenge") (C.toRepr challenge), a.sigs ++ [sig]⟩

/-- The loop of `complete`: each signature's nonce pushed, and its `s` times its weight added. -/
def completeLoop (H : Digest) (numBits : ℕ) :
    DigestTranscript → List (SchnorrSignature F G) → SchnorrAggregate F G → Except IoError (SchnorrAggregate F G)
  | _, [], agg => pure agg
  | digest, sig :: sigs, agg => do
    let (z, digest) ← weight H numBits digest
    completeLoop H numBits digest sigs ⟨agg.Rs ++ [sig.R], agg.s + sig.s * z⟩

/-- `SchnorrAggregator::complete`: `None` if nothing was aggregated. -/
def complete (H : Digest) (numBits : ℕ) (a : SchnorrAggregator F G) : Except IoError (Option (SchnorrAggregate F G)) :=
  if a.sigs.isEmpty then pure none else some <$> completeLoop H numBits a.digest a.sigs ⟨[], 0⟩

end SchnorrAggregator

/-! ## An aggregate of valid signatures verifies -/

/-- `n` weights drawn one after the other. -/
def drawWeights (H : Digest) (numBits : ℕ) : DigestTranscript → ℕ → Except IoError (List F)
  | _, 0 => pure []
  | digest, n + 1 => do
    let (z, digest) ← weight H numBits digest
    let zs ← drawWeights H numBits digest n
    pure (z :: zs)

section Draws

variable (H : Digest) (numBits : ℕ)

theorem drawWeights_ok (hweight : ∀ digest, ∃ z digest', weight (F := F) H numBits digest = .ok (z, digest'))
    (digest : DigestTranscript) (n : ℕ) : ∃ zs : List F, drawWeights H numBits digest n = .ok zs ∧ zs.length = n := by
  induction n generalizing digest with
  | zero => exact ⟨[], rfl, rfl⟩
  | succ n ih =>
    obtain ⟨z, digest', hw⟩ := hweight digest
    obtain ⟨zs, hzs, hlen⟩ := ih digest'
    refine ⟨z :: zs, ?_, by simp [hlen]⟩
    simp [drawWeights, hw, hzs, bind, Except.bind, pure, Except.pure]

omit [AddCommGroup G] [Module F G] in
theorem completeLoop_eq (digest : DigestTranscript) (sigs : List (SchnorrSignature F G)) (agg : SchnorrAggregate F G) :
    SchnorrAggregator.completeLoop H numBits digest sigs agg =
      (drawWeights H numBits digest sigs.length).map fun zs =>
        ⟨agg.Rs ++ sigs.map (·.R), agg.s + ((sigs.zip zs).map fun p => p.1.s * p.2).sum⟩ := by
  induction sigs generalizing digest agg with
  | nil => simp [SchnorrAggregator.completeLoop, drawWeights, pure, Except.pure, Except.map]
  | cons sig sigs ih =>
    rcases hw : weight (F := F) H numBits digest with e | ⟨z, digest'⟩
    · simp [SchnorrAggregator.completeLoop, drawWeights, hw, bind, Except.bind, Except.map]
    · simp only [SchnorrAggregator.completeLoop, drawWeights, hw, bind, Except.bind, ih, List.length_cons]
      cases drawWeights (F := F) H numBits digest' sigs.length with
      | error e => rfl
      | ok zs => simp [Except.map, pure, Except.pure, add_assoc]

omit [AddCommGroup G] [Module F G] in
theorem verifyPairs_eq (digest : DigestTranscript) (items : List (G × G × F)) :
    SchnorrAggregate.verifyPairs H numBits digest items =
      (drawWeights H numBits digest items.length).map fun zs =>
        (items.zip zs).flatMap fun p => [(p.2, p.1.1), (p.2 * p.1.2.2, p.1.2.1)] := by
  induction items generalizing digest with
  | nil => simp [SchnorrAggregate.verifyPairs, drawWeights, pure, Except.pure, Except.map]
  | cons item items ih =>
    obtain ⟨R, key, c⟩ := item
    rcases hw : weight (F := F) H numBits digest with e | ⟨z, digest'⟩
    · simp [SchnorrAggregate.verifyPairs, drawWeights, hw, bind, Except.bind, Except.map]
    · simp only [SchnorrAggregate.verifyPairs, drawWeights, hw, bind, Except.bind, ih, List.length_cons]
      cases drawWeights (F := F) H numBits digest' items.length with
      | error e => rfl
      | ok zs => simp [Except.map, pure, Except.pure]

end Draws

theorem multiexp_pairs (g : G) (items : List (G × F × SchnorrSignature F G)) (zs : List F) (s₀ : F) :
    multiexp ((((items.map fun x => (x.2.2.R, x.1, x.2.1)).zip zs).flatMap
        fun p => [(p.2, p.1.1), (p.2 * p.1.2.2, p.1.2.1)]) ++
      [(-(s₀ + (((items.map (·.2.2)).zip zs).map fun p => p.1.s * p.2).sum), g)]) =
    -s₀ • g + ((items.zip zs).map fun p => p.2 • (p.1.2.2.R + p.1.2.1 • p.1.1 - p.1.2.2.s • g)).sum := by
  induction items generalizing zs s₀ with
  | nil => simp [neg_smul]
  | cons x items ih =>
    cases zs with
    | nil => simp [neg_smul]
    | cons z zs =>
      have h := ih zs (s₀ + x.2.2.s * z)
      simp only [List.map_cons, List.zip_cons_cons, List.flatMap_cons, List.sum_cons, multiexp_append,
        multiexp_cons, multiexp_nil, add_zero] at h ⊢
      rw [add_assoc _ (multiexp _), ← add_assoc s₀, h]
      module

theorem foldl_aggregate (C : Ciphersuite F G) (items : List (G × F × SchnorrSignature F G))
    (a : SchnorrAggregator F G) :
    items.foldl (fun a x => a.aggregate C x.2.1 x.2.2) a =
      ⟨(items.map (·.2.1)).foldl (fun digest c => digest.appendMessage (byteString "challenge") (C.toRepr c))
        a.digest, a.sigs ++ items.map (·.2.2)⟩ := by
  induction items generalizing a with
  | nil => simp
  | cons x items ih =>
    rw [List.foldl_cons, ih]
    simp [SchnorrAggregator.aggregate]

theorem read_serialize [DecidableEq G] (C : Ciphersuite F G) {agg : SchnorrAggregate F G} {bytes : List UInt8}
    (h : agg.serialize C = .ok bytes) (rest : List UInt8) : SchnorrAggregate.read C (bytes ++ rest) = .ok agg rest := by
  unfold SchnorrAggregate.serialize at h
  split at h
  · next hlen =>
    cases h
    have hcount : (Coordinator.u32FromLeBytes (u32ToLeBytes (UInt32.ofNat agg.Rs.length))).toNat = agg.Rs.length := by
      rw [Coordinator.u32FromLeBytes_toLeBytes, UInt32.toNat_ofNat_of_lt' hlen]
    have hRs := Coordinator.readMany_flatten (r := readG C) (w := fun P => .ok (C.toBytes P)) (l := agg.Rs)
      (fun P _ bytes hb rest => by cases hb; exact readG_toBytes C P rest) (List.mapM_pure) (C.toRepr agg.s ++ rest)
    simp only [SchnorrAggregate.read, List.append_assoc]
    rw [bind_of_ok (readExact_append (show (u32ToLeBytes (UInt32.ofNat agg.Rs.length)).length = 4 from rfl) _), hcount,
      List.flatMap_def, bind_of_ok hRs, bind_of_ok (readF_toRepr C agg.s rest)]
    rfl
  · cases h

section Complete

variable [DecidableEq G] (C : Ciphersuite F G) (H : Digest) (numBits : ℕ)

theorem verify_eq_true_iff {sig : SchnorrSignature F G} {key : G} {challenge : F} :
    sig.verify C key challenge = true ↔ sig.R + challenge • key - sig.s • C.generator = 0 := by
  simp [SchnorrSignature.verify, SchnorrSignature.multiexp_batchStatements]

theorem complete_verify (hH : 8 ∣ H.outputLen) (hbits : ¬ (H.outputLen ∣ 8 * weightWords numBits ∧
      ¬ 8 ∣ weightBytes numBits)) (dst : List UInt8) {items : List (G × F × SchnorrSignature F G)}
    (hne : items ≠ []) (hvalid : ∀ x ∈ items, x.2.2.verify C x.1 x.2.1 = true) :
    ∃ agg, (items.foldl (fun a x => a.aggregate C x.2.1 x.2.2) (SchnorrAggregator.new dst)).complete H numBits =
        .ok (some agg) ∧ agg.Rs = items.map (·.2.2.R) ∧
      agg.verify C H numBits dst (items.map fun x => (x.1, x.2.1)) = .ok true := by
  obtain ⟨zs, hzs, hlen⟩ := drawWeights_ok (F := F) H numBits (weight_ok H numBits hH hbits)
    (SchnorrAggregate.weightTranscript C dst (items.map (·.2.1))) items.length
  refine ⟨⟨items.map (·.2.2.R), 0 + (((items.map (·.2.2)).zip zs).map fun p => p.1.s * p.2).sum⟩, ?_, rfl, ?_⟩
  · -- the aggregator's transcript is the one `verify` rebuilds
    rw [foldl_aggregate, SchnorrAggregator.complete, if_neg (by simp [SchnorrAggregator.new, hne]), completeLoop_eq]
    have hdigest : (items.map (·.2.1)).foldl (fun digest c => digest.appendMessage (byteString "challenge")
        (C.toRepr c)) (SchnorrAggregator.new (F := F) (G := G) dst).digest =
        SchnorrAggregate.weightTranscript C dst (items.map (·.2.1)) := rfl
    rw [hdigest]
    simp only [SchnorrAggregator.new, List.nil_append, List.length_map, hzs, List.map_map]
    rfl
  · -- each signature's statement is zero, so every weighted sum of them is
    have hzip : (items.map (·.2.2.R)).zip (items.map fun x => (x.1, x.2.1)) = items.map fun x => (x.2.2.R, x.1, x.2.1) :=
      List.zip_map'
    rw [SchnorrAggregate.verify, if_neg (by simp), hzip, verifyPairs_eq, List.map_map, List.length_map]
    simp only [Function.comp_def, hzs]
    change Except.ok (decide _) = _
    rw [multiexp_pairs]
    have hzero : ∀ p ∈ items.zip zs, p.2 • (p.1.2.2.R + p.1.2.1 • p.1.1 - p.1.2.2.s • C.generator) = 0 := by
      intro p hp
      rw [(verify_eq_true_iff C).mp (hvalid p.1 (List.of_mem_zip hp).1), smul_zero]
    simp [List.sum_eq_zero (fun g hg => by
      obtain ⟨p, hp, rfl⟩ := List.mem_map.mp hg
      exact hzero p hp)]

/-- Signatures that each verify for their key and challenge, aggregated, completed, written and
    read back, verify for those keys and challenges: the crate's `aggregate` test, for every list
    of valid signatures and every ciphersuite whose weights do not panic. -/
theorem aggregate_verifies (hH : 8 ∣ H.outputLen)
    (hbits : ¬ (H.outputLen ∣ 8 * weightWords numBits ∧ ¬ 8 ∣ weightBytes numBits)) (dst : List UInt8)
    (items : List (G × F × SchnorrSignature F G)) (hne : items ≠ []) (hsmall : items.length < 2 ^ 32)
    (hvalid : ∀ x ∈ items, x.2.2.verify C x.1 x.2.1 = true) :
    ∃ agg bytes, (items.foldl (fun a x => a.aggregate C x.2.1 x.2.2) (SchnorrAggregator.new dst)).complete H numBits =
        .ok (some agg) ∧ agg.serialize C = .ok bytes ∧ SchnorrAggregate.read C bytes = .ok agg [] ∧
      agg.verify C H numBits dst (items.map fun x => (x.1, x.2.1)) = .ok true := by
  obtain ⟨agg, hcomplete, hRs, hverify⟩ := complete_verify C H numBits hH hbits dst hne hvalid
  have hlen : agg.Rs.length < 2 ^ 32 := by rw [hRs, List.length_map]; exact hsmall
  have hserialize : agg.serialize C =
      .ok (u32ToLeBytes (UInt32.ofNat agg.Rs.length) ++ agg.Rs.flatMap C.toBytes ++ C.toRepr agg.s) := by
    rw [SchnorrAggregate.serialize, if_pos hlen]
  refine ⟨agg, _, hcomplete, hserialize, ?_, hverify⟩
  simpa using read_serialize C hserialize []

end Complete

theorem length_replicate_sixtyFour (b : UInt8) : (List.replicate 64 b).length = 64 := List.length_replicate

theorem le_sixtyFour : 32 ≤ 64 := by decide

/-- A digest of 64 bytes that are all `b`. -/
def constDigest (b : UInt8) : Digest := ⟨64, fun _ => List.replicate 64 b, fun _ => length_replicate_sixtyFour b, le_sixtyFour⟩

theorem aggregate_verifies_zmod5 :
    ∃ agg bytes, ([((2 : ZMod 5) • Dkg.zmod5Suite.generator, (3 : ZMod 5), SchnorrSignature.sign Dkg.zmod5Suite 2 4 3),
        ((3 : ZMod 5) • Dkg.zmod5Suite.generator, (1 : ZMod 5), SchnorrSignature.sign Dkg.zmod5Suite 3 1 1)].foldl
          (fun a x => a.aggregate Dkg.zmod5Suite x.2.1 x.2.2)
          (SchnorrAggregator.new (byteString "Schnorr Aggregator Test"))).complete (constDigest 0) 253 = .ok (some agg) ∧
      agg.serialize Dkg.zmod5Suite = .ok bytes ∧ SchnorrAggregate.read Dkg.zmod5Suite bytes = .ok agg [] ∧
      agg.verify Dkg.zmod5Suite (constDigest 0) 253 (byteString "Schnorr Aggregator Test")
        [((2 : ZMod 5) • Dkg.zmod5Suite.generator, 3), ((3 : ZMod 5) • Dkg.zmod5Suite.generator, 1)] = .ok true :=
  aggregate_verifies Dkg.zmod5Suite (constDigest 0) 253 (by decide) (by decide) (byteString "Schnorr Aggregator Test")
    [((2 : ZMod 5) • Dkg.zmod5Suite.generator, (3 : ZMod 5), SchnorrSignature.sign Dkg.zmod5Suite 2 4 3),
      ((3 : ZMod 5) • Dkg.zmod5Suite.generator, (1 : ZMod 5), SchnorrSignature.sign Dkg.zmod5Suite 3 1 1)] (by simp)
    (by decide) (by decide)

end Serai.Crypto
