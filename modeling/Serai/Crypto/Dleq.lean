import Serai.Crypto.Aggregate
/-
  Serai.Crypto.Dleq — proofs that points share a discrete logarithm across generators
  (crypto/dleq/src/lib.rs: `challenge`, `DLEqProof`, `MultiDLEqProof`).

  A proof for `x` over generators `G_j` draws a nonce `r`, transcripts each generator with
  `r·G_j` and `x·G_j`, and answers the transcript's challenge `c` with `s = c·x + r`. The
  verifier recomputes each nonce as `s·G_j - c·P_j` and checks that the transcript so rebuilt
  gives `c` back. A multi-proof does the same for several scalars, each with its own nonce and
  response, under one challenge. The transcript is `DigestTranscript`; a scalar is drawn from
  it by reading its challenges as one big-endian number of `2·⌈NUM_BITS / 8⌉` bytes, up to
  eight at a time, shifting the scalar so far before each chunk by the next chunk's width.
  The loop's `target_bytes - handled_bytes` is carried as the bytes still to load, which
  the loop never takes below zero.

  - `challenge_eq`: for a digest whose length is a multiple of 8, the challenge is that
    number, the wide reduction of the challenges' first `2·⌈NUM_BITS / 8⌉` bytes.
  - `verifyStatements_prove`: the verifier rebuilds the prover's nonces from an honest
    answer, so it transcripts what the prover did; a proof made for points that are its
    scalars times the generators verifies, its transcript ending where the prover's did
    (`DLEqProof.verify_prove`, `MultiDLEqProof.verify_prove`), and `read` reads back what
    `write` writes (`DLEqProof.read_serialize`, `MultiDLEqProof.read_serialize`).
  - `multi_dleq_complete`: a multi-proof made for equally many scalars and series of
    generators is read back from its bytes and verifies for the scalars' points.
-/

namespace Serai.Crypto

open Serai.Lib Serai.Monero

variable {F G : Type} [Field F] [AddCommGroup G] [Module F G]

/-! ## The challenge -/

namespace Dleq

/-- `target_bytes`: twice the bytes of a scalar. -/
def targetBytes (numBits : ℕ) : ℕ := (numBits + 7) / 8 * 2

/-- The loop of `challenge`: the scalar so far, the bytes still to load (`target_bytes -
    handled_bytes`), the iterations of the outer `for` left after this one, the cursor `b`
    into the current challenge, the challenge's bytes and the transcript. -/
def challengeLoop (H : Digest) (res : F) (left k b : ℕ) (bytes : List UInt8) (t : DigestTranscript) :
    F × DigestTranscript :=
  if b < bytes.length then
    -- a chunk of at most 8 bytes, which a `u64` holds
    let chunkBytes := min (min left 8) (bytes.length - b)
    let res := res + ((ofBeBytes ((bytes.drop b).take chunkBytes) : ℕ) : F)
    if left - chunkBytes = 0 then (res, t)
    else
      let nextChunkBytes := min (min (left - chunkBytes) 8) bytes.length
      challengeLoop H ((fun r => r + r)^[nextChunkBytes * 8] res) (left - chunkBytes) k (b + chunkBytes) bytes t
  else
    -- the `while` is done; the transcript is challenged again at the end of the iteration
    let next := t.challenge H (byteString "challenge_extension")
    match k with
    | 0 => (res, next.2)
    | k + 1 => challengeLoop H res left k 0 next.1 next.2
termination_by (k, bytes.length - b)
decreasing_by
  · have hpos : 0 < min (min left 8) (bytes.length - b) := by omega
    exact Prod.Lex.right _ (by omega)
  · exact Prod.Lex.left _ _ (Nat.lt_succ_self k)

end Dleq

/-- `challenge`: a scalar from the transcript's challenges, `NUM_BITS` being `numBits`. -/
def Dleq.challenge (H : Digest) (numBits : ℕ) (t : DigestTranscript) : F × DigestTranscript :=
  let targetBytes := Dleq.targetBytes numBits
  let c := t.challenge H (byteString "challenge")
  let neededChallenges := (targetBytes + (c.1.length - 1)) / c.1.length
  Dleq.challengeLoop H 0 targetBytes neededChallenges 0 c.1 c.2

namespace Dleq

/-- `k` challenges labelled `challenge_extension`, one after the other: their bytes,
    concatenated, and the transcript after them. -/
def extensionChallenges (H : Digest) (t : DigestTranscript) : ℕ → List UInt8 × DigestTranscript
  | 0 => ([], t)
  | k + 1 =>
    let c := t.challenge H (byteString "challenge_extension")
    (c.1 ++ (extensionChallenges H c.2 k).1, (extensionChallenges H c.2 k).2)

/-- The challenges `challenge` draws: `challenge`, then `k` extensions. -/
def challenges (H : Digest) (t : DigestTranscript) (k : ℕ) : List UInt8 × DigestTranscript :=
  let c := t.challenge H (byteString "challenge")
  (c.1 ++ (extensionChallenges H c.2 k).1, (extensionChallenges H c.2 k).2)

theorem extensionChallenges_succ (H : Digest) (t : DigestTranscript) (k : ℕ) :
    extensionChallenges H t (k + 1) =
      ((t.challenge H (byteString "challenge_extension")).1 ++
        (extensionChallenges H (t.challenge H (byteString "challenge_extension")).2 k).1,
      (extensionChallenges H (t.challenge H (byteString "challenge_extension")).2 k).2) := rfl

/-- The extensions the loop draws from cursor `b` of a challenge of length `L`, with `left`
    bytes to load: as many as the bytes past this challenge need. -/
def extensionsNeeded (L b left : ℕ) : ℕ := (left - (L - b) + (L - 1)) / L

theorem load_chunk {w rest : List UInt8} (hw : w.length = 8) {m : ℕ} (hm : m ≤ rest.length) (res : F) :
    (2 : F) ^ (8 * m) * (res + ((ofBeBytes w : ℕ) : F)) + ((ofBeBytes (rest.take m) : ℕ) : F) =
      2 ^ (8 * m) * res + ((ofBeBytes ((w ++ rest).take (m + 8)) : ℕ) : F) := by
  have htake : (w ++ rest).take (m + 8) = w ++ rest.take m := by
    rw [List.take_append, hw, List.take_of_length_le (by omega), show m + 8 - 8 = m by omega]
  have h256 : (256 : F) ^ m = 2 ^ (8 * m) := by
    rw [show (256 : F) = 2 ^ 8 by norm_num, ← pow_mul]
  rw [htake, ofBeBytes_append_eq, List.length_take_of_le hm]
  push_cast
  rw [h256]
  ring

@[simp] theorem length_extensionChallenges (H : Digest) (t : DigestTranscript) (k : ℕ) :
    (extensionChallenges H t k).1.length = k * H.outputLen := by
  induction k generalizing t with
  | zero => simp [extensionChallenges]
  | succ k ih => simp [extensionChallenges, ih, Nat.succ_mul, Nat.add_comm]

theorem le_extensionsNeeded_mul (L b left : ℕ) (hL : 0 < L) :
    left - (L - b) ≤ extensionsNeeded L b left * L := by
  unfold extensionsNeeded
  have := Nat.lt_div_mul_add (a := left - (L - b) + (L - 1)) hL
  omega

theorem extensionsNeeded_end {L left : ℕ} (hL : 0 < L) (hpos : 0 < left) :
    extensionsNeeded L L left = extensionsNeeded L 0 left + 1 := by
  unfold extensionsNeeded
  rw [Nat.sub_self, Nat.sub_zero, Nat.sub_zero, ← Nat.add_div_right _ hL]
  rcases le_or_gt left L with h | h
  · -- at most one challenge's worth: one extension
    rw [Nat.div_eq_of_lt_le (k := 1) (by omega) (by omega), Nat.div_eq_of_lt_le (k := 1) (by omega) (by omega)]
  · congr 1
    omega

theorem challengeLoop_eq (H : Digest) (hH : 8 ∣ H.outputLen) {res : F} {left k b : ℕ} {bytes : List UInt8}
    {t : DigestTranscript} (hbytes : bytes.length = H.outputLen) (hb8 : 8 ∣ b) (hbL : b ≤ H.outputLen)
    (hk : left ≤ H.outputLen - b + k * H.outputLen) (hend : b = H.outputLen → 0 < left) :
    challengeLoop H res left k b bytes t =
      (2 ^ (8 * (left - min left 8)) * res + ((ofBeBytes ((bytes.drop b ++
          (extensionChallenges H t (extensionsNeeded H.outputLen b left)).1).take left) : ℕ) : F),
        (extensionChallenges H t (extensionsNeeded H.outputLen b left)).2) := by
  have hL : 32 ≤ H.outputLen := H.secure
  fun_induction challengeLoop H res left k b bytes t with
  | case1 res left k b bytes t hb chunkBytes res' hleft =>
    -- the last chunk, inside this challenge: no extension is drawn
    have hchunk : chunkBytes = left := by simp only [chunkBytes] at hleft ⊢; omega
    have hn : extensionsNeeded H.outputLen b left = 0 := Nat.div_eq_of_lt (by omega)
    rw [hn, extensionChallenges, List.append_nil, show left - min left 8 = 0 by omega, pow_zero, one_mul]
    simp only [res', hchunk]
  | case2 res left k b bytes t hb chunkBytes res' hleft nextChunkBytes ih =>
    -- a chunk of 8 bytes inside this challenge, with more to load after it
    have hchunk : chunkBytes = 8 := by simp only [chunkBytes] at hleft ⊢; omega
    have hnext : nextChunkBytes = min (left - 8) 8 := by simp only [nextChunkBytes, hchunk]; omega
    have hn : extensionsNeeded H.outputLen (b + chunkBytes) (left - chunkBytes) =
        extensionsNeeded H.outputLen b left := by
      unfold extensionsNeeded
      rw [hchunk]
      congr 2
      omega
    have hrest : left - 8 ≤ (bytes.drop (b + 8) ++
        (extensionChallenges H t (extensionsNeeded H.outputLen b left)).1).length := by
      have := le_extensionsNeeded_mul H.outputLen b left (by omega)
      simp only [List.length_append, List.length_drop, length_extensionChallenges]
      omega
    rw [ih hbytes (by omega) (by omega) (by omega) (by omega), hn]
    generalize extensionChallenges H t (extensionsNeeded H.outputLen b left) = ext at hrest ⊢
    have hw : ((bytes.drop b).take 8).length = 8 := by simp; omega
    have hsplit : (bytes.drop b).take 8 ++ (bytes.drop (b + 8) ++ ext.1) = bytes.drop b ++ ext.1 := by
      rw [← List.append_assoc, ← List.drop_drop, List.take_append_drop]
    simp only [res', hchunk, hnext, iterate_double, nsmul_eq_mul, Nat.cast_pow, Nat.cast_ofNat]
    rw [← mul_assoc, ← pow_add, show 8 * (left - 8 - min (left - 8) 8) + min (left - 8) 8 * 8 = 8 * (left - 8) by omega,
      load_chunk hw hrest, hsplit, show left - 8 + 8 = left by omega, show min left 8 = 8 by omega]
  | case3 res left b bytes t hb next =>
    -- the last iteration ends with nothing more to load: not reached, given the iterations
    have hpos := hend (by omega)
    omega
  | case4 res left b bytes t hb next k ih =>
    -- the challenge is used up: the next iteration loads from an extension
    have hbL' : b = H.outputLen := by omega
    have hsucc : k.succ * H.outputLen = k * H.outputLen + H.outputLen := Nat.succ_mul k H.outputLen
    rw [ih (DigestTranscript.length_challenge _ _ _) (dvd_zero 8) (Nat.zero_le _) (by omega) (by omega),
      List.drop_of_length_le (by omega : bytes.length ≤ b), List.nil_append, hbL',
      extensionsNeeded_end (by omega) (hend hbL'), extensionChallenges_succ, List.drop_zero]

theorem extensionsNeeded_zero {L : ℕ} (hL : 0 < L) (left : ℕ) : extensionsNeeded L 0 left = (left - 1) / L := by
  unfold extensionsNeeded
  rw [Nat.sub_zero]
  rcases le_or_gt left L with h | h
  · rw [Nat.div_eq_of_lt (by omega), Nat.div_eq_of_lt (by omega)]
  · congr 1
    omega

/-- For a digest whose length is a multiple of 8, `challenge` is the wide reduction of the
    first `2·⌈NUM_BITS / 8⌉` bytes of its challenges, read as one big-endian number: it draws
    `challenge`, then as many `challenge_extension`s as those bytes need past the first. -/
theorem challenge_eq (H : Digest) (hH : 8 ∣ H.outputLen) (numBits : ℕ) (t : DigestTranscript) :
    Dleq.challenge (F := F) H numBits t =
      (((ofBeBytes ((challenges H t ((targetBytes numBits - 1) / H.outputLen)).1.take (targetBytes numBits)) : ℕ) : F),
        (challenges H t ((targetBytes numBits - 1) / H.outputLen)).2) := by
  have hL : 32 ≤ H.outputLen := H.secure
  have hlen := DigestTranscript.length_challenge H t (byteString "challenge")
  -- `needed_challenges` iterations after the first hold the target: `⌈target / L⌉` challenges
  have hk : targetBytes numBits ≤ H.outputLen - 0 +
      (targetBytes numBits + (H.outputLen - 1)) / H.outputLen * H.outputLen := by
    have := Nat.lt_div_mul_add (a := targetBytes numBits + (H.outputLen - 1)) (b := H.outputLen) (by omega)
    omega
  unfold Dleq.challenge
  dsimp only
  rw [hlen, challengeLoop_eq H hH hlen (dvd_zero 8) (Nat.zero_le _) hk (fun h => absurd h (by omega)),
    extensionsNeeded_zero (by omega), mul_zero, zero_add, List.drop_zero]
  rfl

/-- The challenge of a 64-byte digest for 253-bit scalars: the first 64 bytes of one
    challenge, reduced. -/
theorem challenge_eq_sixtyFour :
    8 ∣ (constDigest 0).outputLen ∧
      Dleq.challenge (F := ZMod 5) (constDigest 0) 253 ⟨[]⟩ =
        (((ofBeBytes ((challenges (constDigest 0) ⟨[]⟩ ((targetBytes 253 - 1) / (constDigest 0).outputLen)).1.take
          (targetBytes 253)) : ℕ) : ZMod 5),
          (challenges (constDigest 0) ⟨[]⟩ ((targetBytes 253 - 1) / (constDigest 0).outputLen)).2) :=
  ⟨by decide, challenge_eq (constDigest 0) (by decide) 253 ⟨[]⟩⟩

end Dleq

/-! ## Proofs -/

/-- `DLEqError`. -/
inductive DLEqError where
  | invalidProof
  deriving DecidableEq, Repr

/-- `read_scalar`: a scalar's `Repr`, which must be canonical. -/
def readScalar (C : Ciphersuite F G) : Reader F := do
  let repr ← readExact C.reprLen
  match C.fromRepr repr with
  | some x => pure x
  | none => throw (.other "invalid scalar")

@[simp] theorem readScalar_toRepr (C : Ciphersuite F G) (x : F) (rest : List UInt8) :
    readScalar C (C.toRepr x ++ rest) = .ok x rest := by
  simp only [readScalar, bind_of_ok (readExact_append (C.toRepr_length x) rest), C.fromRepr_toRepr]
  rfl

/-- `DLEqProof`. -/
structure DLEqProof (F : Type) where
  c : F
  s : F

namespace DLEqProof

/-- `DLEqProof::transcript`: a generator, a nonce and a point. -/
def transcript (C : Ciphersuite F G) (t : DigestTranscript) (generator nonce point : G) : DigestTranscript :=
  ((t.appendMessage (byteString "generator") (C.toBytes generator)).appendMessage (byteString "nonce")
    (C.toBytes nonce)).appendMessage (byteString "point") (C.toBytes point)

/-- What the prover transcripts for the scalar `x` and its nonce `r`: each generator, with
    `r·G` and `x·G`. -/
def proveStatements (C : Ciphersuite F G) (r x : F) (generators : List G) (t : DigestTranscript) :
    DigestTranscript :=
  generators.foldl (fun t generator => transcript C t generator (r • generator) (x • generator)) t

/-- `verify_statement`: the nonce rebuilt as `s·G - c·A`. -/
def verifyStatement (C : Ciphersuite F G) (t : DigestTranscript) (generator point : G) (c s : F) :
    DigestTranscript :=
  transcript C t generator (s • generator - c • point) point

/-- What the verifier transcripts for the answer `s` under `c`: each generator with its point. -/
def verifyStatements (C : Ciphersuite F G) (c s : F) (generators points : List G) (t : DigestTranscript) :
    DigestTranscript :=
  (generators.zip points).foldl (fun t gp => verifyStatement C t gp.1 gp.2 c s) t

/-- `prove`, `r` being the nonce drawn. -/
def prove (C : Ciphersuite F G) (H : Digest) (numBits : ℕ) (r : F) (t : DigestTranscript) (generators : List G)
    (scalar : F) : DLEqProof F × DigestTranscript :=
  let c := Dleq.challenge H numBits (proveStatements C r scalar generators (t.domainSeparate (byteString "dleq")))
  (⟨c.1, c.1 * scalar + r⟩, c.2)

/-- `verify`, with the transcript it leaves when it passes. -/
def verify [DecidableEq F] (C : Ciphersuite F G) (H : Digest) (numBits : ℕ) (proof : DLEqProof F)
    (t : DigestTranscript) (generators points : List G) : Except DLEqError DigestTranscript :=
  if generators.length ≠ points.length then .error .invalidProof
  else
    let c := Dleq.challenge H numBits
      (verifyStatements C proof.c proof.s generators points (t.domainSeparate (byteString "dleq")))
    if proof.c ≠ c.1 then .error .invalidProof else .ok c.2

/-- `write`, and `serialize`, whose writer cannot fail. -/
def serialize (C : Ciphersuite F G) (proof : DLEqProof F) : List UInt8 := C.toRepr proof.c ++ C.toRepr proof.s

/-- `read`. -/
def read (C : Ciphersuite F G) : Reader (DLEqProof F) := do
  let c ← readScalar C
  let s ← readScalar C
  pure ⟨c, s⟩

theorem verifyStatements_prove (C : Ciphersuite F G) (c r x : F) (generators : List G) (t : DigestTranscript) :
    verifyStatements C c (c * x + r) generators (generators.map (x • ·)) t = proveStatements C r x generators t := by
  induction generators generalizing t with
  | nil => rfl
  | cons generator generators ih =>
    have hnonce : (c * x + r) • generator - c • x • generator = r • generator := by
      rw [add_smul, mul_smul, add_sub_cancel_left]
    simp only [verifyStatements, proveStatements, List.map_cons, List.zip_cons_cons, List.foldl_cons] at ih ⊢
    rw [verifyStatement, hnonce, ih]

theorem verify_prove [DecidableEq F] (C : Ciphersuite F G) (H : Digest) (numBits : ℕ) (r x : F)
    (t : DigestTranscript) (generators : List G) :
    (prove C H numBits r t generators x).1.verify C H numBits t generators (generators.map (x • ·)) =
      .ok (prove C H numBits r t generators x).2 := by
  simp only [verify, List.length_map, ne_eq, not_true_eq_false, if_false]
  rw [prove, verifyStatements_prove]
  simp

theorem read_serialize (C : Ciphersuite F G) (proof : DLEqProof F) (rest : List UInt8) :
    read C (proof.serialize C ++ rest) = .ok proof rest := by
  simp only [read, serialize, List.append_assoc, bind_of_ok (readScalar_toRepr C _ _)]
  rfl

end DLEqProof

theorem readMany_flatMap {α : Type} {r : Reader α} {w : α → List UInt8} {l : List α}
    (h : ∀ a ∈ l, ∀ rest, r (w a ++ rest) = .ok a rest) (rest : List UInt8) :
    Coordinator.readMany r l.length (l.flatMap w ++ rest) = .ok l rest := by
  induction l with
  | nil => rfl
  | cons a l ih =>
    simp only [List.length_cons, Coordinator.readMany, List.flatMap_cons, List.append_assoc,
      bind_of_ok (h a List.mem_cons_self _), bind_of_ok (ih fun a' ha' => h a' (List.mem_cons_of_mem _ ha'))]
    rfl

/-- `MultiDLEqProof`. -/
structure MultiDLEqProof (F : Type) where
  c : F
  s : List F

namespace MultiDLEqProof

/-- What the prover transcripts for its `i`-th scalar and its generators: the index, then the
    statements of the scalar under its nonce, the `i`-th drawn. -/
def proveSeries (C : Ciphersuite F G) (nonce : ℕ → F) (t : DigestTranscript) (item : (F × List G) × ℕ) :
    DigestTranscript :=
  DLEqProof.proveStatements C (nonce item.2) item.1.1 item.1.2
    (t.appendMessage (byteString "discrete_logarithm") (leBytes 8 item.2))

/-- `prove`: `nonce i` is the nonce drawn for the `i`-th scalar; `none` is the panic of its
    `assert_eq!`. -/
def prove (C : Ciphersuite F G) (H : Digest) (numBits : ℕ) (nonce : ℕ → F) (t : DigestTranscript)
    (generators : List (List G)) (scalars : List F) : Option (MultiDLEqProof F × DigestTranscript) :=
  if generators.length ≠ scalars.length then none
  else
    let t := ((scalars.zip generators).zipIdx).foldl (proveSeries C nonce) (t.domainSeparate (byteString "multi_dleq"))
    let c := Dleq.challenge H numBits t
    some (⟨c.1, scalars.zipIdx.map fun item => c.1 * item.1 + nonce item.2⟩, c.2)

/-- What the verifier transcripts for its `i`-th series of generators and points, which must be
    as many: the index, then the statements under the `i`-th answer (in bounds: `s` was checked
    to have one per series). -/
def verifySeries (C : Ciphersuite F G) (proof : MultiDLEqProof F) (t : DigestTranscript)
    (item : (List G × List G) × ℕ) : Except DLEqError DigestTranscript :=
  if item.1.2.length ≠ item.1.1.length then .error .invalidProof
  else .ok (DLEqProof.verifyStatements C proof.c (proof.s.getD item.2 0) item.1.1 item.1.2
    (t.appendMessage (byteString "discrete_logarithm") (leBytes 8 item.2)))

/-- `verify`, with the transcript it leaves when it passes. -/
def verify [DecidableEq F] (C : Ciphersuite F G) (H : Digest) (numBits : ℕ) (proof : MultiDLEqProof F)
    (t : DigestTranscript) (generators points : List (List G)) : Except DLEqError DigestTranscript := do
  if points.length ≠ generators.length then throw .invalidProof
  if proof.s.length ≠ generators.length then throw .invalidProof
  let t ← ((generators.zip points).zipIdx).foldlM (verifySeries C proof) (t.domainSeparate (byteString "multi_dleq"))
  let c := Dleq.challenge H numBits t
  if proof.c ≠ c.1 then throw .invalidProof
  pure c.2

/-- `write`, and `serialize`, whose writer cannot fail. -/
def serialize (C : Ciphersuite F G) (proof : MultiDLEqProof F) : List UInt8 :=
  C.toRepr proof.c ++ proof.s.flatMap C.toRepr

/-- `read`, of a proof for `discreteLogs` scalars. -/
def read (C : Ciphersuite F G) (discreteLogs : ℕ) : Reader (MultiDLEqProof F) := do
  let c ← readScalar C
  let s ← Coordinator.readMany (readScalar C) discreteLogs
  pure ⟨c, s⟩

theorem zip_zipWith_images (scalars : List F) (generators : List (List G)) :
    generators.zip (List.zipWith (fun x gens => gens.map (x • ·)) scalars generators) =
      (scalars.zip generators).map fun p => (p.2, p.2.map (p.1 • ·)) := by
  induction scalars generalizing generators with
  | nil => cases generators <;> rfl
  | cons x scalars ih =>
    cases generators with
    | nil => rfl
    | cons gens generators => simp [ih]

omit [AddCommGroup G] [Module F G] in
theorem getD_answers {c : F} {nonce : ℕ → F} {scalars : List F} {generators : List (List G)}
    {item : (F × List G) × ℕ} (hitem : item ∈ (scalars.zip generators).zipIdx) :
    (scalars.zipIdx.map fun item => c * item.1 + nonce item.2).getD item.2 0 = c * item.1.1 + nonce item.2 := by
  have hget := List.mem_zipIdx_iff_getElem?.mp hitem
  rw [List.getElem?_zip_eq_some] at hget
  simp [List.getD_eq_getElem?_getD, List.getElem?_map, List.getElem?_zipIdx, hget.1]

theorem length_s_of_prove {C : Ciphersuite F G} {H : Digest} {numBits : ℕ} {nonce : ℕ → F} {t : DigestTranscript}
    {generators : List (List G)} {scalars : List F} {proof : MultiDLEqProof F} {t' : DigestTranscript}
    (h : prove C H numBits nonce t generators scalars = some (proof, t')) : proof.s.length = generators.length := by
  unfold prove at h
  split at h
  · cases h
  rename_i hlen
  cases h
  simp [not_not.mp hlen]

theorem verify_prove [DecidableEq F] (C : Ciphersuite F G) (H : Digest) (numBits : ℕ) (nonce : ℕ → F)
    (t : DigestTranscript) {generators : List (List G)} {scalars : List F} {proof : MultiDLEqProof F}
    {t' : DigestTranscript} (h : prove C H numBits nonce t generators scalars = some (proof, t')) :
    proof.verify C H numBits t generators (List.zipWith (fun x gens => gens.map (x • ·)) scalars generators) = .ok t' := by
  unfold prove at h
  split at h
  · cases h
  rename_i hlen
  have hlen : generators.length = scalars.length := not_not.mp hlen
  cases h
  -- the verifier's series are the prover's, each with its images
  have hseries : ((generators.zip (List.zipWith (fun x gens => gens.map (x • ·)) scalars generators)).zipIdx).foldlM
      (verifySeries C ⟨(Dleq.challenge H numBits (((scalars.zip generators).zipIdx).foldl (proveSeries C nonce)
        (t.domainSeparate (byteString "multi_dleq")))).1, scalars.zipIdx.map fun item =>
          (Dleq.challenge H numBits (((scalars.zip generators).zipIdx).foldl (proveSeries C nonce)
            (t.domainSeparate (byteString "multi_dleq")))).1 * item.1 + nonce item.2⟩)
      (t.domainSeparate (byteString "multi_dleq")) =
        .ok (((scalars.zip generators).zipIdx).foldl (proveSeries C nonce) (t.domainSeparate (byteString "multi_dleq"))) := by
    rw [zip_zipWith_images, List.zipIdx_map, List.foldlM_map]
    refine foldlM_except_ok (fun b item hitem => ?_) _
    simp only [verifySeries, Prod.map_fst, Prod.map_snd, id_eq, List.length_map, ne_eq, not_true_eq_false, if_false]
    rw [getD_answers hitem, DLEqProof.verifyStatements_prove]
    rfl
  simp only [verify, List.length_zipWith, List.length_zipIdx, List.length_map, hlen, min_self, ne_eq,
    not_true_eq_false, if_false, hseries, bind, Except.bind, pure, Except.pure]

theorem read_serialize (C : Ciphersuite F G) (proof : MultiDLEqProof F) (rest : List UInt8) :
    read C proof.s.length (proof.serialize C ++ rest) = .ok proof rest := by
  simp only [read, serialize, List.append_assoc, bind_of_ok (readScalar_toRepr C _ _),
    bind_of_ok (readMany_flatMap (fun x _ => readScalar_toRepr C x) _)]
  rfl

end MultiDLEqProof

/-- A multi-proof for as many scalars as series of generators: `prove` makes it, it is read
    back from the bytes `serialize` writes, and it verifies for points that are each scalar
    times its generators, the verifier's transcript ending where the prover's did. -/
theorem multi_dleq_complete [DecidableEq F] (C : Ciphersuite F G) (H : Digest) (numBits : ℕ) (nonce : ℕ → F)
    (t : DigestTranscript) (generators : List (List G)) (scalars : List F) (hlen : generators.length = scalars.length) :
    ∃ proof t', MultiDLEqProof.prove C H numBits nonce t generators scalars = some (proof, t') ∧
      (∀ rest, MultiDLEqProof.read C generators.length (proof.serialize C ++ rest) = .ok proof rest) ∧
      proof.verify C H numBits t generators (List.zipWith (fun x gens => gens.map (x • ·)) scalars generators) = .ok t' := by
  obtain ⟨⟨proof, t'⟩, hprove⟩ : ∃ r, MultiDLEqProof.prove C H numBits nonce t generators scalars = some r := by
    simp [MultiDLEqProof.prove, hlen]
  have hs := MultiDLEqProof.length_s_of_prove hprove
  refine ⟨proof, t', hprove, fun rest => ?_, MultiDLEqProof.verify_prove C H numBits nonce t hprove⟩
  rw [← hs]
  exact MultiDLEqProof.read_serialize C proof rest

/-- A multi-proof over `Z/5` for one series of one generator. -/
theorem multi_dleq_complete_zmod5 :
    [[(1 : ZMod 5), 2], [3]].length = [(2 : ZMod 5), 4].length ∧
      ∃ proof t', MultiDLEqProof.prove Dkg.zmod5Suite (constDigest 0) 253 (fun _ => 1) ⟨[]⟩ [[1, 2], [3]] [2, 4] =
          some (proof, t') ∧
        (∀ rest, MultiDLEqProof.read Dkg.zmod5Suite [[(1 : ZMod 5), 2], [3]].length
          (proof.serialize Dkg.zmod5Suite ++ rest) = .ok proof rest) ∧
        proof.verify Dkg.zmod5Suite (constDigest 0) 253 ⟨[]⟩ [[1, 2], [3]]
          (List.zipWith (fun x gens => gens.map (x • ·)) [(2 : ZMod 5), 4] [[1, 2], [3]]) = .ok t' :=
  ⟨rfl, multi_dleq_complete Dkg.zmod5Suite (constDigest 0) 253 (fun _ => 1) ⟨[]⟩ [[1, 2], [3]] [2, 4] rfl⟩

end Serai.Crypto
