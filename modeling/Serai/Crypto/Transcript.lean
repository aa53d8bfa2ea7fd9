import Mathlib
import Serai.Lib.PrefixCode
import Serai.Monero.Seed
/-
  Serai.Crypto.Transcript — `DigestTranscript` (crypto/transcript), the transcript the
  Schnorr aggregator and the Tributary's signatures hash through.

  A digest's state is what it was fed: `D::new()`, its `update`s and `finalize` hash the
  bytes fed, in order (`Digest.finalize`), to an output of a fixed length of at least 32
  bytes (`SecureDigest`). A transcript feeds each member as its kind's byte, its length as a
  `u64`'s 8 little-endian bytes, and its bytes (`member`). A challenge feeds its label, hashes
  what was fed with `Challenged` after it (`challengeInput`), and goes on with `Continued`
  fed in its place.

  Proved:
  - `run_fed`: a transcript after a list of calls has been fed each call's bytes in order.
  - `member_append_inj`: a member's bytes, followed by anything, determine its kind, its
    value and what follows, for values shorter than `2 ^ 64` bytes.
  - `challengeInput_inj`: the bytes a challenge hashes determine the transcript's name,
    every call made on it, in order, and the challenge's label.
-/

namespace Serai.Crypto

open Serai.Lib Serai.Monero

/-- A `b"..."` literal; every one the source uses is ASCII. -/
def byteString (s : String) : List UInt8 := s.toList.map fun c => c.toNat.toUInt8

/-- `DigestTranscriptMember`. -/
inductive DigestTranscriptMember where
  | name
  | domain
  | label
  | value
  | challenge
  | continued
  | challenged
  deriving DecidableEq, Repr

/-- `DigestTranscriptMember::as_u8`. -/
def DigestTranscriptMember.asU8 : DigestTranscriptMember → UInt8
  | .name => 0
  | .domain => 1
  | .label => 2
  | .value => 3
  | .challenge => 4
  | .continued => 5
  | .challenged => 6

theorem DigestTranscriptMember.asU8_inj {k k' : DigestTranscriptMember} : k.asU8 = k'.asU8 ↔ k = k' := by
  cases k <;> cases k' <;> decide

/-- A `SecureDigest`: a hash of the bytes fed to it, of a fixed length of at least 32 bytes. -/
structure Digest where
  outputLen : ℕ
  finalize : List UInt8 → List UInt8
  finalize_length : ∀ m, (finalize m).length = outputLen
  secure : 32 ≤ outputLen

/-- `DigestTranscript`, by the bytes its digest was fed. -/
structure DigestTranscript where
  fed : List UInt8
  deriving DecidableEq, Repr

namespace DigestTranscript

/-- What `append` feeds. A length is written as `u64::try_from(value.len()).unwrap()`'s
    bytes; the results below are about values shorter than `2 ^ 64` bytes, for which the
    `unwrap` holds. -/
def member (kind : DigestTranscriptMember) (value : List UInt8) : List UInt8 :=
  kind.asU8 :: (leBytes 8 value.length ++ value)

/-- `append`. -/
def append (t : DigestTranscript) (kind : DigestTranscriptMember) (value : List UInt8) : DigestTranscript :=
  ⟨t.fed ++ member kind value⟩

/-- `Transcript::new`. -/
def new (name : List UInt8) : DigestTranscript := append ⟨[]⟩ .name name

/-- `Transcript::domain_separate`. -/
def domainSeparate (t : DigestTranscript) (label : List UInt8) : DigestTranscript := t.append .domain label

/-- `Transcript::append_message`. -/
def appendMessage (t : DigestTranscript) (label message : List UInt8) : DigestTranscript :=
  (t.append .label label).append .value message

/-- What `challenge` hashes: the bytes fed, the label's member, then `Challenged`. -/
def challengeInput (t : DigestTranscript) (label : List UInt8) : List UInt8 :=
  (t.append .challenge label).fed ++ [DigestTranscriptMember.challenged.asU8]

/-- The transcript after `challenge`: the label's member, then `Continued`. -/
def afterChallenge (t : DigestTranscript) (label : List UInt8) : DigestTranscript :=
  ⟨(t.append .challenge label).fed ++ [DigestTranscriptMember.continued.asU8]⟩

/-- `Transcript::challenge`: the hash of a fork of the digest fed `Challenged`, the transcript
    going on with `Continued`. -/
def challenge (H : Digest) (t : DigestTranscript) (label : List UInt8) : List UInt8 × DigestTranscript :=
  (H.finalize (t.challengeInput label), t.afterChallenge label)

/-- `Transcript::rng_seed`: a challenge's first 32 bytes. -/
def rngSeed (H : Digest) (t : DigestTranscript) (label : List UInt8) : List UInt8 × DigestTranscript :=
  ((t.challenge H label).1.take 32, (t.challenge H label).2)

@[simp] theorem fed_append (t : DigestTranscript) (kind : DigestTranscriptMember) (value : List UInt8) :
    (t.append kind value).fed = t.fed ++ member kind value := rfl

@[simp] theorem length_challenge (H : Digest) (t : DigestTranscript) (label : List UInt8) :
    (t.challenge H label).1.length = H.outputLen := H.finalize_length _

@[simp] theorem length_rngSeed (H : Digest) (t : DigestTranscript) (label : List UInt8) :
    (t.rngSeed H label).1.length = 32 := by
  simp [rngSeed, H.secure]

/-! ## Calls and the bytes they feed -/

/-- A call made on a transcript after `new`. -/
inductive Call where
  | domainSeparate (label : List UInt8)
  | appendMessage (label message : List UInt8)
  | challenge (label : List UInt8)
  deriving DecidableEq, Repr

/-- Making a call; a challenge's output is not kept. -/
def call (t : DigestTranscript) : Call → DigestTranscript
  | .domainSeparate label => t.domainSeparate label
  | .appendMessage label message => t.appendMessage label message
  | .challenge label => t.afterChallenge label

/-- Making calls in order. -/
def run (t : DigestTranscript) (calls : List Call) : DigestTranscript := calls.foldl call t

/-- What a call feeds. -/
def Call.bytes : Call → List UInt8
  | .domainSeparate label => member .domain label
  | .appendMessage label message => member .label label ++ member .value message
  | .challenge label => member .challenge label ++ [DigestTranscriptMember.continued.asU8]

/-- Every member a call feeds is shorter than `2 ^ 64` bytes. -/
def Call.Fits : Call → Prop
  | .domainSeparate label => label.length < 2 ^ 64
  | .appendMessage label message => label.length < 2 ^ 64 ∧ message.length < 2 ^ 64
  | .challenge label => label.length < 2 ^ 64

instance (c : Call) : Decidable c.Fits :=
  match c with
  | .domainSeparate label => inferInstanceAs (Decidable (label.length < 2 ^ 64))
  | .appendMessage label message => inferInstanceAs (Decidable (label.length < 2 ^ 64 ∧ message.length < 2 ^ 64))
  | .challenge label => inferInstanceAs (Decidable (label.length < 2 ^ 64))

theorem fed_call (t : DigestTranscript) (c : Call) : (call t c).fed = t.fed ++ c.bytes := by
  cases c <;> simp [call, domainSeparate, appendMessage, afterChallenge, Call.bytes]

theorem run_fed (t : DigestTranscript) (calls : List Call) :
    (run t calls).fed = t.fed ++ calls.flatMap Call.bytes := by
  induction calls generalizing t with
  | nil => simp [run]
  | cons c calls ih =>
    change (run (call t c) calls).fed = _
    rw [ih, fed_call, List.flatMap_cons, List.append_assoc]

/-! ## The bytes fed are read back one way only -/

theorem leBytes_injOn : Set.InjOn (leBytes 8) (Set.Iio (2 ^ 64)) := by
  intro m hm n hn h
  have hm' : m < 256 ^ 8 := by simpa using hm
  have hn' : n < 256 ^ 8 := by simpa using hn
  have := congrArg leValue h
  rwa [leValue_leBytes, leValue_leBytes, Nat.mod_eq_of_lt hm', Nat.mod_eq_of_lt hn'] at this

theorem member_append_inj {k k' : DigestTranscriptMember} {v v' r s : List UInt8} (hv : v.length < 2 ^ 64)
    (hv' : v'.length < 2 ^ 64) (h : member k v ++ r = member k' v' ++ s) : k = k' ∧ v = v' ∧ r = s := by
  simp only [member, List.cons_append, List.cons.injEq] at h
  obtain ⟨hk, hrest⟩ := h
  have hcode := prefixFreeOn_lengthPrefixed (fun _ => length_leBytes 8 _) leBytes_injOn hv hv' hrest
  exact ⟨DigestTranscriptMember.asU8_inj.mp hk, hcode⟩

/-- What a challenge feeds past the bytes of the calls before it. -/
def finalBytes (label : List UInt8) : List UInt8 := member .challenge label ++ [DigestTranscriptMember.challenged.asU8]

theorem challengeInput_run (name label : List UInt8) (calls : List Call) :
    (run (new name) calls).challengeInput label = member .name name ++ (calls.flatMap Call.bytes ++ finalBytes label) := by
  simp [challengeInput, run_fed, new, finalBytes]

/-- Where each word of the calls' code, with a challenge's last bytes, starts: the member
    it feeds first, and the bytes after that member. -/
def head : Call ⊕ List UInt8 → DigestTranscriptMember × List UInt8 × List UInt8
  | .inl (.domainSeparate label) => (.domain, label, [])
  | .inl (.appendMessage label message) => (.label, label, member .value message)
  | .inl (.challenge label) => (.challenge, label, [DigestTranscriptMember.continued.asU8])
  | .inr label => (.challenge, label, [DigestTranscriptMember.challenged.asU8])

theorem bytes_eq_head (w : Call ⊕ List UInt8) :
    Sum.elim Call.bytes finalBytes w = member (head w).1 (head w).2.1 ++ (head w).2.2 := by
  rcases w with ((_ | _ | _) | _) <;> simp [head, Call.bytes, finalBytes]

theorem length_head_lt {w : Call ⊕ List UInt8} (hw : Sum.elim Call.Fits (fun label => label.length < 2 ^ 64) w) :
    (head w).2.1.length < 2 ^ 64 := by
  rcases w with ((_ | _ | _) | _) <;> simp_all [head, Call.Fits]

theorem prefixFreeOn_calls :
    PrefixFreeOn (Sum.elim Call.Fits fun label => label.length < 2 ^ 64) (Sum.elim Call.bytes finalBytes) := by
  intro a b r s ha hb h
  rw [bytes_eq_head, bytes_eq_head, List.append_assoc, List.append_assoc] at h
  obtain ⟨hk, hv, hrest⟩ := member_append_inj (length_head_lt ha) (length_head_lt hb) h
  -- the first members agree; what follows them tells the words of one kind apart
  rcases a with ((l | ⟨l, m⟩ | l) | l) <;> rcases b with ((l' | ⟨l', m'⟩ | l') | l') <;>
    simp_all [head, DigestTranscriptMember.asU8]
  -- two messages: their second members agree too
  exact (member_append_inj ha.2 hb.2 hrest).2

/-- The bytes a challenge hashes determine the transcript's name, every call made on it, in
    order, and the challenge's label: two challenges hash the same bytes only after the same
    history. -/
theorem challengeInput_inj {name₁ name₂ label₁ label₂ : List UInt8} {calls₁ calls₂ : List Call}
    (hname₁ : name₁.length < 2 ^ 64) (hname₂ : name₂.length < 2 ^ 64) (hcalls₁ : ∀ c ∈ calls₁, c.Fits)
    (hcalls₂ : ∀ c ∈ calls₂, c.Fits) (hlabel₁ : label₁.length < 2 ^ 64) (hlabel₂ : label₂.length < 2 ^ 64)
    (h : (run (new name₁) calls₁).challengeInput label₁ = (run (new name₂) calls₂).challengeInput label₂) :
    name₁ = name₂ ∧ calls₁ = calls₂ ∧ label₁ = label₂ := by
  rw [challengeInput_run, challengeInput_run] at h
  obtain ⟨-, hname, hrest⟩ := member_append_inj hname₁ hname₂ h
  obtain ⟨hcalls, hlabel⟩ := prefixFreeOn_calls.flatMap_append_inj hcalls₁ hcalls₂ hlabel₁ hlabel₂ hrest
  exact ⟨hname, hcalls, hlabel⟩

theorem challengeInput_inj_aggregator :
    (byteString "Schnorr Aggregator Test").length < 2 ^ 64 ∧
      (∀ c ∈ [Call.domainSeparate (byteString "signatures")], c.Fits) ∧
      (byteString "aggregation_weight").length < 2 ^ 64 ∧
      (byteString "Schnorr Aggregator Test" = byteString "Schnorr Aggregator Test" ∧
        [Call.domainSeparate (byteString "signatures")] = [Call.domainSeparate (byteString "signatures")] ∧
        byteString "aggregation_weight" = byteString "aggregation_weight") :=
  ⟨by decide, by decide, by decide, challengeInput_inj (by decide) (by decide) (by decide) (by decide) (by decide)
    (by decide) rfl⟩

end DigestTranscript

end Serai.Crypto
