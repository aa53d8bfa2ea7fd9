import Mathlib
import Serai.Dkg.Consistency
/-
  Serai.Dkg.Run — a run of the DKG among the participants `1..=n`.

  Every participant `l` runs the three rounds with `ThresholdParams::new(t, n, l)` and one
  context, drawing from its RNG what `Draws` lists. Round one's messages are broadcast:
  the inbox of round two holds, from every other participant, its message (`Delivers`).
  Round two's encrypted shares are sent point to point: the inbox of round three holds,
  from every other participant, what that participant's round two sent this one
  (`sentShare`). `collect` builds such inboxes (`delivers_collect`).
  - `roundTwo_ok`: on the round-one messages of the others, round two succeeds: the keys
    register once each, every proof of knowledge holds, every share polynomial is
    evaluated at a nonzero index and encrypted to a registered key.
  - `roundThree_ok`: on the shares the others sent, round three succeeds: each share
    decrypts to the sender's polynomial at our index, so it checks against the sender's
    commitments, with every proof of possession, in a batch of lists that each sum to
    the identity.
  - `roundTwo_commitments`: after round two every participant stores the commitments
    each participant broadcast, so all of them store the same ones.
-/

namespace Serai.Dkg

open Serai.Crypto Serai.Lib
open Serai.Tributary.Spec (Participant)

/-- `ThresholdParams::new(t, n, l)`: the parameters participant `l` runs with, with the `t`
    and `n` of `p` (`p` itself for an `l` past `n`, which no run has). -/
def ThresholdParams.withIndex (p : ThresholdParams) (l : Participant) : ThresholdParams :=
  if h : l.val ≤ p.n then { p with i := l, i_le_n := h } else p

namespace ThresholdParams

@[simp] theorem withIndex_t (p : ThresholdParams) (l : Participant) : (p.withIndex l).t = p.t := by
  unfold withIndex
  split <;> rfl

@[simp] theorem withIndex_n (p : ThresholdParams) (l : Participant) : (p.withIndex l).n = p.n := by
  unfold withIndex
  split <;> rfl

theorem withIndex_i {p : ThresholdParams} {l : Participant} (hl : l ∈ participants p.n) :
    (p.withIndex l).i = l := by
  rw [withIndex, dif_pos (mem_participants.mp hl)]

theorem eq_withIndex {p q : ThresholdParams} {l : Participant} (ht : q.t = p.t) (hn : q.n = p.n)
    (hi : q.i = l) : q = p.withIndex l := by
  have hl : l.val ≤ p.n := by
    rw [← hi, ← hn]
    exact q.i_le_n
  rw [withIndex, dif_pos hl]
  cases p
  cases q
  dsimp only at ht hn hi
  subst ht hn hi
  rfl

theorem new_withIndex {p : ThresholdParams} {l : Participant} (hl : l ∈ participants p.n) :
    ThresholdParams.new p.t p.n l = .ok (p.withIndex l) := by
  rw [withIndex, dif_pos (mem_participants.mp hl)]
  exact new_self { p with i := l, i_le_n := mem_participants.mp hl }

end ThresholdParams

/-! ## Delivering messages -/

/-- The inbox of `i` holds, from each other participant of `1..=n`, what it sent `i`. -/
def Delivers {M : Type} (n : UInt16) (i : Participant) (sent : Participant → Option M)
    (inbox : Std.HashMap Participant M) : Prop :=
  ∀ l, inbox[l]? = if l ∈ participants n ∧ l ≠ i then sent l else none

/-- The inbox holding what each other participant of `1..=n` sent `i`. -/
def collect {M : Type} (n : UInt16) (i : Participant) (sent : Participant → Option M) :
    Std.HashMap Participant M :=
  (participants n).foldl (fun inbox l =>
    if l = i then inbox
    else match sent l with
      | some msg => inbox.insert l msg
      | none => inbox) ∅

theorem getElem?_foldl_collect {M : Type} (i : Participant) (sent : Participant → Option M) (ls : List Participant)
    (inbox : Std.HashMap Participant M) (a : Participant) :
    (ls.foldl (fun inbox l =>
      if l = i then inbox
      else match sent l with
        | some msg => inbox.insert l msg
        | none => inbox) inbox)[a]? = if a ∈ ls ∧ a ≠ i then (sent a).or inbox[a]? else inbox[a]? := by
  induction ls generalizing inbox with
  | nil => simp
  | cons l ls ih =>
    rw [List.foldl_cons, ih]
    by_cases hli : l = i
    · subst hli
      by_cases ha : a = l <;> simp [ha]
    · rw [if_neg hli]
      by_cases ha : a = l
      · subst ha
        cases sent a <;> simp [hli]
      · have hinsert : (match sent l with
            | some msg => inbox.insert l msg
            | none => inbox)[a]? = inbox[a]? := by
          cases sent l <;> simp [Std.HashMap.getElem?_insert, Ne.symm ha]
        simp [hinsert, ha]

theorem delivers_collect {M : Type} (n : UInt16) (i : Participant) (sent : Participant → Option M) :
    Delivers n i sent (collect n i sent) := fun a => by
  rw [collect, getElem?_foldl_collect]
  simp

theorem validateMap_of_delivers {M B : Type} {n : UInt16} {i : Participant} {sent : Participant → Option M}
    {inbox : Std.HashMap Participant M} (hi : i ∈ participants n) (hd : Delivers n i sent inbox)
    (hsent : ∀ l ∈ participants n, l ≠ i → (sent l).isSome) :
    validateMap (B := B) inbox (participants n) i = .ok () := by
  have hnodup := nodup_participants n
  have hkeys : ∀ l, l ∈ inbox ↔ l ∈ (participants n).erase i := fun l => by
    rw [Std.HashMap.mem_iff_isSome_getElem?, hd l, hnodup.mem_erase_iff]
    by_cases hl : l ∈ participants n ∧ l ≠ i
    · rw [if_pos hl]
      exact ⟨fun _ => ⟨hl.2, hl.1⟩, fun _ => hsent l hl.1 hl.2⟩
    · rw [if_neg hl, Option.isSome_none, Bool.false_eq_true, false_iff]
      exact fun h => hl ⟨h.2, h.1⟩
  refine validateMap_ok.mpr ⟨?_, fun l hl => ?_⟩
  · rw [size_eq_length (hnodup.erase i) hkeys, List.length_erase_of_mem hi]
    have : 0 < (participants n).length := List.length_pos_of_mem hi
    omega
  · rw [hkeys l, hnodup.mem_erase_iff]
    exact ⟨fun h => h.1, fun h => ⟨h, hl⟩⟩

/-! ## The run -/

/-- What participant `l` draws from its RNG over a run: its polynomial's coefficients, its
    proof of knowledge's nonce, its encryption key, the key and nonce it encrypts each
    share with, and the weights of its two batches. -/
structure Draws (F : Type) [Field F] where
  coefficient : ℕ → F
  r : F
  encKey : F
  ephemeral : Participant → F × F
  weightsR1 : Weights F
  weightsR3 : Weights F

variable {F G : Type} [Field F] [DecidableEq F] [AddCommGroup G] [Module F G] [DecidableEq G]

section Run

variable (C : Ciphersuite F G) (H : Transcripts F G) (p : ThresholdParams) (context : String)
  (draws : Participant → Draws F)

/-- Round one of participant `l`. -/
def roundOne (l : Participant) : SecretShareMachine F G × EncryptionKeyMessage (Commitments F G) G :=
  generateCoefficients C H ⟨p.withIndex l, context⟩ (draws l).coefficient (draws l).r (draws l).encKey

/-- Round two of participant `l`, on the round-one messages it received. -/
def roundTwo (inbox : Std.HashMap Participant (EncryptionKeyMessage (Commitments F G) G)) (l : Participant) :
    Except (DkgError (EncryptionKeyProof G)) (KeyMachine F G × Std.HashMap Participant (EncryptedMessage F G)) :=
  generateSecretShares C H (roundOne C H p context draws l).1 (draws l).weightsR1 (draws l).ephemeral inbox

/-- What participant `l` sent `i` in round two, on the round-one messages `inbox l` it
    received. -/
def sentShare (inbox : Participant → Std.HashMap Participant (EncryptionKeyMessage (Commitments F G) G))
    (l i : Participant) : Option (EncryptedMessage F G) :=
  match roundTwo C H p context draws (inbox l) l with
  | .ok (_, res) => res[i]?
  | .error _ => none

/-! ## Round one -/

omit [DecidableEq F] [DecidableEq G] in
@[simp] theorem roundOne_params (l : Participant) : (roundOne C H p context draws l).1.params = p.withIndex l := rfl

omit [DecidableEq F] [DecidableEq G] in
@[simp] theorem roundOne_context (l : Participant) : (roundOne C H p context draws l).1.context = context := rfl

omit [DecidableEq F] [DecidableEq G] in
@[simp] theorem roundOne_coefficients (l : Participant) :
    (roundOne C H p context draws l).1.coefficients = (List.range p.t.toNat).map (draws l).coefficient := by
  simp [roundOne, generateCoefficients]

omit [DecidableEq F] [DecidableEq G] in
@[simp] theorem roundOne_encryption (l : Participant) :
    (roundOne C H p context draws l).1.encryption = Encryption.new C context (some (p.withIndex l).i) (draws l).encKey :=
  rfl

omit [DecidableEq F] [DecidableEq G] in
@[simp] theorem roundOne_commitments (l : Participant) :
    (roundOne C H p context draws l).2.msg.commitments =
      (List.range p.t.toNat).map fun k => (draws l).coefficient k • C.generator := by
  simp [roundOne, generateCoefficients, Encryption.registration]

omit [DecidableEq F] [DecidableEq G] in
@[simp] theorem roundOne_encKey (l : Participant) :
    (roundOne C H p context draws l).2.encKey = (draws l).encKey • C.generator := rfl

omit [DecidableEq F] [DecidableEq G] in
theorem roundOne_commitments_cons (l : Participant) :
    (roundOne C H p context draws l).2.msg.commitments =
      (draws l).coefficient 0 • C.generator ::
        ((List.range (p.t.toNat - 1)).map fun k => (draws l).coefficient (k + 1) • C.generator) := by
  have ht : p.t.toNat = p.t.toNat - 1 + 1 :=
    (Nat.succ_pred_eq_of_pos (Nat.pos_of_ne_zero p.t_toNat_ne_zero)).symm
  rw [roundOne_commitments, ht, List.range_succ_eq_map]
  simp

omit [DecidableEq F] [DecidableEq G] in
theorem multiexp_roundOne_pok {l : Participant} (hl : l ∈ participants p.n) :
    let msg := (roundOne C H p context draws l).2
    multiexp (SchnorrSignature.batchStatements C msg.msg.sig ((draws l).coefficient 0 • C.generator)
      (H.challenge context l (C.toBytes msg.msg.sig.R) msg.msg.cachedMsg)) = 0 := by
  have := SchnorrSignature.multiexp_batchStatements_sign C ((draws l).coefficient 0) (draws l).r
    (H.challenge context l (C.toBytes ((draws l).r • C.generator))
      ((roundOne C H p context draws l).2.msg.commitments.flatMap C.toBytes))
  simpa [roundOne, generateCoefficients, Encryption.registration, SchnorrSignature.sign,
    ThresholdParams.withIndex_i hl] using this

/-! ## Round two -/

omit [DecidableEq F] [DecidableEq G] in
theorem contains_of_r1Done {m : SecretShareMachine F G} {ws : Weights F}
    {inbox : Std.HashMap Participant (EncryptionKeyMessage (Commitments F G) G)} {e₀ : Encryption F G}
    {pre : List Participant} {acc : Encryption F G × BatchVerifier Participant F G × Std.HashMap Participant (List G)}
    (hdone : R1Done C H m ws inbox e₀ pre acc) (he₀ : ∀ l : Participant, e₀.encKeys[l]? = none) {l : Participant}
    (hl : l ∉ pre) : acc.1.encKeys.contains l = false := by
  rw [Std.HashMap.contains_eq_isSome_getElem?, hdone.encKeys l, if_neg hl, he₀]
  rfl

omit [DecidableEq F] in
theorem verifyR1_honest {i : Participant} (hi : i ∈ participants p.n) (ws : Weights F)
    {inbox : Std.HashMap Participant (EncryptionKeyMessage (Commitments F G) G)}
    (hd : Delivers p.n i (fun l => some (roundOne C H p context draws l).2) inbox) :
    ∃ m' cm, verifyR1 C H (roundOne C H p context draws i).1 ws inbox = .ok (m', cm) := by
  let m := (roundOne C H p context draws i).1
  have hn : m.params.n = p.n := ThresholdParams.withIndex_n p i
  have hmi : m.params.i = i := ThresholdParams.withIndex_i hi
  have hnodup := nodup_participants p.n
  -- each iteration succeeds, and the loop's invariant follows it
  have hstep : ∀ pre l post acc, pre ++ l :: post = participants m.params.n →
      R1Done C H m ws inbox m.encryption pre acc →
      ∃ acc', verifyR1Step C H m ws inbox acc l = .ok acc' ∧ R1Done C H m ws inbox m.encryption (pre ++ [l]) acc' := by
    intro pre l post acc hl hdone
    suffices ∃ acc', verifyR1Step C H m ws inbox acc l = .ok acc' by
      obtain ⟨acc', h⟩ := this
      exact ⟨acc', h, hdone.step C H m ws inbox h⟩
    rw [hn] at hl
    have hlmem : l ∈ participants p.n := hl ▸ List.mem_append_right _ List.mem_cons_self
    by_cases hli : l = i
    · -- ours: no message
      have hnone : inbox[l]? = none := by rw [hd l, if_neg fun h => h.2 hli]
      unfold verifyR1Step
      rw [hnone]
      exact ⟨acc, rfl⟩
    · have hmsg : inbox[l]? = some (roundOne C H p context draws l).2 := by rw [hd l, if_pos ⟨hlmem, hli⟩]
      have hpre : l ∉ pre := fun h =>
        List.disjoint_of_nodup_append (hl ▸ hnodup) h List.mem_cons_self
      have hfresh := contains_of_r1Done C H hdone (fun _ => Std.HashMap.getElem?_empty) hpre
      exact ⟨_, verifyR1Step_eq_ok C H m ws inbox hmsg hfresh (roundOne_commitments_cons C H p context draws l)
        (by simp [m])⟩
  obtain ⟨acc, hloop, hdone⟩ :=
    foldlM_except_of_step (R1Done C H m ws inbox m.encryption) _ hstep (R1Done.empty C H m ws inbox _)
  -- every proof of knowledge queued holds
  have hverify : acc.2.1.verify = true := BatchVerifier.verify_of_forall fun e he => by
    obtain ⟨l, hl, msg, c0, cs, hmsg, hcs, b, rfl⟩ := hdone.batch e he
    rw [hn] at hl
    rw [hd l] at hmsg
    split at hmsg
    · cases hmsg
      rw [roundOne_commitments_cons] at hcs
      cases hcs
      exact (BatchVerifier.multiexp_queued b ws _).mpr (multiexp_roundOne_pok C H p context draws hl)
    · cases hmsg
  have hv : validateMap (B := EncryptionKeyProof G) inbox (participants m.params.n) m.params.i = .ok () := by
    rw [hn, hmi]
    exact validateMap_of_delivers hi hd fun _ _ _ => rfl
  unfold verifyR1
  rw [except_bind_of_ok hv, except_bind_of_ok hloop]
  dsimp only
  rw [(BatchVerifier.verifyWithVartimeBlame_ok_iff _).mpr hverify]
  exact ⟨_, _, rfl⟩

omit [DecidableEq F] [DecidableEq G] in
theorem encrypt_of_r1Done {i : Participant} (hi : i ∈ participants p.n) {ws : Weights F}
    {inbox : Std.HashMap Participant (EncryptionKeyMessage (Commitments F G) G)}
    (hd : Delivers p.n i (fun l => some (roundOne C H p context draws l).2) inbox)
    {acc : Encryption F G × BatchVerifier Participant F G × Std.HashMap Participant (List G)}
    (hdone : R1Done C H (roundOne C H p context draws i).1 ws inbox (roundOne C H p context draws i).1.encryption
      (participants (p.withIndex i).n) acc)
    {j : Participant} (hj : j ∈ participants p.n) (hji : j ≠ i) (bytes : List UInt8) (key nonce : F) :
    acc.1.encrypt C H j bytes key nonce =
      some (encrypt C H context i ((draws j).encKey • C.generator) bytes key nonce) := by
  have hkey : acc.1.encKeys[j]? = some ((draws j).encKey • C.generator) := by
    rw [hdone.encKeys j, hd j]
    simp [hj, hji]
  have hacc : acc.1 = { Encryption.new C context (some i) (draws i).encKey with encKeys := acc.1.encKeys } := by
    rw [hdone.encryption, roundOne_encryption, ThresholdParams.withIndex_i hi]
  unfold Encryption.encrypt
  rw [hkey, hacc]
  rfl

theorem roundTwo_ok (hn : p.n.toNat < ringChar F) {i : Participant} (hi : i ∈ participants p.n)
    {inbox : Std.HashMap Participant (EncryptionKeyMessage (Commitments F G) G)}
    (hd : Delivers p.n i (fun l => some (roundOne C H p context draws l).2) inbox) :
    ∃ r, roundTwo C H p context draws inbox i = .ok r := by
  obtain ⟨m', cm, hr1⟩ := verifyR1_honest C H p context draws hi (draws i).weightsR1 hd
  obtain ⟨-, acc, hdone, -, rfl, -⟩ := verifyR1_ok C H _ _ inbox hr1
  have hmi : (p.withIndex i).i = i := ThresholdParams.withIndex_i hi
  unfold roundTwo generateSecretShares
  rw [except_bind_of_ok hr1]
  dsimp only
  refine except_bind_exists ?_ fun res _ => ?_
  · -- the loop: each share is evaluated at a nonzero index and encrypted
    refine (foldlM_except_of_step (fun _ _ => True) _ (fun pre l post res hl _ => ?_) trivial).imp
      fun _ h => h.1
    simp only [roundOne_params, ThresholdParams.withIndex_n] at hl
    have hlmem : l ∈ participants p.n := hl ▸ List.mem_append_right _ List.mem_cons_self
    split
    · exact ⟨res, rfl, trivial⟩
    · rename_i hli
      simp only [roundOne_params, hmi] at hli
      rw [roundOne_coefficients, polynomial_eq _ _ (toScalar_ne_zero hn hlmem)]
      dsimp only
      rw [encrypt_of_r1Done C H p context draws hi hd hdone hlmem hli]
      exact ⟨_, rfl, trivial⟩
  · -- and our own share
    rw [roundOne_coefficients, polynomial_eq _ _ (toScalar_ne_zero hn (by rwa [roundOne_params, hmi]))]
    exact ⟨_, rfl⟩

/-- What participant `i`'s round two returns on the round-one messages of every other
    participant: the key machine of its coefficients, with its encryption key and every
    participant's broadcast commitments, and for every other participant its polynomial
    there, encrypted to that participant's key. -/
structure RoundTwoDone (i : Participant) (km : KeyMachine F G)
    (res : Std.HashMap Participant (EncryptedMessage F G)) : Prop where
  params : km.params = p.withIndex i
  wellFormed : km.WellFormed C (draws i).coefficient
  encKey : km.encryption.encKey = (draws i).encKey
  encPubKey : km.encryption.encPubKey = (draws i).encKey • C.generator
  encContext : km.encryption.context = context
  commitments : ∀ l ∈ participants p.n,
    km.commitments[l]? = some ((List.range p.t.toNat).map fun k => (draws l).coefficient k • C.generator)
  sent : ∀ j ∈ participants p.n, j ≠ i → res[j]? = some (encrypt C H context i ((draws j).encKey • C.generator)
    (C.toRepr (∑ k ∈ Finset.range p.t.toNat, (draws i).coefficient k * toScalar j ^ k))
    ((draws i).ephemeral j).1 ((draws i).ephemeral j).2)

theorem roundTwo_done (hn : p.n.toNat < ringChar F) {i : Participant} (hi : i ∈ participants p.n)
    {inbox : Std.HashMap Participant (EncryptionKeyMessage (Commitments F G) G)}
    (hd : Delivers p.n i (fun l => some (roundOne C H p context draws l).2) inbox)
    {km : KeyMachine F G} {res : Std.HashMap Participant (EncryptedMessage F G)}
    (h : roundTwo C H p context draws inbox i = .ok (km, res)) :
    RoundTwoDone C H p context draws i km res := by
  have hmi : (p.withIndex i).i = i := ThresholdParams.withIndex_i hi
  obtain ⟨m', hr1, hparams, henc, -, -, hres⟩ := generateSecretShares_ok C H _ _ inbox _ h
  have hcm := verifyR1_commitments C H _ _ inbox hr1
  obtain ⟨-, acc, hdone, -, rfl, -⟩ := verifyR1_ok C H _ _ inbox hr1
  have hacc : acc.1 = { Encryption.new C context (some i) (draws i).encKey with encKeys := acc.1.encKeys } := by
    rw [hdone.encryption, roundOne_encryption, hmi]
  have hwf := generateSecretShares_wellFormed C H (by rwa [ThresholdParams.withIndex_n]) context _ _ _ _ _ inbox h
  refine ⟨hparams, hwf.2, ?_, ?_, ?_, fun l hl => ?_, fun j hj hji => ?_⟩
  · rw [henc, hacc]
    rfl
  · rw [henc, hacc]
    rfl
  · rw [henc, hacc]
    rfl
  · -- ours, or what the others broadcast
    simp only [roundOne_params, ThresholdParams.withIndex_n, hmi] at hcm
    by_cases hli : l = i
    · rw [(hcm l).1 hli, hli]
      simp [roundOne, generateCoefficients]
    · obtain ⟨msg, hmsg, hl', -⟩ := (hcm l).2.1 hli hl
      rw [hd l, if_pos ⟨hl, hli⟩] at hmsg
      cases hmsg
      rw [hl', roundOne_commitments]
  · rw [hres j]
    simp only [roundOne_params, ThresholdParams.withIndex_n, hmi, roundOne_coefficients]
    rw [if_pos ⟨hj, hji⟩, polynomial_eq _ _ (toScalar_ne_zero hn hj), Option.bind_some,
      encrypt_of_r1Done C H p context draws hi hd hdone hj hji]

/-! ## Round three -/

theorem sentShare_eq (hn : p.n.toNat < ringChar F)
    (inbox : Participant → Std.HashMap Participant (EncryptionKeyMessage (Commitments F G) G))
    {l i : Participant} (hl : l ∈ participants p.n) (hi : i ∈ participants p.n) (hil : i ≠ l)
    (hd : Delivers p.n l (fun j => some (roundOne C H p context draws j).2) (inbox l)) :
    sentShare C H p context draws inbox l i = some (encrypt C H context l ((draws i).encKey • C.generator)
      (C.toRepr (∑ k ∈ Finset.range p.t.toNat, (draws l).coefficient k * toScalar i ^ k))
      ((draws l).ephemeral i).1 ((draws l).ephemeral i).2) := by
  obtain ⟨⟨km, res⟩, h⟩ := roundTwo_ok C H p context draws hn hl hd
  unfold sentShare
  rw [h]
  exact (roundTwo_done C H p context draws hn hl hd h).sent i hi hil

end Run

omit [DecidableEq F] [DecidableEq G] in
theorem decrypted_encrypt (H : Transcripts F G) {C : Ciphersuite F G} {e : Encryption F G} {context : String}
    (hcontext : e.context = context) {sender : Participant} {bytes : List UInt8} {key nonce : F} :
    decrypted H e (sender, encrypt C H context sender (e.encKey • C.generator) bytes key nonce) = bytes := by
  simp only [decrypted, encrypt, hcontext, ecdh_comm C key e.encKey, applyKeystream_applyKeystream]

omit [DecidableEq F] [DecidableEq G] in
theorem multiexp_popStatements_encrypt (C : Ciphersuite F G) (H : Transcripts F G) {e : Encryption F G}
    {context : String} (hcontext : e.context = context) (sender : Participant) (recipient : G)
    (bytes : List UInt8) (key nonce : F) :
    multiexp (popStatements C H e (sender, encrypt C H context sender recipient bytes key nonce)) = 0 := by
  rw [popStatements, hcontext]
  exact multiexp_pop C H context sender recipient bytes key nonce

section Run

variable (C : Ciphersuite F G) (H : Transcripts F G) (p : ThresholdParams) (context : String)
  (draws : Participant → Draws F)

theorem roundThree_ok (hn : p.n.toNat < ringChar F) {i : Participant} (hi : i ∈ participants p.n)
    (inbox : Participant → Std.HashMap Participant (EncryptionKeyMessage (Commitments F G) G))
    (h1 : ∀ l ∈ participants p.n, Delivers p.n l (fun j => some (roundOne C H p context draws j).2) (inbox l))
    {km : KeyMachine F G} {res : Std.HashMap Participant (EncryptedMessage F G)}
    (h2 : roundTwo C H p context draws (inbox i) i = .ok (km, res))
    {shares : Std.HashMap Participant (EncryptedMessage F G)}
    (hd : Delivers p.n i (fun l => sentShare C H p context draws inbox l i) shares) :
    (∃ bm, calculateShare C H km (draws i).weightsR3 shares = .ok bm) ∧
      ∀ acc, decryptShares C H km (draws i).weightsR3 shares.toList = .ok acc →
        ∀ e ∈ acc.2.1.entries, multiexp e.2 = 0 := by
  have hdone := roundTwo_done C H p context draws hn hi (h1 i hi) h2
  have hmi : km.params.i = i := by rw [hdone.params, ThresholdParams.withIndex_i hi]
  have hkn : km.params.n = p.n := by rw [hdone.params, ThresholdParams.withIndex_n]
  have hkt : km.params.t = p.t := by rw [hdone.params, ThresholdParams.withIndex_t]
  -- what each share received is: the sender's polynomial at our index, encrypted to us
  have hentry : ∀ x ∈ shares.toList, x.1 ∈ participants p.n ∧ x.1 ≠ i ∧
      x.2 = encrypt C H context x.1 (km.encryption.encKey • C.generator)
        (C.toRepr (∑ k ∈ Finset.range p.t.toNat, (draws x.1).coefficient k * toScalar i ^ k))
        ((draws x.1).ephemeral i).1 ((draws x.1).ephemeral i).2 := by
    intro x hx
    have hget := Std.HashMap.mem_toList_iff_getElem?_eq_some.mp hx
    rw [hd x.1] at hget
    split at hget
    · rename_i hmem
      dsimp only at hget
      rw [sentShare_eq C H p context draws hn inbox hmem.1 hi (Ne.symm hmem.2) (h1 x.1 hmem.1),
        ← hdone.encKey] at hget
      exact ⟨hmem.1, hmem.2, (Option.some.inj hget).symm⟩
    · cases hget
  have hshare : ∀ x ∈ shares.toList, C.fromRepr (decrypted H km.encryption x) =
      some (∑ k ∈ Finset.range p.t.toNat, (draws x.1).coefficient k * toScalar i ^ k) := by
    intro x hx
    obtain ⟨-, -, hx2⟩ := hentry x hx
    rw [show x = (x.1, x.2) from rfl, hx2, decrypted_encrypt H hdone.encContext, C.fromRepr_toRepr]
  have hcm : ∀ x ∈ shares.toList, km.commitments[x.1]? =
      some ((List.range p.t.toNat).map fun k => (draws x.1).coefficient k • C.generator) :=
    fun x hx => hdone.commitments x.1 (hentry x hx).1
  -- every list queued sums to the identity
  have hzero : ∀ acc, decryptShares C H km (draws i).weightsR3 shares.toList = .ok acc →
      ∀ e ∈ acc.2.1.entries, multiexp e.2 = 0 := by
    intro acc hloop e he
    obtain ⟨x, hx, b, rfl | ⟨share, commitments, hs, hc, rfl⟩⟩ :=
      (decryptShares_ok C H km _ hloop).entries e he
    · obtain ⟨-, -, hx2⟩ := hentry x hx
      refine (BatchVerifier.multiexp_queued b _ _).mpr ?_
      rw [show x = (x.1, x.2) from rfl, hx2]
      exact multiexp_popStatements_encrypt C H hdone.encContext _ _ _ _ _
    · rw [hshare x hx] at hs
      rw [hcm x hx] at hc
      cases hs
      cases hc
      refine (BatchVerifier.multiexp_queued b _ _).mpr ?_
      rw [hmi]
      exact multiexp_shareVerificationStatements_honest C (draws x.1).coefficient p.t.toNat i
  refine ⟨?_, hzero⟩
  have hv : validateMap (B := EncryptionKeyProof G) shares (participants km.params.n) km.params.i = .ok () := by
    rw [hkn, hmi]
    refine validateMap_of_delivers hi hd fun l hl hli => ?_
    rw [sentShare_eq C H p context draws hn inbox hl hi (Ne.symm hli) (h1 l hl)]
    rfl
  obtain ⟨acc, hloop, -⟩ : ∃ acc, decryptShares C H km (draws i).weightsR3 shares.toList = .ok acc ∧ True :=
    foldlM_except_of_step (fun _ _ => True) shares.toList
      (fun pre x post acc hx _ =>
        have hxmem : x ∈ shares.toList := hx ▸ List.mem_append_right _ List.mem_cons_self
        ⟨_, decryptShare_eq_ok C H km _ (hshare x hxmem) (hcm x hxmem), trivial⟩) trivial
  have hverify : acc.2.1.verify = true := BatchVerifier.verify_of_forall (hzero acc hloop)
  have hS := stripes_eq_stripeSums hdone.wellFormed.keys fun l cs hl => (hdone.wellFormed.lengths l cs hl).ge
  have hfirst : (stripeSums km.params.t.toNat km.params.n km.commitments)[0]? =
      some ((stripeSums km.params.t.toNat km.params.n km.commitments).getD 0 0) := by
    rw [List.getD_eq_getElem?_getD, List.getElem?_eq_getElem (by
      rw [length_stripeSums]
      exact Nat.pos_of_ne_zero km.params.t_toNat_ne_zero)]
    rfl
  unfold calculateShare
  rw [except_bind_of_ok hv, except_bind_of_ok hloop]
  dsimp only
  rw [(BatchVerifier.verifyWithVartimeBlame_ok_iff _).mpr hverify]
  dsimp only
  rw [hS]
  dsimp only
  rw [hfirst]
  exact ⟨_, rfl⟩

omit [DecidableEq F] [DecidableEq G] in
theorem stripeSums_honest {t : ℕ} {n : UInt16} {cm : Std.HashMap Participant (List G)} (c : Participant → ℕ → F)
    (h : ∀ l ∈ participants n, cm[l]? = some ((List.range t).map fun k => c l k • C.generator)) :
    stripeSums t n cm = (List.range t).map fun k => ((participants n).map fun l => c l k • C.generator).sum := by
  refine List.map_congr_left fun k hk => ?_
  congr 1
  refine List.map_congr_left fun l hl => ?_
  rw [commitment, h l hl, Option.getD_some, List.getD_eq_getElem?_getD, List.getElem?_map,
    List.getElem?_range (List.mem_range.mp hk)]
  rfl

theorem run_complete (hn : p.n.toNat < ringChar F)
    (inbox : Participant → Std.HashMap Participant (EncryptionKeyMessage (Commitments F G) G))
    (h1 : ∀ l ∈ participants p.n, Delivers p.n l (fun j => some (roundOne C H p context draws j).2) (inbox l))
    (shares : Participant → Std.HashMap Participant (EncryptedMessage F G))
    (h2 : ∀ i ∈ participants p.n, Delivers p.n i (fun l => sentShare C H p context draws inbox l i) (shares i))
    {i : Participant} (hi : i ∈ participants p.n) :
    ∃ km res bm core, roundTwo C H p context draws (inbox i) i = .ok (km, res) ∧
      calculateShare C H km (draws i).weightsR3 (shares i) = .ok bm ∧ bm.result = some core ∧
      core.params = p.withIndex i ∧ Consistent C core km.commitments ∧
      core.groupKey = ((participants p.n).map fun l => (draws l).coefficient 0 • C.generator).sum ∧
      core.verificationShares = stripeShares (F := F) p.n ((List.range p.t.toNat).map fun k =>
        ((participants p.n).map fun l => (draws l).coefficient k • C.generator).sum) := by
  obtain ⟨⟨km, res⟩, h⟩ := roundTwo_ok C H p context draws hn hi (h1 i hi)
  have hdone := roundTwo_done C H p context draws hn hi (h1 i hi) h
  obtain ⟨⟨bm, hbm⟩, hzero⟩ := roundThree_ok C H p context draws hn hi inbox h1 h (h2 i hi)
  obtain ⟨core, hres, hparams, hc⟩ := calculateShare_consistent C H (p := p.withIndex i)
    (by rwa [ThresholdParams.withIndex_n]) context _ _ _ _ _ _ (inbox i) (shares i) h hbm
    fun acc hacc _ => hzero acc hacc
  have hS := stripeSums_honest C (fun l k => (draws l).coefficient k) hdone.commitments
  refine ⟨km, res, bm, core, h, hbm, hres, hparams, hc, ?_, ?_⟩
  · -- `t` is nonzero, so the first stripe is the sum of the constant terms
    have ht : 0 < p.t.toNat := Nat.pos_of_ne_zero p.t_toNat_ne_zero
    rw [hc.groupKey, hparams, ThresholdParams.withIndex_t, ThresholdParams.withIndex_n, hS,
      List.getD_eq_getElem?_getD, List.getElem?_map, List.getElem?_range ht]
    rfl
  · rw [hc.verificationShares, hparams, ThresholdParams.withIndex_t, ThresholdParams.withIndex_n, hS]

end Run


/-! ## PedPoP -/

/-- With `n` below the field's characteristic: a run in which every participant is honest
    and every message is delivered succeeds for every participant, all with the same group
    key and verification shares; a participant whose own run succeeds, under a batch that
    verifies only when each queued list sums to the identity, has keys consistent with the
    commitments it stored, which it reads back as themselves; and keys consistent with the
    same commitments are the same. -/
theorem pedpop_complete_consistent (C : Ciphersuite F G) (H : Transcripts F G) (p : ThresholdParams)
    (hn : p.n.toNat < ringChar F) (context : String) :
    (∀ (draws : Participant → Draws F)
      (inbox : Participant → Std.HashMap Participant (EncryptionKeyMessage (Commitments F G) G))
      (shares : Participant → Std.HashMap Participant (EncryptedMessage F G)),
      (∀ l ∈ participants p.n, Delivers p.n l (fun j => some (roundOne C H p context draws j).2) (inbox l)) →
      (∀ i ∈ participants p.n, Delivers p.n i (fun l => sentShare C H p context draws inbox l i) (shares i)) →
      ∀ i ∈ participants p.n, ∃ km res bm core, roundTwo C H p context draws (inbox i) i = .ok (km, res) ∧
        calculateShare C H km (draws i).weightsR3 (shares i) = .ok bm ∧ bm.result = some core ∧
        core.params = p.withIndex i ∧ Consistent C core km.commitments ∧
        core.groupKey = ((participants p.n).map fun l => (draws l).coefficient 0 • C.generator).sum ∧
        core.verificationShares = stripeShares (F := F) p.n ((List.range p.t.toNat).map fun k =>
          ((participants p.n).map fun l => (draws l).coefficient k • C.generator).sum)) ∧
    (∀ (c : ℕ → F) (r encKey : F) (ws ws' : Weights F) (eph : Participant → F × F)
      (msgs : Std.HashMap Participant (EncryptionKeyMessage (Commitments F G) G))
      (shares : Std.HashMap Participant (EncryptedMessage F G)) (km : KeyMachine F G)
      (res : Std.HashMap Participant (EncryptedMessage F G)) (bm : BlameMachine F G),
      generateSecretShares C H (generateCoefficients C H ⟨p, context⟩ c r encKey).1 ws eph msgs = .ok (km, res) →
      calculateShare C H km ws' shares = .ok bm →
      (∀ acc, decryptShares C H km ws' shares.toList = .ok acc → acc.2.1.Separates) →
      ∃ core, bm.result = some core ∧ core.params = p ∧ Consistent C core km.commitments ∧
        ∀ rest, ∃ bytes, core.serialize C = some bytes ∧ ThresholdCore.read C (bytes ++ rest) = .ok core rest) ∧
    (∀ (core core' : ThresholdCore F G) (cm cm' : Std.HashMap Participant (List G)),
      Consistent C core cm → Consistent C core' cm' → core.params.t = core'.params.t →
      core.params.n = core'.params.n → (∀ l ∈ participants core.params.n, cm[l]? = cm'[l]?) →
      core.groupKey = core'.groupKey ∧ core.verificationShares = core'.verificationShares) := by
  refine ⟨fun draws inbox shares h1 h2 i hi => run_complete C H p context draws hn inbox h1 shares h2 hi, ?_, ?_⟩
  · intro c r encKey ws ws' eph msgs shares km res bm h2 h3 hsound
    obtain ⟨core, hres, hp, hc⟩ := calculateShare_consistent C H hn context c r encKey ws ws' eph msgs shares h2 h3 hsound
    exact ⟨core, hres, hp, hc, hc.read_serialize⟩
  · intro core core' cm cm' hc hc' ht hn' hcm
    exact hc.groupKey_eq hc' ht hn' hcm

instance fact_prime_five : Fact (Nat.Prime 5) := ⟨Nat.prime_five⟩

/-- The field of five elements, as a ciphersuite whose group is the field itself, each
    element encoded as one byte. -/
def zmod5Suite : Ciphersuite (ZMod 5) (ZMod 5) where
  id := [5]
  generator := 1
  reprLen := 1
  toRepr x := [UInt8.ofNat x.val]
  fromRepr bytes := match bytes with
    | [b] => if b.toNat < 5 then some (b.toNat : ZMod 5) else none
    | _ => none
  bytesLen := 1
  toBytes x := [UInt8.ofNat x.val]
  fromBytes bytes := match bytes with
    | [b] => if b.toNat < 5 then some (b.toNat : ZMod 5) else none
    | _ => none
  id_length := by decide
  toRepr_length _ := rfl
  fromRepr_toRepr := by decide
  toBytes_length _ := rfl
  fromBytes_toBytes := by decide

/-- Two of three. -/
def twoOfThree : ThresholdParams := ⟨2, 3, ⟨1, by decide⟩, by decide, by decide, by decide⟩

/-- Participant `l` draws the polynomial `l + X` and ones elsewhere. -/
def draws5 (l : Participant) : Draws (ZMod 5) :=
  ⟨fun k => (l.val.toNat + k : ZMod 5), 1, ((2 : ℕ) : ZMod 5), fun _ => (1, 1), ⟨fun _ => 1, fun _ => one_ne_zero⟩,
    ⟨fun _ => 1, fun _ => one_ne_zero⟩⟩

/-- Hashes that are constant. -/
def transcripts5 : Transcripts (ZMod 5) (ZMod 5) := ⟨fun _ _ _ _ => 1, fun _ _ _ _ _ => 1, fun _ _ _ => 0⟩

/-- The round-one messages each participant receives. -/
def inbox5 (i : Participant) : Std.HashMap Participant (EncryptionKeyMessage (Commitments (ZMod 5) (ZMod 5)) (ZMod 5)) :=
  collect twoOfThree.n i fun l => some (roundOne zmod5Suite transcripts5 twoOfThree "dkg" draws5 l).2

/-- The shares each participant receives. -/
def shares5 (i : Participant) : Std.HashMap Participant (EncryptedMessage (ZMod 5) (ZMod 5)) :=
  collect twoOfThree.n i fun l => sentShare zmod5Suite transcripts5 twoOfThree "dkg" draws5 inbox5 l i

theorem pedpop_two_of_three :
    twoOfThree.n.toNat < ringChar (ZMod 5) ∧
    ∃ km res bm core, roundTwo zmod5Suite transcripts5 twoOfThree "dkg" draws5 (inbox5 ⟨1, by decide⟩) ⟨1, by decide⟩ =
        .ok (km, res) ∧
      calculateShare zmod5Suite transcripts5 km (draws5 ⟨1, by decide⟩).weightsR3 (shares5 ⟨1, by decide⟩) = .ok bm ∧
      bm.result = some core ∧ core.params = twoOfThree.withIndex ⟨1, by decide⟩ ∧
      Consistent zmod5Suite core km.commitments ∧
      core.groupKey = ((participants twoOfThree.n).map fun l => (draws5 l).coefficient 0 • zmod5Suite.generator).sum ∧
      core.verificationShares = stripeShares (F := ZMod 5) twoOfThree.n ((List.range twoOfThree.t.toNat).map fun k =>
        ((participants twoOfThree.n).map fun l => (draws5 l).coefficient k • zmod5Suite.generator).sum) :=
  have hn : twoOfThree.n.toNat < ringChar (ZMod 5) := by
    rw [ZMod.ringChar_zmod_n]
    decide
  ⟨hn, (pedpop_complete_consistent zmod5Suite transcripts5 twoOfThree hn "dkg").1 draws5 inbox5 shares5
    (fun l _ => delivers_collect _ l _) (fun i _ => delivers_collect _ i _) ⟨1, by decide⟩
    (mem_participants.mpr (by decide))⟩

end Serai.Dkg
