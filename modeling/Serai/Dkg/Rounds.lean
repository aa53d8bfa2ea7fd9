import Serai.Dkg.Frost
/-
  Serai.Dkg.Rounds — what each round of the DKG computes, one spec lemma per function.

  Evaluation: `polynomial` is Horner's rule, so it evaluates `∑ a_k·l^k`
  (`polynomial_eq`), and `exponential` pairs the `k`-th value with `i^k`, so its multiexp
  is `∑ i^k·C_k` (`multiexp_exponential`). An honest share checks against honest
  commitments (`multiexp_shareVerificationStatements_honest`).
-/

namespace Serai.Dkg

open Serai.Crypto Serai.Lib
open Serai.Tributary.Spec (Participant)

variable {F G : Type} [Field F] [DecidableEq F] [AddCommGroup G] [Module F G] [DecidableEq G]

/-! ## Evaluating polynomials -/

omit [DecidableEq F] in
theorem foldl_polynomial (x : F) (m : ℕ) :
    ∀ (L : List F) (a : ℕ) (g : F), a + L.length = m → L ≠ [] →
      (L.zipIdx a).foldl (fun share (p : F × ℕ) =>
          let share := share + p.1
          if p.2 ≠ m - 1 then share * x else share) (g * x) =
        L.foldl (fun s c => s * x + c) g
  | [c], a, g, h, _ => by
    simp only [List.length_singleton] at h
    simp [show a = m - 1 by omega]
  | c :: c' :: L, a, g, h, _ => by
    simp only [List.length_cons] at h
    rw [List.zipIdx_cons, List.foldl_cons, List.foldl_cons]
    dsimp only
    rw [if_pos (by omega)]
    exact foldl_polynomial x m (c' :: L) (a + 1) (g * x + c) (by simp only [List.length_cons]; omega)
      (List.cons_ne_nil _ _)

theorem polynomial_eq (c : ℕ → F) (t : ℕ) {l : Participant} (hl : (toScalar l : F) ≠ 0) :
    polynomial ((List.range t).map c) l = some (∑ k ∈ Finset.range t, c k * toScalar l ^ k) := by
  unfold polynomial
  rw [if_neg hl]
  congr 1
  rcases t with _ | t
  · simp
  · have h := foldl_polynomial (toScalar l : F) ((List.range (t + 1)).map c).length
      ((List.range (t + 1)).map c).reverse 0 0 (by simp) (by simp)
    rw [zero_mul, foldl_horner, zero_mul, zero_add] at h
    exact h

omit [DecidableEq F] [AddCommGroup G] [Module F G] [DecidableEq G] in
theorem foldl_exponential (x : F) (values : List G) (n : ℕ) (acc : List (F × G)) :
    values.foldl (fun (acc : F × List (F × G)) v => (acc.1 * x, acc.2 ++ [(acc.1, v)])) (x ^ n, acc) =
      (x ^ (n + values.length), acc ++ (values.zipIdx n).map fun p => (x ^ p.2, p.1)) := by
  induction values generalizing n acc with
  | nil => simp
  | cons v values ih =>
    rw [List.foldl_cons, ← pow_succ, ih]
    simp [Nat.add_assoc, Nat.add_comm 1]

omit [DecidableEq F] [DecidableEq G] in
theorem multiexp_zipIdx (x : F) (values : List G) (n : ℕ) :
    multiexp ((values.zipIdx n).map fun p => (x ^ p.2, p.1)) =
      ∑ k ∈ Finset.range values.length, x ^ (n + k) • values.getD k 0 := by
  induction values generalizing n with
  | nil => simp
  | cons v values ih =>
    rw [List.zipIdx_cons, List.map_cons, multiexp_cons, ih, List.length_cons, Finset.sum_range_succ']
    simp only [List.getD_cons_succ, List.getD_cons_zero, Nat.add_zero]
    rw [add_comm]
    congr 1
    exact Finset.sum_congr rfl fun k _ => by rw [Nat.add_assoc, Nat.add_comm 1 k]

omit [DecidableEq F] [DecidableEq G] in
theorem multiexp_exponential (i : Participant) (values : List G) :
    multiexp (exponential (F := F) i values) =
      ∑ k ∈ Finset.range values.length, (toScalar i : F) ^ k • values.getD k 0 := by
  have h := foldl_exponential (toScalar i : F) values 0 []
  rw [pow_zero] at h
  unfold exponential
  rw [h, List.nil_append, multiexp_zipIdx]
  simp

omit [DecidableEq F] [DecidableEq G] in
theorem multiexp_shareVerificationStatements (C : Ciphersuite F G) (target : Participant)
    (commitments : List G) (share : F) :
    multiexp (shareVerificationStatements C target commitments share) =
      ∑ k ∈ Finset.range commitments.length, (toScalar target : F) ^ k • commitments.getD k 0 -
        share • C.generator := by
  simp [shareVerificationStatements, multiexp_exponential, neg_smul, sub_eq_add_neg]

omit [DecidableEq F] [DecidableEq G] in
theorem multiexp_shareVerificationStatements_honest (C : Ciphersuite F G) (c : ℕ → F) (t : ℕ)
    (target : Participant) :
    multiexp (shareVerificationStatements C target ((List.range t).map fun k => c k • C.generator)
      (∑ k ∈ Finset.range t, c k * toScalar target ^ k)) = 0 := by
  rw [multiexp_shareVerificationStatements, sub_eq_zero, List.length_map, List.length_range,
    Finset.sum_smul]
  refine Finset.sum_congr rfl fun k hk => ?_
  rw [List.getD_eq_getElem?_getD, List.getElem?_map, List.getElem?_range (Finset.mem_range.mp hk)]
  simp [smul_smul, mul_comm]

/-! ## Round two -/

section RoundTwo

variable (C : Ciphersuite F G) (H : Transcripts F G) (m : SecretShareMachine F G) (ws : Weights F)
  (msgs : Std.HashMap Participant (EncryptionKeyMessage (Commitments F G) G))

omit [DecidableEq F] [DecidableEq G] in
theorem verifyR1Step_ok {acc acc' : Encryption F G × BatchVerifier Participant F G × Std.HashMap Participant (List G)}
    {l : Participant} (h : verifyR1Step C H m ws msgs acc l = .ok acc') :
    (msgs[l]? = none ∧ acc' = acc) ∨
    (∃ msg c0 cs, msgs[l]? = some msg ∧ acc.1.encKeys.contains l = false ∧
      msg.msg.commitments = c0 :: cs ∧ msg.msg.commitments.length = m.params.t.toNat ∧
      acc' = ({ acc.1 with encKeys := acc.1.encKeys.insert l msg.encKey },
        msg.msg.sig.batchVerify C ws acc.2.1 l c0
          (H.challenge m.context l (C.toBytes msg.msg.sig.R) msg.msg.cachedMsg),
        acc.2.2.insert l msg.msg.commitments)) := by
  unfold verifyR1Step at h
  split at h
  · rename_i hl
    cases h
    exact .inl ⟨hl, rfl⟩
  · rename_i msg hl
    split at h
    · cases h
    · rename_i e' m' hreg
      obtain ⟨hfresh, rfl, rfl⟩ := register_eq_some.mp hreg
      split at h
      · cases h
      · rename_i hlen
        split at h
        · cases h
        · rename_i c0 cs hcs
          cases h
          exact .inr ⟨msg, c0, cs, hl, hfresh, hcs, not_not.mp hlen, rfl⟩

omit [DecidableEq F] [DecidableEq G] in
theorem verifyR1Step_eq_ok {acc : Encryption F G × BatchVerifier Participant F G × Std.HashMap Participant (List G)}
    {l : Participant} {msg : EncryptionKeyMessage (Commitments F G) G} {c0 : G} {cs : List G}
    (hmsg : msgs[l]? = some msg) (hfresh : acc.1.encKeys.contains l = false)
    (hcs : msg.msg.commitments = c0 :: cs) (hlen : msg.msg.commitments.length = m.params.t.toNat) :
    verifyR1Step C H m ws msgs acc l =
      .ok ({ acc.1 with encKeys := acc.1.encKeys.insert l msg.encKey },
        msg.msg.sig.batchVerify C ws acc.2.1 l c0
          (H.challenge m.context l (C.toBytes msg.msg.sig.R) msg.msg.cachedMsg),
        acc.2.2.insert l msg.msg.commitments) := by
  have hreg : acc.1.register l msg = some ({ acc.1 with encKeys := acc.1.encKeys.insert l msg.encKey }, msg.msg) :=
    register_eq_some.mpr ⟨hfresh, rfl, rfl⟩
  unfold verifyR1Step
  rw [hmsg]
  dsimp only
  rw [hreg]
  dsimp only
  rw [if_neg (not_not.mpr hlen)]
  split
  · rename_i h
    rw [hcs] at h
    cases h
  · rename_i c0' cs' h
    rw [hcs] at h
    cases h
    rfl

/-- What `verify_r1`'s loop has done over the participants `pre`, from the encryption
    `e₀`: it registered the key and stored the `t` commitments of each of them with a
    message, and queued that message's proof of knowledge. -/
structure R1Done (e₀ : Encryption F G) (pre : List Participant)
    (acc : Encryption F G × BatchVerifier Participant F G × Std.HashMap Participant (List G)) : Prop where
  encryption : acc.1 = { e₀ with encKeys := acc.1.encKeys }
  encKeys : ∀ p, acc.1.encKeys[p]? = ((if p ∈ pre then msgs[p]? else none).map (·.encKey)).or e₀.encKeys[p]?
  commitments : ∀ p, acc.2.2[p]? = (if p ∈ pre then msgs[p]? else none).map (·.msg.commitments)
  lengths : ∀ p ∈ pre, ∀ msg, msgs[p]? = some msg → msg.msg.commitments.length = m.params.t.toNat
  batch : ∀ e ∈ acc.2.1.entries, ∃ p ∈ pre, ∃ msg c0 cs, msgs[p]? = some msg ∧
    msg.msg.commitments = c0 :: cs ∧ ∃ b : BatchVerifier Participant F G,
      e = (p, (SchnorrSignature.batchStatements C msg.msg.sig c0
        (H.challenge m.context p (C.toBytes msg.msg.sig.R) msg.msg.cachedMsg)).map
          fun q => (q.1 * b.weight ws, q.2))

omit [DecidableEq F] [DecidableEq G] in
theorem R1Done.empty (e₀ : Encryption F G) :
    R1Done C H m ws msgs e₀ [] (e₀, BatchVerifier.new, ∅) where
  encryption := rfl
  encKeys p := by simp
  commitments p := by simp
  lengths p hp := by simp at hp
  batch e he := by simp at he

omit [DecidableEq G] in
theorem ite_mem_append {β : Type} (pre : List Participant) (l p : Participant) (x : Participant → Option β) :
    (if p ∈ pre ++ [l] then x p else none) = if l = p then x l else (if p ∈ pre then x p else none) := by
  by_cases hp : l = p
  · subst hp
    simp
  · simp [hp, Ne.symm hp]

omit [DecidableEq F] [DecidableEq G] in
theorem R1Done.step {e₀ : Encryption F G} {pre : List Participant} {l : Participant}
    {acc acc' : Encryption F G × BatchVerifier Participant F G × Std.HashMap Participant (List G)}
    (hd : R1Done C H m ws msgs e₀ pre acc) (h : verifyR1Step C H m ws msgs acc l = .ok acc') :
    R1Done C H m ws msgs e₀ (pre ++ [l]) acc' := by
  rcases verifyR1Step_ok C H m ws msgs h with ⟨hnone, rfl⟩ | ⟨msg, c0, cs, hmsg, -, hcs, hlen, rfl⟩
  · -- a participant with no message changes nothing
    refine ⟨hd.encryption, fun p => ?_, fun p => ?_, fun p hp msg' hmsg' => ?_, fun e he => ?_⟩
    · rw [hd.encKeys p, ite_mem_append pre l p]
      by_cases hp : l = p
      · subst hp
        simp [hnone]
      · simp [hp]
    · rw [hd.commitments p, ite_mem_append pre l p]
      by_cases hp : l = p
      · subst hp
        simp [hnone]
      · simp [hp]
    · rcases List.mem_append.mp hp with hp | hp
      · exact hd.lengths p hp msg' hmsg'
      · rw [List.mem_singleton.mp hp, hnone] at hmsg'
        cases hmsg'
    · obtain ⟨p, hp, rest⟩ := hd.batch e he
      exact ⟨p, List.mem_append_left _ hp, rest⟩
  · -- a participant with a message is registered, stored and queued
    refine ⟨?_, fun p => ?_, fun p => ?_, fun p hp msg' hmsg' => ?_, fun e he => ?_⟩
    · rw [hd.encryption]
    · simp only [Std.HashMap.getElem?_insert, beq_iff_eq, ite_mem_append pre l p]
      by_cases hp : l = p
      · subst hp
        simp [hmsg]
      · simp [hp, hd.encKeys p]
    · simp only [Std.HashMap.getElem?_insert, beq_iff_eq, ite_mem_append pre l p]
      by_cases hp : l = p
      · subst hp
        simp [hmsg]
      · simp [hp, hd.commitments p]
    · rcases List.mem_append.mp hp with hp | hp
      · exact hd.lengths p hp msg' hmsg'
      · rw [List.mem_singleton.mp hp, hmsg] at hmsg'
        cases hmsg'
        exact hlen
    · simp only [SchnorrSignature.batchVerify, BatchVerifier.queue_entries, List.mem_append,
        List.mem_singleton] at he
      rcases he with he | rfl
      · obtain ⟨p, hp, rest⟩ := hd.batch e he
        exact ⟨p, List.mem_append_left _ hp, rest⟩
      · exact ⟨l, by simp, msg, c0, cs, hmsg, hcs, acc.2.1, rfl⟩

omit [DecidableEq F] in
theorem verifyR1_ok {m' : SecretShareMachine F G} {commitments : Std.HashMap Participant (List G)}
    (h : verifyR1 C H m ws msgs = .ok (m', commitments)) :
    validateMap (B := EncryptionKeyProof G) msgs (participants m.params.n) m.params.i = .ok () ∧
    ∃ acc, R1Done C H m ws msgs m.encryption (participants m.params.n) acc ∧ acc.2.1.verify = true ∧
      m' = { m with encryption := acc.1, ourCommitments := [] } ∧
      commitments = acc.2.2.insert m.params.i m.ourCommitments := by
  unfold verifyR1 at h
  obtain ⟨⟨⟩, hv, h⟩ := except_bind_ok h
  obtain ⟨⟨e, b, c⟩, hloop, h⟩ := except_bind_ok h
  have hd := foldlM_except_inv (R1Done C H m ws msgs m.encryption) (participants m.params.n)
    (fun _ _ _ _ _ _ hd hs => hd.step C H m ws msgs hs) (R1Done.empty C H m ws msgs _) hloop
  refine ⟨hv, (e, b, c), hd, ?_⟩
  dsimp only at h
  split at h
  · cases h
  · cases h
  · rename_i hok
    cases h
    exact ⟨(b.verifyWithVartimeBlame_ok_iff).mp hok, rfl, rfl⟩

omit [DecidableEq F] in
theorem verifyR1_commitments {m' : SecretShareMachine F G} {commitments : Std.HashMap Participant (List G)}
    (h : verifyR1 C H m ws msgs = .ok (m', commitments)) (p : Participant) :
    (p = m.params.i → commitments[p]? = some m.ourCommitments) ∧
    (p ≠ m.params.i → p ∈ participants m.params.n →
      ∃ msg, msgs[p]? = some msg ∧ commitments[p]? = some msg.msg.commitments ∧
        msg.msg.commitments.length = m.params.t.toNat) ∧
    (p ∉ participants m.params.n → commitments[p]? = none) := by
  obtain ⟨hv, acc, hd, -, -, rfl⟩ := verifyR1_ok C H m ws msgs h
  have hi : m.params.i ∈ participants m.params.n := mem_participants.mpr m.params.i_le_n
  have hkeys := keys_of_validateMap hv (nodup_participants _) hi
  refine ⟨fun hp => by simp [hp], fun hp hn => ?_, fun hn => ?_⟩
  · obtain ⟨msg, hmsg⟩ := Std.HashMap.mem_iff_isSome_getElem?.mp ((hkeys p).mpr ⟨hn, hp⟩) |>
      Option.isSome_iff_exists.mp
    refine ⟨msg, hmsg, ?_, hd.lengths p hn msg hmsg⟩
    simp [Std.HashMap.getElem?_insert, Ne.symm hp, hd.commitments p, hn, hmsg]
  · have hp : m.params.i ≠ p := fun h => hn (h ▸ hi)
    simp [Std.HashMap.getElem?_insert, hp, hd.commitments p, hn]

theorem generateSecretShares_ok (eph : Participant → F × F) {km : KeyMachine F G}
    {res : Std.HashMap Participant (EncryptedMessage F G)}
    (h : generateSecretShares C H m ws eph msgs = .ok (km, res)) :
    ∃ m', verifyR1 C H m ws msgs = .ok (m', km.commitments) ∧ km.params = m.params ∧
      km.encryption = m'.encryption ∧ m'.coefficients = m.coefficients ∧
      polynomial m.coefficients m.params.i = some km.secret ∧
      ∀ p, res[p]? = if p ∈ participants m.params.n ∧ p ≠ m.params.i then
        (polynomial m.coefficients p).bind fun share =>
          m'.encryption.encrypt C H p (C.toRepr share) (eph p).1 (eph p).2
      else none := by
  unfold generateSecretShares at h
  obtain ⟨⟨m', commitments⟩, hr1, h⟩ := except_bind_ok h
  obtain ⟨-, acc, -, -, rfl, -⟩ := verifyR1_ok C H m ws msgs hr1
  obtain ⟨res', hloop, h⟩ := except_bind_ok h
  split at h
  · cases h
  · rename_i share hshare
    cases h
    refine ⟨_, hr1, rfl, rfl, rfl, hshare, ?_⟩
    refine foldlM_except_inv (fun pre (res : Std.HashMap Participant (EncryptedMessage F G)) => ∀ p, res[p]? =
        if p ∈ pre ∧ p ≠ m.params.i then (polynomial m.coefficients p).bind fun share =>
          acc.1.encrypt C H p (C.toRepr share) (eph p).1 (eph p).2 else none) _
      (fun pre l post res res' _ hP hs => ?_) (by simp) hloop
    intro p
    dsimp only at hs
    split at hs
    · -- our own index is skipped
      rename_i hl
      cases hs
      rw [hP p]
      by_cases hp : p = l
      · simp [hp, hl]
      · simp [hp]
    · rename_i hl
      split at hs
      · cases hs
      · rename_i share' hshare'
        split at hs
        · cases hs
        · rename_i msg hmsg
          cases hs
          rw [Std.HashMap.getElem?_insert]
          by_cases hp : l = p
          · subst hp
            simp [hl, hshare', hmsg]
          · simp [hp, hP p, Ne.symm hp]

end RoundTwo

/-! ## Round three -/

section RoundThree

variable (C : Ciphersuite F G) (H : Transcripts F G) (km : KeyMachine F G) (ws : Weights F)

/-- The bytes `decrypt` gives for a received message, whatever the batch. -/
def decrypted (H : Transcripts F G) (e : Encryption F G) (entry : Participant × EncryptedMessage F G) :
    List UInt8 :=
  applyKeystream (H.keystream e.context (e.encKey • entry.2.key)) entry.2.msg

/-- The proof of possession `decrypt` queues for a received message. -/
def popStatements (C : Ciphersuite F G) (H : Transcripts F G) (e : Encryption F G)
    (entry : Participant × EncryptedMessage F G) : List (F × G) :=
  SchnorrSignature.batchStatements C entry.2.pop entry.2.key
    (H.popChallenge e.context entry.2.pop.R entry.2.key entry.1 entry.2.msg)

omit [DecidableEq F] [DecidableEq G] in
theorem decryptShare_ok {acc acc' : F × BatchVerifier BatchId F G × Std.HashMap Participant (EncryptionKeyProof G)}
    {entry : Participant × EncryptedMessage F G} (h : decryptShare C H km ws acc entry = .ok acc') :
    ∃ share commitments, C.fromRepr (decrypted H km.encryption entry) = some share ∧
      km.commitments[entry.1]? = some commitments ∧
      acc' = (acc.1 + share,
        (acc.2.1.queue ws (.decryption entry.1) (popStatements C H km.encryption entry)).queue ws
          (.share entry.1) (shareVerificationStatements C km.params.i commitments share),
        acc.2.2.insert entry.1 ⟨km.encryption.encKey • entry.2.key⟩) := by
  unfold decryptShare Encryption.decrypt at h
  dsimp only at h
  split at h
  · cases h
  · rename_i share hshare
    split at h
    · cases h
    · rename_i commitments hcommitments
      cases h
      exact ⟨share, commitments, hshare, hcommitments, rfl⟩

omit [DecidableEq F] [DecidableEq G] in
theorem decryptShare_eq_ok {acc : F × BatchVerifier BatchId F G × Std.HashMap Participant (EncryptionKeyProof G)}
    {entry : Participant × EncryptedMessage F G} {share : F} {commitments : List G}
    (hshare : C.fromRepr (decrypted H km.encryption entry) = some share)
    (hcommitments : km.commitments[entry.1]? = some commitments) :
    decryptShare C H km ws acc entry =
      .ok (acc.1 + share,
        (acc.2.1.queue ws (.decryption entry.1) (popStatements C H km.encryption entry)).queue ws
          (.share entry.1) (shareVerificationStatements C km.params.i commitments share),
        acc.2.2.insert entry.1 ⟨km.encryption.encKey • entry.2.key⟩) := by
  unfold decryptShare Encryption.decrypt
  dsimp only
  rw [show applyKeystream (H.keystream km.encryption.context (km.encryption.encKey • entry.2.key)) entry.2.msg =
    decrypted H km.encryption entry from rfl, hshare]
  dsimp only
  rw [hcommitments]
  rfl

/-- What `calculate_share`'s loop has done over the received shares `pre`: the secret is
    ours plus each of theirs, each decoded and checked against its sender's commitments,
    and each queued list is such a check or a proof of possession. -/
structure R3Done (pre : List (Participant × EncryptedMessage F G))
    (acc : F × BatchVerifier BatchId F G × Std.HashMap Participant (EncryptionKeyProof G)) : Prop where
  secret : acc.1 = km.secret + (pre.map fun x => (C.fromRepr (decrypted H km.encryption x)).getD 0).sum
  shares : ∀ x ∈ pre, ∃ share commitments, ∃ b : BatchVerifier BatchId F G,
    C.fromRepr (decrypted H km.encryption x) = some share ∧ km.commitments[x.1]? = some commitments ∧
    (BatchId.share x.1, (shareVerificationStatements C km.params.i commitments share).map
      fun q => (q.1 * b.weight ws, q.2)) ∈ acc.2.1.entries
  entries : ∀ e ∈ acc.2.1.entries, ∃ x ∈ pre, ∃ b : BatchVerifier BatchId F G,
    e = (.decryption x.1, (popStatements C H km.encryption x).map fun q => (q.1 * b.weight ws, q.2)) ∨
    ∃ share commitments, C.fromRepr (decrypted H km.encryption x) = some share ∧
      km.commitments[x.1]? = some commitments ∧
      e = (.share x.1, (shareVerificationStatements C km.params.i commitments share).map
        fun q => (q.1 * b.weight ws, q.2))

omit [DecidableEq F] [DecidableEq G] in
theorem R3Done.empty : R3Done C H km ws [] (km.secret, BatchVerifier.new, ∅) where
  secret := by simp
  shares x hx := by simp at hx
  entries e he := by simp at he

omit [DecidableEq F] [DecidableEq G] in
theorem R3Done.step {pre : List (Participant × EncryptedMessage F G)} {x : Participant × EncryptedMessage F G}
    {acc acc' : F × BatchVerifier BatchId F G × Std.HashMap Participant (EncryptionKeyProof G)}
    (hd : R3Done C H km ws pre acc) (h : decryptShare C H km ws acc x = .ok acc') :
    R3Done C H km ws (pre ++ [x]) acc' := by
  obtain ⟨share, commitments, hshare, hcommitments, rfl⟩ := decryptShare_ok C H km ws h
  refine ⟨?_, fun y hy => ?_, fun e he => ?_⟩
  · simp [hd.secret, hshare, add_assoc]
  · rcases List.mem_append.mp hy with hy | hy
    · obtain ⟨s, c, b, hs, hc, hmem⟩ := hd.shares y hy
      exact ⟨s, c, b, hs, hc, by simp [hmem]⟩
    · rw [List.mem_singleton.mp hy]
      exact ⟨share, commitments, acc.2.1.queue ws (.decryption x.1) (popStatements C H km.encryption x),
        hshare, hcommitments, by simp⟩
  · simp only [BatchVerifier.queue_entries, List.append_assoc, List.singleton_append, List.mem_append,
      List.mem_cons, List.not_mem_nil, or_false] at he
    rcases he with he | rfl | rfl
    · obtain ⟨y, hy, rest⟩ := hd.entries e he
      exact ⟨y, List.mem_append_left _ hy, rest⟩
    · exact ⟨x, by simp, acc.2.1, .inl rfl⟩
    · exact ⟨x, by simp, acc.2.1.queue ws (.decryption x.1) (popStatements C H km.encryption x),
        .inr ⟨share, commitments, hshare, hcommitments, rfl⟩⟩

omit [DecidableEq F] [DecidableEq G] in
theorem decryptShares_ok {shares : List (Participant × EncryptedMessage F G)}
    {acc : F × BatchVerifier BatchId F G × Std.HashMap Participant (EncryptionKeyProof G)}
    (h : decryptShares C H km ws shares = .ok acc) : R3Done C H km ws shares acc :=
  foldlM_except_inv (R3Done C H km ws) shares (fun _ _ _ _ _ _ hd hs => hd.step C H km ws hs)
    (R3Done.empty C H km ws) h

omit [Field F] [DecidableEq F] [Module F G] [DecidableEq G] in
theorem stripes_eq {t : ℕ} {commitments : Std.HashMap Participant (List G)}
    (hlen : ∀ e ∈ commitments.toList, t ≤ e.2.length) :
    stripes t commitments =
      some ((List.range t).map fun k => (commitments.toList.map fun e => e.2.getD k 0).sum) := by
  unfold stripes
  refine mapM_some fun k hk => ?_
  have hk : k < t := List.mem_range.mp hk
  rw [mapM_some (g := fun e => e.2.getD k 0) fun e he => ?_]
  · rfl
  · have hlt : k < e.2.length := lt_of_lt_of_le hk (hlen e he)
    simp [List.getD_eq_getElem?_getD, List.getElem?_eq_getElem hlt]

omit [DecidableEq F] in
theorem calculateShare_ok {msgs : Std.HashMap Participant (EncryptedMessage F G)} {bm : BlameMachine F G}
    (h : calculateShare C H km ws msgs = .ok bm) :
    validateMap (B := EncryptionKeyProof G) msgs (participants km.params.n) km.params.i = .ok () ∧
    ∃ acc st groupKey, decryptShares C H km ws msgs.toList = .ok acc ∧ acc.2.1.verify = true ∧
      stripes km.params.t.toNat km.commitments = some st ∧ st[0]? = some groupKey ∧
      bm.result = some ⟨km.params, acc.1, groupKey, verificationShares C km.params acc.1 st⟩ := by
  unfold calculateShare at h
  obtain ⟨⟨⟩, hv, h⟩ := except_bind_ok h
  obtain ⟨⟨secret, batch, blames⟩, hloop, h⟩ := except_bind_ok h
  refine ⟨hv, (secret, batch, blames), ?_⟩
  dsimp only at h
  split at h
  · cases h
  · cases h
  · split at h <;> cases h
  · rename_i hok
    split at h
    · cases h
    · rename_i st hst
      split at h
      · cases h
      · rename_i groupKey hkey
        cases h
        exact ⟨st, groupKey, hloop, (batch.verifyWithVartimeBlame_ok_iff).mp hok, hst, hkey, rfl⟩

end RoundThree

end Serai.Dkg
