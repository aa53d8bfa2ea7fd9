import Serai.Dkg.Rounds
/-
  Serai.Dkg.Consistency — the keys a successful `calculate_share` returns, in terms of the
  commitments its participant stored.

  The commitments determine everything public. The stripes are the sums `S_k = Σ_l C_l[k]`
  of the participants' `k`-th commitments (`stripeSums`), the group key is `S_0`, and
  participant `j`'s verification share is the stripes' polynomial `Σ_k j^k·S_k` at `j`
  (`evalAt`, `stripeShares`). The one value `calculate_share` does not compute from them
  is our own verification share, `secret·G`. It agrees because every share decrypted was
  checked against its sender's commitments: if the batch verifier accepts only when each
  queued list sums to the identity (`Separates`), each received share has
  `s_l·G = Σ_k i^k·C_l[k]`, our own is our polynomial at `i`, and the sum over the
  participants swaps into `Σ_k i^k·S_k` (`secret_smul_generator`).
  - `Consistent`: the stripes are `stripeSums`, the group key is their first, the
    verification shares are `stripeShares`, ours is `secret·G`, and the shares of any `t`
    distinct participants interpolate to the group key (`interpolate_stripeShares`).
  - `calculateShare_consistent`: a participant that drew its coefficients in round one
    and ran both later rounds successfully has keys consistent with the commitments it
    stored; so participants that stored the same commitments have the same group key and
    verification shares (`Consistent.groupKey_eq`), and the keys are read back as
    themselves (`Consistent.read_serialize`).
-/

namespace Serai.Dkg

open Serai.Crypto Serai.Lib
open Serai.Tributary.Spec (Participant)

variable {F G : Type} [Field F] [AddCommGroup G] [Module F G]

/-! ## What the commitments determine -/

/-- `C_l[k]`: the `k`-th commitment of `l`; the identity past its end, or for a
    participant without commitments. -/
def commitment (commitments : Std.HashMap Participant (List G)) (l : Participant) (k : ℕ) : G :=
  ((commitments[l]?).getD []).getD k 0

/-- `S_k = Σ_l C_l[k]` over `1..=n`, for each `k < t`. -/
def stripeSums (t : ℕ) (n : UInt16) (commitments : Std.HashMap Participant (List G)) : List G :=
  (List.range t).map fun k => ((participants n).map fun l => commitment commitments l k).sum

/-- `Σ_k j^k·S_k`: the polynomial with the coefficients `S`, at the participant `j`. -/
def evalAt (S : List G) (j : Participant) : G :=
  ∑ k ∈ Finset.range S.length, (toScalar j : F) ^ k • S.getD k 0

/-- The verification shares of `1..=n` the stripes determine. -/
def stripeShares (n : UInt16) (S : List G) : Std.HashMap Participant G :=
  (participants n).foldl (fun shares j => shares.insert j (evalAt (F := F) S j)) ∅

omit [AddCommGroup G] [Module F G] in
@[simp] theorem length_stripeSums [AddCommGroup G] (t : ℕ) (n : UInt16) (cm : Std.HashMap Participant (List G)) :
    (stripeSums t n cm).length = t := by
  simp [stripeSums]

omit [Module F G] in
theorem getD_stripeSums {t k : ℕ} (n : UInt16) (cm : Std.HashMap Participant (List G)) (hk : k < t) :
    (stripeSums t n cm).getD k 0 = ((participants n).map fun l => commitment cm l k).sum := by
  rw [stripeSums, List.getD_eq_getElem?_getD, List.getElem?_map, List.getElem?_range hk]
  rfl

omit [Module F G] in
theorem stripeSums_congr {t : ℕ} {n : UInt16} {cm cm' : Std.HashMap Participant (List G)}
    (h : ∀ l ∈ participants n, cm[l]? = cm'[l]?) : stripeSums t n cm = stripeSums t n cm' := by
  refine List.map_congr_left fun k _ => ?_
  congr 1
  exact List.map_congr_left fun l hl => by rw [commitment, commitment, h l hl]

theorem evalAt_stripeSums (t : ℕ) (n : UInt16) (cm : Std.HashMap Participant (List G)) (j : Participant) :
    evalAt (F := F) (stripeSums t n cm) j =
      ((participants n).map fun l => ∑ k ∈ Finset.range t, (toScalar j : F) ^ k • commitment cm l k).sum := by
  have hnodup := nodup_participants n
  unfold evalAt
  rw [length_stripeSums, ← List.sum_toFinset _ hnodup, Finset.sum_comm]
  refine Finset.sum_congr rfl fun k hk => ?_
  rw [getD_stripeSums n cm (Finset.mem_range.mp hk), ← List.sum_toFinset _ hnodup, Finset.smul_sum]

omit [Field F] [Module F G] in
theorem stripes_eq_stripeSums {t : ℕ} {n : UInt16} {cm : Std.HashMap Participant (List G)}
    (hkeys : ∀ l, l ∈ cm ↔ l ∈ participants n) (hlen : ∀ (l : Participant) (cs : List G), cm[l]? = some cs → t ≤ cs.length) :
    stripes t cm = some (stripeSums t n cm) := by
  rw [stripes_eq fun e he => hlen e.1 e.2 (Std.HashMap.mem_toList_iff_getElem?_eq_some.mp he)]
  congr 1
  refine List.map_congr_left fun k _ => ?_
  rw [sum_toList (nodup_participants n) hkeys fun _ cs => cs.getD k 0]
  congr 1
  refine List.map_congr_left fun l _ => ?_
  unfold commitment
  cases cm[l]? <;> rfl

theorem interpolate_stripeShares [DecidableEq F] {n : UInt16} (hn : n.toNat < ringChar F) {S : List G}
    (hS : S ≠ []) {included : List Participant} (hnodup : included.Nodup)
    (hsub : ∀ j ∈ included, j ∈ participants n) (hlen : S.length ≤ included.length) :
    interpolate (F := F) included (stripeShares (F := F) n S) = some (S.getD 0 0) := by
  refine interpolate_poly (fun k => S.getD k 0) hnodup ?_ (List.length_pos_iff.mpr hS) hlen fun l hl => ?_
  · intro l hl l' hl' hne h
    exact hne (toScalar_injOn hn (hsub l hl) (hsub l' hl') h)
  · rw [stripeShares, getElem?_foldl_insert, if_pos (hsub l hl)]
    rfl

/-! ## Consistent keys -/

/-- What the DKG promises of a participant's keys, against the commitments `cm` it stored:
    `stripes[k] = Σ_l C_l[k]`, `group_key = stripes[0]`, every verification share of
    `1..=n` is `Σ_k j^k·stripes[k]`, ours being `secret_share·G`, and those of any `t`
    distinct participants interpolate to the group key. -/
structure Consistent (C : Ciphersuite F G) [DecidableEq F] (core : ThresholdCore F G)
    (cm : Std.HashMap Participant (List G)) : Prop where
  stripes : stripes core.params.t.toNat cm = some (stripeSums core.params.t.toNat core.params.n cm)
  groupKey : core.groupKey = (stripeSums core.params.t.toNat core.params.n cm).getD 0 0
  verificationShares :
    core.verificationShares = stripeShares (F := F) core.params.n (stripeSums core.params.t.toNat core.params.n cm)
  secretShare : core.secretShare • C.generator = evalAt (F := F) (stripeSums core.params.t.toNat core.params.n cm) core.params.i
  interpolate : ∀ included : List Participant, included.Nodup → (∀ j ∈ included, j ∈ participants core.params.n) →
    core.params.t.toNat ≤ included.length → interpolate (F := F) included core.verificationShares = some core.groupKey

section Consistent

variable [DecidableEq F] {C : Ciphersuite F G} {core : ThresholdCore F G} {cm : Std.HashMap Participant (List G)}

theorem Consistent.getElem?_verificationShares (hc : Consistent C core cm) {j : Participant}
    (hj : j ∈ participants core.params.n) :
    core.verificationShares[j]? = some (evalAt (F := F) (stripeSums core.params.t.toNat core.params.n cm) j) := by
  rw [hc.verificationShares, stripeShares, getElem?_foldl_insert, if_pos hj]

theorem Consistent.groupKey_eq {core' : ThresholdCore F G} {cm' : Std.HashMap Participant (List G)}
    (hc : Consistent C core cm) (hc' : Consistent C core' cm') (ht : core.params.t = core'.params.t)
    (hn : core.params.n = core'.params.n) (hcm : ∀ l ∈ participants core.params.n, cm[l]? = cm'[l]?) :
    core.groupKey = core'.groupKey ∧ core.verificationShares = core'.verificationShares := by
  have hS : stripeSums core.params.t.toNat core.params.n cm = stripeSums core'.params.t.toNat core'.params.n cm' := by
    rw [← ht, ← hn]
    exact stripeSums_congr hcm
  exact ⟨by rw [hc.groupKey, hc'.groupKey, hS], by rw [hc.verificationShares, hc'.verificationShares, hS, hn]⟩

theorem Consistent.read_serialize [DecidableEq G] (hc : Consistent C core cm) (rest : List UInt8) :
    ∃ bytes, core.serialize C = some bytes ∧ ThresholdCore.read C (bytes ++ rest) = .ok core rest := by
  have hsub : ∀ j ∈ participants core.params.t, j ∈ participants core.params.n := fun j hj =>
    mem_participants.mpr (UInt16.le_trans (mem_participants.mp hj) core.params.t_le_n)
  refine Serai.Dkg.read_serialize C core _ hc.verificationShares ?_ rest
  exact hc.interpolate _ (nodup_participants _) hsub (by simp)

end Consistent

/-! ## The keys of a successful run -/

/-- What a participant's key machine holds after round two, for the coefficients `c` it
    drew: the commitments of exactly `1..=n`, `t` of each, its own those of `c`, and as
    its secret its polynomial at its index. -/
structure KeyMachine.WellFormed (C : Ciphersuite F G) (c : ℕ → F) (km : KeyMachine F G) : Prop where
  keys : ∀ l, l ∈ km.commitments ↔ l ∈ participants km.params.n
  lengths : ∀ (l : Participant) (cs : List G), km.commitments[l]? = some cs → cs.length = km.params.t.toNat
  ours : km.commitments[km.params.i]? = some ((List.range km.params.t.toNat).map fun k => c k • C.generator)
  secret : km.secret = ∑ k ∈ Finset.range km.params.t.toNat, c k * toScalar km.params.i ^ k

variable [DecidableEq F] [DecidableEq G]

theorem generateSecretShares_wellFormed (C : Ciphersuite F G) (H : Transcripts F G) {p : ThresholdParams}
    (hn : p.n.toNat < ringChar F) (context : String) (c : ℕ → F) (r encKey : F) (ws : Weights F)
    (eph : Participant → F × F) (msgs : Std.HashMap Participant (EncryptionKeyMessage (Commitments F G) G))
    {km : KeyMachine F G} {res : Std.HashMap Participant (EncryptedMessage F G)}
    (h : generateSecretShares C H (generateCoefficients C H ⟨p, context⟩ c r encKey).1 ws eph msgs = .ok (km, res)) :
    km.params = p ∧ km.WellFormed C c := by
  obtain ⟨m', hr1, hparams, -, -, hsecret, -⟩ := generateSecretShares_ok C H _ ws msgs eph h
  have hcm := verifyR1_commitments C H _ ws msgs hr1
  simp only [generateCoefficients] at hparams hsecret hcm
  subst hparams
  have hi : km.params.i ∈ participants km.params.n := mem_participants.mpr km.params.i_le_n
  refine ⟨rfl, fun l => ?_, fun l cs hl => ?_, ?_, ?_⟩
  · -- the keys: ours, the others up to `n`, and no one else
    by_cases hl : l ∈ participants km.params.n
    · rw [Std.HashMap.mem_iff_isSome_getElem?]
      by_cases hli : l = km.params.i
      · simp [(hcm l).1 hli, hl]
      · obtain ⟨msg, -, hmsg, -⟩ := (hcm l).2.1 hli hl
        simp [hmsg, hl]
    · simp [Std.HashMap.mem_iff_isSome_getElem?, (hcm l).2.2 hl, hl]
  · by_cases hln : l ∈ participants km.params.n
    · by_cases hli : l = km.params.i
      · rw [(hcm l).1 hli] at hl
        cases hl
        simp
      · obtain ⟨msg, -, hmsg, hlen⟩ := (hcm l).2.1 hli hln
        rw [hmsg] at hl
        cases hl
        exact hlen
    · rw [(hcm l).2.2 hln] at hl
      cases hl
  · rw [(hcm km.params.i).1 rfl, List.map_map]
    rfl
  · have h0 : (toScalar km.params.i : F) ≠ 0 := toScalar_ne_zero hn hi
    rw [polynomial_eq c _ h0] at hsecret
    exact (Option.some.inj hsecret).symm

omit [DecidableEq F] [DecidableEq G] in
theorem smul_generator_of_check (C : Ciphersuite F G) {target : Participant} {cs : List G} {share : F}
    (h : multiexp (shareVerificationStatements C target cs share) = 0) :
    share • C.generator = ∑ k ∈ Finset.range cs.length, (toScalar target : F) ^ k • cs.getD k 0 := by
  rw [multiexp_shareVerificationStatements, sub_eq_zero] at h
  exact h.symm

section Soundness

variable (C : Ciphersuite F G) (H : Transcripts F G) {c : ℕ → F} {km : KeyMachine F G} (ws : Weights F)

omit [DecidableEq F] [DecidableEq G] in
theorem secret_smul_generator_ours (hw : km.WellFormed C c) :
    km.secret • C.generator = ∑ k ∈ Finset.range km.params.t.toNat,
      (toScalar km.params.i : F) ^ k • commitment km.commitments km.params.i k := by
  rw [hw.secret, Finset.sum_smul]
  refine Finset.sum_congr rfl fun k hk => ?_
  rw [commitment, hw.ours, Option.getD_some, List.getD_eq_getElem?_getD, List.getElem?_map,
    List.getElem?_range (Finset.mem_range.mp hk)]
  simp only [Option.map_some, Option.getD_some]
  rw [mul_comm, mul_smul]

omit [DecidableEq F] in
theorem secret_smul_generator (hw : km.WellFormed C c)
    {shares : Std.HashMap Participant (EncryptedMessage F G)}
    {acc : F × BatchVerifier BatchId F G × Std.HashMap Participant (EncryptionKeyProof G)}
    (hv : validateMap (B := EncryptionKeyProof G) shares (participants km.params.n) km.params.i = .ok ())
    (hloop : decryptShares C H km ws shares.toList = .ok acc) (hverify : acc.2.1.verify = true)
    (hsound : acc.2.1.Separates) :
    acc.1 • C.generator =
      evalAt (F := F) (stripeSums km.params.t.toNat km.params.n km.commitments) km.params.i := by
  have hd := decryptShares_ok C H km ws hloop
  have hnodup := nodup_participants km.params.n
  have hi : km.params.i ∈ participants km.params.n := mem_participants.mpr km.params.i_le_n
  -- the polynomial of `l` in the exponent, at our index
  let P : Participant → G := fun l =>
    ∑ k ∈ Finset.range km.params.t.toNat, (toScalar km.params.i : F) ^ k • commitment km.commitments l k
  have hshare : ∀ x ∈ shares.toList,
      (C.fromRepr (decrypted H km.encryption x)).getD 0 • C.generator = P x.1 := by
    intro x hx
    obtain ⟨share, cs, b, hs, hcs, hmem⟩ := hd.shares x hx
    have hcheck := (BatchVerifier.multiexp_queued b ws _).mp (hsound hverify _ hmem)
    rw [hs, Option.getD_some, smul_generator_of_check C hcheck, hw.lengths x.1 cs hcs]
    refine Finset.sum_congr rfl fun k _ => ?_
    rw [commitment, hcs, Option.getD_some]
  -- the senders are the participants up to `n` but us
  have hkeys : ∀ l, l ∈ shares ↔ l ∈ (participants km.params.n).erase km.params.i := fun l => by
    rw [keys_of_validateMap hv hnodup hi, hnodup.mem_erase_iff, and_comm]
  calc acc.1 • C.generator
      = km.secret • C.generator +
          (shares.toList.map fun x => (C.fromRepr (decrypted H km.encryption x)).getD 0 • C.generator).sum := by
        rw [hd.secret, add_smul, List.sum_smul, List.map_map]
        rfl
    _ = P km.params.i + (((participants km.params.n).erase km.params.i).map P).sum := by
        rw [List.map_congr_left hshare, sum_toList_keys (hnodup.erase _) hkeys P,
          secret_smul_generator_ours C hw]
    _ = ((participants km.params.n).map P).sum := by
        rw [((List.perm_cons_erase hi).map P).sum_eq, List.map_cons, List.sum_cons]
    _ = evalAt (F := F) (stripeSums km.params.t.toNat km.params.n km.commitments) km.params.i :=
        (evalAt_stripeSums _ _ _ _).symm

end Soundness

omit [DecidableEq F] [DecidableEq G] in
theorem verificationShares_eq_stripeShares (C : Ciphersuite F G) (params : ThresholdParams) {secret : F}
    {S : List G} (hsecret : secret • C.generator = evalAt (F := F) S params.i) :
    verificationShares C params secret S = stripeShares (F := F) params.n S := by
  refine List.foldl_ext _ _ _ fun shares j _ => ?_
  congr 1
  split
  · rename_i hj
    rw [hsecret, hj]
  · exact multiexp_exponential j S

theorem calculateShare_consistent (C : Ciphersuite F G) (H : Transcripts F G) {p : ThresholdParams}
    (hn : p.n.toNat < ringChar F) (context : String) (c : ℕ → F) (r encKey : F) (ws ws' : Weights F)
    (eph : Participant → F × F) (msgs : Std.HashMap Participant (EncryptionKeyMessage (Commitments F G) G))
    (shares : Std.HashMap Participant (EncryptedMessage F G)) {km : KeyMachine F G}
    {res : Std.HashMap Participant (EncryptedMessage F G)} {bm : BlameMachine F G}
    (h2 : generateSecretShares C H (generateCoefficients C H ⟨p, context⟩ c r encKey).1 ws eph msgs = .ok (km, res))
    (h3 : calculateShare C H km ws' shares = .ok bm)
    (hsound : ∀ acc, decryptShares C H km ws' shares.toList = .ok acc → acc.2.1.Separates) :
    ∃ core, bm.result = some core ∧ core.params = p ∧ Consistent C core km.commitments := by
  obtain ⟨hparams, hw⟩ := generateSecretShares_wellFormed C H hn context c r encKey ws eph msgs h2
  subst hparams
  obtain ⟨hv, acc, S, groupKey, hloop, hverify, hS, hkey, hres⟩ := calculateShare_ok C H km ws' h3
  have hS' : S = stripeSums km.params.t.toNat km.params.n km.commitments := by
    rw [stripes_eq_stripeSums hw.keys fun l cs hl => (hw.lengths l cs hl).ge] at hS
    exact (Option.some.inj hS).symm
  subst hS'
  have hsecret := secret_smul_generator C H ws' hw hv hloop hverify (hsound acc hloop)
  have hne : stripeSums km.params.t.toNat km.params.n km.commitments ≠ [] := by
    rw [← List.length_pos_iff, length_stripeSums]
    exact Nat.pos_of_ne_zero km.params.t_toNat_ne_zero
  have hgroupKey : groupKey = (stripeSums km.params.t.toNat km.params.n km.commitments).getD 0 0 := by
    rw [List.getD_eq_getElem?_getD, hkey, Option.getD_some]
  refine ⟨_, hres, rfl, ⟨hS, hgroupKey, verificationShares_eq_stripeShares C km.params hsecret, hsecret, ?_⟩⟩
  intro included hnodup hsub hlen
  dsimp only
  rw [verificationShares_eq_stripeShares C km.params hsecret, hgroupKey]
  exact interpolate_stripeShares hn hne hnodup hsub (by rw [length_stripeSums]; exact hlen)

end Serai.Dkg
