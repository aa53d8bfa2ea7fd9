import Serai.Frost.Sign
/-
  Serai.Frost.Run — an honest FROST session, as the tests run one (crypto/frost/src/tests/
  mod.rs: `preprocess`, `preprocess_and_shares`, `sign_internal`, `sign_without_caching`,
  `clone_without`).

  Every machine preprocesses, and reads back its own preprocess; every machine signs on
  everyone else's preprocess and reads back its own share; every machine completes on
  everyone else's share, and all the signatures must be equal. Each `unwrap` and the
  `assert_eq!` are panics, `none`. What each machine's RNG draws is an argument.

  What a session needs of its keys is `SharedKeys`: a signing set of `t` to `n` distinct
  participants of `1..=n`, below the field's characteristic, whose keys are for the same
  `t` and `n` and share one group key and one map of verification shares, interpolating
  to the group key, each signer's its secret share's.
  - `shared_sign_complete`: on shared keys, with the same offset, the session panics
    nowhere, and its signature verifies under the group key with the offset, for the
    challenge `H(R, Y, m)`.
  - `frost_sign_complete`: the same with keys the DKG made, consistent with the same
    commitments (`Honest.sharedKeys`); Serai.Frost.Musig runs it on MuSig keys.
-/

namespace Serai.Frost

open Serai.Crypto Serai.Lib Serai.Dkg
open Serai.Tributary.Spec (Participant)

variable {F G : Type} [Field F] [AddCommGroup G] [Module F G]

/-! ## The tests' session -/

/-- `read(&mut buf.as_ref()).unwrap()`: what a reader reads from the front of `bytes`; `none`
    is the panic of the `unwrap`. -/
def readUnwrap {α : Type} (r : Reader α) (bytes : List UInt8) : Option α :=
  match r bytes with
  | .ok a _ => some a
  | .error _ _ => none

/-- `clone_without`: the map without `without`; `none` is the panic of `remove(without).unwrap()`. -/
def cloneWithout {V : Type} (map : Std.HashMap Participant V) (without : Participant) :
    Option (Std.HashMap Participant V) :=
  if without ∈ map then some (map.erase without) else none

/-- One machine's part of `preprocess`: it preprocesses, and reads back what it wrote. -/
def preprocessOne [DecidableEq F] [DecidableEq G] (c : Curve F G) (H : Digest) (m : AlgorithmMachine F G)
    (draws : PreprocessDraws F) : Option (AlgorithmSignMachine F G × Preprocess F G) := do
  let made ← m.seededPreprocess c H draws
  let read ← readUnwrap (made.1.readPreprocess c H) (made.2.write c)
  pure (made.1, read)

/-- One machine's part of `preprocess_and_shares`: it signs on everyone else's preprocess, and
    reads back what it wrote of its share. -/
def signOne [DecidableEq F] (c : Curve F G) (H : Digest) (hram : G → G → List UInt8 → F)
    (commitments : Std.HashMap Participant (Preprocess F G)) (msg : List UInt8) (i : Participant)
    (m : AlgorithmSignMachine F G) : Option (AlgorithmSignatureMachine F G × F) := do
  let others ← cloneWithout commitments i
  let signed ← (m.sign c H hram others msg).toOption
  let read ← readUnwrap (readShare c) (writeShare c signed.2)
  pure (signed.1, read)

/-- One machine's part of `sign_internal`: it completes on everyone else's share. -/
def completeOne [DecidableEq G] (c : Curve F G) (shares : Std.HashMap Participant F) (i : Participant)
    (m : AlgorithmSignatureMachine F G) : Option (SchnorrSignature F G) := do
  let others ← cloneWithout shares i
  (m.complete c others).toOption

/-- `sign_without_caching`, over the machines of the session, each with what its RNG draws:
    the signature every machine completes with; `none` is a panic, of an `unwrap` or of the
    `assert_eq!` of the signatures. -/
def signWithoutCaching [DecidableEq F] [DecidableEq G] (c : Curve F G) (H : Digest) (hram : G → G → List UInt8 → F)
    (machines : List (Participant × AlgorithmMachine F G)) (draws : Participant → PreprocessDraws F)
    (msg : List UInt8) : Option (SchnorrSignature F G) := do
  let preprocessed ← machines.mapM fun e => (preprocessOne c H e.2 (draws e.1)).map (e.1, ·)
  let commitments := preprocessed.foldl (fun acc e => acc.insert e.1 e.2.2) ∅
  let signed ← preprocessed.mapM fun e => (signOne c H hram commitments msg e.1 e.2.1).map (e.1, ·)
  let shares := signed.foldl (fun acc e => acc.insert e.1 e.2.2) ∅
  let signatures ← signed.mapM fun e => completeOne c shares e.1 e.2.1
  let signature ← signatures.head?
  if signatures.all fun sig => decide (sig.R = signature.R ∧ sig.s = signature.s) then pure signature else none

/-! ## Preprocessing -/

/-- The commitments a Schnorr preprocess makes: its first nonce's, over the generator, with no
    DLEq proof. -/
def schnorrCommitments (c : Curve F G) (draws : PreprocessDraws F) : Commitments F G :=
  ⟨[NonceCommitments.new (draws.nonces.nonce 0) [c.suite.generator]], none⟩

/-- The machine a Schnorr preprocess leaves. -/
def preprocessed (c : Curve F G) (H : Digest) (m : AlgorithmMachine F G) (draws : PreprocessDraws F) :
    AlgorithmSignMachine F G :=
  ⟨⟨⟨(m.params.algorithm.transcript.challenge H (byteString "commitments")).2, m.params.algorithm.c⟩, m.params.keys⟩,
    (m.params.algorithm.transcript.challenge H (byteString "commitments")).1, [draws.nonces.nonce 0],
    ⟨schnorrCommitments c draws⟩, draws.blame⟩

theorem new_schnorrNonces (c : Curve F G) (H : Digest) (draws : PreprocessDraws F) (context : List UInt8) :
    Commitments.new c H draws.nonces (Schnorr.nonces c) context =
      some ([draws.nonces.nonce 0], schnorrCommitments c draws) := by
  simp [Commitments.new, Commitments.dleqProof, Commitments.drawn, Schnorr.nonces, schnorrCommitments]

theorem seededPreprocess_eq (c : Curve F G) (H : Digest) (m : AlgorithmMachine F G) (draws : PreprocessDraws F) :
    m.seededPreprocess c H draws = some (preprocessed c H m draws, ⟨schnorrCommitments c draws⟩) := by
  simp [AlgorithmMachine.seededPreprocess, new_schnorrNonces, preprocessed]

theorem preprocessOne_eq [DecidableEq F] [DecidableEq G] (c : Curve F G) (H : Digest)
    (hG : c.suite.generator ≠ 0) (m : AlgorithmMachine F G) (draws : PreprocessDraws F) :
    preprocessOne c H m draws = some (preprocessed c H m draws, ⟨schnorrCommitments c draws⟩) := by
  have hread := Commitments.read_write_new c H draws.nonces
    (m.params.algorithm.transcript.challenge H (byteString "commitments")).1 (fun gens hgens g hg => by
    rw [Schnorr.nonces, List.mem_singleton] at hgens
    subst hgens
    rw [List.mem_singleton.mp hg]
    exact hG) (new_schnorrNonces c H draws (m.params.algorithm.transcript.challenge H (byteString "commitments")).1) []
  rw [List.append_nil] at hread
  simp only [preprocessOne, seededPreprocess_eq, Option.bind_eq_bind, Option.bind_some, readUnwrap,
    AlgorithmSignMachine.readPreprocess, Preprocess.write, preprocessed, bind_of_ok hread]
  rfl

theorem mapM_preprocessOne [DecidableEq F] [DecidableEq G] (c : Curve F G) (H : Digest)
    (hG : c.suite.generator ≠ 0) (draws : Participant → PreprocessDraws F)
    (machines : List (Participant × AlgorithmMachine F G)) :
    machines.mapM (fun e => (preprocessOne c H e.2 (draws e.1)).map (e.1, ·)) =
      some (machines.map fun e => (e.1, preprocessed c H e.2 (draws e.1), ⟨schnorrCommitments c (draws e.1)⟩)) :=
  mapM_some fun e _ => by rw [preprocessOne_eq c H hG]; rfl

/-! ## Binding factors of Schnorr preprocesses -/

/-- Participant `l`'s binding factor for its one nonce: the first `rho` challenge of the rho
    transcript forked with its index. -/
def bindingRho (c : Curve F G) (H : Digest) (rho : DigestTranscript) (l : Participant) : F :=
  c.hashBindingFactor ((rho.appendMessage (byteString "participant") (c.suite.toRepr (toScalar (F := F) l))).challenge H
    (byteString "rho")).1

theorem bindings_foldl_absorb (c : Curve F G) (commitments : Participant → Commitments F G) (L : List Participant)
    (acc : DigestTranscript × BindingFactor F G) :
    (L.foldl (fun acc l => absorb c acc l (commitments l)) acc).2.bindings =
      L.foldl (fun m l => m.insert l ⟨commitments l, none⟩) acc.2.bindings := by
  induction L generalizing acc with
  | nil => rfl
  | cons l L ih => exact ih _

theorem getElem?_calculateBindingFactors (c : Curve F G) (H : Digest) (draws : Participant → PreprocessDraws F)
    (L : List Participant) (t rho : DigestTranscript) (l : Participant) :
    ((L.foldl (fun acc l => absorb c acc l (schnorrCommitments c (draws l))) (t, ⟨∅⟩)).2.calculateBindingFactors c H
      rho).bindings[l]? =
        if l ∈ L then some ⟨schnorrCommitments c (draws l), some [bindingRho c H rho l]⟩ else none := by
  rw [BindingFactor.calculateBindingFactors, Std.HashMap.getElem?_map, bindings_foldl_absorb,
    getElem?_foldl_insert]
  split
  · simp [schnorrCommitments, rhoChallenges, bindingRho]
  · simp

theorem term_schnorr (c : Curve F G) (draws : PreprocessDraws F) (ρ : F) :
    BindingFactor.term ⟨schnorrCommitments c draws, some [ρ]⟩ 0 0 =
      some ((draws.nonces.nonce 0).d • c.suite.generator, (ρ, (draws.nonces.nonce 0).e • c.suite.generator)) := by
  simp [BindingFactor.term, schnorrCommitments, NonceCommitments.new]

theorem nonces_schnorr [DecidableEq G] (c : Curve F G) (draws : Participant → PreprocessDraws F)
    {L : List Participant} (hnodup : L.Nodup) (ρ : Participant → F) {B : BindingFactor F G}
    (hkeys : ∀ l, l ∈ B.bindings ↔ l ∈ L)
    (hB : ∀ l ∈ L, B.bindings[l]? = some ⟨schnorrCommitments c (draws l), some [ρ l]⟩) :
    ∃ Rs, B.nonces (Schnorr.nonces c) = some Rs ∧ Rs[0]?.bind (·[0]?) =
      some (L.map fun l => (((draws l).nonces.nonce 0).e * ρ l + ((draws l).nonces.nonce 0).d) • c.suite.generator).sum := by
  -- every participant adds a term
  have hterm : ∀ e ∈ B.bindings.toList, (BindingFactor.term e.2 0 0).isSome := by
    intro e he
    have hget := Std.HashMap.mem_toList_iff_getElem?_eq_some.mp he
    have hl : e.1 ∈ L := (hkeys e.1).mp (Std.HashMap.mem_iff_isSome_getElem?.mpr (by simp [hget]))
    rw [hB e.1 hl] at hget
    rw [← Option.some.inj hget, term_schnorr]
    rfl
  obtain ⟨Rs, hRs⟩ : ∃ Rs, B.nonces (Schnorr.nonces c) = some Rs := by
    simp [BindingFactor.nonces, Schnorr.nonces, mapM_eq_filterMap hterm]
  refine ⟨Rs, hRs, ?_⟩
  rw [BindingFactor.nonces_eq_sum_bound hnodup hkeys hRs (by simp [Schnorr.nonces]) (by simp [Schnorr.nonces])]
  congr 2
  refine List.map_congr_left fun l hl => ?_
  rw [BindingFactor.boundAt_eq (hB l hl) (by rw [term_schnorr]; rfl), BindingFactor.termPoint, term_schnorr]
  simp only [Option.map_some, Option.getD_some, add_smul, mul_smul]
  rw [smul_comm (ρ l), add_comm]

theorem signParsed_schnorr [DecidableEq G] (c : Curve F G) (H : Digest) (hram : G → G → List UInt8 → F)
    (draws : Participant → PreprocessDraws F) {L : List Participant} (hnodup : L.Nodup)
    {m : AlgorithmSignMachine F G} (hi : m.params.keys.core.params.i ∈ L)
    (hnonces : m.nonces = [(draws m.params.keys.core.params.i).nonces.nonce 0])
    (view : ThresholdView F G) (t : DigestTranscript) (msg : List UInt8) :
    let parsed := L.foldl (fun acc l => absorb c acc l (schnorrCommitments c (draws l))) (t, ⟨∅⟩)
    let rho := rhoTranscript c m.params.keys msg (parsed.1.challenge H (byteString "preprocesses")).1
    let R := (L.map fun l => (((draws l).nonces.nonce 0).e * bindingRho c H rho l +
      ((draws l).nonces.nonce 0).d) • c.suite.generator).sum
    let nonce := (draws m.params.keys.core.params.i).nonces.nonce 0
    ∃ sigm : AlgorithmSignatureMachine F G, m.signParsed c H hram view parsed msg = .ok (sigm, sigm.share) ∧
      sigm.params.keys = m.params.keys ∧ sigm.view = view ∧ sigm.Rs[0]?.bind (·[0]?) = some R ∧
      sigm.params.algorithm.c = some (hram R view.groupKey msg) ∧
      sigm.share = hram R view.groupKey msg * view.secretShare +
        (nonce.e * bindingRho c H rho m.params.keys.core.params.i + nonce.d) := by
  intro parsed rho R nonce
  have hB : ∀ l ∈ L, (parsed.2.calculateBindingFactors c H rho).bindings[l]? =
      some ⟨schnorrCommitments c (draws l), some [bindingRho c H rho l]⟩ := fun l hl => by
    rw [getElem?_calculateBindingFactors, if_pos hl]
  have hkeys : ∀ l, l ∈ (parsed.2.calculateBindingFactors c H rho).bindings ↔ l ∈ L := fun l => by
    rw [Std.HashMap.mem_iff_isSome_getElem?, getElem?_calculateBindingFactors]
    split <;> simp [*]
  obtain ⟨Rs, hRs, hR⟩ := nonces_schnorr c draws hnodup (bindingRho c H rho) hkeys hB
  have hours : (parsed.2.calculateBindingFactors c H rho).bindingFactors m.params.keys.core.params.i =
      some [bindingRho c H rho m.params.keys.core.params.i] := by
    simp [BindingFactor.bindingFactors, hB _ hi]
  refine ⟨⟨⟨⟨(parsed.1.challenge H (byteString "preprocesses")).2.appendMessage (byteString "rho_transcript")
      (rho.challenge H (byteString "merge")).1, some (hram R view.groupKey msg)⟩, m.params.keys⟩, view,
    parsed.2.calculateBindingFactors c H rho, Rs,
    hram R view.groupKey msg * view.secretShare + (nonce.e * bindingRho c H rho m.params.keys.core.params.i + nonce.d),
    m.blame⟩, ?_, rfl, rfl, hR, rfl, rfl⟩
  unfold AlgorithmSignMachine.signParsed
  simp only [rho] at hRs hours ⊢
  simp only [hRs, hours, hnonces, hR, bindNonces, List.zipIdx_cons, List.zipIdx_nil, List.mapM_cons,
    List.mapM_nil, Option.bind_eq_bind, Option.bind_some, List.getElem?_cons_zero, Option.map_some, Option.pure_def,
    SchnorrSignature.sign]
  rfl

/-! ## Everyone else's messages -/

theorem cloneWithout_foldl_insert {V : Type} {L : List Participant} (hnodup : L.Nodup) (v : Participant → V)
    {j : Participant} (hj : j ∈ L) :
    let others := (L.foldl (fun m k => m.insert k (v k)) (∅ : Std.HashMap Participant V)).erase j
    cloneWithout (L.foldl (fun m k => m.insert k (v k)) (∅ : Std.HashMap Participant V)) j = some others ∧
      (∀ l, others[l]? = if l ∈ L.erase j then some (v l) else none) ∧ (∀ l, l ∈ others ↔ l ∈ L.erase j) ∧
      sortParticipants (j :: others.keys) = sortParticipants L ∧ validateMap others (sortParticipants L) j = .ok () := by
  intro others
  have hget : ∀ l, others[l]? = if l ∈ L.erase j then some (v l) else none := by
    intro l
    rw [Std.HashMap.getElem?_erase, getElem?_foldl_insert]
    by_cases hl : j = l
    · simp [hl, hnodup.mem_erase_iff]
    · simp [hl, Ne.symm hl, hnodup.mem_erase_iff]
  have hmem : ∀ l, l ∈ others ↔ l ∈ L.erase j := fun l => by
    rw [Std.HashMap.mem_iff_isSome_getElem?, hget]
    split <;> simp [*]
  have hperm : others.keys.Perm (L.erase j) :=
    (List.perm_ext_iff_of_nodup Std.HashMap.nodup_keys (hnodup.erase j)).mpr fun l => by
      rw [Std.HashMap.mem_keys, hmem]
  refine ⟨if_pos (mem_foldl_insert L v ∅ j |>.mpr (.inl hj)), hget, hmem,
    sortParticipants_eq_of_perm ((hperm.cons j).trans (List.perm_cons_erase hj).symm), ?_⟩
  -- one message from each participant but us
  refine validateMap_ok_iff.mpr (validateMap_ok.mpr ⟨?_, fun l hl => ?_⟩)
  · rw [size_eq_length (hnodup.erase j) hmem, List.length_erase_of_mem hj, length_sortParticipants]
    have := List.length_pos_of_mem hj
    omega
  · rw [hmem, hnodup.mem_erase_iff]
    exact ⟨fun h => h.1, fun h => ⟨h, mem_sortParticipants.mp hl⟩⟩

/-! ## Signing sets and the keys they share -/

/-- A signing set: `S` holds at least `t` distinct participants of `1..=n`, each signer's
    keys are for the session's `t` and `n` with its own index, and the generator is not the
    identity. -/
structure SigningSet (c : Curve F G) (p : ThresholdParams) (cores : Participant → ThresholdCore F G)
    (S : List Participant) : Prop where
  nodup : S.Nodup
  range : ∀ l ∈ S, l ∈ participants p.n
  threshold : p.t.toNat ≤ S.length
  generator : c.suite.generator ≠ 0
  params : ∀ l ∈ S, (cores l).params = p.withIndex l

/-- The keys a signing set shares, below the field's characteristic: one group key `Y` and
    one map `VS` of verification shares, held by `1..=n` and interpolating to `Y` over the
    set, each signer's that of its secret share. What a session needs of its keys, whichever
    key generation made them. -/
structure SharedKeys [DecidableEq F] (c : Curve F G) (p : ThresholdParams) (cores : Participant → ThresholdCore F G)
    (S : List Participant) (Y : G) (VS : Std.HashMap Participant G) : Prop extends SigningSet c p cores S where
  char : p.n.toNat < ringChar F
  groupKey : ∀ l ∈ S, (cores l).groupKey = Y
  verificationShares : ∀ l ∈ S, (cores l).verificationShares = VS
  mem_verificationShares : ∀ j, j ∈ VS ↔ j ∈ participants p.n
  interpolates : interpolate (F := F) (sortParticipants S) VS = some Y
  secretShare : ∀ l ∈ S, VS[l]?.getD 0 = (cores l).secretShare • c.suite.generator

/-- An honest session: for each signer of the signing set `S`, keys the DKG made,
    consistent with the same commitments `cm`, below the field's characteristic. -/
structure Honest [DecidableEq F] (c : Curve F G) (p : ThresholdParams) (cm : Std.HashMap Participant (List G))
    (cores : Participant → ThresholdCore F G) (S : List Participant) : Prop extends SigningSet c p cores S where
  char : p.n.toNat < ringChar F
  consistent : ∀ l ∈ S, Consistent c.suite (cores l) cm

section Honest

variable {c : Curve F G} {p : ThresholdParams} {cm : Std.HashMap Participant (List G)}
  {cores : Participant → ThresholdCore F G} {S : List Participant} {Y : G} {VS : Std.HashMap Participant G}

theorem SigningSet.length_le (hs : SigningSet c p cores S) : S.length ≤ p.n.toNat := by
  rw [← length_participants p.n]
  exact (hs.nodup.subperm fun l hl => hs.range l hl).length_le

theorem SigningSet.nodup_sort (hs : SigningSet c p cores S) : (sortParticipants S).Nodup :=
  (perm_sortParticipants S).nodup_iff.mpr hs.nodup

theorem SigningSet.exists_mem (hs : SigningSet c p cores S) : ∃ l, l ∈ S := by
  have ht : p.t.toNat ≠ 0 := p.t_toNat_ne_zero
  exact List.exists_mem_of_length_pos (by have := hs.threshold; omega)

theorem SigningSet.i_eq (hs : SigningSet c p cores S) {l : Participant} (hl : l ∈ S) : (cores l).params.i = l := by
  rw [hs.params l hl, ThresholdParams.withIndex_i (hs.range l hl)]

theorem SigningSet.t_eq (hs : SigningSet c p cores S) {l : Participant} (hl : l ∈ S) : (cores l).params.t = p.t := by
  rw [hs.params l hl, ThresholdParams.withIndex_t]

theorem SigningSet.n_eq (hs : SigningSet c p cores S) {l : Participant} (hl : l ∈ S) : (cores l).params.n = p.n := by
  rw [hs.params l hl, ThresholdParams.withIndex_n]

theorem SigningSet.checkSigningSet (hs : SigningSet c p cores S) {l : Participant} (hl : l ∈ S) :
    checkSigningSet (cores l).params (sortParticipants S) = .ok () := by
  rw [checkSigningSet_ok (pairwise_sortParticipants S), length_sortParticipants, hs.t_eq hl, hs.n_eq hl]
  exact ⟨hs.threshold, hs.nodup_sort, fun l' hl' => hs.range l' (mem_sortParticipants.mp hl')⟩

variable [DecidableEq F]

/-- The DKG's keys are shared: the group key and the verification shares of the stripes'
    sums, which every signer's commitments agree on. -/
theorem Honest.sharedKeys (hs : Honest c p cm cores S) :
    SharedKeys c p cores S ((stripeSums p.t.toNat p.n cm).getD 0 0)
      (stripeShares (F := F) p.n (stripeSums p.t.toNat p.n cm)) where
  toSigningSet := hs.toSigningSet
  char := hs.char
  groupKey l hl := by rw [(hs.consistent l hl).groupKey, hs.t_eq hl, hs.n_eq hl]
  verificationShares l hl := by rw [(hs.consistent l hl).verificationShares, hs.t_eq hl, hs.n_eq hl]
  mem_verificationShares _ := mem_stripeShares
  interpolates := by
    obtain ⟨l, hl⟩ := hs.exists_mem
    have hc := hs.consistent l hl
    have hint := hc.interpolate _ hs.nodup_sort
      (fun j hj => by rw [hs.n_eq hl]; exact hs.range j (mem_sortParticipants.mp hj))
      (by rw [length_sortParticipants, hs.t_eq hl]; exact hs.threshold)
    rwa [hc.verificationShares, hc.groupKey, hs.t_eq hl, hs.n_eq hl] at hint
  secretShare l hl := by
    have hc := hs.consistent l hl
    have hVi := hc.getElem?_verificationShares (mem_participants.mpr (cores l).params.i_le_n)
    rw [hc.verificationShares, hs.t_eq hl, hs.n_eq hl, hs.i_eq hl] at hVi
    rw [hVi, Option.getD_some, hc.secretShare, hs.t_eq hl, hs.n_eq hl, hs.i_eq hl]

theorem SharedKeys.view (hs : SharedKeys c p cores S Y VS) (offset : Option F) :
    ∃ VV : Std.HashMap Participant G, ∀ l ∈ S, ∃ view, ThresholdKeys.view c.suite ⟨cores l, offset⟩ (sortParticipants S) = .ok view ∧
      view.included = sortParticipants S ∧ view.groupKey = Y + offset.getD 0 • c.suite.generator ∧
      view.verificationShares = VV ∧ ((sortParticipants S).map fun l => VV[l]?.getD 0).sum = view.groupKey ∧
      view.secretShare • c.suite.generator = VV[l]?.getD 0 := by
  have hsorted : sortParticipants (sortParticipants S) = sortParticipants S :=
    sortParticipants_eq_of_perm (perm_sortParticipants S)
  -- the lowest signer, who takes the offset
  obtain ⟨first, hfirst⟩ : ∃ first, (sortParticipants S).head? = some first := by
    obtain ⟨l, hl⟩ := hs.exists_mem
    cases h : sortParticipants S with
    | nil => exact absurd (mem_sortParticipants.mpr hl) (by rw [h]; exact List.not_mem_nil)
    | cons first _ => exact ⟨first, rfl⟩
  refine ⟨(VS.map fun j share => (lagrange (F := F) j (sortParticipants S)).getD 0 • share).insert first
    ((lagrange (F := F) first (sortParticipants S)).getD 0 • VS[first]?.getD 0 + offset.getD 0 • c.suite.generator),
    fun l hl => ?_⟩
  have hVS := hs.verificationShares l hl
  have hrange : ∀ j ∈ sortParticipants S, j ∈ participants (cores l).params.n := fun j hj => by
    rw [hs.n_eq hl]
    exact hs.range j (mem_sortParticipants.mp hj)
  have hlen : (cores l).params.t.toNat ≤ (sortParticipants S).length := by
    rw [hs.t_eq hl, length_sortParticipants]
    exact hs.threshold
  have hlen' : (sortParticipants S).length ≤ (cores l).params.n.toNat := by
    rw [hs.n_eq hl, length_sortParticipants]
    exact hs.length_le
  have hchar : (cores l).params.n.toNat < ringChar F := by
    rw [hs.n_eq hl]
    exact hs.char
  have hkeys : ∀ j, j ∈ (ThresholdKeys.core ⟨cores l, offset⟩).verificationShares ↔
      j ∈ participants (ThresholdKeys.core ⟨cores l, offset⟩).params.n := fun j => by
    dsimp only
    rw [hVS, hs.n_eq hl]
    exact hs.mem_verificationShares j
  -- the view of the sorted set interpolates the shared keys
  have hint : interpolate (F := F) (sortParticipants (sortParticipants S)) (cores l).verificationShares =
      some (cores l).groupKey := by
    rw [hsorted, hVS, hs.groupKey l hl]
    exact hs.interpolates
  have hVi : (cores l).verificationShares[(cores l).params.i]?.getD 0 = (cores l).secretShare • c.suite.generator := by
    rw [hVS, hs.i_eq hl]
    exact hs.secretShare l hl
  obtain ⟨view, hview, hgk, hsum, hsecret⟩ := view_sums hkeys hchar hs.nodup_sort hrange hlen hlen' hint hVi
  obtain ⟨first', hfirst', hview'⟩ := view_eq c.suite ⟨cores l, offset⟩ hkeys hchar hrange hlen hlen'
  rw [hsorted, hfirst] at hfirst'
  obtain rfl := Option.some.inj hfirst'
  rw [hview'] at hview
  obtain rfl := Except.ok.inj hview
  refine ⟨_, hview', hsorted, ?_, ?_, ?_, ?_⟩
  · rw [hgk, hs.groupKey l hl]
  · dsimp only
    rw [hsorted, hVS]
  · rw [← hsum, hsorted, hVS]
  · rw [hsecret, hs.i_eq hl]
    dsimp only
    rw [hsorted, hVS]

theorem signOne_honest [DecidableEq G] (hs : SigningSet c p cores S) (H : Digest) (hram : G → G → List UInt8 → F)
    (offset : Option F) (transcript : DigestTranscript) (draws : Participant → PreprocessDraws F) (msg : List UInt8)
    {j : Participant} (hj : j ∈ S) {view : ThresholdView F G}
    (hview : ThresholdKeys.view c.suite ⟨cores j, offset⟩ (sortParticipants S) = .ok view) :
    let parsed := (sortParticipants S).foldl (fun acc l => absorb c acc l (schnorrCommitments c (draws l)))
      ((transcript.challenge H (byteString "commitments")).2.domainSeparate (byteString "FROST"), ⟨∅⟩)
    let rho := rhoTranscript c ⟨cores j, offset⟩ msg (parsed.1.challenge H (byteString "preprocesses")).1
    let R := ((sortParticipants S).map fun l => (((draws l).nonces.nonce 0).e * bindingRho c H rho l +
      ((draws l).nonces.nonce 0).d) • c.suite.generator).sum
    let nonce := (draws j).nonces.nonce 0
    ∃ sigm : AlgorithmSignatureMachine F G,
      signOne c H hram (S.foldl (fun acc l => acc.insert l ⟨schnorrCommitments c (draws l)⟩) ∅) msg j
        (preprocessed c H (AlgorithmMachine.new (Schnorr.new transcript) ⟨cores j, offset⟩) (draws j)) =
          some (sigm, sigm.share) ∧
      sigm.params.keys.core.params.i = j ∧ sigm.view = view ∧ sigm.Rs[0]?.bind (·[0]?) = some R ∧
      sigm.params.algorithm.c = some (hram R view.groupKey msg) ∧
      sigm.share = hram R view.groupKey msg * view.secretShare + (nonce.e * bindingRho c H rho j + nonce.d) := by
  intro parsed rho R nonce
  obtain ⟨hclone, -, hmem, hsort, hvalid⟩ :=
    cloneWithout_foldl_insert hs.nodup (fun l => (⟨schnorrCommitments c (draws l)⟩ : Preprocess F G)) hj
  have hi : (preprocessed c H (AlgorithmMachine.new (Schnorr.new transcript) ⟨cores j, offset⟩) (draws j)).params.keys.core.params.i = j :=
    hs.i_eq hj
  -- `sign` parses every preprocess, its own included, in the set's order
  have hsign : (preprocessed c H (AlgorithmMachine.new (Schnorr.new transcript) ⟨cores j, offset⟩) (draws j)).sign
      c H hram ((S.foldl (fun acc l => acc.insert l ⟨schnorrCommitments c (draws l)⟩)
        (∅ : Std.HashMap Participant (Preprocess F G))).erase j) msg =
      (preprocessed c H (AlgorithmMachine.new (Schnorr.new transcript) ⟨cores j, offset⟩) (draws j)).signParsed
        c H hram view ((sortParticipants S).foldl (fun acc l => absorb c acc l (schnorrCommitments c (draws l)))
          ((preprocessed c H (AlgorithmMachine.new (Schnorr.new transcript) ⟨cores j, offset⟩)
            (draws j)).params.algorithm.transcript.domainSeparate (byteString "FROST"), ⟨∅⟩)) msg :=
    sign_eq_signParsed (by rw [← hsort]; exact congrArg (fun i => sortParticipants (i :: _)) hi) (hs.checkSigningSet hj) hview
    (by rw [hi]; exact hvalid) (by rw [hi]; rfl) (fun l hl => by
      rw [Std.HashMap.getElem?_erase, getElem?_foldl_insert]
      have hl' := hmem l |>.mp hl
      rw [hs.nodup.mem_erase_iff] at hl'
      simp [Ne.symm hl'.1, hl'.2])
  obtain ⟨sigm, hparsed, hkeys, hsview, hR, hc, hshare⟩ := signParsed_schnorr c H hram draws hs.nodup_sort
    (m := preprocessed c H (AlgorithmMachine.new (Schnorr.new transcript) ⟨cores j, offset⟩) (draws j))
    (by rw [hi]; exact mem_sortParticipants.mpr hj) (by rw [hi]; rfl) view
    ((preprocessed c H (AlgorithmMachine.new (Schnorr.new transcript) ⟨cores j, offset⟩)
      (draws j)).params.algorithm.transcript.domainSeparate (byteString "FROST")) msg
  refine ⟨sigm, ?_, by rw [hkeys]; exact hi, hsview, hR, hc, by rw [hshare, hi]; rfl⟩
  have hread := readF_toRepr c.suite sigm.share []
  rw [List.append_nil] at hread
  simp only [signOne, hclone, hsign, hparsed, Option.bind_eq_bind, Option.bind_some, Except.toOption, readUnwrap,
    readShare, writeShare, hread]
  rfl

theorem Honest.sign_ok [DecidableEq G] (hs : Honest c p cm cores S) (H : Digest) (hram : G → G → List UInt8 → F)
    (offset : Option F) (transcript : DigestTranscript) (draws : Participant → PreprocessDraws F) (msg : List UInt8)
    {j : Participant} (hj : j ∈ S) :
    ∃ r, (preprocessed c H (AlgorithmMachine.new (Schnorr.new transcript) ⟨cores j, offset⟩) (draws j)).sign c H hram
      ((S.foldl (fun acc l => acc.insert l ⟨schnorrCommitments c (draws l)⟩)
        (∅ : Std.HashMap Participant (Preprocess F G))).erase j) msg = .ok r := by
  obtain ⟨VV, hVV⟩ := hs.sharedKeys.view offset
  obtain ⟨view, hview, -⟩ := hVV j hj
  obtain ⟨sigm, hone, -⟩ := signOne_honest hs.toSigningSet H hram offset transcript draws msg hj hview
  obtain ⟨hclone, -⟩ :=
    cloneWithout_foldl_insert hs.nodup (fun l => (⟨schnorrCommitments c (draws l)⟩ : Preprocess F G)) hj
  -- `signOne` reads `sign`'s result through `toOption`: an error would have made it `none`
  cases hsign : (preprocessed c H (AlgorithmMachine.new (Schnorr.new transcript) ⟨cores j, offset⟩) (draws j)).sign
      c H hram ((S.foldl (fun acc l => acc.insert l ⟨schnorrCommitments c (draws l)⟩)
        (∅ : Std.HashMap Participant (Preprocess F G))).erase j) msg with
  | error e =>
    simp only [signOne, hclone, hsign, Option.bind_eq_bind, Option.bind_some, Except.toOption,
      Option.bind_none] at hone
    exact absurd hone (Option.some_ne_none _).symm
  | ok r => exact ⟨r, rfl⟩

omit [DecidableEq F] in
theorem completeOne_honest [DecidableEq G] (c : Curve F G) {L : List Participant} (hnodup : L.Nodup)
    (s : Participant → F) (Rl V : Participant → G) {Y : G} {challenge : F}
    (hY : ((sortParticipants L).map V).sum = Y)
    (hshares : ∀ l ∈ L, s l • c.suite.generator = Rl l + challenge • V l)
    {j : Participant} (hj : j ∈ L) {sigm : AlgorithmSignatureMachine F G}
    (hi : sigm.params.keys.core.params.i = j) (hincluded : sigm.view.included = sortParticipants L)
    (hgk : sigm.view.groupKey = Y) (hR : sigm.Rs[0]?.bind (·[0]?) = some ((sortParticipants L).map Rl).sum)
    (hc : sigm.params.algorithm.c = some challenge) (hshare : sigm.share = s j) :
    completeOne c (L.foldl (fun acc l => acc.insert l (s l)) (∅ : Std.HashMap Participant F)) j sigm =
      some ⟨((sortParticipants L).map Rl).sum, ((sortParticipants L).map s).sum⟩ := by
  obtain ⟨hclone, hget, -, -, hvalid⟩ := cloneWithout_foldl_insert hnodup s hj
  have hnodup' : (sortParticipants L).Nodup := (perm_sortParticipants L).nodup_iff.mpr hnodup
  have hvalid' : validateMap ((L.foldl (fun acc l => acc.insert l (s l)) (∅ : Std.HashMap Participant F)).erase j) sigm.view.included
      sigm.params.keys.core.params.i = .ok () := by
    rw [hincluded, hi]
    exact hvalid
  -- the shares summed are everyone's, each the response `complete` keeps
  have hsum : sigm.share + (((L.foldl (fun acc l => acc.insert l (s l)) (∅ : Std.HashMap Participant F)).erase j).toList.map (·.2)).sum =
      ((sortParticipants L).map s).sum := by
    rw [sum_responses sigm.share hvalid' (hincluded ▸ hnodup') (by rw [hincluded, hi]; exact mem_sortParticipants.mpr hj),
      hincluded]
    refine congrArg List.sum (List.map_congr_left fun l hl => ?_)
    rw [Std.HashMap.getElem?_insert, hi]
    by_cases hl' : j = l
    · subst hl'
      simp [hshare]
    · have hmem : l ∈ L.erase j := hnodup.mem_erase_iff.mpr ⟨Ne.symm hl', mem_sortParticipants.mp hl⟩
      simp [hl', hget, hmem]
  have hverify : SchnorrSignature.verify c.suite ⟨((sortParticipants L).map Rl).sum,
      sigm.share + (((L.foldl (fun acc l => acc.insert l (s l)) (∅ : Std.HashMap Participant F)).erase j).toList.map (·.2)).sum⟩
      sigm.view.groupKey challenge := by
    rw [hsum, hgk]
    exact verify_sum c.suite _ Rl V s hY fun l hl => hshares l (mem_sortParticipants.mp hl)
  simp only [completeOne, hclone, Option.bind_eq_bind, Option.bind_some, complete_eq_of_verify hvalid' hR hc hverify,
    hsum]
  rfl

/-- An honest session panics nowhere: with keys the DKG made for a signing set of `t` to `n`
    distinct participants of `1..=n`, every machine preprocesses, signs and completes, all on
    one signature, which verifies under the group key `Y`, the DKG's with the offset, for the
    challenge `H(R, Y, m)`. -/
theorem shared_sign_complete [DecidableEq G] (hs : SharedKeys c p cores S Y VS) (H : Digest)
    (hram : G → G → List UInt8 → F) (offset : Option F) (transcript : DigestTranscript)
    (draws : Participant → PreprocessDraws F) (msg : List UInt8) :
    let K := Y + offset.getD 0 • c.suite.generator
    ∃ sig, signWithoutCaching c H hram (S.map fun l => (l, AlgorithmMachine.new (Schnorr.new transcript) ⟨cores l, offset⟩))
        draws msg = some sig ∧ sig.verify c.suite K (hram sig.R K msg) = true := by
  intro K
  obtain ⟨j0, hj0⟩ := hs.exists_mem
  obtain ⟨VV, hviews⟩ := hs.view offset
  -- every signer derives one rho transcript, from the one group key
  let parsed := (sortParticipants S).foldl (fun acc l => absorb c acc l (schnorrCommitments c (draws l)))
    ((transcript.challenge H (byteString "commitments")).2.domainSeparate (byteString "FROST"), ⟨∅⟩)
  let rho := rhoTranscript c ⟨cores j0, offset⟩ msg (parsed.1.challenge H (byteString "preprocesses")).1
  have hrho : ∀ j ∈ S, rhoTranscript c ⟨cores j, offset⟩ msg (parsed.1.challenge H (byteString "preprocesses")).1 = rho := by
    intro j hj
    simp only [rho, rhoTranscript, ThresholdKeys.groupKey, hs.groupKey j hj, hs.groupKey j0 hj0]
  let Rl := fun l => (((draws l).nonces.nonce 0).e * bindingRho c H rho l + ((draws l).nonces.nonce 0).d) • c.suite.generator
  let R := ((sortParticipants S).map Rl).sum
  -- every signer signs, on one nonce and one challenge, with a share meeting its equation
  have hsign : ∀ j ∈ S, ∃ sigm : AlgorithmSignatureMachine F G,
      signOne c H hram (S.foldl (fun acc l => acc.insert l ⟨schnorrCommitments c (draws l)⟩) ∅) msg j
        (preprocessed c H (AlgorithmMachine.new (Schnorr.new transcript) ⟨cores j, offset⟩) (draws j)) =
          some (sigm, sigm.share) ∧
      sigm.params.keys.core.params.i = j ∧ sigm.view.included = sortParticipants S ∧ sigm.view.groupKey = K ∧
      sigm.Rs[0]?.bind (·[0]?) = some R ∧ sigm.params.algorithm.c = some (hram R K msg) ∧
      sigm.share • c.suite.generator = Rl j + hram R K msg • VV[j]?.getD 0 := by
    intro j hj
    obtain ⟨view, hview, hincluded, hgk, hvs, -, hsecret⟩ := hviews j hj
    obtain ⟨sigm, hone, hi, hsview, hR, hc, hshare⟩ := signOne_honest hs.toSigningSet H hram offset transcript draws msg hj hview
    rw [hrho j hj] at hR hc hshare
    rw [hgk] at hc hshare
    refine ⟨sigm, hone, hi, by rw [hsview, hincluded], by rw [hsview, hgk], hR, hc, ?_⟩
    rw [hshare, add_smul, mul_smul, hsecret, add_comm]
  have : Nonempty (AlgorithmSignatureMachine F G) := ⟨(hsign j0 hj0).choose⟩
  choose! sigmOf hsigmOf using hsign
  -- the three rounds of the run, each over every signer
  have hpre : (S.map fun l => (l, AlgorithmMachine.new (Schnorr.new transcript) (⟨cores l, offset⟩ : ThresholdKeys F G))).mapM
      (fun e => (preprocessOne c H e.2 (draws e.1)).map (e.1, ·)) =
        some (S.map fun l => (l, preprocessed c H (AlgorithmMachine.new (Schnorr.new transcript) ⟨cores l, offset⟩) (draws l),
          (⟨schnorrCommitments c (draws l)⟩ : Preprocess F G))) := by
    rw [mapM_preprocessOne c H hs.generator, List.map_map]
    rfl
  have hsigned : (S.map fun l => (l, preprocessed c H (AlgorithmMachine.new (Schnorr.new transcript) ⟨cores l, offset⟩) (draws l),
      (⟨schnorrCommitments c (draws l)⟩ : Preprocess F G))).mapM (fun e =>
        (signOne c H hram (S.foldl (fun acc l => acc.insert l ⟨schnorrCommitments c (draws l)⟩) ∅) msg e.1 e.2.1).map (e.1, ·)) =
      some (S.map fun l => (l, sigmOf l, (sigmOf l).share)) := by
    rw [mapM_some (g := fun e => (e.1, sigmOf e.1, (sigmOf e.1).share)) fun e he => by
      obtain ⟨l, hl, rfl⟩ := List.mem_map.mp he
      rw [(hsigmOf l hl).1]; rfl, List.map_map]
    rfl
  -- every signer completes on the one signature
  have hY : ((sortParticipants S).map fun l => VV[l]?.getD 0).sum = K := by
    obtain ⟨view, -, -, hgk, -, hsum, -⟩ := hviews j0 hj0
    rw [hsum, hgk]
  have hcomplete : (S.map fun l => (l, sigmOf l, (sigmOf l).share)).mapM (fun e =>
      completeOne c (S.foldl (fun acc l => acc.insert l (sigmOf l).share) ∅) e.1 e.2.1) =
        some (S.map fun _ => (⟨R, ((sortParticipants S).map fun l => (sigmOf l).share).sum⟩ : SchnorrSignature F G)) := by
    rw [mapM_some (g := fun _ => (⟨R, ((sortParticipants S).map fun l => (sigmOf l).share).sum⟩ : SchnorrSignature F G))
      fun e he => ?_, List.map_map]
    · rfl
    obtain ⟨l, hl, rfl⟩ := List.mem_map.mp he
    obtain ⟨-, hi, hincluded, hgk, hR, hc, -⟩ := hsigmOf l hl
    exact completeOne_honest c hs.nodup (fun l => (sigmOf l).share) Rl (fun l => VV[l]?.getD 0) hY
      (fun l' hl' => (hsigmOf l' hl').2.2.2.2.2.2) hl hi hincluded hgk hR hc rfl
  refine ⟨⟨R, ((sortParticipants S).map fun l => (sigmOf l).share).sum⟩, ?_, ?_⟩
  · simp only [signWithoutCaching, Option.bind_eq_bind, hpre, Option.bind_some, List.foldl_map, hsigned, hcomplete]
    -- one signature, repeated: the first, and equal to it
    obtain ⟨x, hx⟩ : ∃ x, S.head? = some x := Option.isSome_iff_exists.mp
      (List.isSome_head?.mpr (List.ne_nil_of_mem hj0))
    rw [List.head?_map, hx, Option.map_some, Option.bind_some]
    simp
  · exact verify_sum c.suite (sortParticipants S) Rl (fun l => VV[l]?.getD 0) (fun l => (sigmOf l).share) hY
      fun l hl => (hsigmOf l (mem_sortParticipants.mp hl)).2.2.2.2.2.2

theorem frost_sign_complete [DecidableEq G] (hs : Honest c p cm cores S) (H : Digest)
    (hram : G → G → List UInt8 → F) (offset : Option F) (transcript : DigestTranscript)
    (draws : Participant → PreprocessDraws F) (msg : List UInt8) :
    let Y := (stripeSums p.t.toNat p.n cm).getD 0 0 + offset.getD 0 • c.suite.generator
    ∃ sig, signWithoutCaching c H hram (S.map fun l => (l, AlgorithmMachine.new (Schnorr.new transcript) ⟨cores l, offset⟩))
        draws msg = some sig ∧ sig.verify c.suite Y (hram sig.R Y msg) = true :=
  shared_sign_complete hs.sharedKeys H hram offset transcript draws msg

end Honest

/-! An honest two-of-three session over the field of five elements. -/

/-- The field of five elements as a curve, its hashes constant. -/
def zmod5Curve : Curve (ZMod 5) (ZMod 5) := ⟨zmod5Suite, [], fun _ => [], fun _ _ => 0, 3⟩

/-- Every participant of `1..=3` commits to the polynomial `1 + X`. -/
def commitments5 : Std.HashMap Participant (List (ZMod 5)) :=
  (participants twoOfThree.n).foldl (fun m l => m.insert l [1, 1]) ∅

/-- The keys the DKG makes of `commitments5`: each participant's share is the stripes'
    polynomial at its index. -/
def cores5 (l : Participant) : ThresholdCore (ZMod 5) (ZMod 5) :=
  let S := stripeSums twoOfThree.t.toNat twoOfThree.n commitments5
  ⟨twoOfThree.withIndex l, evalAt (F := ZMod 5) S (twoOfThree.withIndex l).i, S.getD 0 0, stripeShares (F := ZMod 5) twoOfThree.n S⟩

-- decided once, so that the draws below do not depend on which `NeZero` instance is in scope
theorem one_ne_zero_five : (1 : ZMod 5) ≠ 0 := by decide

/-- Every participant draws the nonces `(1, 1)` and the weights one. -/
def preprocessDraws5 (_l : Participant) : PreprocessDraws (ZMod 5) :=
  ⟨⟨fun _ => ⟨1, 1⟩, fun _ => one_ne_zero_five, fun _ => one_ne_zero_five, fun _ => 0⟩,
    ⟨fun _ => 1, fun _ => one_ne_zero_five⟩⟩

theorem consistent_cores5 (l : Participant) : Consistent zmod5Suite (cores5 l) commitments5 := by
  have hkeys : ∀ j, j ∈ commitments5 ↔ j ∈ participants twoOfThree.n := fun j => by
    simp [commitments5, mem_foldl_insert]
  have hlen : ∀ (j : Participant) (cs : List (ZMod 5)), commitments5[j]? = some cs → twoOfThree.t.toNat ≤ cs.length := by
    intro j cs h
    rw [commitments5, getElem?_foldl_insert] at h
    split_ifs at h
    · obtain rfl := Option.some.inj h
      decide
    · simp at h
  have hn : twoOfThree.n.toNat < ringChar (ZMod 5) := by
    rw [ZMod.ringChar_zmod_n]
    decide
  refine ⟨?_, ?_, ?_, ?_, ?_⟩
  · simpa [cores5] using stripes_eq_stripeSums hkeys hlen
  · simp [cores5]
  · simp [cores5]
  · simp [cores5, zmod5Suite]
  · intro included hnodup hsub hlen'
    simp only [cores5, ThresholdParams.withIndex_t, ThresholdParams.withIndex_n] at hsub hlen' ⊢
    refine interpolate_stripeShares hn ?_ hnodup hsub (by rwa [length_stripeSums])
    rw [← List.length_pos_iff, length_stripeSums]
    decide

theorem honest5 : Honest zmod5Curve twoOfThree commitments5 cores5 [⟨1, by decide⟩, ⟨2, by decide⟩] where
  nodup := by decide
  range := by decide
  threshold := by decide
  char := by
    rw [ZMod.ringChar_zmod_n]
    decide
  generator := by decide
  consistent := fun l _ => consistent_cores5 l
  params := fun _ _ => rfl

theorem frost_sign_complete_two_of_three :
    Honest zmod5Curve twoOfThree commitments5 cores5 [⟨1, by decide⟩, ⟨2, by decide⟩] ∧
      let Y := (stripeSums twoOfThree.t.toNat twoOfThree.n commitments5).getD 0 0 +
        (none : Option (ZMod 5)).getD 0 • zmod5Curve.suite.generator
      ∃ sig, signWithoutCaching zmod5Curve (constDigest 0) (fun _ _ _ => 1)
          ([⟨1, by decide⟩, ⟨2, by decide⟩].map fun l => (l, AlgorithmMachine.new (Schnorr.new ⟨[]⟩) ⟨cores5 l, none⟩))
          preprocessDraws5 [] = some sig ∧ sig.verify zmod5Curve.suite Y 1 = true :=
  ⟨honest5, frost_sign_complete honest5 (constDigest 0) (fun _ _ _ => 1) none ⟨[]⟩ preprocessDraws5 []⟩

/-- `sign_signing_set_valid` at the first signer of the honest session. -/
theorem sign_signing_set_valid_two_of_three :
    let m := preprocessed zmod5Curve (constDigest 0) (AlgorithmMachine.new (Schnorr.new ⟨[]⟩)
      ⟨cores5 twoOfThree.i, none⟩) (preprocessDraws5 twoOfThree.i)
    let others := ([⟨1, by decide⟩, ⟨2, by decide⟩].foldl
      (fun acc l => acc.insert l ⟨schnorrCommitments zmod5Curve (preprocessDraws5 l)⟩)
      (∅ : Std.HashMap Participant (Preprocess (ZMod 5) (ZMod 5)))).erase twoOfThree.i
    ∃ r, m.sign zmod5Curve (constDigest 0) (fun _ _ _ => 1) others [] = .ok r ∧
      m.params.keys.core.params.i ∉ others ∧ m.params.keys.core.params.t.toNat ≤ others.size + 1 ∧
        ∀ l ∈ others, l ∈ participants m.params.keys.core.params.n := by
  intro m others
  obtain ⟨r, hr⟩ := honest5.sign_ok (constDigest 0) (fun _ _ _ => 1) none ⟨[]⟩ preprocessDraws5 [] (j := twoOfThree.i)
    (by decide)
  exact ⟨r, hr, sign_signing_set_valid hr⟩

end Serai.Frost
