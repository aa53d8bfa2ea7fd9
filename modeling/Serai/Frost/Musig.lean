import Serai.Dkg.Musig
import Serai.Frost.Run
/-
  Serai.Frost.Musig — a FROST session on MuSig keys, as the tests run one (crypto/frost/src/
  tests/mod.rs: `test_musig_schnorr`; crypto/dkg/src/tests/mod.rs: `musig_key_gen`).

  `musig_key_gen` gives the holder of every private key the `musig` core over the list of
  all the public keys, each its private key times the generator; the holder of the key at
  position `k` is participant `k + 1`, with `t = n` the number of keys.
  `test_schnorr_with_keys` then signs with all of them.

  The holders' cores are `SharedKeys` of the signing set `1..=n` (`musig_sharedKeys`),
  as the DKG's are of any signing set (`Honest.sharedKeys`), so the session of
  `shared_sign_complete` runs on them:
  - `musig_key_gen_signs_under_musig_key`: every holder's `musig` succeeds, with its own
    index and `t = n`, `musig_key`'s group key and its verification share its secret
    share's, on shares every holder has alike and that interpolate over `1..=n` to the
    group key; a session of all the holders, with any offset, panics nowhere, and its
    signature verifies under `musig_key` with the offset.
-/

namespace Serai.Frost

open Serai.Crypto Serai.Lib Serai.Dkg
open Serai.Tributary.Spec (Participant)

variable {F G : Type} [Field F] [DecidableEq F] [AddCommGroup G] [Module F G] [DecidableEq G]

theorem pred_lt_of_mem_participants {n : UInt16} {l : Participant} (hl : l ∈ participants n) :
    l.val.toNat - 1 < n.toNat := by
  have hle := UInt16.le_iff_toNat_le.mp (mem_participants.mp hl)
  have hpos : l.val.toNat ≠ 0 := l.toNat_ne_zero
  omega

theorem toNat_ofNat_lt {m k : ℕ} (h : m < k) : (UInt16.ofNat m).toNat < k :=
  lt_of_le_of_lt (by rw [UInt16.toNat_ofNat']; exact Nat.mod_le _ _) h

section Musig

variable (c : Curve F G) (hashToF : String → List UInt8 → F) {context : List UInt8} {privateKeys : List F}

/-- What `musig` gives participant `l`, who holds the key at position `l - 1`: keys for
    `t = n` the number of keys, with index `l` and `musig_key`'s group key, its verification
    share its secret share's, on shares held by `1..=n` that interpolate to the group key,
    the shares every other holder's `musig` builds. -/
structure MusigHolder (c : Curve F G) (hashToF : String → List UInt8 → F) (context : List UInt8)
    (privateKeys : List F) (l : Participant) (core : ThresholdCore F G) : Prop where
  ok : musig c.suite hashToF context (privateKeys.getD (l.val.toNat - 1) 0) (privateKeys.map (· • c.suite.generator)) =
    .ok core
  t_eq : core.params.t = UInt16.ofNat privateKeys.length
  n_eq : core.params.n = UInt16.ofNat privateKeys.length
  i_eq : core.params.i = l
  groupKey_eq : musigKey c.suite hashToF context (privateKeys.map (· • c.suite.generator)) = .ok core.groupKey
  verificationShare : core.verificationShares[l]? = some (core.secretShare • c.suite.generator)
  mem_verificationShares : ∀ j, j ∈ core.verificationShares ↔ j ∈ participants (UInt16.ofNat privateKeys.length)
  interpolates :
    interpolate (F := F) (participants (UInt16.ofNat privateKeys.length)) core.verificationShares = some core.groupKey
  same : ∀ l' ∈ participants (UInt16.ofNat privateKeys.length), ∀ core',
    musig c.suite hashToF context (privateKeys.getD (l'.val.toNat - 1) 0) (privateKeys.map (· • c.suite.generator)) =
      .ok core' → core'.verificationShares = core.verificationShares

theorem musig_holder (hctx : context.length ≤ 255) (hne : privateKeys ≠ []) (hlen : privateKeys.length ≤ 65535)
    (hnodup : (privateKeys.map (· • c.suite.generator)).Nodup) (hchar : privateKeys.length < ringChar F)
    {l : Participant} (hl : l ∈ participants (UInt16.ofNat privateKeys.length)) :
    ∃ core, MusigHolder c hashToF context privateKeys l core := by
  have hlenk : (privateKeys.map (· • c.suite.generator)).length = privateKeys.length := List.length_map _
  have hnN : (UInt16.ofNat privateKeys.length).toNat = privateKeys.length :=
    UInt16.toNat_ofNat_of_lt' (show privateKeys.length < 2 ^ 16 by omega)
  -- participant `l'` holds the key at position `l' - 1`
  have hpos : ∀ l' ∈ participants (UInt16.ofNat privateKeys.length),
      (privateKeys.map (· • c.suite.generator))[l'.val.toNat - 1]? =
        some (privateKeys.getD (l'.val.toNat - 1) 0 • c.suite.generator) := by
    intro l' hl'
    have hlt := pred_lt_of_mem_participants hl'
    rw [hnN] at hlt
    rw [List.getElem?_map, List.getD_eq_getElem?_getD, List.getElem?_eq_getElem hlt]
    rfl
  obtain ⟨core, hcore, ht, hn, hi, hkey, hVi, hkeys, hint, hsame, -⟩ := musig_consistent_with_musig_key c.suite hashToF
    hctx (by simpa using hne) (by rwa [hlenk]) hnodup (by rwa [hlenk]) (hpos l hl)
  have hnn : core.params.n = UInt16.ofNat privateKeys.length := by
    rw [← UInt16.toNat_inj, hn, hnN, hlenk]
  -- the index `musig` gives is one past the position
  have hil : core.params.i = l := by
    have hpos' : l.val.toNat ≠ 0 := l.toNat_ne_zero
    refine eq_of_val_eq (UInt16.toNat_inj.mp ?_)
    rw [hi]
    omega
  rw [hil] at hVi
  rw [hnn] at hkeys hint
  refine ⟨core, hcore, by rw [← UInt16.toNat_inj, ht, hnN, hlenk], hnn, hil, hkey, hVi, hkeys, hint, ?_⟩
  intro l' hl' core' hcore'
  obtain ⟨core'', hcore'', -, hVS⟩ := hsame _ _ (hpos l' hl')
  rw [← Except.ok.inj (hcore''.symm.trans hcore'), hVS]

/-- The holders' cores are the keys of the signing set `1..=n`, shared, with the parameters,
    group key and shares of any one holder `l₁`. -/
theorem musig_sharedKeys (hchar : privateKeys.length < ringChar F) (hgen : c.suite.generator ≠ 0)
    {cores : Participant → ThresholdCore F G}
    (hcores : ∀ l ∈ participants (UInt16.ofNat privateKeys.length), MusigHolder c hashToF context privateKeys l (cores l))
    {l₁ : Participant} (hl₁ : l₁ ∈ participants (UInt16.ofNat privateKeys.length)) :
    SharedKeys c (cores l₁).params cores (participants (UInt16.ofNat privateKeys.length)) (cores l₁).groupKey
      (cores l₁).verificationShares where
  nodup := nodup_participants _
  range l hl := by rw [(hcores l₁ hl₁).n_eq]; exact hl
  threshold := by rw [(hcores l₁ hl₁).t_eq, length_participants]
  generator := hgen
  params l hl := ThresholdParams.eq_withIndex (by rw [(hcores l hl).t_eq, (hcores l₁ hl₁).t_eq])
    (by rw [(hcores l hl).n_eq, (hcores l₁ hl₁).n_eq]) (hcores l hl).i_eq
  char := by
    rw [(hcores l₁ hl₁).n_eq]
    exact toNat_ofNat_lt hchar
  groupKey l hl := Except.ok.inj ((hcores l hl).groupKey_eq.symm.trans (hcores l₁ hl₁).groupKey_eq)
  verificationShares l hl := (hcores l₁ hl₁).same l hl (cores l) (hcores l hl).ok
  mem_verificationShares := by rw [(hcores l₁ hl₁).n_eq]; exact (hcores l₁ hl₁).mem_verificationShares
  interpolates := by
    -- the signing set is `1..=n`, sorted or not
    rw [interpolate_perm (perm_sortParticipants _).symm (nodup_participants _)
      (fun a ha b hb hab h => hab (toScalar_injOn (toNat_ofNat_lt hchar) ha hb h))
      fun a ha => ((hcores l₁ hl₁).mem_verificationShares a).mpr ha]
    exact (hcores l₁ hl₁).interpolates
  secretShare l hl := by
    rw [← (hcores l₁ hl₁).same l hl (cores l) (hcores l hl).ok, (hcores l hl).verificationShare]
    rfl

/-- MuSig keys sign: every holder's `musig` succeeds, with its own index and `t = n`,
    `musig_key`'s group key and its verification share its secret share's, on shares every
    holder has alike, that interpolate over `1..=n` to the group key; and a session of all
    the holders, with any offset, panics nowhere, on a signature that verifies under
    `musig_key` with the offset. -/
theorem musig_key_gen_signs_under_musig_key (hctx : context.length ≤ 255) (hne : privateKeys ≠ [])
    (hlen : privateKeys.length ≤ 65535) (hnodup : (privateKeys.map (· • c.suite.generator)).Nodup)
    (hchar : privateKeys.length < ringChar F) (hgen : c.suite.generator ≠ 0) :
    let keys := privateKeys.map (· • c.suite.generator)
    let n := UInt16.ofNat privateKeys.length
    ∃ (groupKey : G) (cores : Participant → ThresholdCore F G), musigKey c.suite hashToF context keys = .ok groupKey ∧
      (∀ l ∈ participants n, musig c.suite hashToF context (privateKeys.getD (l.val.toNat - 1) 0) keys = .ok (cores l) ∧
        (cores l).params.t = n ∧ (cores l).params.n = n ∧ (cores l).params.i = l ∧ (cores l).groupKey = groupKey ∧
        (cores l).verificationShares[l]? = some ((cores l).secretShare • c.suite.generator) ∧
        interpolate (F := F) (participants n) (cores l).verificationShares = some groupKey ∧
        ∀ l' ∈ participants n, (cores l').verificationShares = (cores l).verificationShares) ∧
      ∀ (H : Digest) (hram : G → G → List UInt8 → F) (offset : Option F) (transcript : DigestTranscript)
        (draws : Participant → PreprocessDraws F) (msg : List UInt8),
        ∃ sig, signWithoutCaching c H hram ((participants n).map fun l =>
            (l, AlgorithmMachine.new (Schnorr.new transcript) ⟨cores l, offset⟩)) draws msg = some sig ∧
          sig.verify c.suite (groupKey + offset.getD 0 • c.suite.generator)
            (hram sig.R (groupKey + offset.getD 0 • c.suite.generator) msg) = true := by
  intro keys n
  obtain ⟨l₁, hl₁⟩ : ∃ l₁, l₁ ∈ participants n := by
    refine List.exists_mem_of_length_pos ?_
    rw [length_participants, UInt16.toNat_ofNat_of_lt' (show privateKeys.length < 2 ^ 16 by omega)]
    exact List.length_pos_iff.mpr hne
  have : Nonempty (ThresholdCore F G) := ⟨(musig_holder c hashToF hctx hne hlen hnodup hchar hl₁).choose⟩
  -- the core of each holder
  choose! cores hcores using fun l (hl : l ∈ participants n) => musig_holder c hashToF hctx hne hlen hnodup hchar hl
  have hshared := musig_sharedKeys c hashToF hchar hgen hcores hl₁
  refine ⟨(cores l₁).groupKey, cores, (hcores l₁ hl₁).groupKey_eq, fun l hl => ?_,
    fun H hram offset transcript draws msg => shared_sign_complete hshared H hram offset transcript draws msg⟩
  have hcore := hcores l hl
  refine ⟨hcore.ok, hcore.t_eq, hcore.n_eq, hcore.i_eq, hshared.groupKey l hl, hcore.verificationShare, ?_,
    fun l' hl' => ?_⟩
  · rw [hcore.interpolates, hshared.groupKey l hl]
  · rw [hshared.verificationShares l' hl', hshared.verificationShares l hl]

end Musig

/-- Two holders of the keys `1` and `2` over the field of five elements sign together. -/
theorem musig_key_gen_signs_two_keys :
    (([1, 2] : List (ZMod 5)).map (· • zmod5Curve.suite.generator)).Nodup ∧
      ∃ (groupKey : ZMod 5) (cores : Participant → ThresholdCore (ZMod 5) (ZMod 5)),
        musigKey zmod5Curve.suite (fun _ _ => 1) [] (([1, 2] : List (ZMod 5)).map (· • zmod5Curve.suite.generator)) =
          .ok groupKey ∧
        (∀ l ∈ participants 2, (cores l).params.i = l ∧ (cores l).groupKey = groupKey) ∧
        ∃ sig, signWithoutCaching zmod5Curve (constDigest 0) (fun _ _ _ => 1)
            ((participants 2).map fun l => (l, AlgorithmMachine.new (Schnorr.new ⟨[]⟩) ⟨cores l, none⟩))
            preprocessDraws5 [] = some sig ∧ sig.verify zmod5Curve.suite groupKey 1 = true := by
  have hnodup : (([1, 2] : List (ZMod 5)).map (· • zmod5Curve.suite.generator)).Nodup := by decide
  have hchar : ([1, 2] : List (ZMod 5)).length < ringChar (ZMod 5) := by
    rw [ZMod.ringChar_zmod_n]
    decide
  obtain ⟨groupKey, cores, hkey, hcores, hsign⟩ := musig_key_gen_signs_under_musig_key zmod5Curve (fun _ _ => 1)
    (show ([] : List UInt8).length ≤ 255 by decide) (by decide) (by decide) hnodup hchar (by decide)
  obtain ⟨sig, hsig, hverify⟩ := hsign (constDigest 0) (fun _ _ _ => 1) none ⟨[]⟩ preprocessDraws5 []
  refine ⟨hnodup, groupKey, cores, hkey, fun l hl => ⟨(hcores l hl).2.2.2.1, (hcores l hl).2.2.2.2.1⟩, sig, hsig, ?_⟩
  -- no offset: the key is the group key
  simpa using hverify

end Serai.Frost
