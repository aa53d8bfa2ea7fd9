import Mathlib
import Serai.Dkg.View
import Serai.Lib.Msm
/-
  Serai.Dkg.Musig — the n-of-n key generation of MuSig, embedded in the threshold keys
  (crypto/dkg/src/musig.rs: `check_keys`, `binding_factor_transcript`, `binding_factor`,
  `musig_key`, `musig`).

  Every key is bound by a factor hashed from the context, the keys and its position, and
  the group key is the sum of the bound keys. `musig` builds the `ThresholdCore` of one key
  holder with `t = n` the number of keys: its verification shares are the bound keys, each
  divided by its Lagrange coefficient over `1..=n`, so that a view of the one signing set
  multiplies the coefficient back in.

  Over keys no two alike, below the field's characteristic, with our key among them:
  - `musig_eq`: `musig` succeeds, with the values it computes.
  - `musig_consistent_with_musig_key`: its group key is `musig_key`'s, our verification
    share is our secret share's, the shares are held by `1..=n` and interpolate over them to
    the group key, every key holder gets the same group key and shares, and every view of
    the set interpolates to the group key with its offset. No `invert().unwrap()` panics.
    Serai.Frost.Musig signs with them.
-/

namespace Serai.Dkg

open Serai.Crypto Serai.Lib
open Serai.Tributary.Spec (Participant)

variable {F G : Type} [Field F] [DecidableEq F] [AddCommGroup G] [Module F G]

/-- `check_keys`: at least one key, at most `u16::MAX`, no two with one encoding; their number. -/
def checkKeys (C : Ciphersuite F G) (keys : List G) : Except (DkgError Unit) UInt16 := do
  if keys.isEmpty then throw .invalidSigningSet
  -- `u16::try_from(keys.len())`
  if 2 ^ 16 ≤ keys.length then throw .invalidSigningSet
  -- the `HashSet` of the encodings is as large as the list
  if (keys.map C.toBytes).dedup.length ≠ keys.length then throw .invalidSigningSet
  pure (UInt16.ofNat keys.length)

/-- `binding_factor_transcript`: the context's length as a `u8`, the context, the number of
    keys as a `u16` (whose `unwrap` panics above it) and every key's encoding. -/
def bindingFactorTranscript (C : Ciphersuite F G) (context : List UInt8) (keys : List G) :
    Except (DkgError Unit) (List UInt8) := do
  if 2 ^ 8 ≤ context.length then throw .invalidSigningSet
  if 2 ^ 16 ≤ keys.length then throw .panic
  pure ([UInt8.ofNat context.length] ++ context ++ u16ToLeBytes (UInt16.ofNat keys.length) ++
    keys.flatMap C.toBytes)

/-- `binding_factor`: `C::hash_to_F(b"musig", transcript || i)`. -/
def bindingFactor (hashToF : String → List UInt8 → F) (transcript : List UInt8) (i : UInt16) : F :=
  hashToF "musig" (transcript ++ u16ToLeBytes i)

/-- `musig_key`: `Σ keys[i - 1] * binding_factor(i)` over `i` in `1..=keys_len`. -/
def musigKey (C : Ciphersuite F G) (hashToF : String → List UInt8 → F) (context : List UInt8)
    (keys : List G) : Except (DkgError Unit) G := do
  let keysLen ← checkKeys C keys
  let transcript ← bindingFactorTranscript C context keys
  pure ((List.range keysLen.toNat).foldl (fun res k =>
    res + bindingFactor hashToF transcript (UInt16.ofNat (k + 1)) • keys.getD k 0) 0)

/-- One pass of `musig`'s loop over `included.iter().enumerate()`: the bound key
    `keys[l] * binding[l]` joins the group key, our secret share is divided by our Lagrange
    coefficient, and the bound key divided by its own is `p`'s verification share. -/
def musigStep (i : Participant) (binding : List F) (keys : List G) (included : List Participant)
    (acc : G × F × Std.HashMap Participant G) (pl : Participant × ℕ) : G × F × Std.HashMap Participant G :=
  (acc.1 + binding.getD pl.2 0 • keys.getD pl.2 0,
    if i = pl.1 then acc.2.1 * ((lagrange (F := F) pl.1 included).getD 0)⁻¹ else acc.2.1,
    acc.2.2.insert pl.1 (((lagrange (F := F) pl.1 included).getD 0)⁻¹ • (binding.getD pl.2 0 • keys.getD pl.2 0)))

/-- `musig`; `.panic` is a panic of `lagrange` or of `invert().unwrap()` in the loop, which
    aborts whatever the loop has done. -/
def musig [DecidableEq G] (C : Ciphersuite F G) (hashToF : String → List UInt8 → F) (context : List UInt8)
    (privateKey : F) (keys : List G) : Except (DkgError Unit) (ThresholdCore F G) := do
  let keysLen ← checkKeys C keys
  let ourPubKey := privateKey • C.generator
  let some pos := keys.findIdx? (· == ourPubKey) | throw .invalidSigningSet
  -- `(pos + 1).try_into()`, then `Participant::new`
  if 2 ^ 16 ≤ pos + 1 then throw .invalidSigningSet
  let some i := Participant.new (UInt16.ofNat (pos + 1)) | throw .invalidSigningSet
  let params ← ThresholdParams.new keysLen keysLen i
  let transcript ← bindingFactorTranscript C context keys
  let binding := (List.range keysLen.toNat).map fun k => bindingFactor hashToF transcript (UInt16.ofNat (k + 1))
  let secretShare := privateKey * binding.getD pos 0
  let some included := (List.range keysLen.toNat).mapM (fun k => Participant.new (UInt16.ofNat (k + 1)))
    | throw .invalidSigningSet
  if included.any fun p => (lagrange (F := F) p included).getD 0 = 0 then throw .panic
  let loop := included.zipIdx.foldl (musigStep params.i binding keys included) (0, secretShare, ∅)
  pure ⟨params, loop.2.1, loop.1, loop.2.2⟩

/-! ## Checks and transcript -/

omit [DecidableEq F] in
theorem checkKeys_eq (C : Ciphersuite F G) {keys : List G} (hne : keys ≠ []) (hlen : keys.length < 2 ^ 16)
    (hnodup : keys.Nodup) : checkKeys C keys = .ok (UInt16.ofNat keys.length) := by
  have hinj : Function.Injective C.toBytes := fun a b h =>
    Option.some_inj.mp (by rw [← C.fromBytes_toBytes a, h, C.fromBytes_toBytes])
  have hdedup : (keys.map C.toBytes).dedup = keys.map C.toBytes := List.dedup_eq_self.mpr (hnodup.map hinj)
  have hempty : keys.isEmpty = false := List.isEmpty_eq_false_iff.mpr hne
  unfold checkKeys
  rw [if_neg (Nat.not_le.mpr hlen), hdedup, List.length_map]
  simp [hempty]
  rfl

omit [DecidableEq F] in
theorem bindingFactorTranscript_eq (C : Ciphersuite F G) {context : List UInt8} {keys : List G}
    (hctx : context.length < 2 ^ 8) (hlen : keys.length < 2 ^ 16) :
    bindingFactorTranscript C context keys = .ok ([UInt8.ofNat context.length] ++ context ++
      u16ToLeBytes (UInt16.ofNat keys.length) ++ keys.flatMap C.toBytes) := by
  unfold bindingFactorTranscript
  rw [if_neg (Nat.not_le.mpr hctx), if_neg (Nat.not_le.mpr hlen)]
  rfl

omit [Field F] [DecidableEq F] [AddCommGroup G] [Module F G] in
theorem findIdx?_eq_of_nodup [DecidableEq G] {keys : List G} (hnodup : keys.Nodup) {pos : ℕ} {key : G}
    (hpos : keys[pos]? = some key) : keys.findIdx? (· == key) = some pos := by
  obtain ⟨hlt, hkey⟩ := List.getElem?_eq_some_iff.mp hpos
  refine List.findIdx?_eq_some_iff_getElem.mpr ⟨hlt, by simp [hkey], fun j hj hkj => ?_⟩
  have hj' : keys[j] = keys[pos] := by simpa [hkey] using hkj
  exact absurd ((hnodup.getElem_inj_iff).mp hj') (Nat.ne_of_lt hj)

/-! ## `musig` -/

theorem ofNat_ne_zero_of_lt {m : ℕ} (hm : 0 < m) (hlt : m < 2 ^ 16) : UInt16.ofNat m ≠ 0 := fun h => by
  have := congrArg UInt16.toNat h
  rw [UInt16.toNat_ofNat_of_lt' hlt, UInt16.toNat_zero] at this
  omega

theorem foldl_musigStep (i : Participant) (binding : List F) (keys : List G) (included : List Participant)
    {l : List Participant} (hnodup : l.Nodup) (acc : G × F × Std.HashMap Participant G) :
    (l.map fun p => (p, p.val.toNat - 1)).foldl (musigStep i binding keys included) acc =
      (acc.1 + (l.map fun p => binding.getD (p.val.toNat - 1) 0 • keys.getD (p.val.toNat - 1) 0).sum,
        if i ∈ l then acc.2.1 * ((lagrange (F := F) i included).getD 0)⁻¹ else acc.2.1,
        l.foldl (fun m p => m.insert p (((lagrange (F := F) p included).getD 0)⁻¹ •
          (binding.getD (p.val.toNat - 1) 0 • keys.getD (p.val.toNat - 1) 0))) acc.2.2) := by
  induction l generalizing acc with
  | nil => simp
  | cons p l ih =>
    rw [List.map_cons, List.foldl_cons, ih hnodup.of_cons]
    have hp : p ∉ l := (List.nodup_cons.mp hnodup).1
    simp only [musigStep, List.map_cons, List.sum_cons, List.foldl_cons, List.mem_cons, add_assoc]
    congr 1
    -- we are `p`, which is in none of the rest, or we are among the rest
    by_cases hip : i = p
    · subst hip
      simp [hp]
    · simp [hip]

theorem musig_eq [DecidableEq G] (C : Ciphersuite F G) (hashToF : String → List UInt8 → F) {context : List UInt8}
    {privateKey : F} {keys : List G} {pos : ℕ} {transcript : List UInt8}
    (htranscript : bindingFactorTranscript C context keys = .ok transcript) (hne : keys ≠ [])
    (hlen : keys.length < 2 ^ 16) (hnodup : keys.Nodup) (hchar : keys.length < ringChar F)
    (hpos : keys[pos]? = some (privateKey • C.generator)) :
    ∃ core, musig C hashToF context privateKey keys = .ok core ∧
      core.params.t = UInt16.ofNat keys.length ∧ core.params.n = UInt16.ofNat keys.length ∧
      core.params.i.val.toNat = pos + 1 ∧
      core.secretShare = privateKey * bindingFactor hashToF transcript core.params.i.val *
        ((lagrange (F := F) core.params.i (participants core.params.n)).getD 0)⁻¹ ∧
      core.groupKey = ((List.range keys.length).map fun k =>
        bindingFactor hashToF transcript (UInt16.ofNat (k + 1)) • keys.getD k 0).sum ∧
      core.verificationShares = (participants core.params.n).foldl (fun m j =>
        m.insert j (((lagrange (F := F) j (participants core.params.n)).getD 0)⁻¹ •
          (bindingFactor hashToF transcript j.val • keys.getD (j.val.toNat - 1) 0))) ∅ := by
  have hposlt : pos < keys.length := (List.getElem?_eq_some_iff.mp hpos).1
  -- `n = keys.len()` and `i = pos + 1` as `u16`s: no `try_from` fails
  have hn : (UInt16.ofNat keys.length).toNat = keys.length := UInt16.toNat_ofNat_of_lt' hlen
  have hi' : (UInt16.ofNat (pos + 1)).toNat = pos + 1 := UInt16.toNat_ofNat_of_lt' (show pos + 1 < 2 ^ 16 by omega)
  have hi : UInt16.ofNat (pos + 1) ≠ 0 := ofNat_ne_zero_of_lt (Nat.succ_pos pos) (by omega)
  have hchar' : (UInt16.ofNat keys.length).toNat < ringChar F := by rw [hn]; exact hchar
  have hlen0 : UInt16.ofNat keys.length ≠ 0 := ofNat_ne_zero_of_lt (List.length_pos_iff.mpr hne) hlen
  have hile : ¬ UInt16.ofNat (pos + 1) > UInt16.ofNat keys.length := by
    rw [gt_iff_lt, UInt16.lt_iff_toNat_lt, hn, hi']
    omega
  -- no coefficient over `1..=n` is zero
  have hany : ((participants (UInt16.ofNat keys.length)).any fun p =>
      decide ((lagrange (F := F) p (participants (UInt16.ofNat keys.length))).getD 0 = 0)) = false :=
    List.any_eq_false.mpr fun p hp => by simpa using lagrange_participants_ne_zero hchar' hp
  have hgt : ¬ UInt16.ofNat keys.length > UInt16.ofNat keys.length := UInt16.lt_irrefl _
  have hnew : Participant.new (UInt16.ofNat (pos + 1)) = some ⟨_, hi⟩ := dif_neg hi
  unfold musig
  simp only [checkKeys_eq C hne hlen hnodup, findIdx?_eq_of_nodup hnodup hpos, bind, Except.bind,
    if_neg (show ¬ 2 ^ 16 ≤ pos + 1 by omega), hnew, htranscript, ThresholdParams.new,
    hlen0, or_self, dite_false, dif_neg hile, dif_neg hgt, mapM_participantNew,
    hany, Bool.false_eq_true, if_false, zipIdx_participants,
    foldl_musigStep _ _ _ _ (nodup_participants (UInt16.ofNat keys.length))]
  have hbinding : ∀ k < keys.length, ((List.range (UInt16.ofNat keys.length).toNat).map fun k =>
      bindingFactor hashToF transcript (UInt16.ofNat (k + 1))).getD k 0 =
      bindingFactor hashToF transcript (UInt16.ofNat (k + 1)) := fun k hk => by
    rw [List.getD_eq_getElem?_getD, List.getElem?_map, List.getElem?_range (by omega)]
    rfl
  have hidx : ∀ j ∈ participants (UInt16.ofNat keys.length), j.val.toNat - 1 < keys.length := fun j hj => by
    have hle := UInt16.le_iff_toNat_le.mp (mem_participants.mp hj)
    rw [hn] at hle
    omega
  have hmem : (⟨UInt16.ofNat (pos + 1), hi⟩ : Participant) ∈ participants (UInt16.ofNat keys.length) :=
    mem_participants.mpr (UInt16.not_lt.mp hile)
  refine ⟨_, rfl, rfl, rfl, ?_, ?_, ?_, ?_⟩
  · exact hi'
  · dsimp only
    rw [if_pos hmem, hbinding pos hposlt]
  · -- the participants' indices minus one are `0..n`
    dsimp only
    have hsum := map_val_participants_pred (UInt16.ofNat keys.length) fun k =>
      bindingFactor hashToF transcript (UInt16.ofNat (k + 1)) • keys.getD k 0
    rw [hn] at hsum
    rw [zero_add, ← hsum]
    refine congrArg List.sum (List.map_congr_left fun j hj => ?_)
    rw [hbinding _ (hidx j hj)]
  · refine List.foldl_ext _ _ _ fun m j hj => ?_
    rw [hbinding _ (hidx j hj), ofNat_val_pred]

omit [DecidableEq F] in
theorem musigKey_eq (C : Ciphersuite F G) (hashToF : String → List UInt8 → F) {context : List UInt8}
    {keys : List G} {transcript : List UInt8} (htranscript : bindingFactorTranscript C context keys = .ok transcript)
    (hne : keys ≠ []) (hlen : keys.length < 2 ^ 16) (hnodup : keys.Nodup) :
    musigKey C hashToF context keys = .ok ((List.range keys.length).map fun k =>
      bindingFactor hashToF transcript (UInt16.ofNat (k + 1)) • keys.getD k 0).sum := by
  have hn : (UInt16.ofNat keys.length).toNat = keys.length := UInt16.toNat_ofNat_of_lt' hlen
  unfold musigKey
  simp only [checkKeys_eq C hne hlen hnodup, htranscript, bind, Except.bind, hn, foldl_add_eq_add_sum, zero_add]
  rfl

theorem interpolate_foldl_inv_lagrange {n : UInt16} (hn : n.toNat < ringChar F) (x : Participant → G) :
    interpolate (F := F) (participants n) ((participants n).foldl (fun m j =>
      m.insert j (((lagrange (F := F) j (participants n)).getD 0)⁻¹ • x j)) ∅) = some ((participants n).map x).sum := by
  rw [interpolate_eq_sum (fun j hj => (mem_foldl_insert _ _ _ j).mpr (.inl hj))
    (fun j hj => lagrange_isSome fun l hl hne h => hne (toScalar_injOn hn hl hj h))]
  refine congrArg (some ∘ List.sum) (List.map_congr_left fun j hj => ?_)
  rw [getElem?_foldl_insert, if_pos hj, Option.getD_some, smul_smul,
    mul_inv_cancel₀ (lagrange_participants_ne_zero hn hj), one_smul]

/-- The n-of-n keys of `musig` are those of `musig_key`: ours is our secret's, they
    interpolate over `1..=n` to the group key without a panic, every key holder builds the
    same, and every view of the one signing set interpolates to the group key with its offset. -/
theorem musig_consistent_with_musig_key [DecidableEq G] (C : Ciphersuite F G) (hashToF : String → List UInt8 → F)
    {context : List UInt8} {privateKey : F} {keys : List G} {pos : ℕ} (hctx : context.length ≤ 255)
    (hne : keys ≠ []) (hlen : keys.length ≤ 65535) (hnodup : keys.Nodup) (hchar : keys.length < ringChar F)
    (hpos : keys[pos]? = some (privateKey • C.generator)) :
    ∃ core, musig C hashToF context privateKey keys = .ok core ∧
      core.params.t.toNat = keys.length ∧ core.params.n.toNat = keys.length ∧ core.params.i.val.toNat = pos + 1 ∧
      musigKey C hashToF context keys = .ok core.groupKey ∧
      core.verificationShares[core.params.i]? = some (core.secretShare • C.generator) ∧
      (∀ j, j ∈ core.verificationShares ↔ j ∈ participants core.params.n) ∧
      interpolate (F := F) (participants core.params.n) core.verificationShares = some core.groupKey ∧
      (∀ (privateKey' : F) (pos' : ℕ), keys[pos']? = some (privateKey' • C.generator) →
        ∃ core', musig C hashToF context privateKey' keys = .ok core' ∧
          core'.groupKey = core.groupKey ∧ core'.verificationShares = core.verificationShares) ∧
      ∀ offset : Option F, ∃ view, (ThresholdKeys.mk core offset).view C (participants core.params.n) = .ok view ∧
        view.groupKey = core.groupKey + offset.getD 0 • C.generator ∧
        (view.included.map fun l => view.verificationShares[l]?.getD 0).sum = view.groupKey ∧
        view.secretShare • C.generator = view.verificationShares[core.params.i]?.getD 0 := by
  have hlen' : keys.length < 2 ^ 16 := by norm_num; omega
  obtain ⟨transcript, htr⟩ : ∃ transcript, bindingFactorTranscript C context keys = .ok transcript :=
    ⟨_, bindingFactorTranscript_eq C (by norm_num; omega) hlen'⟩
  obtain ⟨core, hcore, ht, hn, hi, hs, hg, hv⟩ := musig_eq C hashToF htr hne hlen' hnodup hchar hpos
  have hnN : core.params.n.toNat = keys.length := by rw [hn]; exact UInt16.toNat_ofNat_of_lt' hlen'
  have hchar' : core.params.n.toNat < ringChar F := by rw [hnN]; exact hchar
  have hinj : ∀ a ∈ participants core.params.n, ∀ b ∈ participants core.params.n, a ≠ b →
      (toScalar a : F) ≠ toScalar b := fun a ha b hb hne h => hne (toScalar_injOn hchar' ha hb h)
  -- the shares are those of `1..=n`, each the bound key divided by its coefficient
  have hkeys : ∀ j, j ∈ core.verificationShares ↔ j ∈ participants core.params.n := fun j => by
    simp [hv, mem_foldl_insert]
  have hVi : core.verificationShares[core.params.i]? = some (core.secretShare • C.generator) := by
    have hkey : keys.getD (core.params.i.val.toNat - 1) 0 = privateKey • C.generator := by
      rw [hi, Nat.add_sub_cancel, List.getD_eq_getElem?_getD, hpos]
      rfl
    rw [hv, getElem?_foldl_insert, if_pos (mem_participants.mpr core.params.i_le_n), hkey, hs, mul_comm,
      mul_smul, mul_comm privateKey, mul_smul]
  -- the coefficients multiply back in: the shares interpolate to the sum of the bound keys
  have hinterp : interpolate (F := F) (participants core.params.n) core.verificationShares = some core.groupKey := by
    have hsum := map_val_participants_pred core.params.n fun k =>
      bindingFactor hashToF transcript (UInt16.ofNat (k + 1)) • keys.getD k 0
    simp only [ofNat_val_pred, hnN] at hsum
    rw [hv, interpolate_foldl_inv_lagrange hchar', hsum, hg]
  refine ⟨core, hcore, by rw [ht, ← hn]; exact hnN, hnN, hi,
    by rw [musigKey_eq C hashToF htr hne hlen' hnodup, hg], hVi, hkeys, hinterp, ?_, fun offset => ?_⟩
  · -- every key holder computes the same group key and shares
    intro privateKey' pos' hpos'
    obtain ⟨core', hcore', -, hn', -, -, hg', hv'⟩ := musig_eq C hashToF htr hne hlen' hnodup hchar hpos'
    exact ⟨core', hcore', hg'.trans hg.symm, by rw [hv', hv, hn', hn]⟩
  · -- the one signing set is `1..=n`, sorted or not
    have hint : interpolate (F := F) (sortParticipants (participants core.params.n)) core.verificationShares =
        some core.groupKey := by
      rw [interpolate_perm (perm_sortParticipants _).symm (nodup_participants _) hinj
        fun a ha => (hkeys a).mpr ha]
      exact hinterp
    exact view_sums hkeys hchar' (nodup_participants _) (fun _ hj => hj)
      (by rw [length_participants, ht, hn]) (by rw [length_participants]) hint (by rw [hVi]; rfl)

end Serai.Dkg
