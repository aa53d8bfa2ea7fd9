import Serai.Dkg.Run
/-
  Serai.Dkg.View — `ThresholdKeys`, the keys with an offset, and the view of them a signing
  set gets (crypto/dkg/src/lib.rs: `ThresholdKeys::group_key`, `ThresholdKeys::view`).

  `view` checks only that the signing set has from `t` to `n` participants. It sorts them,
  scales our secret share and every verification share by its Lagrange coefficient over the
  set, and adds the offset to the lowest participant's shares, unwrapping the lowest
  participant's verification share.
  - `view_eq`: over a set of participants up to `n`, below the characteristic, `view`
    succeeds, whatever the set repeats or leaves out, with the values it computes.
  - `view_accepts_invalid_signing_sets`: so a set with a participant twice, or without us,
    is accepted, and a set of participants above `n` panics (`view_panics`), at a
    `lagrange` or at the `unwrap`. FROST's signing machine checks the set before calling
    `view`; `view` itself does not.
  - `view_interpolates`: over distinct participants, at least `t`, the view's verification
    shares sum to its group key, the core's with the offset, and our share is the secret
    of ours.
-/

namespace Serai.Dkg

open Serai.Crypto Serai.Lib
open Serai.Tributary.Spec (Participant)

variable {F G : Type} [Field F] [DecidableEq F] [AddCommGroup G] [Module F G]

/-- `ThresholdKeys`: a core, and the offset `offset` has accumulated on it. -/
structure ThresholdKeys (F G : Type) where
  core : ThresholdCore F G
  offset : Option F

/-- `ThresholdView`. -/
structure ThresholdView (F G : Type) where
  offset : F
  groupKey : G
  included : List Participant
  secretShare : F
  originalVerificationShares : Std.HashMap Participant G
  verificationShares : Std.HashMap Participant G

/-- `ThresholdKeys::group_key`: the core's, with the offset. -/
def ThresholdKeys.groupKey (C : Ciphersuite F G) (keys : ThresholdKeys F G) : G :=
  keys.core.groupKey + (keys.offset.getD 0) • C.generator

/-- `sort` on participants: by their `u16`. -/
def sortParticipants (included : List Participant) : List Participant :=
  included.insertionSort fun a b => a.val ≤ b.val

/-- `ThresholdKeys::view`; `.panic` is a panic of `lagrange`, of `included[0]` or of the
    `unwrap` of the lowest participant's verification share. -/
def ThresholdKeys.view (C : Ciphersuite F G) (keys : ThresholdKeys F G) (included : List Participant) :
    Except (DkgError Unit) (ThresholdView F G) := do
  if included.length < keys.core.params.t.toNat ∨ keys.core.params.n.toNat < included.length then
    throw .invalidSigningSet
  let included := sortParticipants included
  let some coefficient := lagrange (F := F) keys.core.params.i included | throw .panic
  let secretShare := coefficient * keys.core.secretShare
  -- `*share *= lagrange(*i, &included)` for every verification share, each `lagrange` able to panic
  if keys.core.verificationShares.keys.any fun j => (lagrange (F := F) j included).isNone then throw .panic
  let verificationShares := keys.core.verificationShares.map fun j share => (lagrange (F := F) j included).getD 0 • share
  -- the offset goes to the lowest participant
  let offset := keys.offset.getD 0
  let some first := included.head? | throw .panic
  let secretShare := if first = keys.core.params.i then secretShare + offset else secretShare
  let some share := verificationShares[first]? | throw .panic
  pure ⟨offset, keys.groupKey C, included, secretShare, keys.core.verificationShares,
    verificationShares.insert first (share + offset • C.generator)⟩

/-! ## Signing sets -/

omit [DecidableEq F] [AddCommGroup G] [Module F G] in
theorem perm_sortParticipants (included : List Participant) : (sortParticipants included).Perm included :=
  List.perm_insertionSort _ included

omit [DecidableEq F] [AddCommGroup G] [Module F G] in
theorem mem_sortParticipants {included : List Participant} {j : Participant} :
    j ∈ sortParticipants included ↔ j ∈ included :=
  (perm_sortParticipants included).mem_iff

omit [DecidableEq F] [AddCommGroup G] [Module F G] in
@[simp] theorem length_sortParticipants (included : List Participant) :
    (sortParticipants included).length = included.length :=
  (perm_sortParticipants included).length_eq

theorem interpolate_eq_sum {included : List Participant} {shares : Std.HashMap Participant G}
    (hmem : ∀ l ∈ included, l ∈ shares) (hsome : ∀ l ∈ included, (lagrange (F := F) l included).isSome) :
    interpolate (F := F) included shares =
      some ((included.map fun l => (lagrange (F := F) l included).getD 0 • shares[l]?.getD 0).sum) := by
  unfold interpolate
  rw [mapM_some fun l hl => ?_]
  · rfl
  obtain ⟨v, hv⟩ := Option.isSome_iff_exists.mp (Std.HashMap.mem_iff_isSome_getElem?.mp (hmem l hl))
  obtain ⟨c, hc⟩ := Option.isSome_iff_exists.mp (hsome l hl)
  rw [hv, hc]
  rfl

omit [Field F] [DecidableEq F] [Module F G] in
theorem sum_insert_head (M : Std.HashMap Participant G) {first : Participant} {rest : List Participant}
    (h : first ∉ rest) (x : G) :
    ((first :: rest).map fun l => (M.insert first x)[l]?.getD 0).sum = x + (rest.map fun l => M[l]?.getD 0).sum := by
  rw [List.map_cons, List.sum_cons, Std.HashMap.getElem?_insert_self, Option.getD_some]
  congr 2
  refine List.map_congr_left fun l hl => ?_
  have hne : (first == l) = false := beq_false_of_ne fun heq => h (heq ▸ hl)
  simp only [Std.HashMap.getElem?_insert, hne, Bool.false_eq_true, if_false]

omit [DecidableEq F] in
theorem getD_map_smul (V : Std.HashMap Participant G) (c : Participant → F) (l : Participant) :
    (V.map fun j share => c j • share)[l]?.getD 0 = c l • V[l]?.getD 0 := by
  rw [Std.HashMap.getElem?_map]
  cases V[l]? <;> simp

omit [DecidableEq F] in
theorem mem_stripeShares {n : UInt16} {S : List G} {j : Participant} :
    j ∈ stripeShares (F := F) n S ↔ j ∈ participants n := by
  simp [stripeShares, mem_foldl_insert]

section View

variable (C : Ciphersuite F G) (keys : ThresholdKeys F G)

omit [AddCommGroup G] [Module F G] in
theorem lagrange_isSome_of_range (hchar : keys.core.params.n.toNat < ringChar F) {included : List Participant}
    (hrange : ∀ l ∈ included, l ∈ participants keys.core.params.n) {j : Participant}
    (hj : j ∈ participants keys.core.params.n) : (lagrange (F := F) j (sortParticipants included)).isSome :=
  lagrange_isSome fun l hl hne h =>
    hne (toScalar_injOn hchar (hrange l (mem_sortParticipants.mp hl)) hj h)

theorem view_eq (hkeys : ∀ j, j ∈ keys.core.verificationShares ↔ j ∈ participants keys.core.params.n)
    (hchar : keys.core.params.n.toNat < ringChar F) {included : List Participant}
    (hrange : ∀ j ∈ included, j ∈ participants keys.core.params.n)
    (hlen : keys.core.params.t.toNat ≤ included.length) (hlen' : included.length ≤ keys.core.params.n.toNat) :
    ∃ first, (sortParticipants included).head? = some first ∧ keys.view C included = .ok
      ⟨keys.offset.getD 0, keys.groupKey C, sortParticipants included,
        if first = keys.core.params.i then
          (lagrange keys.core.params.i (sortParticipants included)).getD 0 * keys.core.secretShare + keys.offset.getD 0
        else (lagrange keys.core.params.i (sortParticipants included)).getD 0 * keys.core.secretShare,
        keys.core.verificationShares,
        (keys.core.verificationShares.map fun j share => (lagrange (F := F) j (sortParticipants included)).getD 0 • share).insert
          first ((lagrange (F := F) first (sortParticipants included)).getD 0 • keys.core.verificationShares[first]?.getD 0 +
            keys.offset.getD 0 • C.generator)⟩ := by
  -- the set is not empty: `t` is not zero
  have ht : 0 < keys.core.params.t.toNat := by
    have h0 : keys.core.params.t.toNat ≠ 0 := keys.core.params.t_toNat_ne_zero
    omega
  obtain ⟨first, hfirst⟩ : ∃ first, (sortParticipants included).head? = some first := by
    cases h : sortParticipants included with
    | nil =>
      have hl := length_sortParticipants included
      rw [h, List.length_nil] at hl
      omega
    | cons first _ => exact ⟨first, rfl⟩
  have hfirst_range : first ∈ participants keys.core.params.n :=
    hrange first (mem_sortParticipants.mp (List.mem_of_mem_head? hfirst))
  obtain ⟨ci, hci⟩ := Option.isSome_iff_exists.mp
    (lagrange_isSome_of_range keys hchar hrange (mem_participants.mpr keys.core.params.i_le_n))
  -- no coefficient panics
  have hany : (keys.core.verificationShares.keys.any fun j =>
      (lagrange (F := F) j (sortParticipants included)).isNone) = false := by
    refine List.any_eq_false.mpr fun j hj => ?_
    have hsome := lagrange_isSome_of_range keys hchar hrange ((hkeys j).mp (Std.HashMap.mem_keys.mp hj))
    rw [Option.isSome_iff_exists] at hsome
    obtain ⟨cj, hcj⟩ := hsome
    simp [hcj]
  obtain ⟨v, hv⟩ := Option.isSome_iff_exists.mp
    (Std.HashMap.mem_iff_isSome_getElem?.mp ((hkeys first).mpr hfirst_range))
  refine ⟨first, hfirst, ?_⟩
  unfold ThresholdKeys.view
  rw [if_neg (by omega)]
  simp only [hci, hany, hfirst, Bool.false_eq_true, if_false, Std.HashMap.getElem?_map, hv, Option.map_some,
    Option.getD_some]
  rfl

theorem view_panics (hkeys : ∀ j, j ∈ keys.core.verificationShares ↔ j ∈ participants keys.core.params.n)
    {included : List Participant} (hout : ∀ j ∈ included, keys.core.params.n < j.val)
    (hlen : keys.core.params.t.toNat ≤ included.length) (hlen' : included.length ≤ keys.core.params.n.toNat) :
    keys.view C included = .error .panic := by
  -- the lowest participant is above `n`, so it has no verification share
  have hshare : ∀ first ∈ sortParticipants included, keys.core.verificationShares[first]? = none := by
    intro first hfirst
    refine Std.HashMap.getElem?_eq_none fun hmem => ?_
    have hle := mem_participants.mp ((hkeys first).mp hmem)
    have hlt := hout first (mem_sortParticipants.mp hfirst)
    exact absurd hle (UInt16.not_le.mpr hlt)
  unfold ThresholdKeys.view
  rw [if_neg (by omega)]
  -- whichever of the three `throw`s is reached
  rcases hci : lagrange (F := F) keys.core.params.i (sortParticipants included) with _ | ci
  · simp only [hci]
    rfl
  by_cases hany : (keys.core.verificationShares.keys.any fun j =>
      (lagrange (F := F) j (sortParticipants included)).isNone) = true
  · simp only [hci, hany, if_true]
    rfl
  rcases hfirst : (sortParticipants included).head? with _ | first
  · simp only [hci, hany, hfirst, Bool.false_eq_true, if_false]
    rfl
  have hnone := hshare first (List.mem_of_mem_head? hfirst)
  simp only [hci, hany, hfirst, Bool.false_eq_true, if_false, Std.HashMap.getElem?_map, hnone, Option.map_none]
  rfl

/-- `view` checks the signing set's length only. Over keys of `1..=n` below the
    characteristic, a set of `t` to `n` participants up to `n` is accepted whether it repeats
    a participant or leaves ours out, and one of participants all above `n` panics; neither
    is an error. -/
theorem view_accepts_invalid_signing_sets
    (hkeys : ∀ j, j ∈ keys.core.verificationShares ↔ j ∈ participants keys.core.params.n)
    (hchar : keys.core.params.n.toNat < ringChar F) {included : List Participant}
    (hlen : keys.core.params.t.toNat ≤ included.length) (hlen' : included.length ≤ keys.core.params.n.toNat) :
    ((∀ j ∈ included, j ∈ participants keys.core.params.n) →
      ∃ view, keys.view C included = .ok view ∧ view.included = sortParticipants included) ∧
    ((∀ j ∈ included, keys.core.params.n < j.val) → keys.view C included = .error .panic) := by
  refine ⟨fun hrange => ?_, fun hout => view_panics C keys hkeys hout hlen hlen'⟩
  obtain ⟨_, _, hview⟩ := view_eq C keys hkeys hchar hrange hlen hlen'
  exact ⟨_, hview, rfl⟩

end View

/-- Keys of participant 1 of two of three, holding the shares of the line `1 + X` (its own
    is `1 + 1`), with an offset of `1 + 1`. -/
def keys5 : ThresholdKeys (ZMod 5) (ZMod 5) :=
  ⟨⟨twoOfThree, 1 + 1, 1, stripeShares (F := ZMod 5) twoOfThree.n [1, 1]⟩, some (1 + 1)⟩

theorem view_accepts_repeated_signer :
    (∃ view, keys5.view zmod5Suite [⟨2, by decide⟩, ⟨2, by decide⟩] = .ok view ∧
      view.included = sortParticipants [⟨2, by decide⟩, ⟨2, by decide⟩]) ∧
    keys5.view zmod5Suite [⟨4, by decide⟩, ⟨4, by decide⟩] = .error .panic :=
  have hkeys : ∀ j, j ∈ keys5.core.verificationShares ↔ j ∈ participants keys5.core.params.n :=
    fun _ => mem_stripeShares
  have hchar : keys5.core.params.n.toNat < ringChar (ZMod 5) := by
    rw [ZMod.ringChar_zmod_n]
    decide
  ⟨(view_accepts_invalid_signing_sets zmod5Suite keys5 hkeys hchar (by decide) (by decide)).1 (by decide),
    (view_accepts_invalid_signing_sets zmod5Suite keys5 hkeys hchar (by decide) (by decide)).2 (by decide)⟩

theorem view_sums {C : Ciphersuite F G} {keys : ThresholdKeys F G}
    (hkeys : ∀ j, j ∈ keys.core.verificationShares ↔ j ∈ participants keys.core.params.n)
    (hchar : keys.core.params.n.toNat < ringChar F) {included : List Participant}
    (hnodup : included.Nodup) (hrange : ∀ j ∈ included, j ∈ participants keys.core.params.n)
    (hlen : keys.core.params.t.toNat ≤ included.length) (hlen' : included.length ≤ keys.core.params.n.toNat)
    (hint : interpolate (F := F) (sortParticipants included) keys.core.verificationShares = some keys.core.groupKey)
    (hVi : keys.core.verificationShares[keys.core.params.i]?.getD 0 = keys.core.secretShare • C.generator) :
    ∃ view, keys.view C included = .ok view ∧
      view.groupKey = keys.core.groupKey + keys.offset.getD 0 • C.generator ∧
      (view.included.map fun l => view.verificationShares[l]?.getD 0).sum = view.groupKey ∧
      view.secretShare • C.generator = view.verificationShares[keys.core.params.i]?.getD 0 := by
  have hsub : ∀ l ∈ sortParticipants included, l ∈ participants keys.core.params.n :=
    fun l hl => hrange l (mem_sortParticipants.mp hl)
  obtain ⟨first, hfirst, hview⟩ := view_eq C keys hkeys hchar hrange hlen hlen'
  refine ⟨_, hview, rfl, ?_, ?_⟩
  · -- the shares interpolate over the sorted set, whose head carries the offset
    have hnodup' : (sortParticipants included).Nodup := (perm_sortParticipants included).nodup_iff.mpr hnodup
    rw [interpolate_eq_sum (fun l hl => (hkeys l).mpr (hsub l hl))
      (fun l hl => lagrange_isSome_of_range keys hchar hrange (hsub l hl))] at hint
    obtain ⟨rest, hsorted⟩ := List.head?_eq_some_iff.mp hfirst
    rw [hsorted] at hint hnodup'
    dsimp only
    rw [hsorted, sum_insert_head _ (List.nodup_cons.mp hnodup').1]
    simp only [getD_map_smul]
    rw [ThresholdKeys.groupKey, ← Option.some_inj.mp hint, List.map_cons, List.sum_cons]
    abel
  · -- the offset goes to both our secret share and our verification share, or to neither
    dsimp only
    rw [Std.HashMap.getElem?_insert]
    by_cases h : first = keys.core.params.i
    · simp only [h, beq_self_eq_true, if_true, Option.getD_some]
      rw [hVi, add_smul, mul_smul]
    · simp only [beq_iff_eq, h, if_false]
      rw [getD_map_smul, hVi, mul_smul]

theorem view_interpolates {C : Ciphersuite F G} {keys : ThresholdKeys F G} {cm : Std.HashMap Participant (List G)}
    (hc : Consistent C keys.core cm) (hchar : keys.core.params.n.toNat < ringChar F) {included : List Participant}
    (hnodup : included.Nodup) (hrange : ∀ j ∈ included, j ∈ participants keys.core.params.n)
    (hlen : keys.core.params.t.toNat ≤ included.length) (hlen' : included.length ≤ keys.core.params.n.toNat) :
    ∃ view, keys.view C included = .ok view ∧
      view.groupKey = keys.core.groupKey + keys.offset.getD 0 • C.generator ∧
      (view.included.map fun l => view.verificationShares[l]?.getD 0).sum = view.groupKey ∧
      view.secretShare • C.generator = view.verificationShares[keys.core.params.i]?.getD 0 := by
  have hkeys : ∀ j, j ∈ keys.core.verificationShares ↔ j ∈ participants keys.core.params.n := fun _ => by
    rw [hc.verificationShares]
    exact mem_stripeShares
  have hnodup' : (sortParticipants included).Nodup := (perm_sortParticipants included).nodup_iff.mpr hnodup
  have hint := hc.interpolate _ hnodup' (fun l hl => hrange l (mem_sortParticipants.mp hl))
    (by rw [length_sortParticipants]; exact hlen)
  -- our verification share is `secret_share·G`
  have hVi : keys.core.verificationShares[keys.core.params.i]?.getD 0 = keys.core.secretShare • C.generator := by
    rw [hc.getElem?_verificationShares (mem_participants.mpr keys.core.params.i_le_n), Option.getD_some,
      hc.secretShare]
  exact view_sums hkeys hchar hnodup hrange hlen hlen' hint hVi

end Serai.Dkg
