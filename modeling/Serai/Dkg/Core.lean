import Mathlib
import Serai.Crypto.Ciphersuite
import Serai.Lib.HashMap
import Serai.Lib.Interpolation
import Serai.Tributary.Spec
/-
  Serai.Dkg.Core — participants, threshold parameters, Lagrange coefficients and the keys
  a DKG produces (crypto/dkg/src/lib.rs: `validate_map`, `ThresholdParams`, `lagrange`,
  `ThresholdCore`).

  Participants are the nonzero `u16`s; as scalars they are `F::from(l)`, distinct and
  nonzero for the indices up to `n` as long as `n` is below the field's characteristic
  (`toScalar_injOn`, `toScalar_ne_zero`). `validate_map` admits exactly the maps whose
  keys are the included participants other than ours (`keys_of_validateMap`). `lagrange`
  computes its coefficient as one numerator and one denominator, and `unwrap`s the
  denominator's inverse; over distinct indices that never panics and is the Lagrange
  coefficient at zero (`lagrange_eq`).

  `ThresholdCore::new` derives the group key by interpolating the verification shares of
  `1..=t` at zero (`interpolate`). `serialize` writes the curve's `ID`, `t`, `n`, `i`, the
  secret share and the verification shares of `1..=n`; `read` reads them back and
  rebuilds the keys with `ThresholdCore::new`. So a core whose verification shares are a
  map of `1..=n` and whose group key is what the shares of `1..=t` interpolate to is read
  back as itself (`read_serialize`).
-/

namespace Serai.Dkg

open Serai.Crypto Serai.Lib
open Serai.Tributary.Spec (Participant)

/-- `#[derive(Hash)]` on `Participant` hashes its `u16`. -/
instance : Hashable Participant := ⟨fun p => hash p.val⟩

variable {F G : Type}

/-- `F::from(u64::from(u16::from(l)))`. -/
def toScalar [Field F] (p : Participant) : F := (p.val.toNat : F)

/-- `(1 ..= n).map(Participant)`. -/
def participants (n : UInt16) : List Participant :=
  (List.range n.toNat).filterMap fun k => Participant.new (UInt16.ofNat (k + 1))

/-- `DkgError`, with the panics of the code as one more outcome. -/
inductive DkgError (B : Type) where
  | zeroParameter (t n : UInt16)
  | invalidThreshold (t n : UInt16)
  | invalidParticipant (n : UInt16) (i : Participant)
  | invalidSigningSet
  | invalidParticipantQuantity (expected got : ℕ)
  | duplicatedParticipant (p : Participant)
  | missingParticipant (p : Participant)
  | invalidCommitments (p : Participant)
  | invalidShare (participant : Participant) (blame : Option B)
  | panic

/-- `validate_map`: the map has one entry for each included participant but ours. -/
def validateMap {T B : Type} (map : Std.HashMap Participant T) (included : List Participant)
    (ours : Participant) : Except (DkgError B) Unit := do
  if map.size + 1 ≠ included.length then
    throw (.invalidParticipantQuantity included.length (map.size + 1))
  included.forM fun included =>
    if included = ours then
      if map.contains included then throw (.duplicatedParticipant included) else pure ()
    else if !map.contains included then throw (.missingParticipant included) else pure ()

/-- `ThresholdParams`: its fields are set by `new` only, which checks them. -/
structure ThresholdParams where
  t : UInt16
  n : UInt16
  i : Participant
  t_ne_zero : t ≠ 0
  t_le_n : t ≤ n
  i_le_n : i.val ≤ n

theorem ThresholdParams.t_toNat_ne_zero (p : ThresholdParams) : p.t.toNat ≠ 0 :=
  fun h => p.t_ne_zero (UInt16.toNat_inj.mp h)

/-- `ThresholdParams::new`. -/
def ThresholdParams.new (t n : UInt16) (i : Participant) : Except (DkgError Unit) ThresholdParams :=
  if h0 : t = 0 ∨ n = 0 then .error (.zeroParameter t n)
  else if ht : t > n then .error (.invalidThreshold t n)
  else if hi : i.val > n then .error (.invalidParticipant n i)
  else .ok ⟨t, n, i, fun h => h0 (.inl h), UInt16.not_lt.mp ht, UInt16.not_lt.mp hi⟩

/-! ## Participants -/

theorem mem_participants {n : UInt16} {p : Participant} : p ∈ participants n ↔ p.val ≤ n := by
  have hp : p.val.toNat ≠ 0 := p.toNat_ne_zero
  have hn := n.toNat_lt
  simp only [participants, List.mem_filterMap, List.mem_range, Participant.new, UInt16.le_iff_toNat_le]
  constructor
  · rintro ⟨k, hk, h⟩
    split at h
    · cases h
    · cases h
      simp only [UInt16.toNat_ofNat', Nat.reducePow]
      omega
  · intro h
    refine ⟨p.val.toNat - 1, by omega, ?_⟩
    have hval : UInt16.ofNat (p.val.toNat - 1 + 1) = p.val := by
      rw [Nat.sub_add_cancel (Nat.pos_of_ne_zero hp)]
      exact UInt16.ofNat_toNat
    rw [dif_neg (by rw [hval]; exact p.ne_zero)]
    congr 1
    cases p
    simp only [Participant.mk.injEq]
    exact hval

theorem map_val_participants (n : UInt16) :
    (participants n).map (fun p => p.val.toNat) = (List.range n.toNat).map (· + 1) := by
  have hn := n.toNat_lt
  rw [participants, List.map_filterMap, ← List.filterMap_eq_map]
  refine List.filterMap_congr fun k hk => ?_
  have hk : k + 1 < 65536 := by rw [List.mem_range] at hk; change n.toNat < 65536 at hn; omega
  have hne : UInt16.ofNat (k + 1) ≠ 0 := by
    intro h
    have := congrArg UInt16.toNat h
    simp only [UInt16.toNat_ofNat', Nat.reducePow, UInt16.toNat_zero] at this
    omega
  simp only [Participant.new, dif_neg hne, Option.map_some, Function.comp_apply, UInt16.toNat_ofNat', Nat.reducePow]
  congr 1
  omega

theorem nodup_participants (n : UInt16) : (participants n).Nodup := by
  have h : ((participants n).map fun p => p.val.toNat).Nodup := by
    rw [map_val_participants]
    exact List.nodup_range.map fun a b h => by omega
  exact h.of_map _

@[simp] theorem length_participants (n : UInt16) : (participants n).length = n.toNat := by
  rw [← List.length_map (f := fun p : Participant => p.val.toNat), map_val_participants]
  simp

theorem val_getElem_participants {n : UInt16} {k : ℕ} (hk : k < (participants n).length) :
    ((participants n)[k]).val.toNat = k + 1 := by
  have h := congrArg (fun l => l[k]?) (map_val_participants n)
  have hk' : k < n.toNat := by
    have := congrArg List.length (map_val_participants n)
    simp only [List.length_map, List.length_range] at this
    omega
  simp only [List.getElem?_map, List.getElem?_eq_getElem hk, List.getElem?_range hk', Option.map_some,
    Option.some_inj] at h
  exact h

theorem zipIdx_participants (n : UInt16) :
    (participants n).zipIdx = (participants n).map fun p => (p, p.val.toNat - 1) := by
  refine List.ext_getElem (by simp) fun k h₁ h₂ => ?_
  rw [List.getElem_zipIdx, List.getElem_map, val_getElem_participants]
  simp

theorem map_val_participants_pred {α : Type} (n : UInt16) (f : ℕ → α) :
    (participants n).map (fun p => f (p.val.toNat - 1)) = (List.range n.toNat).map f := by
  have h := congrArg (List.map fun v => f (v - 1)) (map_val_participants n)
  simpa [List.map_map, Function.comp_def] using h

theorem ofNat_val_pred (j : Participant) : UInt16.ofNat (j.val.toNat - 1 + 1) = j.val := by
  have hpos : j.val.toNat ≠ 0 := j.toNat_ne_zero
  rw [Nat.sub_add_cancel (Nat.pos_of_ne_zero hpos)]
  exact UInt16.ofNat_toNat

theorem mapM_participantNew (n : UInt16) :
    (List.range n.toNat).mapM (fun k => Participant.new (UInt16.ofNat (k + 1))) = some (participants n) := by
  refine mapM_eq_filterMap fun k hk => ?_
  have hk : k + 1 < 65536 := by
    have := n.toNat_lt
    rw [List.mem_range] at hk
    change n.toNat < 65536 at this
    omega
  have hne : UInt16.ofNat (k + 1) ≠ 0 := by
    intro h
    have := congrArg UInt16.toNat h
    simp only [UInt16.toNat_ofNat', Nat.reducePow, UInt16.toNat_zero] at this
    omega
  rw [Participant.new, dif_neg hne]
  rfl


/-! ## `validate_map` -/

theorem validateMap_ok {T B : Type} {map : Std.HashMap Participant T} {included : List Participant}
    {ours : Participant} :
    validateMap (B := B) map included ours = .ok () ↔
      map.size + 1 = included.length ∧ ∀ p ∈ included, (p ∈ map ↔ p ≠ ours) := by
  unfold validateMap
  by_cases hs : map.size + 1 = included.length
  · simp only [hs, ne_eq, not_true_eq_false, if_false, true_and]
    rw [forM_except_ok]
    refine forall₂_congr fun p _ => ?_
    by_cases hp : p = ours <;> by_cases hm : p ∈ map <;>
      simp [hp, hm, Std.HashMap.contains_iff_mem, throw, throwThe, MonadExceptOf.throw, pure,
        Except.pure]
  · simp [hs, throw, throwThe, MonadExceptOf.throw, bind, Except.bind]

theorem keys_of_validateMap {T B : Type} {map : Std.HashMap Participant T} {included : List Participant}
    {ours : Participant} (h : validateMap (B := B) map included ours = .ok ()) (hnodup : included.Nodup)
    (hours : ours ∈ included) (p : Participant) : p ∈ map ↔ p ∈ included ∧ p ≠ ours := by
  obtain ⟨hsize, hmem⟩ := validateMap_ok.mp h
  have hlen : map.size = (included.erase ours).length := by
    rw [List.length_erase_of_mem hours]
    omega
  have hsub : ∀ a ∈ included.erase ours, a ∈ map := fun a ha =>
    let ⟨hne, ha⟩ := (hnodup.mem_erase_iff).mp ha
    (hmem a ha).mpr hne
  rw [mem_iff_of_size (hnodup.erase ours) hsub hlen p, hnodup.mem_erase_iff, and_comm]

theorem ThresholdParams.new_self (p : ThresholdParams) : ThresholdParams.new p.t p.n p.i = .ok p := by
  have hle := UInt16.le_iff_toNat_le.mp p.t_le_n
  have h0 : ¬ (p.t = 0 ∨ p.n = 0) := by
    rintro (h | h)
    · exact p.t_ne_zero h
    · have hn := congrArg UInt16.toNat h
      simp only [UInt16.toNat_zero] at hn
      exact p.t_toNat_ne_zero (by omega)
  unfold ThresholdParams.new
  rw [dif_neg h0, dif_neg (UInt16.not_lt.mpr p.t_le_n), dif_neg (UInt16.not_lt.mpr p.i_le_n)]

section Field

variable [Field F] [DecidableEq F]

/-! ## Participants as scalars -/

omit [DecidableEq F] in
theorem toScalar_injOn {n : UInt16} (hn : n.toNat < ringChar F) :
    Set.InjOn (toScalar (F := F)) {p | p ∈ participants n} := by
  intro p hp q hq h
  have hp' := UInt16.le_iff_toNat_le.mp (mem_participants.mp hp)
  have hq' := UInt16.le_iff_toNat_le.mp (mem_participants.mp hq)
  have hval : p.val.toNat = q.val.toNat :=
    CharP.natCast_injOn_Iio F (ringChar F) (Set.mem_Iio.mpr (by omega)) (Set.mem_Iio.mpr (by omega)) h
  cases p
  cases q
  simp only [Participant.mk.injEq]
  exact UInt16.toNat_inj.mp hval

omit [DecidableEq F] in
theorem toScalar_ne_zero {n : UInt16} (hn : n.toNat < ringChar F) {p : Participant}
    (hp : p ∈ participants n) : (toScalar p : F) ≠ 0 := by
  have hp' := UInt16.le_iff_toNat_le.mp (mem_participants.mp hp)
  have hpos : p.val.toNat ≠ 0 := p.toNat_ne_zero
  intro h
  have hdvd := (ringChar.spec F p.val.toNat).mp h
  exact hpos (Nat.eq_zero_of_dvd_of_lt hdvd (by omega))

/-! ## Lagrange coefficients -/

omit [DecidableEq F] in
theorem foldl_lagrange (i : Participant) (included : List Participant) (a b : F) :
    included.foldl (fun (acc : F × F) l =>
      if i = l then acc else (acc.1 * toScalar l, acc.2 * (toScalar l - toScalar i))) (a, b) =
      (a * ((included.filter (· ≠ i)).map toScalar).prod,
        b * ((included.filter (· ≠ i)).map fun l => toScalar l - toScalar i).prod) := by
  induction included generalizing a b with
  | nil => simp
  | cons l included ih =>
    rw [List.foldl_cons]
    by_cases hl : i = l
    · subst hl
      simp [ih]
    · rw [if_neg hl, ih, List.filter_cons_of_pos (by simpa using Ne.symm hl)]
      simp [mul_assoc]

/-- `lagrange`: `∏ l / ∏ (l - i)` over the included `l ≠ i`; `None` is the panic of
    `invert().unwrap()` at a zero denominator. -/
def lagrange (i : Participant) (included : List Participant) : Option F :=
  let iF : F := toScalar i
  let (num, denom) := included.foldl (fun (acc : F × F) l =>
    if i = l then acc else (acc.1 * toScalar l, acc.2 * (toScalar l - iF))) (1, 1)
  if denom = 0 then none else some (num * denom⁻¹)

omit [DecidableEq F] in
theorem lagrange_denom_ne_zero {i : Participant} {included : List Participant}
    (hinj : ∀ l ∈ included, l ≠ i → (toScalar l : F) ≠ toScalar i) :
    ((included.filter (· ≠ i)).map fun l => (toScalar l : F) - toScalar i).prod ≠ 0 := by
  refine List.prod_ne_zero fun h0 => ?_
  obtain ⟨l, hl, hzero⟩ := List.mem_map.mp h0
  have ⟨hl, hne⟩ := List.mem_filter.mp hl
  exact hinj l hl (by simpa using hne) (sub_eq_zero.mp hzero)

theorem lagrange_isSome {i : Participant} {included : List Participant}
    (hinj : ∀ l ∈ included, l ≠ i → (toScalar l : F) ≠ toScalar i) : (lagrange (F := F) i included).isSome := by
  unfold lagrange
  dsimp only
  rw [foldl_lagrange]
  simp only [one_mul, if_neg (lagrange_denom_ne_zero hinj), Option.isSome_some]

theorem lagrange_ne_zero {i : Participant} {included : List Participant}
    (hinj : ∀ l ∈ included, l ≠ i → (toScalar l : F) ≠ toScalar i)
    (hnz : ∀ l ∈ included, l ≠ i → (toScalar l : F) ≠ 0) : (lagrange (F := F) i included).getD 0 ≠ 0 := by
  have hnum : ((included.filter (· ≠ i)).map toScalar).prod ≠ (0 : F) := by
    refine List.prod_ne_zero fun h0 => ?_
    obtain ⟨l, hl, hzero⟩ := List.mem_map.mp h0
    have ⟨hl, hne⟩ := List.mem_filter.mp hl
    exact hnz l hl (by simpa using hne) hzero
  unfold lagrange
  dsimp only
  rw [foldl_lagrange]
  simp only [one_mul, if_neg (lagrange_denom_ne_zero hinj), Option.getD_some]
  exact mul_ne_zero hnum (inv_ne_zero (lagrange_denom_ne_zero hinj))

theorem lagrange_participants_ne_zero {n : UInt16} (hn : n.toNat < ringChar F) {i : Participant}
    (hi : i ∈ participants n) : (lagrange (F := F) i (participants n)).getD 0 ≠ 0 :=
  lagrange_ne_zero (fun _ hl hne h => hne (toScalar_injOn hn hl hi h)) fun _ hl _ => toScalar_ne_zero hn hl

theorem lagrange_eq {i : Participant} {included : List Participant} (hnodup : included.Nodup)
    (hinj : ∀ l ∈ included, l ≠ i → (toScalar l : F) ≠ toScalar i) :
    lagrange i included = some (lagrangeAtZero included.toFinset (toScalar (F := F)) i) := by
  have hset : (included.filter (· ≠ i)).toFinset = included.toFinset.erase i := by
    ext l
    simp [and_comm]
  unfold lagrange
  dsimp only
  rw [foldl_lagrange]
  simp only [one_mul, if_neg (lagrange_denom_ne_zero hinj)]
  rw [lagrangeAtZero, ← hset, Finset.prod_div_distrib, List.prod_toFinset _ (hnodup.filter _),
    List.prod_toFinset _ (hnodup.filter _), div_eq_mul_inv]

variable [AddCommGroup G] [Module F G]

/-- `∑ verification_shares[i] * lagrange(i, included)`: the group key `ThresholdCore::new`
    interpolates; `None` is a panic, of the index or of `lagrange`. -/
def interpolate (included : List Participant) (shares : Std.HashMap Participant G) : Option G := do
  let terms ← included.mapM fun i => do
    let share ← shares[i]?
    let coefficient : F ← lagrange i included
    pure (coefficient • share)
  pure terms.sum

theorem interpolate_eq {included : List Participant} {shares : Std.HashMap Participant G}
    {v : Participant → G} (hnodup : included.Nodup)
    (hinj : ∀ l ∈ included, ∀ l' ∈ included, l ≠ l' → (toScalar l : F) ≠ toScalar l')
    (hv : ∀ l ∈ included, shares[l]? = some (v l)) :
    interpolate (F := F) included shares =
      some (∑ l ∈ included.toFinset, lagrangeAtZero included.toFinset (toScalar (F := F)) l • v l) := by
  have hterm : ∀ l ∈ included, (do
      let share ← shares[l]?
      let coefficient : F ← lagrange l included
      pure (coefficient • share)) = some (lagrangeAtZero included.toFinset (toScalar (F := F)) l • v l) := by
    intro l hl
    rw [hv l hl, lagrange_eq hnodup fun l' hl' hne => hinj l' hl' l hl hne]
    rfl
  unfold interpolate
  rw [mapM_some hterm, List.sum_toFinset _ hnodup]
  rfl

theorem interpolate_perm {l l' : List Participant} {shares : Std.HashMap Participant G} (hperm : l.Perm l')
    (hnodup : l.Nodup) (hinj : ∀ a ∈ l, ∀ b ∈ l, a ≠ b → (toScalar a : F) ≠ toScalar b)
    (hmem : ∀ a ∈ l, a ∈ shares) :
    interpolate (F := F) l' shares = interpolate (F := F) l shares := by
  have hv : ∀ a ∈ l, shares[a]? = some (shares[a]?.getD 0) := fun a ha => by
    obtain ⟨v, hv⟩ := Option.isSome_iff_exists.mp (Std.HashMap.mem_iff_isSome_getElem?.mp (hmem a ha))
    rw [hv]
    rfl
  rw [interpolate_eq hnodup hinj hv, interpolate_eq (hperm.nodup_iff.mp hnodup)
    (fun a ha b hb => hinj a (hperm.mem_iff.mpr ha) b (hperm.mem_iff.mpr hb)) (fun a ha => hv a (hperm.mem_iff.mpr ha)),
    List.toFinset_eq_of_perm _ _ hperm]

theorem interpolate_poly {included : List Participant} {shares : Std.HashMap Participant G}
    {t : ℕ} (A : ℕ → G) (hnodup : included.Nodup)
    (hinj : ∀ l ∈ included, ∀ l' ∈ included, l ≠ l' → (toScalar l : F) ≠ toScalar l')
    (ht : 0 < t) (hlen : t ≤ included.length)
    (hv : ∀ l ∈ included, shares[l]? = some (∑ k ∈ Finset.range t, (toScalar l : F) ^ k • A k)) :
    interpolate (F := F) included shares = some (A 0) := by
  rw [interpolate_eq hnodup hinj hv]
  have hinj' : Set.InjOn (toScalar (F := F)) (included.toFinset : Set Participant) := by
    intro l hl l' hl' h
    by_contra hne
    exact hinj l (by simpa using hl) l' (by simpa using hl') hne h
  rw [sum_lagrangeAtZero_smul hinj' ht (by rw [List.toFinset_card_of_nodup hnodup]; exact hlen)]

/-- `ThresholdCore`. -/
structure ThresholdCore (F G : Type) where
  params : ThresholdParams
  secretShare : F
  groupKey : G
  verificationShares : Std.HashMap Participant G

/-- `ThresholdCore::new`. -/
def ThresholdCore.new (params : ThresholdParams) (secretShare : F) (verificationShares : Std.HashMap Participant G) :
    Option (ThresholdCore F G) := do
  let groupKey ← interpolate (F := F) (participants params.t) verificationShares
  pure ⟨params, secretShare, groupKey, verificationShares⟩

/-- `serialize` (`write` into a `Vec`); `None` is the panic of a missing verification share. -/
def ThresholdCore.serialize (C : Ciphersuite F G) (core : ThresholdCore F G) : Option (List UInt8) := do
  let shares ← (participants core.params.n).mapM fun l => core.verificationShares[l]?
  pure (u32ToLeBytes (UInt32.ofNat C.id.length) ++ C.id ++ u16ToLeBytes core.params.t ++
    u16ToLeBytes core.params.n ++ u16ToLeBytes core.params.i.val ++ C.toRepr core.secretShare ++
    shares.flatMap C.toBytes)

/-- `ThresholdCore::read`. -/
def ThresholdCore.read [DecidableEq G] (C : Ciphersuite F G) : Reader (ThresholdCore F G) := do
  let idLen ← readExact 4
  if u32ToLeBytes (UInt32.ofNat C.id.length) ≠ idLen then
    throw (.other "deserializing ThresholdCore for another curve")
  let id ← readExact C.id.length
  if id ≠ C.id then throw (.other "deserializing ThresholdCore for another curve")
  let t ← readU16
  let n ← readU16
  let i ← readU16
  let some i := Participant.new i | throw (.other "invalid participant index")
  let secretShare ← readF C
  let verificationShares ← (participants n).foldlM (fun shares l => do
    let share ← readG C
    pure (shares.insert l share)) ∅
  match ThresholdParams.new t n i with
  | .error _ => throw (.other "invalid parameters")
  | .ok params =>
    match ThresholdCore.new params secretShare verificationShares with
    | some core => pure core
    | none => throw .panic

/-! ## Serialization -/

omit [DecidableEq F] in
theorem foldlM_readG [DecidableEq G] (C : Ciphersuite F G) (ls : List Participant) (v : Participant → G)
    (m : Std.HashMap Participant G) (rest : List UInt8) :
    (ls.foldlM (fun (shares : Std.HashMap Participant G) l => do
        let share ← readG C
        pure (shares.insert l share)) m) ((ls.map v).flatMap C.toBytes ++ rest) =
      .ok (ls.foldl (fun m l => m.insert l (v l)) m) rest := by
  induction ls generalizing m with
  | nil => rfl
  | cons l ls ih =>
    rw [List.foldlM_cons, List.map_cons, List.flatMap_cons, List.append_assoc]
    have hstep : (do
        let share ← readG C
        pure (m.insert l share) : Reader _) (C.toBytes (v l) ++ ((ls.map v).flatMap C.toBytes ++ rest)) =
        .ok (m.insert l (v l)) ((ls.map v).flatMap C.toBytes ++ rest) :=
      bind_of_ok (readG_toBytes C (v l) _)
    rw [bind_of_ok hstep, ih]
    rfl

theorem read_serialize [DecidableEq G] (C : Ciphersuite F G) (core : ThresholdCore F G) (v : Participant → G)
    (hv : core.verificationShares = (participants core.params.n).foldl (fun m l => m.insert l (v l)) ∅)
    (hkey : interpolate (F := F) (participants core.params.t) core.verificationShares = some core.groupKey)
    (rest : List UInt8) :
    ∃ bytes, core.serialize C = some bytes ∧ ThresholdCore.read C (bytes ++ rest) = .ok core rest := by
  have hlookup : ∀ l ∈ participants core.params.n, core.verificationShares[l]? = some (v l) := by
    intro l hl
    rw [hv, getElem?_foldl_insert, if_pos hl]
  have hnew : ThresholdCore.new core.params core.secretShare core.verificationShares = some core := by
    simp [ThresholdCore.new, hkey]
  have hi : Participant.new core.params.i.val = some core.params.i := by
    simp [Participant.new, core.params.i.ne_zero]
  refine ⟨_, by rw [ThresholdCore.serialize, mapM_some hlookup]; rfl, ?_⟩
  simp only [List.append_assoc]
  unfold ThresholdCore.read
  have hidLen : ∀ bytes : List UInt8, readExact 4 (u32ToLeBytes (UInt32.ofNat C.id.length) ++ bytes) =
      .ok (u32ToLeBytes (UInt32.ofNat C.id.length)) bytes := fun bytes =>
    readExact_append (l := u32ToLeBytes (UInt32.ofNat C.id.length)) rfl bytes
  -- the curve's `ID`, then its length, are the ones written
  rw [bind_of_ok (hidLen _), if_neg (not_not.mpr rfl)]
  dsimp only
  rw [bind_of_ok (readExact_append rfl _), if_neg (not_not.mpr rfl)]
  rw [bind_of_ok (readU16_toLeBytes _ _), bind_of_ok (readU16_toLeBytes _ _),
    bind_of_ok (readU16_toLeBytes _ _), hi]
  dsimp only
  rw [bind_of_ok (readF_toRepr C _ _), bind_of_ok (foldlM_readG C _ v ∅ rest), ← hv,
    ThresholdParams.new_self]
  dsimp only
  rw [hnew]
  rfl

end Field

end Serai.Dkg
