import Mathlib
/-
  Serai.Lib.HashMap — maps built by inserting, and maps known by their keys.

  - `getElem?_foldl_insert`: inserting `v k` for every `k` of a list finds `v k` at
    every item of the list, and what was there elsewhere (`mem_foldl_insert`).
  - `mem_iff_of_size`: a map that contains every item of a duplicate-free list and has
    as many keys as it has items has exactly those keys.
  - `toList_perm`: the entries of a map with exactly the keys of a duplicate-free list
    are, up to order, those items with their values; so a sum over the entries, in the
    order the map iterates them, is a sum over the list (`sum_toList`), and the map has as
    many keys as the list has items (`size_eq_length`).
  - `foldl_insert_toList_equiv`: inserting a map's entries into an empty map, in the order
    it lists them, gives a map with the same entries (`HashMap.Equiv`).
  - `mapM_some`: looking up every item of a list succeeds when each lookup does
    (`mapM_eq_filterMap` for calls that each succeed).
-/

namespace Serai.Lib

open Std

variable {α β M : Type} [DecidableEq α] [Hashable α] [LawfulHashable α]

theorem getElem?_foldl_insert (l : List α) (v : α → β) (m : HashMap α β) (a : α) :
    (l.foldl (fun m k => m.insert k (v k)) m)[a]? = if a ∈ l then some (v a) else m[a]? := by
  induction l generalizing m with
  | nil => simp
  | cons k l ih =>
    rw [List.foldl_cons, ih, HashMap.getElem?_insert]
    by_cases ha : a ∈ l
    · simp [ha]
    · by_cases hk : k = a
      · subst hk
        simp [ha]
      · simp [ha, hk, Ne.symm hk]

theorem mem_foldl_insert (l : List α) (v : α → β) (m : HashMap α β) (a : α) :
    a ∈ l.foldl (fun m k => m.insert k (v k)) m ↔ a ∈ l ∨ a ∈ m := by
  rw [HashMap.mem_iff_isSome_getElem?, getElem?_foldl_insert]
  split_ifs with h
  · simp [h]
  · rw [← HashMap.mem_iff_isSome_getElem?]
    simp [h]

theorem mem_iff_of_size {m : HashMap α β} {l : List α} (hl : l.Nodup) (hsub : ∀ a ∈ l, a ∈ m)
    (hsize : m.size = l.length) (a : α) : a ∈ m ↔ a ∈ l := by
  have hperm : l.Perm m.keys :=
    (hl.subperm fun a ha => HashMap.mem_keys.mpr (hsub a ha)).perm_of_length_le
      (by simp [hsize])
  rw [← HashMap.mem_keys, hperm.mem_iff]

theorem toList_perm {m : HashMap α β} {l : List α} (hl : l.Nodup) (hkeys : ∀ a, a ∈ m ↔ a ∈ l) :
    m.toList.Perm (l.filterMap fun a => m[a]?.map (a, ·)) := by
  have hnodup : m.toList.Nodup :=
    HashMap.distinct_keys_toList.imp fun h heq => by simp [heq] at h
  have hnodup' : (l.filterMap fun a => m[a]?.map (a, ·)).Nodup := by
    refine List.Nodup.filterMap (fun a a' e ha ha' => ?_) hl
    simp only [Option.mem_def, Option.map_eq_some_iff] at ha ha'
    obtain ⟨v, -, rfl⟩ := ha
    obtain ⟨v', -, he⟩ := ha'
    exact (Prod.mk.inj he).1.symm
  refine (List.perm_ext_iff_of_nodup hnodup hnodup').mpr fun ⟨k, v⟩ => ?_
  rw [HashMap.mem_toList_iff_getElem?_eq_some, List.mem_filterMap]
  constructor
  · intro h
    have hk : k ∈ l := (hkeys k).mp (HashMap.mem_iff_isSome_getElem?.mpr (by simp [h]))
    exact ⟨k, hk, by simp [h]⟩
  · rintro ⟨a, -, ha⟩
    simp only [Option.map_eq_some_iff, Prod.mk.injEq] at ha
    obtain ⟨v', hv', rfl, rfl⟩ := ha
    exact hv'

omit [DecidableEq α] [Hashable α] [LawfulHashable α] in
theorem sum_filterMap [AddCommMonoid M] (l : List α) (f : α → Option M) :
    (l.filterMap f).sum = (l.map fun a => (f a).getD 0).sum := by
  induction l with
  | nil => rfl
  | cons a l ih =>
    rw [List.filterMap_cons, List.map_cons, List.sum_cons, ← ih]
    cases f a <;> simp

theorem sum_toList [AddCommMonoid M] {m : HashMap α β} {l : List α} (hl : l.Nodup)
    (hkeys : ∀ a, a ∈ m ↔ a ∈ l) (f : α → β → M) :
    (m.toList.map fun e => f e.1 e.2).sum = (l.map fun a => (m[a]?.map (f a)).getD 0).sum := by
  rw [((toList_perm hl hkeys).map _).sum_eq, List.map_filterMap, ← sum_filterMap]
  congr 1
  exact List.filterMap_congr fun a _ => by cases m[a]? <;> rfl

theorem sum_toList_keys [AddCommMonoid M] {m : HashMap α β} {l : List α} (hl : l.Nodup)
    (hkeys : ∀ a, a ∈ m ↔ a ∈ l) (f : α → M) :
    (m.toList.map fun e => f e.1).sum = (l.map f).sum := by
  rw [sum_toList hl hkeys fun a _ => f a]
  congr 1
  refine List.map_congr_left fun a ha => ?_
  obtain ⟨v, hv⟩ := Option.isSome_iff_exists.mp (HashMap.mem_iff_isSome_getElem?.mp ((hkeys a).mpr ha))
  simp [hv]

theorem size_eq_length {m : HashMap α β} {l : List α} (hl : l.Nodup) (hkeys : ∀ a, a ∈ m ↔ a ∈ l) :
    m.size = l.length := by
  rw [← HashMap.length_keys]
  exact ((List.perm_ext_iff_of_nodup HashMap.nodup_keys hl).mpr fun a => by
    rw [HashMap.mem_keys, hkeys]).length_eq

theorem foldl_insert_toList_equiv (m : HashMap α β) :
    (m.toList.foldl (fun acc p => acc.insert p.1 p.2) (∅ : HashMap α β)).Equiv m := by
  refine HashMap.ofList_equiv_foldl.symm.trans (HashMap.Equiv.of_forall_getElem?_eq fun k => ?_)
  cases hk : m[k]? with
  | some v =>
    exact HashMap.getElem?_ofList_of_mem (beq_self_eq_true k) HashMap.distinct_keys_toList
      (HashMap.mem_toList_iff_getElem?_eq_some.mpr hk)
  | none =>
    refine HashMap.getElem?_ofList_of_contains_eq_false ?_
    rw [HashMap.map_fst_toList_eq_keys, HashMap.contains_keys, HashMap.contains_eq_isSome_getElem?, hk]
    rfl

omit [DecidableEq α] [Hashable α] [LawfulHashable α] in
theorem mapM_some {f : α → Option β} {g : α → β} {l : List α} (h : ∀ a ∈ l, f a = some (g a)) :
    l.mapM f = some (l.map g) := by
  induction l with
  | nil => rfl
  | cons a l ih =>
    rw [List.mapM_cons, h a List.mem_cons_self, ih fun a' ha' => h a' (List.mem_cons_of_mem _ ha')]
    rfl

omit [DecidableEq α] [Hashable α] [LawfulHashable α] in
theorem mapM_eq_filterMap {f : α → Option β} {l : List α} (h : ∀ a ∈ l, (f a).isSome) :
    l.mapM f = some (l.filterMap f) := by
  induction l with
  | nil => rfl
  | cons a l ih =>
    obtain ⟨b, hb⟩ := Option.isSome_iff_exists.mp (h a List.mem_cons_self)
    rw [List.mapM_cons, hb, ih fun a' ha' => h a' (List.mem_cons_of_mem _ ha'), List.filterMap_cons_some hb]
    rfl

end Serai.Lib
