import Mathlib
/-
  Serai.Lib.KeyOrder — byte keys in lexicographic order, and walking a store's keys.

  A key-value store keeps its keys in an order, and `nextKey keys last` is the least key
  above `last` (a storage backend's `next_key`). `walk` starts at a key and takes `nextKey`
  step after step while the key reached passes a test, as an iterator over the keys under
  a prefix does.

  Proved:
  - `nextKey_eq_some`, `nextKey_eq_none`: what `nextKey` returns;
  - `walk_sorted`, `mem_walk`: the walk yields keys in increasing order, and, when the
    keys passing the test form an interval above the start (`Interval`) and it has a step
    for each key above the start, exactly the passing keys above the start;
  - `interval_of_isPrefix`: in the lexicographic order of lists, the keys that extend a
    list form such an interval above it; `le_of_append_lt_append`: lists ordered by their
    first parts of one length;
  - `beBytes_lt_beBytes`, `ofBeBytes_beBytes`: big-endian bytes of numbers below `256 ^ w`
    are ordered as the numbers and read back to them; `map_not_lt_map_not`: complementing
    every byte reverses the order of byte strings of one length.
-/

namespace Serai.Lib

/-! ## Walking a store's keys -/

section Walk

variable {κ : Type} [LT κ] [DecidableRel (α := κ) (· < ·)]

/-- The least of `keys` above `last`. -/
def nextKey (keys : List κ) (last : κ) : Option κ :=
  keys.foldr (fun k best => if last < k then
      match best with
      | some b => if b < k then some b else some k
      | none => some k
    else best) none

/-- From `last`, take `nextKey` while the key reached passes `p`, for at most `fuel` keys. -/
def walk (keys : List κ) (p : κ → Bool) : ℕ → κ → List κ
  | 0, _ => []
  | fuel + 1, last =>
    match nextKey keys last with
    | none => []
    | some k => if p k then k :: walk keys p fuel k else []

theorem nextKey_cons (k : κ) (keys : List κ) (last : κ) :
    nextKey (k :: keys) last = if last < k then
      match nextKey keys last with
      | some b => if b < k then some b else some k
      | none => some k
    else nextKey keys last := rfl

theorem nextKey_eq_none {keys : List κ} {last : κ} (h : nextKey keys last = none) : ∀ x ∈ keys, ¬ last < x := by
  induction keys with
  | nil => simp
  | cons k keys ih =>
    rw [nextKey_cons] at h
    by_cases hk : last < k
    · rw [if_pos hk] at h
      cases hn : nextKey keys last with
      | none => rw [hn] at h; cases h
      | some b =>
        rw [hn] at h
        by_cases hb : b < k <;> simp [hb] at h
    · rw [if_neg hk] at h
      intro x hx
      rcases List.mem_cons.mp hx with rfl | hx
      · exact hk
      · exact ih h x hx

theorem walk_succ_of_none {keys : List κ} {p : κ → Bool} {fuel : ℕ} {last : κ} (h : nextKey keys last = none) :
    walk keys p (fuel + 1) last = [] := by
  simp only [walk, h]

theorem walk_succ_of_some {keys : List κ} {p : κ → Bool} {fuel : ℕ} {last k : κ} (h : nextKey keys last = some k) :
    walk keys p (fuel + 1) last = if p k then k :: walk keys p fuel k else [] := by
  simp only [walk, h]

variable [LE κ] [Std.IsLinearOrder κ] [Std.LawfulOrderLT κ]

theorem nextKey_eq_some {keys : List κ} {last k : κ} (h : nextKey keys last = some k) :
    k ∈ keys ∧ last < k ∧ ∀ x ∈ keys, last < x → k ≤ x := by
  induction keys generalizing k with
  | nil => cases h
  | cons y keys ih =>
    rw [nextKey_cons] at h
    by_cases hy : last < y
    · rw [if_pos hy] at h
      cases hn : nextKey keys last with
      | none =>
        -- `y` is the only key above `last`
        rw [hn, Option.some.injEq] at h
        subst h
        refine ⟨List.mem_cons_self, hy, fun x hx hlx => ?_⟩
        rcases List.mem_cons.mp hx with rfl | hx
        · exact Std.le_refl _
        · exact absurd hlx (nextKey_eq_none hn x hx)
      | some b =>
        obtain ⟨hbm, hlb, hbmin⟩ := ih hn
        rw [hn] at h
        dsimp only at h
        by_cases hby : b < y
        · rw [if_pos hby, Option.some.injEq] at h
          subst h
          refine ⟨List.mem_cons_of_mem _ hbm, hlb, fun x hx hlx => ?_⟩
          rcases List.mem_cons.mp hx with rfl | hx
          · exact Std.le_of_lt hby
          · exact hbmin x hx hlx
        · rw [if_neg hby, Option.some.injEq] at h
          subst h
          refine ⟨List.mem_cons_self, hy, fun x hx hlx => ?_⟩
          rcases List.mem_cons.mp hx with rfl | hx
          · exact Std.le_refl _
          · exact Std.le_trans (Std.not_lt.mp hby) (hbmin x hx hlx)
    · rw [if_neg hy] at h
      obtain ⟨hkm, hlk, hkmin⟩ := ih h
      refine ⟨List.mem_cons_of_mem _ hkm, hlk, fun x hx hlx => ?_⟩
      rcases List.mem_cons.mp hx with rfl | hx
      · exact absurd hlx hy
      · exact hkmin x hx hlx

theorem lt_of_mem_walk {keys : List κ} {p : κ → Bool} {fuel : ℕ} {start x : κ}
    (h : x ∈ walk keys p fuel start) : start < x := by
  induction fuel generalizing start with
  | zero => cases h
  | succ fuel ih =>
    cases hn : nextKey keys start with
    | none => rw [walk_succ_of_none hn] at h; cases h
    | some k =>
      rw [walk_succ_of_some hn] at h
      have hk := (nextKey_eq_some hn).2.1
      by_cases hp : p k = true
      · rw [if_pos hp] at h
        rcases List.mem_cons.mp h with rfl | h
        · exact hk
        · exact Std.lt_trans hk (ih h)
      · rw [if_neg hp] at h
        cases h

theorem walk_sorted (keys : List κ) (p : κ → Bool) (fuel : ℕ) (start : κ) :
    (walk keys p fuel start).Pairwise (· < ·) := by
  induction fuel generalizing start with
  | zero => exact List.Pairwise.nil
  | succ fuel ih =>
    cases hn : nextKey keys start with
    | none => rw [walk_succ_of_none hn]; exact List.Pairwise.nil
    | some k =>
      rw [walk_succ_of_some hn]
      by_cases hp : p k = true
      · rw [if_pos hp]
        exact List.Pairwise.cons (fun _ hx => lt_of_mem_walk hx) (ih k)
      · rw [if_neg hp]
        exact List.Pairwise.nil

/-- The keys above `start` that pass `p` form an interval: no key between `start` and a
    passing key fails. -/
def Interval (keys : List κ) (p : κ → Bool) (start : κ) : Prop :=
  ∀ a ∈ keys, ∀ b ∈ keys, start < a → a < b → p b = true → p a = true

theorem length_filter_lt_of_step {keys : List κ} {start k : κ} (hk : k ∈ keys) (hsk : start < k) :
    (keys.filter (k < ·)).length < (keys.filter (start < ·)).length := by
  have hsub : (keys.filter (k < ·)).Sublist (keys.filter (start < ·)) :=
    List.monotone_filter_right _ fun x hx => by simpa using Std.lt_trans hsk (by simpa using hx)
  refine lt_of_le_of_ne hsub.length_le fun hlen => ?_
  -- the lists would be equal, and `k` is in the second only
  have hmem : k ∈ keys.filter (k < ·) := by
    rw [hsub.eq_of_length hlen]
    simpa using ⟨hk, hsk⟩
  simp only [List.mem_filter, decide_eq_true_eq] at hmem
  exact Std.lt_irrefl hmem.2

theorem mem_walk {keys : List κ} {p : κ → Bool} {fuel : ℕ} {start : κ} (hi : Interval keys p start)
    (hfuel : (keys.filter (start < ·)).length ≤ fuel) (x : κ) :
    x ∈ walk keys p fuel start ↔ x ∈ keys ∧ start < x ∧ p x = true := by
  induction fuel generalizing start with
  | zero =>
    -- no fuel: no key is above the start
    simp only [walk, List.not_mem_nil, false_iff]
    rintro ⟨hx, hsx, -⟩
    have : x ∈ keys.filter (start < ·) := by simpa using ⟨hx, hsx⟩
    exact absurd (List.length_pos_of_mem this) (by omega)
  | succ fuel ih =>
    cases hn : nextKey keys start with
    | none =>
      simp only [walk_succ_of_none hn, List.not_mem_nil, false_iff]
      rintro ⟨hx, hsx, -⟩
      exact nextKey_eq_none hn x hx hsx
    | some k =>
      obtain ⟨hk, hsk, hmin⟩ := nextKey_eq_some hn
      rw [walk_succ_of_some hn]
      by_cases hp : p k = true
      · rw [if_pos hp, List.mem_cons]
        have hi' : Interval keys p k := fun a ha b hb hka hab hpb =>
          hi a ha b hb (Std.lt_trans hsk hka) hab hpb
        have hfuel' : (keys.filter (k < ·)).length ≤ fuel := by
          have := length_filter_lt_of_step hk hsk
          omega
        rw [ih hi' hfuel']
        constructor
        · rintro (rfl | ⟨hx, hkx, hpx⟩)
          · exact ⟨hk, hsk, hp⟩
          · exact ⟨hx, Std.lt_trans hsk hkx, hpx⟩
        · rintro ⟨hx, hsx, hpx⟩
          rcases Std.le_iff_lt_or_eq.mp (hmin x hx hsx) with hkx | rfl
          · exact .inr ⟨hx, hkx, hpx⟩
          · exact .inl rfl
      · -- the least key above the start fails, so every key above it does
        rw [if_neg hp]
        simp only [List.not_mem_nil, false_iff]
        rintro ⟨hx, hsx, hpx⟩
        rcases Std.le_iff_lt_or_eq.mp (hmin x hx hsx) with hkx | rfl
        · exact hp (hi k hk x hx hsk hkx hpx)
        · exact hp hpx

end Walk

/-! ## Reading the keys of a walk -/

section Read

variable {α β : Type}

theorem mapM_some_of_isSome {f : α → Option β} : ∀ {l : List α}, (∀ a ∈ l, (f a).isSome) →
    ∃ l', l.mapM f = some l' ∧ List.Forall₂ (fun a b => f a = some b) l l'
  | [], _ => ⟨[], rfl, List.Forall₂.nil⟩
  | a :: l, h => by
    obtain ⟨b, hb⟩ := Option.isSome_iff_exists.mp (h a List.mem_cons_self)
    obtain ⟨l', hl, hr⟩ := mapM_some_of_isSome fun x hx => h x (List.mem_cons_of_mem _ hx)
    exact ⟨b :: l', by simp [List.mapM_cons, hb, hl], List.Forall₂.cons hb hr⟩

theorem exists_of_mem_forall₂_right {R : α → β → Prop} {b : β} : ∀ {l : List α} {l' : List β},
    List.Forall₂ R l l' → b ∈ l' → ∃ a ∈ l, R a b
  | _, _, List.Forall₂.nil, hb => absurd hb List.not_mem_nil
  | a :: l, _ :: l', List.Forall₂.cons hab hr, hb => by
    rcases List.mem_cons.mp hb with rfl | hb
    · exact ⟨a, List.mem_cons_self, hab⟩
    · obtain ⟨x, hx, hxb⟩ := exists_of_mem_forall₂_right hr hb
      exact ⟨x, List.mem_cons_of_mem _ hx, hxb⟩

theorem exists_of_mem_forall₂_left {R : α → β → Prop} {a : α} : ∀ {l : List α} {l' : List β},
    List.Forall₂ R l l' → a ∈ l → ∃ b ∈ l', R a b
  | _, _, List.Forall₂.nil, ha => absurd ha List.not_mem_nil
  | _ :: l, b :: l', List.Forall₂.cons hab hr, ha => by
    rcases List.mem_cons.mp ha with rfl | ha
    · exact ⟨b, List.mem_cons_self, hab⟩
    · obtain ⟨y, hy, hay⟩ := exists_of_mem_forall₂_left hr ha
      exact ⟨y, List.mem_cons_of_mem _ hy, hay⟩

theorem pairwise_of_forall₂ {R : α → β → Prop} {S : α → α → Prop} {T : β → β → Prop}
    (hT : ∀ a b a' b', R a a' → R b b' → S a b → T a' b') : ∀ {l : List α} {l' : List β},
    List.Forall₂ R l l' → l.Pairwise S → l'.Pairwise T
  | _, _, List.Forall₂.nil, _ => List.Pairwise.nil
  | a :: l, a' :: l', List.Forall₂.cons ha hr, hp => by
    rw [List.pairwise_cons] at hp
    refine List.Pairwise.cons (fun b' hb' => ?_) (pairwise_of_forall₂ hT hr hp.2)
    obtain ⟨b, hb, hbb⟩ := exists_of_mem_forall₂_right hr hb'
    exact hT a b a' b' ha hbb (hp.1 b hb)

end Read

/-! ## The lexicographic order of lists -/

section Lex

variable {α : Type} [LT α] [LE α] [Std.IsLinearOrder α] [Std.LawfulOrderLT α]

theorem isPrefix_of_lt_of_lt {pre a b : List α} (hpa : pre < a) (hab : a < b) (hpb : pre <+: b) : pre <+: a := by
  induction pre generalizing a b with
  | nil => exact List.nil_prefix
  | cons c pre ih =>
    obtain ⟨b', rfl⟩ : ∃ b', b = c :: b' := by
      obtain ⟨t, rfl⟩ := hpb
      exact ⟨pre ++ t, rfl⟩
    cases a with
    | nil => exact absurd hpa (List.not_lt_nil _)
    | cons d a =>
      rcases List.cons_lt_cons_iff.mp hpa with hcd | ⟨rfl, hpa'⟩
      · -- `a` would be above `b` at their first entry
        rcases List.cons_lt_cons_iff.mp hab with hdc | ⟨rfl, -⟩
        · exact absurd (Std.lt_trans hcd hdc) Std.lt_irrefl
        · exact absurd hcd Std.lt_irrefl
      · rcases List.cons_lt_cons_iff.mp hab with hcc | ⟨-, hab'⟩
        · exact absurd hcc Std.lt_irrefl
        · exact List.cons_prefix_cons.mpr ⟨rfl, ih hpa' hab' (List.cons_prefix_cons.mp hpb).2⟩

theorem interval_of_isPrefix [DecidableEq α] [DecidableRel (α := List α) (· < ·)] (keys : List (List α)) (pre : List α) :
    Interval keys (fun k => pre.isPrefixOf k) pre := by
  intro a _ b _ hpa hab hpb
  rw [List.isPrefixOf_iff_prefix] at hpb ⊢
  exact isPrefix_of_lt_of_lt hpa hab hpb

omit [LE α] [Std.IsLinearOrder α] [Std.LawfulOrderLT α] in
theorem lt_append_of_ne_nil (l : List α) {t : List α} (ht : t ≠ []) : l < l ++ t := by
  induction l with
  | nil =>
    obtain ⟨a, t, rfl⟩ := List.exists_cons_of_ne_nil ht
    exact List.nil_lt_cons a t
  | cons a l ih => exact List.cons_lt_cons_iff.mpr (.inr ⟨rfl, ih⟩)

omit [Std.IsLinearOrder α] in
theorem lt_of_append_lt_append_left {l a b : List α} (h : l ++ a < l ++ b) : a < b := by
  induction l with
  | nil => exact h
  | cons c l ih =>
    rcases List.cons_lt_cons_iff.mp h with hc | ⟨-, h'⟩
    · exact absurd hc Std.lt_irrefl
    · exact ih h'

theorem le_of_append_lt_append {x y s t : List α} (hlen : x.length = y.length) (h : x ++ s < y ++ t) : x ≤ y := by
  induction x generalizing y with
  | nil =>
    rw [List.length_nil, eq_comm, List.length_eq_zero_iff] at hlen
    subst hlen
    exact Std.le_refl _
  | cons a x ih =>
    cases y with
    | nil => cases hlen
    | cons b y =>
      rcases List.cons_lt_cons_iff.mp h with hab | ⟨rfl, h'⟩
      · exact Std.le_of_lt (List.cons_lt_cons_iff.mpr (.inl hab))
      · exact List.cons_le_cons_iff.mpr (.inr ⟨rfl, ih (by simpa using hlen) h'⟩)

end Lex

/-! ## Big-endian bytes -/

/-- The `w` big-endian bytes of `n` (below `256 ^ w`). -/
def beBytes : ℕ → ℕ → List UInt8
  | 0, _ => []
  | w + 1, n => UInt8.ofNat (n / 256 ^ w) :: beBytes w (n % 256 ^ w)

/-- The number big-endian bytes stand for. -/
def ofBeBytes (bytes : List UInt8) : ℕ := bytes.foldl (fun acc b => acc * 256 + b.toNat) 0

@[simp] theorem length_beBytes (w n : ℕ) : (beBytes w n).length = w := by
  induction w generalizing n with
  | zero => rfl
  | succ w ih => simp [beBytes, ih]

theorem ofBeBytes_append (acc : ℕ) (bytes : List UInt8) :
    bytes.foldl (fun acc b => acc * 256 + b.toNat) acc = acc * 256 ^ bytes.length + ofBeBytes bytes := by
  induction bytes generalizing acc with
  | nil => simp [ofBeBytes]
  | cons b bytes ih =>
    simp only [List.foldl_cons, ofBeBytes, List.length_cons, Nat.zero_mul, Nat.zero_add]
    rw [ih, ih b.toNat, pow_succ]
    ring

theorem ofBeBytes_beBytes {w n : ℕ} (h : n < 256 ^ w) : ofBeBytes (beBytes w n) = n := by
  induction w generalizing n with
  | zero => simp_all [beBytes, ofBeBytes]
  | succ w ih =>
    have hdigit : n / 256 ^ w < 256 := Nat.div_lt_of_lt_mul (by rwa [← pow_succ])
    have hrest : n % 256 ^ w < 256 ^ w := Nat.mod_lt _ (by positivity)
    simp only [beBytes, ofBeBytes, List.foldl_cons, Nat.zero_mul, Nat.zero_add]
    rw [ofBeBytes_append, length_beBytes, ih hrest, UInt8.toNat_ofNat_of_lt' hdigit]
    exact Nat.div_add_mod' n (256 ^ w)

theorem beBytes_lt_beBytes {w m n : ℕ} (hm : m < 256 ^ w) (hn : n < 256 ^ w) : beBytes w m < beBytes w n ↔ m < n := by
  induction w generalizing m n with
  | zero => simp_all
  | succ w ih =>
    have hpos : 0 < 256 ^ w := by positivity
    have hdm : m / 256 ^ w < 256 := Nat.div_lt_of_lt_mul (by rwa [← pow_succ])
    have hdn : n / 256 ^ w < 256 := Nat.div_lt_of_lt_mul (by rwa [← pow_succ])
    simp only [beBytes, List.cons_lt_cons_iff, ih (Nat.mod_lt m hpos) (Nat.mod_lt n hpos)]
    have hdigit : UInt8.ofNat (m / 256 ^ w) < UInt8.ofNat (n / 256 ^ w) ↔ m / 256 ^ w < n / 256 ^ w := by
      rw [UInt8.lt_iff_toNat_lt, UInt8.toNat_ofNat_of_lt' hdm, UInt8.toNat_ofNat_of_lt' hdn]
    have hdeq : UInt8.ofNat (m / 256 ^ w) = UInt8.ofNat (n / 256 ^ w) ↔ m / 256 ^ w = n / 256 ^ w := by
      rw [← UInt8.toNat_inj, UInt8.toNat_ofNat_of_lt' hdm, UInt8.toNat_ofNat_of_lt' hdn]
    rw [hdigit, hdeq]
    -- compare the leading digits, then the rest
    have hm' := Nat.div_add_mod m (256 ^ w)
    have hn' := Nat.div_add_mod n (256 ^ w)
    have hrm := Nat.mod_lt m hpos
    have hrn := Nat.mod_lt n hpos
    constructor
    · rintro (hlt | ⟨heq, hlt⟩)
      · have : 256 ^ w * (m / 256 ^ w + 1) ≤ 256 ^ w * (n / 256 ^ w) := Nat.mul_le_mul_left _ hlt
        rw [Nat.mul_add, Nat.mul_one] at this
        omega
      · rw [← hm', ← hn', heq]
        omega
    · intro hmn
      rcases Nat.lt_or_ge (m / 256 ^ w) (n / 256 ^ w) with hlt | hge
      · exact .inl hlt
      · have hle : m / 256 ^ w ≤ n / 256 ^ w := Nat.div_le_div_right hmn.le
        have heq : m / 256 ^ w = n / 256 ^ w := le_antisymm hle hge
        refine .inr ⟨heq, ?_⟩
        rw [← hm', ← hn', heq] at hmn
        omega

theorem map_not_lt_map_not {x y : List UInt8} (hlen : x.length = y.length) :
    x.map (~~~ ·) < y.map (~~~ ·) ↔ y < x := by
  induction x generalizing y with
  | nil =>
    rw [List.length_nil, eq_comm, List.length_eq_zero_iff] at hlen
    subst hlen
    simp [List.lt_irrefl]
  | cons a x ih =>
    cases y with
    | nil => cases hlen
    | cons b y =>
      have hnot : ∀ u v : UInt8, ~~~u < ~~~v ↔ v < u := by
        intro u v
        rw [UInt8.lt_iff_toNat_lt, UInt8.lt_iff_toNat_lt, UInt8.toNat_not, UInt8.toNat_not]
        have hu := u.toNat_lt
        have hv := v.toNat_lt
        have hsize : UInt8.size = 256 := rfl
        omega
      simp only [List.map_cons, List.cons_lt_cons_iff, hnot, ih (by simpa using hlen), UInt8.not_inj]
      constructor
      · rintro (h | ⟨rfl, h⟩)
        · exact .inl h
        · exact .inr ⟨rfl, h⟩
      · rintro (h | ⟨rfl, h⟩)
        · exact .inl h
        · exact .inr ⟨rfl, h⟩

end Serai.Lib
