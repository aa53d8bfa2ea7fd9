import Mathlib
import Serai.Crypto.Ciphersuite
/-
  Serai.Crypto.Multiexp — multi-scalar multiplication and the batch verifier
  (crypto/multiexp: `multiexp`, `BatchVerifier`).

  `multiexp` is `∑ scalar · point`; the variable-time variant computes the same sum. A
  batch verifier queues lists of statements, each meant to sum to the identity, under an
  id. Every list but the first is scaled by a fresh random nonzero weight (`Weights`, the
  values the rejection loop on the RNG returns), and the batch verifies when the sum of
  all of them is the identity. On failure, `blame_vartime` bisects the queue: the half
  before the split either sums to the identity, and the fault is after it, or is where
  the search goes on.
  - `verify_of_forall`: a queue of lists that each sum to the identity verifies.
  - `blameSlice_spec`: a queue that does not sum to the identity has an entry that does
    not, and the bisection names it; so `verifyWithVartimeBlame` never reaches its
    `unwrap` of `None` and only blames a list that fails (`verifyWithVartimeBlame_error`).
  - A list's weight is nonzero, so a queued list sums to the identity exactly when the
    statements queued do (`multiexp_queued`). `Separates` is what the random weights
    are for: the batch verifies only when each list sums to the identity.
  - `batch_verifier_blame_sound`, over any queue of items and any weights: a batch of
    statements that each sum to the identity verifies and blames no one, a blamed id is
    that of an item whose statements do not sum to the identity, and a batch that fails
    always has someone to blame.
-/

namespace Serai.Crypto

variable {F G Id : Type}

/-- `BatchVerifier`: the queued lists of statements, each with its id. -/
structure BatchVerifier (Id F G : Type) where
  entries : List (Id × List (F × G))

namespace BatchVerifier

def new : BatchVerifier Id F G := ⟨[]⟩

/-- `flat`: every queued statement, in order. -/
def flat (entries : List (Id × List (F × G))) : List (F × G) := entries.flatMap (·.2)

@[simp] theorem new_entries : (new : BatchVerifier Id F G).entries = [] := rfl

@[simp] theorem flat_nil : flat ([] : List (Id × List (F × G))) = [] := rfl

@[simp] theorem flat_append (l₁ l₂ : List (Id × List (F × G))) : flat (l₁ ++ l₂) = flat l₁ ++ flat l₂ := by
  simp [flat]

@[simp] theorem flat_cons (e : Id × List (F × G)) (l : List (Id × List (F × G))) :
    flat (e :: l) = e.2 ++ flat l := rfl

end BatchVerifier

variable [Field F] [AddCommGroup G] [Module F G]

/-- `∑ scalar · point`: what `multiexp` and `multiexp_vartime` compute, by each of their
    algorithms (`Multiexp.multiexp_eq_sum`). -/
def multiexp (pairs : List (F × G)) : G := (pairs.map fun p => p.1 • p.2).sum

@[simp] theorem multiexp_nil : multiexp ([] : List (F × G)) = 0 := rfl

@[simp] theorem multiexp_cons (p : F × G) (pairs : List (F × G)) :
    multiexp (p :: pairs) = p.1 • p.2 + multiexp pairs := by
  simp [multiexp]

@[simp] theorem multiexp_append (l₁ l₂ : List (F × G)) :
    multiexp (l₁ ++ l₂) = multiexp l₁ + multiexp l₂ := by
  simp [multiexp]

theorem multiexp_weight (u : F) (pairs : List (F × G)) :
    multiexp (pairs.map fun p => (p.1 * u, p.2)) = u • multiexp pairs := by
  induction pairs with
  | nil => simp
  | cons p pairs ih => simp only [List.map_cons, multiexp_cons, ih, smul_add, mul_comm p.1 u, mul_smul]

/-- The weights the RNG gives a batch: the `k`-th list queued gets `weight k`, drawn until
    it is nonzero. -/
structure Weights (F : Type) [Field F] where
  weight : ℕ → F
  ne_zero : ∀ k, weight k ≠ 0

namespace BatchVerifier

/-- The weight the next list queued is scaled by: one for the first. -/
def weight (b : BatchVerifier Id F G) (ws : Weights F) : F :=
  if b.entries.isEmpty then 1 else ws.weight b.entries.length

/-- `queue`. -/
def queue (b : BatchVerifier Id F G) (ws : Weights F) (id : Id) (pairs : List (F × G)) :
    BatchVerifier Id F G :=
  ⟨b.entries ++ [(id, pairs.map fun p => (p.1 * b.weight ws, p.2))]⟩

variable [DecidableEq G]

/-- `verify` and `verify_vartime`. -/
def verify (b : BatchVerifier Id F G) : Bool := decide (multiexp (flat b.entries) = 0)

/-- The loop of `blame_vartime`, over the slice still searched. -/
def blameSlice (slice : List (Id × List (F × G))) : Option Id :=
  if 1 < slice.length then
    let split := slice.length / 2
    if multiexp (flat (slice.take split)) = 0 then blameSlice (slice.drop split)
    else blameSlice (slice.take split)
  else (slice.head?.filter fun e => multiexp e.2 ≠ 0).map (·.1)
termination_by slice.length
decreasing_by all_goals simp only [List.length_drop, List.length_take]; omega

/-- `blame_vartime`. -/
def blameVartime (b : BatchVerifier Id F G) : Option Id := blameSlice b.entries

/-- `verify_with_vartime_blame` (and `verify_vartime_with_vartime_blame`, the same value):
    the error is the blamed id, `none` standing for the panic of `unwrap`. -/
def verifyWithVartimeBlame (b : BatchVerifier Id F G) : Except (Option Id) Unit :=
  if b.verify then .ok () else .error b.blameVartime

/-- What the random weights are for: the batch verifies only when each list sums to the
    identity. -/
def Separates (b : BatchVerifier Id F G) : Prop :=
  b.verify = true → ∀ e ∈ b.entries, multiexp e.2 = 0

/-! ## Queueing -/

omit [AddCommGroup G] [Module F G] [DecidableEq G] in
@[simp] theorem queue_entries (b : BatchVerifier Id F G) (ws : Weights F) (id : Id) (pairs : List (F × G)) :
    (b.queue ws id pairs).entries = b.entries ++ [(id, pairs.map fun p => (p.1 * b.weight ws, p.2))] := rfl

omit [AddCommGroup G] [Module F G] [DecidableEq G] in
theorem weight_ne_zero (b : BatchVerifier Id F G) (ws : Weights F) : b.weight ws ≠ 0 := by
  unfold weight
  split
  · exact one_ne_zero
  · exact ws.ne_zero _

omit [DecidableEq G] in
theorem multiexp_queued (b : BatchVerifier Id F G) (ws : Weights F) (pairs : List (F × G)) :
    multiexp (pairs.map fun p => (p.1 * b.weight ws, p.2)) = 0 ↔ multiexp pairs = 0 := by
  rw [multiexp_weight]
  exact (Ne.isUnit (b.weight_ne_zero ws)).smul_eq_zero

/-! ## Verification and blame -/

omit [DecidableEq G] in
theorem multiexp_flat_of_forall {entries : List (Id × List (F × G))}
    (h : ∀ e ∈ entries, multiexp e.2 = 0) : multiexp (flat entries) = 0 := by
  induction entries with
  | nil => rfl
  | cons e entries ih =>
    simp only [flat_cons, multiexp_append, h e List.mem_cons_self, zero_add]
    exact ih fun e' he' => h e' (List.mem_cons_of_mem _ he')

theorem verify_of_forall {b : BatchVerifier Id F G} (h : ∀ e ∈ b.entries, multiexp e.2 = 0) :
    b.verify = true := by
  simp [verify, multiexp_flat_of_forall h]

theorem blameSlice_spec (slice : List (Id × List (F × G))) (h : multiexp (flat slice) ≠ 0) :
    ∃ e ∈ slice, blameSlice slice = some e.1 ∧ multiexp e.2 ≠ 0 := by
  induction slice using blameSlice.induct with
  | case1 slice hlen split hzero ih =>
    -- the first half sums to the identity, so the second does not
    have hdrop : multiexp (flat (slice.drop split)) ≠ 0 := by
      rw [← List.take_append_drop split slice, flat_append, multiexp_append, hzero, zero_add] at h
      exact h
    obtain ⟨e, he, hb, hne⟩ := ih hdrop
    refine ⟨e, List.mem_of_mem_drop he, ?_, hne⟩
    rw [blameSlice, if_pos hlen, if_pos hzero]
    exact hb
  | case2 slice hlen split hzero ih =>
    obtain ⟨e, he, hb, hne⟩ := ih hzero
    refine ⟨e, List.mem_of_mem_take he, ?_, hne⟩
    rw [blameSlice, if_pos hlen, if_neg hzero]
    exact hb
  | case3 slice hlen =>
    -- a slice of at most one entry: that entry
    match slice, hlen with
    | [], _ => exact absurd rfl h
    | [e], _ =>
      have he : multiexp e.2 ≠ 0 := by simpa only [flat_cons, flat_nil, List.append_nil] using h
      refine ⟨e, List.mem_singleton_self e, ?_, he⟩
      rw [blameSlice, if_neg (by simp)]
      simp only [List.head?_cons, Option.filter_some, ne_eq, he, not_false_eq_true, decide_true,
        if_true, Option.map_some]
    | _ :: _ :: _, hlen => simp at hlen

theorem blameSlice_some {slice : List (Id × List (F × G))} {id : Id} (h : blameSlice slice = some id) :
    ∃ e ∈ slice, e.1 = id ∧ multiexp e.2 ≠ 0 := by
  induction slice using blameSlice.induct with
  | case1 slice hlen split hzero ih =>
    rw [blameSlice, if_pos hlen, if_pos hzero] at h
    obtain ⟨e, he, hid, hne⟩ := ih h
    exact ⟨e, List.mem_of_mem_drop he, hid, hne⟩
  | case2 slice hlen split hzero ih =>
    rw [blameSlice, if_pos hlen, if_neg hzero] at h
    obtain ⟨e, he, hid, hne⟩ := ih h
    exact ⟨e, List.mem_of_mem_take he, hid, hne⟩
  | case3 slice hlen =>
    rw [blameSlice, if_neg hlen] at h
    obtain ⟨e, hfirst, hid⟩ := Option.map_eq_some_iff.mp h
    obtain ⟨hhead, hne⟩ := Option.filter_eq_some_iff.mp hfirst
    exact ⟨e, List.mem_of_head? hhead, hid, by simpa using hne⟩

theorem blameSlice_eq_none {slice : List (Id × List (F × G))} (h : ∀ e ∈ slice, multiexp e.2 = 0) :
    blameSlice slice = none := by
  cases hb : blameSlice slice with
  | none => rfl
  | some id =>
    obtain ⟨e, he, -, hne⟩ := blameSlice_some hb
    exact absurd (h e he) hne

theorem verifyWithVartimeBlame_error {b : BatchVerifier Id F G} {blame : Option Id}
    (h : b.verifyWithVartimeBlame = .error blame) :
    ∃ e ∈ b.entries, blame = some e.1 ∧ multiexp e.2 ≠ 0 := by
  unfold verifyWithVartimeBlame at h
  split at h
  · cases h
  · rename_i hv
    have hne : multiexp (flat b.entries) ≠ 0 := by simpa [verify] using hv
    obtain ⟨e, he, hb, hne⟩ := blameSlice_spec b.entries hne
    cases h
    exact ⟨e, he, hb, hne⟩

theorem verifyWithVartimeBlame_ok_iff (b : BatchVerifier Id F G) :
    b.verifyWithVartimeBlame = .ok () ↔ b.verify = true := by
  unfold verifyWithVartimeBlame
  split <;> simp_all

/-! ## Runs of `queue` -/

omit [DecidableEq G] in
theorem mem_foldl_queue (ws : Weights F) {items : List (Id × List (F × G))} {R : Set (Id × List (F × G))}
    (hitems : ∀ it ∈ items, it ∈ R) {b : BatchVerifier Id F G}
    (hb : ∀ e ∈ b.entries, ∃ pairs, (e.1, pairs) ∈ R ∧ (multiexp e.2 = 0 ↔ multiexp pairs = 0)) :
    ∀ e ∈ (items.foldl (fun b it => b.queue ws it.1 it.2) b).entries,
      ∃ pairs, (e.1, pairs) ∈ R ∧ (multiexp e.2 = 0 ↔ multiexp pairs = 0) := by
  induction items generalizing b with
  | nil => exact hb
  | cons it items ih =>
    refine ih (fun it' h' => hitems it' (List.mem_cons_of_mem _ h')) ?_
    intro e he
    rw [queue_entries, List.mem_append, List.mem_singleton] at he
    rcases he with he | rfl
    · exact hb e he
    · exact ⟨it.2, hitems it List.mem_cons_self, multiexp_queued b ws it.2⟩

/-- The batch verifier after queueing `items` in order. -/
theorem batch_verifier_blame_sound (ws : Weights F) (items : List (Id × List (F × G))) :
    let b := items.foldl (fun b it => b.queue ws it.1 it.2) new
    ((∀ it ∈ items, multiexp it.2 = 0) → b.verify = true ∧ b.blameVartime = none) ∧
    (∀ id, b.blameVartime = some id → ∃ pairs, (id, pairs) ∈ items ∧ multiexp pairs ≠ 0) ∧
    (b.verify = false → ∃ id, b.blameVartime = some id) ∧ b.verifyWithVartimeBlame ≠ .error none := by
  intro b
  -- every entry queued stands for an item, summing to the identity exactly when it does
  have hentries := mem_foldl_queue ws (R := {it | it ∈ items}) (fun it h => h) (b := new) (by simp)
  refine ⟨fun hall => ?_, fun id hid => ?_, fun hv => ?_, fun herr => ?_⟩
  · have hzero : ∀ e ∈ b.entries, multiexp e.2 = 0 := fun e he => by
      obtain ⟨pairs, hmem, hiff⟩ := hentries e he
      exact hiff.mpr (hall _ hmem)
    exact ⟨verify_of_forall hzero, blameSlice_eq_none hzero⟩
  · obtain ⟨e, he, rfl, hne⟩ := blameSlice_some hid
    obtain ⟨pairs, hmem, hiff⟩ := hentries e he
    exact ⟨pairs, hmem, fun h => hne (hiff.mpr h)⟩
  · have hne : multiexp (flat b.entries) ≠ 0 := by simpa [verify] using hv
    obtain ⟨e, -, hb, -⟩ := blameSlice_spec b.entries hne
    exact ⟨e.1, hb⟩
  · obtain ⟨e, -, hb, -⟩ := verifyWithVartimeBlame_error herr
    cases hb

end BatchVerifier

end Serai.Crypto
