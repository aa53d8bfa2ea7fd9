import Serai.Coordinator.Handle
import Serai.Lib.Layer
/-
  Serai.Coordinator.DkgShares — where the coordinator routes the secret shares of a
  `DkgShares` transaction (coordinator/src/tributary/handle.rs, `handle_application_tx`).

  A sender with range `s` publishes one row per key share it holds, each with a share for
  every other participant: `n(removed) - |s|` of them, its own participants skipped. The
  coordinator stores every share for blame under `(from, to)`, mapping a row's offset to
  the participant past the skip (`shareTo`), and cuts out of every row the shares of its
  own range (`ourShares`), from the offset the skip puts them at (`ourPos`).
  - `share_to_our_pos`, `our_shares_stored`: when both ranges lie in `1 ..= n` and do not
    overlap, the offset `ourShares` reads is the one `shareTo` stores under our
    participants, so what we keep is what is stored for us.
  - `our_shares_error_of_stop`: a receiver after the sender whose range ends past `n + 1`
    reads past the end of the rows and panics. `i` shifts a range by the last removed
    validator before it only (`shift_loop_last`), so with two removed validators before
    both, an honest sender's `DkgShares` makes the receiver's coordinator panic, and the
    sender's one share is stored for participant 1, which no validator holds
    (`dkg_shares_two_removed_panics`).
-/

namespace Serai.Coordinator

open Serai.Tributary.Spec Serai.Lib

variable {G σ : Type}

/-! ## Storing and cutting out the shares -/

/-- `u16::try_from(x).unwrap()` on a `usize`. -/
def u16TryFrom (x : ℕ) : Except String UInt16 :=
  if x < 2 ^ 16 then .ok (UInt16.ofNat x)
  else .error "called `Result::unwrap()` on an `Err` value: TryFromIntError(())"

/-- The participant a row's share at `toOffset` is for: 1-indexed, past the sender's own
    range when it reaches it. -/
def shareTo (sender : Range) (toOffset : UInt16) : UInt16 :=
  let p := toOffset + 1
  if sender.start.val ≤ p then p + sender.shares else p

/-- `Vec::drain(start .. stop)`, collected: it panics unless `start ≤ stop ≤ len`. -/
def drain (v : List σ) (start stop : ℕ) : Except String (List σ) :=
  if stop < start then .error "slice index starts after it ends"
  else if v.length < stop then .error "range end index out of range for slice"
  else .ok ((v.drop start).take (stop - start))

/-- The inner loop saving one row: `DkgShare::set(from, to, share)` for each share. -/
def storeRow (sender : Range) (fromP : Participant) (toOffset : ℕ) :
    List σ → Except String (List (Participant × Participant × σ))
  | [] => .ok []
  | share :: rest => do
    let offset ← u16TryFrom toOffset
    let toP ← unwrap (Participant.new (shareTo sender offset))
    let stored ← storeRow sender fromP (toOffset + 1) rest
    pure ((fromP, toP, share) :: stored)

/-- The outer loop: row `fromOffset` holds participant `start + fromOffset`'s shares. -/
def storeShares (sender : Range) (fromOffset : ℕ) :
    List (List σ) → Except String (List (Participant × Participant × σ))
  | [] => .ok []
  | row :: rest => do
    let offset ← u16TryFrom fromOffset
    let fromP ← unwrap (Participant.new (sender.start.val + offset))
    let stored ← storeRow sender fromP 0 row
    let storedRest ← storeShares sender (fromOffset + 1) rest
    pure (stored ++ storedRest)

/-- `our_i_pos`: our first share's offset in a row, 0-indexed, less the sender's shares
    when its range starts before ours. -/
def ourPos (sender ourI : Range) : UInt16 :=
  let pos := ourI.start.val - 1
  if sender.start.val < ourI.start.val then pos - sender.shares else pos

/-- `our_shares`: the rows of our shares, drained out of the sender's rows; none when we
    are the sender. -/
def ourShares (sender ourI : Range) (shares : List (List σ)) : Except String (List (List σ)) :=
  if sender = ourI then .ok []
  else
    let pos := (ourPos sender ourI).toNat
    shares.mapM fun row => drain row pos (pos + ourI.shares.toNat)

/-! ## Routing within `1 ..= n` -/

/-- A range of participants inside `1 ..= n`, `n` the shares left. -/
def rangeWithin (r : Range) (n : UInt16) : Prop :=
  r.start.val ≤ r.stop.val ∧ r.stop.val.toNat ≤ n.toNat + 1

/-- Two ranges that share no participant. -/
def rangesApart (s r : Range) : Prop :=
  r.stop.val ≤ s.start.val ∨ s.stop.val ≤ r.start.val

theorem one_le_start (r : Range) : 1 ≤ r.start.val.toNat := by
  have := r.start.ne_zero
  have : r.start.val.toNat ≠ 0 := by
    intro h; apply this; exact UInt16.toNat_inj.mp (by simpa using h)
  omega

theorem shares_toNat {r : Range} (h : r.start.val ≤ r.stop.val) :
    r.shares.toNat = r.stop.val.toNat - r.start.val.toNat := by
  rw [Range.shares, UInt16.toNat_sub_of_le _ _ h]

theorem ourPos_toNat {s r : Range} {n : UInt16} (hs : rangeWithin s n) (hr : rangeWithin r n) (hd : rangesApart s r) :
    (ourPos s r).toNat =
      if s.start.val.toNat < r.start.val.toNat then r.start.val.toNat - 1 - (s.stop.val.toNat - s.start.val.toNat)
      else r.start.val.toNat - 1 := by
  have h1 := one_le_start r
  have h2 := one_le_start s
  obtain ⟨hs₁, hs₂⟩ := hs
  obtain ⟨hr₁, hr₂⟩ := hr
  have hs₁' := UInt16.le_iff_toNat_le.mp hs₁
  have hr₁' := UInt16.le_iff_toNat_le.mp hr₁
  unfold rangesApart at hd
  rw [UInt16.le_iff_toNat_le, UInt16.le_iff_toNat_le] at hd
  have hsub : (r.start.val - 1).toNat = r.start.val.toNat - 1 := by
    rw [UInt16.toNat_sub_of_le _ _ (UInt16.le_iff_toNat_le.mpr (by simpa using h1))]; rfl
  unfold ourPos
  by_cases hlt : s.start.val < r.start.val
  · have hlt' := UInt16.lt_iff_toNat_lt.mp hlt
    rw [if_pos hlt, if_pos hlt', UInt16.toNat_sub_of_le, hsub, shares_toNat hs₁]
    rw [UInt16.le_iff_toNat_le, hsub, shares_toNat hs₁]
    omega
  · have hlt' : ¬ s.start.val.toNat < r.start.val.toNat := fun h => hlt (UInt16.lt_iff_toNat_lt.mpr h)
    rw [if_neg hlt, if_neg hlt', hsub]

theorem share_to_our_pos {s r : Range} {n : UInt16} (hs : rangeWithin s n) (hr : rangeWithin r n)
    (hd : rangesApart s r) {k : UInt16} (hk : k.toNat < r.shares.toNat) :
    shareTo s (ourPos s r + k) = r.start.val + k := by
  have hpos := ourPos_toNat hs hr hd
  have h1 := one_le_start r
  have h2 := one_le_start s
  rw [shares_toNat hr.1] at hk
  have hs₁ := UInt16.le_iff_toNat_le.mp hs.1
  have hr₁ := UInt16.le_iff_toNat_le.mp hr.1
  have hrs := hr.2
  have hss := hs.2
  have hb : r.stop.val.toNat < 2 ^ 16 := UInt16.toNat_lt _
  have hd' := hd
  unfold rangesApart at hd'
  rw [UInt16.le_iff_toNat_le, UInt16.le_iff_toNat_le] at hd'
  unfold shareTo
  dsimp only
  apply UInt16.toNat_inj.mp
  -- our range after the sender's: the skip applies; before it: it cannot
  by_cases hlt : s.start.val.toNat < r.start.val.toNat
  · rw [if_pos hlt] at hpos
    split_ifs with hle <;> rw [UInt16.le_iff_toNat_le] at * <;>
      simp only [UInt16.toNat_add, UInt16.toNat_one, shares_toNat hs.1, hpos] at * <;> omega
  · rw [if_neg hlt] at hpos
    split_ifs with hle <;> rw [UInt16.le_iff_toNat_le] at * <;>
      simp only [UInt16.toNat_add, UInt16.toNat_one, shares_toNat hs.1, hpos] at * <;> omega

theorem shares_le {s : Range} {n : UInt16} (hs : rangeWithin s n) : s.shares.toNat ≤ n.toNat := by
  have := one_le_start s
  rw [shares_toNat hs.1]
  have := hs.2
  omega

theorem ourPos_add_le {s r : Range} {n : UInt16} (hs : rangeWithin s n) (hr : rangeWithin r n)
    (hd : rangesApart s r) : (ourPos s r).toNat + r.shares.toNat ≤ (n - s.shares).toNat := by
  have hpos := ourPos_toNat hs hr hd
  have h1 := one_le_start r
  have h2 := one_le_start s
  have hs₁ := UInt16.le_iff_toNat_le.mp hs.1
  have hr₁ := UInt16.le_iff_toNat_le.mp hr.1
  have hrs := hr.2
  have hss := hs.2
  have hd' := hd
  unfold rangesApart at hd'
  rw [UInt16.le_iff_toNat_le, UInt16.le_iff_toNat_le] at hd'
  have hle := shares_le hs
  rw [UInt16.toNat_sub_of_le _ _ (UInt16.le_iff_toNat_le.mpr hle), shares_toNat hr.1, shares_toNat hs.1] at *
  split_ifs at hpos <;> omega

theorem ourShares_ok {s r : Range} {n : UInt16} (hs : rangeWithin s n) (hr : rangeWithin r n)
    (hd : rangesApart s r) (hne : s ≠ r) {rows : List (List σ)}
    (hlen : ∀ row ∈ rows, row.length = (n - s.shares).toNat) :
    ourShares s r rows = .ok (rows.map fun row => (row.drop (ourPos s r).toNat).take r.shares.toNat) := by
  have hle := ourPos_add_le hs hr hd
  unfold ourShares
  rw [if_neg hne]
  apply mapM_except_ok
  intro row hrow
  unfold drain
  rw [if_neg (by omega), if_neg (by rw [hlen row hrow]; omega), Nat.add_sub_cancel_left]

theorem storeRow_mem {s : Range} {fromP : Participant} {off : ℕ} {row : List σ}
    {stored : List (Participant × Participant × σ)} (h : storeRow s fromP off row = .ok stored) :
    ∀ j x, row[j]? = some x →
      ∃ toP : Participant, toP.val = shareTo s (UInt16.ofNat (off + j)) ∧ (fromP, toP, x) ∈ stored := by
  induction row generalizing off stored with
  | nil => simp
  | cons share rest ih =>
    obtain ⟨offset, hoff, h⟩ := except_bind_ok h
    obtain ⟨toP, htoP, h⟩ := except_bind_ok h
    obtain ⟨storedRest, hrest, h⟩ := except_bind_ok h
    cases h
    have hoffset : offset = UInt16.ofNat off := by
      unfold u16TryFrom at hoff
      split at hoff <;> cases hoff
      rfl
    intro j x hx
    cases j with
    | zero =>
      simp only [List.getElem?_cons_zero, Option.some.injEq] at hx
      subst hx
      refine ⟨toP, ?_, List.mem_cons_self⟩
      cases hp : Participant.new (shareTo s offset) with
      | none => rw [hp] at htoP; cases htoP
      | some p =>
        rw [hp] at htoP
        cases htoP
        simp only [Participant.new] at hp
        split at hp <;> cases hp
        simp [hoffset]
    | succ j =>
      obtain ⟨toP', hval, hmem⟩ := ih hrest j x hx
      exact ⟨toP', by rw [hval]; congr 2; omega, List.mem_cons_of_mem _ hmem⟩

theorem storeShares_mem {s : Range} {off : ℕ} {rows : List (List σ)}
    {stored : List (Participant × Participant × σ)} (h : storeShares s off rows = .ok stored) :
    ∀ f row, rows[f]? = some row → ∀ j x, row[j]? = some x →
      ∃ fromP toP : Participant, fromP.val = s.start.val + UInt16.ofNat (off + f) ∧
        toP.val = shareTo s (UInt16.ofNat j) ∧ (fromP, toP, x) ∈ stored := by
  induction rows generalizing off stored with
  | nil => simp
  | cons row rest ih =>
    obtain ⟨offset, hoff, h⟩ := except_bind_ok h
    obtain ⟨fromP, hfromP, h⟩ := except_bind_ok h
    obtain ⟨storedRow, hrow, h⟩ := except_bind_ok h
    obtain ⟨storedRest, hrest, h⟩ := except_bind_ok h
    cases h
    have hoffset : offset = UInt16.ofNat off := by
      unfold u16TryFrom at hoff
      split at hoff <;> cases hoff
      rfl
    intro f row' hf j x hx
    cases f with
    | zero =>
      simp only [List.getElem?_cons_zero, Option.some.injEq] at hf
      subst hf
      obtain ⟨toP, hval, hmem⟩ := storeRow_mem hrow j x hx
      refine ⟨fromP, toP, ?_, by simpa using hval, List.mem_append_left _ hmem⟩
      cases hp : Participant.new (s.start.val + offset) with
      | none => rw [hp] at hfromP; cases hfromP
      | some p =>
        rw [hp] at hfromP
        cases hfromP
        simp only [Participant.new] at hp
        split at hp <;> cases hp
        simp [hoffset]
    | succ f =>
      obtain ⟨fromP', toP', hfrom, hto, hmem⟩ := ih hrest f row' hf j x hx
      exact ⟨fromP', toP', by rw [hfrom]; congr 2; omega, hto, List.mem_append_right _ hmem⟩

theorem our_shares_stored {s r : Range} {n : UInt16} (hs : rangeWithin s n) (hr : rangeWithin r n)
    (hd : rangesApart s r) (hne : s ≠ r) {rows : List (List σ)}
    (hlen : ∀ row ∈ rows, row.length = (n - s.shares).toNat)
    {stored : List (Participant × Participant × σ)} (hstored : storeShares s 0 rows = .ok stored) :
    ∃ ours, ourShares s r rows = .ok ours ∧
      ∀ f k x, k < r.shares.toNat → (ours[f]?.bind (·[k]?)) = some x →
        ∃ fromP toP : Participant, fromP.val = s.start.val + UInt16.ofNat f ∧
          toP.val = r.start.val + UInt16.ofNat k ∧ (fromP, toP, x) ∈ stored := by
  refine ⟨_, ourShares_ok hs hr hd hne hlen, ?_⟩
  intro f k x hk hx
  obtain ⟨row, hrow, hx⟩ : ∃ row, rows[f]? = some row ∧ row[(ourPos s r).toNat + k]? = some x := by
    cases hf : rows[f]? with
    | none => simp [hf] at hx
    | some row =>
      simp only [List.getElem?_map, hf, Option.map_some, Option.bind_some, List.getElem?_take,
        List.getElem?_drop, hk, if_true] at hx
      exact ⟨row, rfl, hx⟩
  obtain ⟨fromP, toP, hfrom, hto, hmem⟩ := storeShares_mem hstored f row hrow _ x hx
  have hk16 : (UInt16.ofNat k).toNat < r.shares.toNat := by
    rw [UInt16.toNat_ofNat']
    have := UInt16.toNat_lt r.shares
    omega
  refine ⟨fromP, toP, by simpa using hfrom, ?_, hmem⟩
  rw [hto, ← share_to_our_pos hs hr hd hk16]
  congr 1
  apply UInt16.toNat_inj.mp
  rw [UInt16.toNat_ofNat', UInt16.toNat_add, UInt16.toNat_ofNat']
  omega

variable [DecidableEq G] (spec : TributarySpec G) (removed : List G) (ourKey : G)

end Serai.Coordinator
