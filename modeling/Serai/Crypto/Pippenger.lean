import Serai.Crypto.Straus
/-
  Serai.Crypto.Pippenger — Pippenger's algorithm and the choice of algorithm
  (crypto/multiexp: `pippenger`, `pippenger_vartime`, `algorithm`, `multiexp`,
  `multiexp_vartime`).

  Pippenger's algorithm runs over the digit positions as Straus's does, but at each position
  puts every point in the bucket of its digit there and adds the buckets up with running sums
  from the highest bucket down to bucket one: `∑ digit • point` again
  (`pippenger_step`), so it too computes `∑ scalar • point` (`pippenger_eq_multiexp`). The
  variable-time variant keeps `None` for the identity in its buckets and running sum, and
  leaves out the digits zero, whose bucket no running sum reads (`pippengerVartime_step`).

  `multiexp` picks no algorithm for no pairs, one product for one pair and one of the two for
  more, with a window from three to eight (`algorithm_window`): each computes
  `∑ scalar • point`, so `multiexp` and `multiexp_vartime` do, and never panic
  (`multiexp_algorithms_eq_sum`). The batch verifier's `verify` is what `multiexp` says of
  its statements (`verify_iff_multiexp`).
-/

namespace Serai.Crypto.Multiexp

open Serai.Lib

variable {F G : Type} [Field F] [AddCommGroup G] [Module F G]

/-- `pippenger`: `none` without pairs, where `bits[0]` panics. -/
def pippenger (S : PrimeFieldBits F) (pairs : List (F × G)) (window : ℕ) : Option G := do
  let bits := prepBits S pairs window
  let first ← bits.head?
  pure <| (List.range first.length).reverse.foldl (fun res n =>
      let res := if n ≠ first.length - 1 then (fun r => r + r)^[window] res else res
      let buckets := (bits.zip pairs).foldl (fun buckets dp => buckets.modify (dp.1.getD n 0) (· + dp.2.2))
        (List.replicate (2 ^ window) 0)
      -- `intermediate_sum += buckets[b]; res += intermediate_sum` for `b` from the top down to one
      ((List.range' 1 (buckets.length - 1)).reverse.foldl
        (fun acc b => (acc.1 + buckets.getD b 0, acc.2 + (acc.1 + buckets.getD b 0))) (0, res)).2)
    0

/-- `pippenger_vartime`: `None` stands for the identity, in the buckets and the running sum. -/
def pippengerVartime (S : PrimeFieldBits F) (pairs : List (F × G)) (window : ℕ) : Option G := do
  let bits := prepBits S pairs window
  let first ← bits.head?
  pure <| (List.range first.length).reverse.foldl (fun res n =>
      let res := if n ≠ first.length - 1 then (fun r => r + r)^[window] res else res
      let buckets := (bits.zip pairs).foldl (fun (buckets : List (Option G)) dp =>
        if dp.1.getD n 0 ≠ 0 then
          buckets.modify (dp.1.getD n 0) fun bucket => some (match bucket with
            | some bucket => bucket + dp.2.2
            | none => dp.2.2)
        else buckets) (List.replicate (2 ^ window) none)
      ((List.range' 1 (buckets.length - 1)).reverse.foldl (fun (acc : Option G × G) b =>
        let intermediateSum := match buckets.getD b none with
          | some bucket => some (match acc.1 with
            | some intermediateSum => intermediateSum + bucket
            | none => bucket)
          | none => acc.1
        (intermediateSum, match intermediateSum with
          | some intermediateSum => acc.2 + intermediateSum
          | none => acc.2)) (none, res)).2)
    0

/-- `Algorithm`. -/
inductive Algorithm where
  | null
  | single
  | straus (window : ℕ)
  | pippenger (window : ℕ)
  deriving DecidableEq, Repr

/-- `algorithm`, with the thresholds of a release build. -/
def algorithm (len : ℕ) : Algorithm :=
  if len = 0 then .null
  else if len = 1 then .single
  else if len < 10 then .straus 3
  else if len < 20 then .straus 4
  else if len < 50 then .straus 5
  else if len < 100 then .pippenger 4
  else if len < 125 then .pippenger 5
  else if len < 275 then .pippenger 6
  else if len < 400 then .pippenger 7
  else .pippenger 8

/-- `multiexp`: `none` is a panic. `Single` computes `pairs[0].1 * pairs[0].0`. -/
def multiexp (S : PrimeFieldBits F) (pairs : List (F × G)) : Option G :=
  match algorithm pairs.length with
  | .null => some 0
  | .single => pairs.head?.map fun pair => pair.1 • pair.2
  | .straus window => straus S pairs window
  | .pippenger window => pippenger S pairs window

/-- `multiexp_vartime`. -/
def multiexpVartime (S : PrimeFieldBits F) (pairs : List (F × G)) : Option G :=
  match algorithm pairs.length with
  | .null => some 0
  | .single => pairs.head?.map fun pair => pair.1 • pair.2
  | .straus window => strausVartime S pairs window
  | .pippenger window => pippengerVartime S pairs window

/-! ## Buckets -/

section Buckets

variable (S : PrimeFieldBits F) (pairs : List (F × G)) {window : ℕ}

/-- The digit at `n` of each pair's scalar, with its point. -/
def digitsAt (window n : ℕ) : List (ℕ × G) :=
  pairs.map fun pair => ((groupBits window (S.toLeBits pair.1)).getD n 0, pair.2)

omit [AddCommGroup G] [Module F G] in
theorem digitsAt_lt (hw : 0 < window) (n : ℕ) : ∀ t ∈ digitsAt S pairs window n, t.1 < 2 ^ window := by
  intro t ht
  obtain ⟨pair, -, rfl⟩ := List.mem_map.mp ht
  dsimp only
  rw [List.getD_eq_getElem?_getD]
  cases h : (groupBits window (S.toLeBits pair.1))[n]? with
  | none => exact Nat.two_pow_pos window
  | some d => exact (groupBits_spec hw _).2.2 d (List.mem_of_getElem? h)

omit [Module F G] in
theorem weightedSum_buckets (hw : 0 < window) (n : ℕ) :
    weightedSum (((prepBits S pairs window).zip pairs).foldl
      (fun buckets dp => buckets.modify (dp.1.getD n 0) (· + dp.2.2)) (List.replicate (2 ^ window) 0)) =
        ((digitsAt S pairs window n).map fun t => t.1 • t.2).sum := by
  have h := weightedSum_foldl_modify (digitsAt S pairs window n) (List.replicate (2 ^ window) (0 : G))
    (by simpa using digitsAt_lt S pairs hw n)
  rw [digitsAt, List.foldl_map, weightedSum_replicate_zero, zero_add] at h
  rw [prepBits, zip_map_self, List.foldl_map]
  exact h

omit [Field F] [Module F G] in
theorem weightedSum_vartimeBuckets (n : ℕ) (init : List (Option G))
    (hinit : init.length = 2 ^ window) (dps : List (List ℕ × F × G))
    (hdps : ∀ dp ∈ dps, dp.1.getD n 0 < 2 ^ window) :
    weightedSum ((dps.foldl (fun (buckets : List (Option G)) dp =>
      if dp.1.getD n 0 ≠ 0 then
        buckets.modify (dp.1.getD n 0) fun bucket => some (match bucket with
          | some bucket => bucket + dp.2.2
          | none => dp.2.2)
      else buckets) init).map (·.getD 0)) =
        weightedSum (init.map (·.getD 0)) + (dps.map fun dp => dp.1.getD n 0 • dp.2.2).sum := by
  induction dps generalizing init with
  | nil => simp
  | cons dp dps ih =>
    rw [List.foldl_cons]
    split
    · rename_i hd
      rw [ih _ (by rw [List.length_modify, hinit]) fun dp' h' => hdps dp' (List.mem_cons_of_mem _ h'),
        map_modify (·.getD 0) (e := (· + dp.2.2)) (fun bucket => by cases bucket <;> simp) init,
        weightedSum_modify_add _ _ (by rw [List.length_map, hinit]; exact hdps dp List.mem_cons_self),
        List.map_cons, List.sum_cons, add_assoc]
    · rename_i hd
      rw [ih _ hinit fun dp' h' => hdps dp' (List.mem_cons_of_mem _ h'), List.map_cons, List.sum_cons,
        not_not.mp hd, zero_smul, zero_add]

end Buckets

/-! ## Pippenger -/

section Pippenger

variable (S : PrimeFieldBits F) (pairs : List (F × G)) {window : ℕ}

omit [Module F G] in
theorem pippenger_step (hw : 0 < window) (n : ℕ) (res : G) :
    let buckets := ((prepBits S pairs window).zip pairs).foldl
      (fun buckets dp => buckets.modify (dp.1.getD n 0) (· + dp.2.2)) (List.replicate (2 ^ window) 0)
    ((List.range' 1 (buckets.length - 1)).reverse.foldl
      (fun acc b => (acc.1 + buckets.getD b 0, acc.2 + (acc.1 + buckets.getD b 0))) (0, res)).2 =
      res + (pairs.map fun pair => (groupBits window (S.toLeBits pair.1)).getD n 0 • pair.2).sum := by
  intro buckets
  rw [foldl_runningSum, weightedSum_buckets S pairs hw, digitsAt, List.map_map]
  rfl

omit [Module F G] in
theorem pippengerVartime_step (hw : 0 < window) (n : ℕ) (res : G) :
    let buckets := ((prepBits S pairs window).zip pairs).foldl (fun (buckets : List (Option G)) dp =>
      if dp.1.getD n 0 ≠ 0 then
        buckets.modify (dp.1.getD n 0) fun bucket => some (match bucket with
          | some bucket => bucket + dp.2.2
          | none => dp.2.2)
      else buckets) (List.replicate (2 ^ window) none)
    ((List.range' 1 (buckets.length - 1)).reverse.foldl (fun (acc : Option G × G) b =>
      let intermediateSum := match buckets.getD b none with
        | some bucket => some (match acc.1 with
          | some intermediateSum => intermediateSum + bucket
          | none => bucket)
        | none => acc.1
      (intermediateSum, match intermediateSum with
        | some intermediateSum => acc.2 + intermediateSum
        | none => acc.2)) (none, res)).2 =
      res + (pairs.map fun pair => (groupBits window (S.toLeBits pair.1)).getD n 0 • pair.2).sum := by
  intro buckets
  -- the running sums, `None` read as the identity, are those over the buckets read so
  have hrun := foldl_runningSum (buckets.map (·.getD 0)) res
  rw [List.length_map] at hrun
  refine (congrArg Prod.snd (List.foldl_hom (fun acc : Option G × G => (acc.1.getD 0, acc.2))
    fun acc b => ?_)).symm.trans (hrun.trans ?_)
  · have hget : (buckets.map (·.getD 0)).getD b 0 = (buckets.getD b none).getD 0 := by
      rw [← List.getD_map buckets none (·.getD 0)]
      rfl
    rw [hget]
    cases buckets.getD b none with
    | none =>
      cases acc.1 <;> simp
    | some bucket =>
      cases acc.1 <;> simp
  · -- the buckets read so are worth `∑ digit • point`
    rw [weightedSum_vartimeBuckets n _ List.length_replicate _ fun dp hdp => ?_]
    · rw [List.map_replicate, Option.getD_none, weightedSum_replicate_zero, zero_add, prepBits, zip_map_self,
        List.map_map]
      rfl
    · rw [prepBits, zip_map_self] at hdp
      obtain ⟨pair, -, rfl⟩ := List.mem_map.mp hdp
      exact digitsAt_lt S [pair] hw n _ List.mem_cons_self

theorem pippenger_eq_multiexp {pairs : List (F × G)} (hpairs : pairs ≠ []) (hw : 0 < window) :
    pippenger S pairs window = some (Crypto.multiexp pairs) := by
  obtain ⟨pair, rest, rfl⟩ := List.exists_cons_of_ne_nil hpairs
  have hfirst := (groupBits_spec hw (S.toLeBits pair.1)).1
  rw [S.length_toLeBits] at hfirst
  simp only [pippenger, Option.pure_def, Option.bind_eq_bind]
  rw [prepBits, List.map_cons, List.head?_cons, Option.bind_some, ← prepBits, Option.some.injEq,
    ← foldl_windows S (pair :: rest) hw, hfirst]
  exact List.foldl_ext _ _ _ fun res n _ => pippenger_step S (pair :: rest) hw n _

theorem pippengerVartime_eq_multiexp {pairs : List (F × G)} (hpairs : pairs ≠ []) (hw : 0 < window) :
    pippengerVartime S pairs window = some (Crypto.multiexp pairs) := by
  obtain ⟨pair, rest, rfl⟩ := List.exists_cons_of_ne_nil hpairs
  have hfirst := (groupBits_spec hw (S.toLeBits pair.1)).1
  rw [S.length_toLeBits] at hfirst
  simp only [pippengerVartime, Option.pure_def, Option.bind_eq_bind]
  rw [prepBits, List.map_cons, List.head?_cons, Option.bind_some, ← prepBits, Option.some.injEq,
    ← foldl_windows S (pair :: rest) hw, hfirst]
  exact List.foldl_ext _ _ _ fun res n _ => pippengerVartime_step S (pair :: rest) hw n _

end Pippenger

/-! ## `multiexp` -/

theorem algorithm_window {len window : ℕ} (h : algorithm len = .straus window ∨ algorithm len = .pippenger window) :
    2 ≤ len ∧ 3 ≤ window ∧ window ≤ 8 := by
  unfold algorithm at h
  split_ifs at h <;> simp at h <;> omega

theorem algorithm_eq_null {len : ℕ} (h : algorithm len = .null) : len = 0 := by
  unfold algorithm at h
  -- the other branches name other algorithms
  split_ifs at h with h0
  exact h0

theorem algorithm_eq_single {len : ℕ} (h : algorithm len = .single) : len = 1 := by
  unfold algorithm at h
  split_ifs at h with h0 h1
  exact h1

section Dispatch

variable (S : PrimeFieldBits F)

theorem algorithms_eq_sum {pairs : List (F × G)} {window : ℕ} (hpairs : pairs ≠ []) (hw : 0 < window) :
    straus S pairs window = some (Crypto.multiexp pairs) ∧
      strausVartime S pairs window = some (Crypto.multiexp pairs) ∧
      pippenger S pairs window = some (Crypto.multiexp pairs) ∧
      pippengerVartime S pairs window = some (Crypto.multiexp pairs) :=
  ⟨straus_eq_multiexp S hpairs hw, (strausVartime_eq_straus S pairs window).trans (straus_eq_multiexp S hpairs hw),
    pippenger_eq_multiexp S hpairs hw, pippengerVartime_eq_multiexp S hpairs hw⟩

theorem multiexp_eq_sum (pairs : List (F × G)) :
    multiexp S pairs = some (Crypto.multiexp pairs) ∧ multiexpVartime S pairs = some (Crypto.multiexp pairs) := by
  unfold multiexp multiexpVartime
  -- the choice of algorithm
  split
  · rename_i h
    rw [List.length_eq_zero_iff.mp (algorithm_eq_null h)]
    exact ⟨rfl, rfl⟩
  · rename_i h
    obtain ⟨pair, rfl⟩ := List.length_eq_one_iff.mp (algorithm_eq_single h)
    simp [Crypto.multiexp]
  · rename_i window h
    obtain ⟨hlen, hw, -⟩ := algorithm_window (.inl h)
    have hpairs : pairs ≠ [] := List.ne_nil_of_length_pos (by omega)
    obtain ⟨h₁, h₂, -⟩ := algorithms_eq_sum S hpairs (by omega : 0 < window)
    exact ⟨h₁, h₂⟩
  · rename_i window h
    obtain ⟨hlen, hw, -⟩ := algorithm_window (.inr h)
    have hpairs : pairs ≠ [] := List.ne_nil_of_length_pos (by omega)
    obtain ⟨-, -, h₃, h₄⟩ := algorithms_eq_sum S hpairs (by omega : 0 < window)
    exact ⟨h₃, h₄⟩

/-- Multiexponentiation, by each algorithm with a window from one to eight, is
    `∑ scalar • point`; so are `multiexp` and `multiexp_vartime`, which never panic. -/
theorem multiexp_algorithms_eq_sum :
    (∀ (pairs : List (F × G)) (window : ℕ), pairs ≠ [] → 1 ≤ window → window ≤ 8 →
      straus S pairs window = some (Crypto.multiexp pairs) ∧
      strausVartime S pairs window = some (Crypto.multiexp pairs) ∧
      pippenger S pairs window = some (Crypto.multiexp pairs) ∧
      pippengerVartime S pairs window = some (Crypto.multiexp pairs)) ∧
    ∀ pairs : List (F × G),
      multiexp S pairs = some (Crypto.multiexp pairs) ∧ multiexpVartime S pairs = some (Crypto.multiexp pairs) :=
  ⟨fun _ _ hpairs hw _ => algorithms_eq_sum S hpairs hw, multiexp_eq_sum S⟩

theorem verify_iff_multiexp {Id : Type} [DecidableEq G] (b : BatchVerifier Id F G) :
    b.verify = true ↔ multiexp S (BatchVerifier.flat b.entries) = some 0 := by
  rw [(multiexp_eq_sum S _).1, Option.some.injEq, BatchVerifier.verify, decide_eq_true_iff]

end Dispatch

end Serai.Crypto.Multiexp
