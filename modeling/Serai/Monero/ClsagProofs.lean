import Serai.Monero.Clsag
/-
  Serai.Monero.ClsagProofs — what `Clsag::sign` and `Clsag::verify` compute (see
  `Serai.Monero.Clsag`).

  - `core_sign`, `core_verify`: `core` from the aggregation coefficients and the challenges
    of its loop; signing runs the indices after the real one, then those before it, and
    returns the challenge entering index `0`; verifying runs `0 .. n` and returns the `c1`
    it was given.
-/

namespace Serai.Monero

open Serai.Crypto Serai.Lib

variable {F G : Type} [Field F] [DecidableEq F] [AddCommGroup G] [Module F G]

/-! ## The indices of the loop -/

theorem signIndices {r n : ℕ} (hr : r < n) :
    (List.range' (r + 1) (r + n - (r + 1))).map (· % n) = List.range' (r + 1) (n - 1 - r) ++ List.range r := by
  have hcount : r + n - (r + 1) = (n - 1 - r) + r := by omega
  rw [hcount, ← List.range'_append_1, List.map_append, show r + 1 + (n - 1 - r) = n by omega]
  congr 1
  · refine (List.map_congr_left fun i hi => Nat.mod_eq_of_lt ?_).trans (List.map_id' _)
    have := List.mem_range'_1.mp hi
    omega
  · refine List.ext_getElem (by simp) fun i h₁ h₂ => ?_
    simp only [List.getElem_map, List.getElem_range', List.getElem_range, Nat.one_mul, Nat.add_mod_left]
    exact Nat.mod_eq_of_lt (by simp at h₂; omega)

theorem verifyIndices (n : ℕ) : (List.range' 0 (n - 0)).map (· % n) = List.range n := by
  rw [Nat.sub_zero, ← List.range_eq_range']
  refine (List.map_congr_left fun i hi => Nat.mod_eq_of_lt (List.mem_range.mp hi)).trans (List.map_id' _)

theorem range_eq_around {r n : ℕ} (hr : r < n) :
    List.range n = List.range r ++ r :: List.range' (r + 1) (n - 1 - r) := by
  have happend := @List.range'_append_1 0 r (n - 1 - r + 1)
  rw [Nat.zero_add, show r + (n - 1 - r + 1) = n by omega] at happend
  rw [List.range_eq_range', List.range_eq_range', ← List.range'_succ, happend]

/-! ## The loop over the round transcript -/

section Loop

variable (E : Ed25519 F G) (P C : List G) (I D : G) (muP muC : F)

/-- The challenge after index `i` from `c`: the round transcript `base`, then `L` and `R`. -/
def challenge (s : List F) (base : List UInt8) (i : ℕ) (c : F) : Option F :=
  E.hashToScalar (base ++ E.suite.toBytes (ringL E P C muP muC s i c) ++ E.suite.toBytes (ringR E P I D muP muC s i c))

/-- The last challenge of the loop over `js` from `c`. -/
def chain (s : List F) (base : List UInt8) (js : List ℕ) (c : F) : Option F :=
  js.foldlM (fun c i => challenge E P C I D muP muC s base i c) c

theorem chain_nil (s : List F) (base : List UInt8) (c : F) : chain E P C I D muP muC s base [] c = some c := rfl

theorem chain_cons (s : List F) (base : List UInt8) (i : ℕ) (js : List ℕ) (c : F) :
    chain E P C I D muP muC s base (i :: js) c =
      (challenge E P C I D muP muC s base i c).bind (chain E P C I D muP muC s base js) := rfl

theorem chain_append (s : List F) (base : List UInt8) (js js' : List ℕ) (c : F) :
    chain E P C I D muP muC s base (js ++ js') c =
      (chain E P C I D muP muC s base js c).bind (chain E P C I D muP muC s base js') := by
  simp only [chain, List.foldlM_append]
  rfl

theorem coreStep_eq {s : List F} {keep : ℕ} {base : List UInt8} (c : F) (c1 : Option F) {toHash : List UInt8}
    (htake : toHash.take keep = base) (i : ℕ) :
    coreStep E P C I D muP muC s keep (c, c1, toHash) i =
      (challenge E P C I D muP muC s base i c).map fun c' => (c', c1.or (if i = 0 then some c else none),
        base ++ E.suite.toBytes (ringL E P C muP muC s i c) ++ E.suite.toBytes (ringR E P I D muP muC s i c)) := by
  simp only [coreStep, htake]
  rfl

theorem foldlM_coreStep {s : List F} {keep : ℕ} {base : List UInt8} (hbase : base.length = keep) :
    ∀ (js : List ℕ) (c c' : F) (c1 : Option F) (toHash : List UInt8), toHash.take keep = base →
      (∀ i ∈ js, i = 0 → c1.isSome) → chain E P C I D muP muC s base js c = some c' →
      ∃ toHash', toHash'.take keep = base ∧
        js.foldlM (coreStep E P C I D muP muC s keep) (c, c1, toHash) = some (c', c1, toHash')
  | [], c, c', c1, toHash, htake, _, h => by
    obtain rfl : c = c' := Option.some.inj h
    exact ⟨toHash, htake, rfl⟩
  | i :: js, c, c', c1, toHash, htake, hzero, h => by
    obtain ⟨c₁, hc₁, hrest⟩ := Option.bind_eq_some_iff.mp ((chain_cons E P C I D muP muC s base i js c).symm.trans h)
    -- `c1` is kept: it is taken already, or this is not index `0`
    have hc1 : c1.or (if i = 0 then some c else none) = c1 := by
      by_cases hi : i = 0
      · obtain ⟨v, hv⟩ := Option.isSome_iff_exists.mp (hzero i List.mem_cons_self hi)
        rw [hv, Option.some_or]
      · rw [if_neg hi, Option.or_none]
    obtain ⟨toHash', htake', hloop⟩ := foldlM_coreStep hbase js c₁ c' c1
      (base ++ E.suite.toBytes (ringL E P C muP muC s i c) ++ E.suite.toBytes (ringR E P I D muP muC s i c))
      (by rw [List.append_assoc]; exact List.take_left' hbase) (fun j hj => hzero j (List.mem_cons_of_mem i hj)) hrest
    refine ⟨toHash', htake', ?_⟩
    rw [List.foldlM_cons, coreStep_eq E P C I D muP muC c c1 htake, hc₁, hc1]
    exact hloop

omit [DecidableEq F] in
theorem getD_set_of_ne {s : List F} {r i : ℕ} (v : F) (h : i ≠ r) : (s.set r v).getD i 0 = s.getD i 0 := by
  rw [List.getD_eq_getElem?_getD, List.getD_eq_getElem?_getD, List.getElem?_set_ne (Ne.symm h)]

omit [DecidableEq F] in
theorem getD_set_self {s : List F} {r : ℕ} (v : F) (h : r < s.length) : (s.set r v).getD r 0 = v := by
  rw [List.getD_eq_getElem?_getD, List.getElem?_set_self h, Option.getD_some]

theorem chain_congr {s s' : List F} (base : List UInt8) :
    ∀ (js : List ℕ), (∀ i ∈ js, s.getD i 0 = s'.getD i 0) →
      ∀ c, chain E P C I D muP muC s base js c = chain E P C I D muP muC s' base js c
  | [], _, _ => rfl
  | i :: js, h, c => by
    have hi : challenge E P C I D muP muC s base i = challenge E P C I D muP muC s' base i := by
      funext c
      simp only [challenge, ringL, ringR, h i List.mem_cons_self]
    rw [chain_cons, chain_cons, hi]
    congr 1
    funext c'
    exact chain_congr base js (fun j hj => h j (List.mem_cons_of_mem i hj)) c'

omit [DecidableEq F] in
theorem ringL_close {s : List F} {r : ℕ} (hr : r < s.length) {x z nonce c : F}
    (hP : P.getD r 0 = x • E.suite.generator) (hC : C.getD r 0 = z • E.suite.generator) :
    ringL E P C muP muC (s.set r (-((c * muP) * x + (c * muC) * z) + nonce)) r c = nonce • E.suite.generator := by
  rw [ringL, getD_set_self _ hr, hP, hC]
  module

omit [DecidableEq F] in
theorem ringR_close {s : List F} {r : ℕ} (hr : r < s.length) {x z nonce c : F} {H : G}
    (hH : E.hashToPoint (P.getD r 0) = H) (hI : I = x • H) (hD : D = z • H) :
    ringR E P I D muP muC (s.set r (-((c * muP) * x + (c * muC) * z) + nonce)) r c = nonce • H := by
  rw [ringR, getD_set_self _ hr, hH, hI, hD]
  module

theorem chain_closes {s : List F} {base : List UInt8} {n r : ℕ} (hr : r < n) (hs : s.length = n)
    {x z nonce c₀ cMid cFin : F} {H : G}
    (hP : P.getD r 0 = x • E.suite.generator) (hC : C.getD r 0 = z • E.suite.generator)
    (hH : E.hashToPoint (P.getD r 0) = H) (hI : I = x • H) (hD : D = z • H)
    (hc₀ : E.hashToScalar (base ++ E.suite.toBytes (nonce • E.suite.generator) ++ E.suite.toBytes (nonce • H)) =
      some c₀)
    (hmid : chain E P C I D muP muC s base (List.range' (r + 1) (n - 1 - r)) c₀ = some cMid)
    (hfin : chain E P C I D muP muC s base (List.range r) cMid = some cFin) :
    chain E P C I D muP muC (s.set r (-((cFin * muP) * x + (cFin * muC) * z) + nonce)) base (List.range n) cMid =
      some cMid := by
  have hoff : ∀ i, i ≠ r → s.getD i 0 = (s.set r (-((cFin * muP) * x + (cFin * muC) * z) + nonce)).getD i 0 :=
    fun i hi => (getD_set_of_ne _ hi).symm
  have hbefore := chain_congr E P C I D muP muC base (List.range r)
    (fun i hi => hoff i (Nat.ne_of_lt (List.mem_range.mp hi))) cMid
  have hafter := chain_congr E P C I D muP muC base (List.range' (r + 1) (n - 1 - r))
    (fun i hi => hoff i (by have := (List.mem_range'_1.mp hi).1; omega)) c₀
  -- at `r`, `L` and `R` are the nonce commitments signing hashed first
  have hclose : challenge E P C I D muP muC (s.set r (-((cFin * muP) * x + (cFin * muC) * z) + nonce)) base r cFin =
      some c₀ := by
    rw [challenge, ringL_close E P C muP muC (by omega) hP hC, ringR_close E P I D muP muC (by omega) hH hI hD]
    exact hc₀
  rw [range_eq_around hr, chain_append, ← hbefore, hfin, Option.bind_some, chain_cons, hclose, Option.bind_some,
    ← hafter, hmid]

end Loop

/-! ## `core` -/

/-- The transcript of `mu_C`: that of `mu_P`, with `agg_1`. -/
def aggCTranscript (E : Ed25519 F G) (ring : List (G × G)) (I D8 pseudoOut : G) : List UInt8 :=
  (aggTranscript E ring I D8 pseudoOut).set (clsagPrefix.length + agg0.length - 1) 0x31

/-- The round transcript `core` builds before its loop. -/
def roundBase (E : Ed25519 F G) (ring : List (G × G)) (I D8 pseudoOut : G) (msg : Vector UInt8 32) : List UInt8 :=
  roundTranscript E (aggCTranscript E ring I D8 pseudoOut) ring.length pseudoOut msg

theorem length_foldl_set {α : Type} (f : ℕ → ℕ) (g : ℕ → α) (js : List ℕ) (l : List α) :
    (js.foldl (fun l i => l.set (f i) (g i)) l).length = l.length := by
  induction js generalizing l with
  | nil => rfl
  | cons i js ih => rw [List.foldl_cons, ih, List.length_set]

omit [DecidableEq F] in
theorem length_flatMap_toBytes (E : Ed25519 F G) (ring : List (G × G)) (f : G × G → G) :
    (ring.flatMap fun member => E.suite.toBytes (f member)).length = ring.length * 32 := by
  rw [List.length_flatMap, List.map_congr_left fun member _ => by rw [E.suite.toBytes_length, E.bytesLen_eq],
    List.map_const', List.sum_replicate, smul_eq_mul]

omit [DecidableEq F] in
theorem length_roundBase (E : Ed25519 F G) (ring : List (G × G)) (I D8 pseudoOut : G) (msg : Vector UInt8 32) :
    (roundBase E ring I D8 pseudoOut msg).length = (2 * ring.length + 3) * 32 := by
  have hagg : (aggTranscript E ring I D8 pseudoOut).length = 2 * ring.length * 32 + 4 * 32 := by
    simp only [aggTranscript, List.length_append, length_flatMap_toBytes, E.suite.toBytes_length, E.bytesLen_eq,
      List.length_replicate, clsagPrefix, agg0, List.length_cons, List.length_nil]
    ring
  simp only [roundBase, roundTranscript, aggCTranscript, List.length_append, length_foldl_set, List.length_take,
    List.length_set, hagg, E.suite.toBytes_length, E.bytesLen_eq, Vector.length_toList]
  omega

/-- Where `core`'s loop starts: signing hashes the nonce commitments for the challenge after
    `r`, and runs `r + 1 .. r + n`; verifying runs `0 .. n` from `c1`. -/
def coreStart (E : Ed25519 F G) (n : ℕ) (base : List UInt8) : Mode F G → Option (ℕ × ℕ × F × List UInt8)
  | .sign r A AH => (E.hashToScalar (base ++ E.suite.toBytes A ++ E.suite.toBytes AH)).map fun c =>
      (r + 1, r + n, c, base ++ E.suite.toBytes A ++ E.suite.toBytes AH)
  | .verify c1 => some (0, n, c1, base)

theorem core_eq (E : Ed25519 F G) (ring : List (G × G)) (I pseudoOut : G) (msg : Vector UInt8 32) (D : G)
    (s : List F) (mode : Mode F G) :
    core E ring I pseudoOut msg D s mode =
      (E.hashToScalar (aggTranscript E ring I ((8 : F)⁻¹ • D) pseudoOut)).bind fun muP =>
      (E.hashToScalar (aggCTranscript E ring I ((8 : F)⁻¹ • D) pseudoOut)).bind fun muC =>
      (coreStart E ring.length (roundBase E ring I ((8 : F)⁻¹ • D) pseudoOut msg) mode).bind fun start =>
      (((List.range' start.1 (start.2.1 - start.1)).map (· % ring.length)).foldlM
        (coreStep E (ring.map (·.1)) (ring.map fun member => member.2 - pseudoOut) I D muP muC s
          ((2 * ring.length + 3) * 32)) (start.2.2.1, none, start.2.2.2)).bind fun last =>
      some (((8 : F)⁻¹ • D, last.1 * muP, last.1 * muC), last.2.1.getD last.1) := by
  cases mode <;> rfl

section Core

variable (E : Ed25519 F G) {ring : List (G × G)} {I pseudoOut D : G} {msg : Vector UInt8 32} {s : List F}
  {muP muC : F}

theorem core_sign {r : ℕ} {A AH : G} {c₀ cMid cFin : F} (hr : r < ring.length)
    (hmuP : E.hashToScalar (aggTranscript E ring I ((8 : F)⁻¹ • D) pseudoOut) = some muP)
    (hmuC : E.hashToScalar (aggCTranscript E ring I ((8 : F)⁻¹ • D) pseudoOut) = some muC)
    (hc₀ : E.hashToScalar (roundBase E ring I ((8 : F)⁻¹ • D) pseudoOut msg ++ E.suite.toBytes A ++
      E.suite.toBytes AH) = some c₀)
    (hmid : chain E (ring.map (·.1)) (ring.map fun member => member.2 - pseudoOut) I D muP muC s
      (roundBase E ring I ((8 : F)⁻¹ • D) pseudoOut msg) (List.range' (r + 1) (ring.length - 1 - r)) c₀ = some cMid)
    (hfin : chain E (ring.map (·.1)) (ring.map fun member => member.2 - pseudoOut) I D muP muC s
      (roundBase E ring I ((8 : F)⁻¹ • D) pseudoOut msg) (List.range r) cMid = some cFin) :
    core E ring I pseudoOut msg D s (.sign r A AH) = some (((8 : F)⁻¹ • D, cFin * muP, cFin * muC), cMid) := by
  have hbase := length_roundBase E ring I ((8 : F)⁻¹ • D) pseudoOut msg
  -- the indices after `r`, none of which is `0`
  obtain ⟨th₁, htake₁, hloop₁⟩ := foldlM_coreStep E _ _ I D muP muC hbase _ c₀ cMid none
    (roundBase E ring I ((8 : F)⁻¹ • D) pseudoOut msg ++ E.suite.toBytes A ++ E.suite.toBytes AH)
    (by rw [List.append_assoc]; exact List.take_left' hbase)
    (fun i hi h0 => absurd (List.mem_range'_1.mp hi).1 (by omega)) hmid
  -- then those before `r`: from `0`, where `c1` is taken, if there are any
  obtain ⟨th₂, c1, hc1, hloop₂⟩ : ∃ th₂ c1, c1.getD cFin = cMid ∧
      (List.range r).foldlM (coreStep E (ring.map (·.1)) (ring.map fun member => member.2 - pseudoOut) I D muP muC s
        ((2 * ring.length + 3) * 32)) (cMid, none, th₁) = some (cFin, c1, th₂) := by
    cases r with
    | zero =>
      obtain rfl : cMid = cFin := Option.some.inj hfin
      exact ⟨th₁, none, rfl, rfl⟩
    | succ r =>
      rw [List.range_eq_range', List.range'_succ] at hfin ⊢
      obtain ⟨c₁, hc₁, hrest⟩ := Option.bind_eq_some_iff.mp ((chain_cons ..).symm.trans hfin)
      obtain ⟨th₂, -, hloop⟩ := foldlM_coreStep E _ _ I D muP muC hbase _ c₁ cFin (some cMid)
        (roundBase E ring I ((8 : F)⁻¹ • D) pseudoOut msg ++
          E.suite.toBytes (ringL E (ring.map (·.1)) (ring.map fun member => member.2 - pseudoOut) muP muC s 0 cMid) ++
          E.suite.toBytes (ringR E (ring.map (·.1)) I D muP muC s 0 cMid))
        (by rw [List.append_assoc]; exact List.take_left' hbase) (fun _ _ _ => rfl) hrest
      refine ⟨th₂, some cMid, rfl, ?_⟩
      rw [List.foldlM_cons, coreStep_eq E _ _ I D muP muC cMid none htake₁, hc₁, if_pos rfl, Option.none_or]
      exact hloop
  rw [core_eq, hmuP, Option.bind_some, hmuC, Option.bind_some]
  simp only [coreStart, hc₀, Option.map_some, Option.bind_some]
  rw [signIndices hr, List.foldlM_append, hloop₁]
  simp only [Option.bind_eq_bind, Option.bind_some, hloop₂, hc1]

theorem core_verify {c1 cFin : F} (hn : 0 < ring.length)
    (hmuP : E.hashToScalar (aggTranscript E ring I ((8 : F)⁻¹ • D) pseudoOut) = some muP)
    (hmuC : E.hashToScalar (aggCTranscript E ring I ((8 : F)⁻¹ • D) pseudoOut) = some muC)
    (hfin : chain E (ring.map (·.1)) (ring.map fun member => member.2 - pseudoOut) I D muP muC s
      (roundBase E ring I ((8 : F)⁻¹ • D) pseudoOut msg) (List.range ring.length) c1 = some cFin) :
    core E ring I pseudoOut msg D s (.verify c1) = some (((8 : F)⁻¹ • D, cFin * muP, cFin * muC), c1) := by
  have hbase := length_roundBase E ring I ((8 : F)⁻¹ • D) pseudoOut msg
  have hrange : List.range ring.length = 0 :: List.range' 1 (ring.length - 1) := by
    rw [List.range_eq_range']
    conv_lhs => rw [← Nat.sub_add_cancel hn]
    rw [List.range'_succ]
  rw [hrange] at hfin
  obtain ⟨c₁, hc₁, hrest⟩ := Option.bind_eq_some_iff.mp ((chain_cons ..).symm.trans hfin)
  obtain ⟨th, -, hloop⟩ := foldlM_coreStep E _ _ I D muP muC hbase _ c₁ cFin (some c1)
    (roundBase E ring I ((8 : F)⁻¹ • D) pseudoOut msg ++
      E.suite.toBytes (ringL E (ring.map (·.1)) (ring.map fun member => member.2 - pseudoOut) muP muC s 0 c1) ++
      E.suite.toBytes (ringR E (ring.map (·.1)) I D muP muC s 0 c1))
    (by rw [List.append_assoc]; exact List.take_left' hbase) (fun _ _ _ => rfl) hrest
  rw [core_eq, hmuP, Option.bind_some, hmuC, Option.bind_some]
  simp only [coreStart, Option.bind_some]
  rw [verifyIndices, hrange, List.foldlM_cons,
    coreStep_eq E _ _ I D muP muC c1 none (List.take_of_length_le (le_of_eq hbase)), hc₁, if_pos rfl, Option.none_or]
  simp only [Option.map_some, Option.bind_eq_bind, Option.bind_some, hloop]
  rfl

end Core

end Serai.Monero
