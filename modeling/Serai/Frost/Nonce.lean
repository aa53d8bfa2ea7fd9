import Serai.Crypto.Dleq
import Serai.Dkg.View
/-
  Serai.Frost.Nonce — FROST's nonces, their commitments and binding factors
  (crypto/frost/src/curve/mod.rs: `Curve`; crypto/frost/src/nonce.rs).

  Each nonce is a pair `(d, e)` of scalars, committed to over each of its generators as
  `(d·G, e·G)`. A nonce over more than one generator is aggregated into `a·e + d`, `a`
  hashed from its commitments, and all such nonces are proven in one multi-DLEq proof:
  the commitments over each generator really are of one pair of scalars. Reading a
  participant's commitments rejects the identity and an invalid proof. Once every
  participant's commitments are in, each participant gets one binding factor `ρ` per
  nonce, drawn from the rho transcript forked with its index, and the session's nonce over
  each generator is `∑_l D_l + ρ_l·E_l`.

  The transcript of an algorithm is `DigestTranscript` (the recommended transcript) over
  the digest `H`; the curve's hashes are its `CONTEXT` prepended to its digest's input.
  What a preprocess draws from its RNG is an argument: each nonce `random_nonce`'s
  rejection loop returns (nonzero) and the DLEq proof's nonces.

  - `Commitments.read_write_new`: commitments made for nonzero generators are read back
    from what is written, their DLEq proof, if any, verifying.
  - `BindingFactor.nonces_eq_sum_bound`: the session's nonces are the sums of every
    participant's bound nonces `D_l + ρ_l·E_l`, whatever order the map lists them in.
-/

namespace Serai.Frost

open Serai.Crypto Serai.Lib Serai.Dkg
open Serai.Tributary.Spec (Participant)

variable {F G : Type} [Field F] [AddCommGroup G] [Module F G]

/-- `Curve`: a ciphersuite with `CONTEXT`, its digest `H::digest`, the ciphersuite's
    `hash_to_F`, and `NUM_BITS` of its scalars. -/
structure Curve (F G : Type) [Field F] [AddCommGroup G] [Module F G] where
  suite : Ciphersuite F G
  context : List UInt8
  digest : List UInt8 → List UInt8
  suiteHashToF : List UInt8 → List UInt8 → F
  numBits : ℕ

namespace Curve

/-- `Curve::hash`. -/
def hash (c : Curve F G) (dst data : List UInt8) : List UInt8 := c.digest (c.context ++ dst ++ data)

/-- `Curve::hash_to_F`. -/
def hashToF (c : Curve F G) (dst msg : List UInt8) : F := c.suiteHashToF (c.context ++ dst) msg

/-- `Curve::hash_msg`. -/
def hashMsg (c : Curve F G) (msg : List UInt8) : List UInt8 := c.hash (byteString "msg") msg

/-- `Curve::hash_commitments`. -/
def hashCommitments (c : Curve F G) (commitments : List UInt8) : List UInt8 := c.hash (byteString "com") commitments

/-- `Curve::hash_binding_factor`. -/
def hashBindingFactor (c : Curve F G) (binding : List UInt8) : F := c.hashToF (byteString "rho") binding

/-- `Curve::read_G`: a point, which must not be the identity. -/
def readG [DecidableEq G] (c : Curve F G) : Reader G := do
  let res ← Crypto.readG c.suite
  if res = 0 then throw (.other "identity point") else pure res

end Curve

/-! ## Nonces and their commitments -/

/-- `Nonce`: the pair `(d, e)`. -/
structure Nonce (F : Type) where
  d : F
  e : F

/-- What a preprocess draws from its RNG: the `n`-th nonce, both of whose scalars
    `random_nonce` draws until nonzero, and the nonces of the DLEq proof. -/
structure NonceDraws (F : Type) [Field F] where
  nonce : ℕ → Nonce F
  d_ne_zero : ∀ n, (nonce n).d ≠ 0
  e_ne_zero : ∀ n, (nonce n).e ≠ 0
  dleq : ℕ → F

/-- `GeneratorCommitments`: `(d·G, e·G)`. -/
structure GeneratorCommitments (G : Type) where
  D : G
  E : G

/-- `GeneratorCommitments::read`. -/
def GeneratorCommitments.read [DecidableEq G] (c : Curve F G) : Reader (GeneratorCommitments G) := do
  let D ← c.readG
  let E ← c.readG
  pure ⟨D, E⟩

/-- `GeneratorCommitments::write`. -/
def GeneratorCommitments.write (c : Curve F G) (gc : GeneratorCommitments G) : List UInt8 :=
  c.suite.toBytes gc.D ++ c.suite.toBytes gc.E

/-- `NonceCommitments`: one nonce's commitments, over each of its generators. -/
structure NonceCommitments (G : Type) where
  generators : List (GeneratorCommitments G)

namespace NonceCommitments

/-- `NonceCommitments::new`, for the nonce drawn. -/
def new (nonce : Nonce F) (generators : List G) : NonceCommitments G :=
  ⟨generators.map fun generator => ⟨nonce.d • generator, nonce.e • generator⟩⟩

/-- `NonceCommitments::read`: one pair per generator. -/
def read [DecidableEq G] (c : Curve F G) (generators : List G) : Reader (NonceCommitments G) := do
  let commitments ← Coordinator.readMany (GeneratorCommitments.read c) generators.length
  pure ⟨commitments⟩

/-- `NonceCommitments::write`. -/
def write (c : Curve F G) (nc : NonceCommitments G) : List UInt8 := nc.generators.flatMap (·.write c)

/-- `NonceCommitments::transcript`. -/
def transcript (c : Curve F G) (nc : NonceCommitments G) (t : DigestTranscript) : DigestTranscript :=
  nc.generators.foldl (fun t gc => (t.appendMessage (byteString "commitment_D") (c.suite.toBytes gc.D)).appendMessage
    (byteString "commitment_E") (c.suite.toBytes gc.E)) (t.domainSeparate (byteString "nonce"))

end NonceCommitments

/-- `aggregation_transcript`. -/
def aggregationTranscript (context : List UInt8) : DigestTranscript :=
  (DigestTranscript.new (byteString "FROST DLEq Aggregation v0.5")).appendMessage (byteString "context") context

/-- `dleq_transcript`. -/
def dleqTranscript (context : List UInt8) : DigestTranscript :=
  (DigestTranscript.new (byteString "FROST Commitments DLEq v0.5")).appendMessage (byteString "context") context

/-- `NonceCommitments::aggregation_factor`. -/
def NonceCommitments.aggregationFactor (c : Curve F G) (H : Digest) (nc : NonceCommitments G) (context : List UInt8) :
    F :=
  c.hashToF (byteString "dleq_aggregation") ((nc.transcript c (aggregationTranscript context)).challenge H
    (byteString "binding")).1

/-- `Commitments`: every nonce's commitments, and the DLEq proof of those over more than one
    generator. -/
structure Commitments (F G : Type) where
  nonces : List (NonceCommitments G)
  dleq : Option (MultiDLEqProof F)

namespace Commitments

/-- Each planned nonce's generators, the nonce drawn for it and its commitments. -/
def drawn (draws : NonceDraws F) (plannedNonces : List (List G)) : List (List G × Nonce F × NonceCommitments G) :=
  plannedNonces.zipIdx.map fun p => (p.1, draws.nonce p.2, NonceCommitments.new (draws.nonce p.2) p.1)

/-- The DLEq proof `new` makes of the nonces over more than one generator, each aggregated
    into `a·e + d`, if there are any; `none` is the panic of its `assert_eq!`. -/
def dleqProof (c : Curve F G) (H : Digest) (draws : NonceDraws F) (plannedNonces : List (List G))
    (context : List UInt8) : Option (Option (MultiDLEqProof F)) :=
  let multi := (drawn draws plannedNonces).filter fun x => 1 < x.1.length
  if multi.isEmpty then some none
  else match MultiDLEqProof.prove c.suite H c.numBits draws.dleq (dleqTranscript context) (multi.map (·.1))
      (multi.map fun x => x.2.2.aggregationFactor c H context * x.2.1.e + x.2.1.d) with
    | some (proof, _) => some (some proof)
    | none => none

/-- `Commitments::new`: the nonces drawn, and their commitments; `none` is the panic of the
    proof's `assert_eq!`. -/
def new (c : Curve F G) (H : Digest) (draws : NonceDraws F) (plannedNonces : List (List G)) (context : List UInt8) :
    Option (List (Nonce F) × Commitments F G) := do
  let dleq ← dleqProof c H draws plannedNonces context
  pure ((drawn draws plannedNonces).map (·.2.1), ⟨(drawn draws plannedNonces).map (·.2.2), dleq⟩)

/-- `Commitments::transcript`. -/
def transcript (c : Curve F G) (cm : Commitments F G) (t : DigestTranscript) : DigestTranscript :=
  let t := cm.nonces.foldl (fun t nc => nc.transcript c t) (t.domainSeparate (byteString "commitments"))
  match cm.dleq with
  | some dleq => t.appendMessage (byteString "dleq") (dleq.serialize c.suite)
  | none => t

/-- `Commitments::read`: every nonce's commitments over its generators, then the DLEq proof of
    those over more than one, which must verify. -/
def read [DecidableEq F] [DecidableEq G] (c : Curve F G) (H : Digest) (generators : List (List G))
    (context : List UInt8) : Reader (Commitments F G) := do
  let nonces ← generators.mapM (NonceCommitments.read c)
  let multi := (generators.zip nonces).filter fun x => 1 < x.1.length
  let dleqGenerators := multi.map (·.1)
  let dleqNonces := multi.map fun x =>
    x.2.generators.map fun gc => gc.D + x.2.aggregationFactor c H context • gc.E
  if dleqGenerators.isEmpty then pure ⟨nonces, none⟩
  else
    let dleq ← MultiDLEqProof.read c.suite dleqGenerators.length
    match dleq.verify c.suite H c.numBits (dleqTranscript context) dleqGenerators dleqNonces with
    | .ok _ => pure ⟨nonces, some dleq⟩
    | .error _ => throw (.other "invalid DLEq proof")

/-- `Commitments::write`. -/
def write (c : Curve F G) (cm : Commitments F G) : List UInt8 :=
  cm.nonces.flatMap (·.write c) ++ (cm.dleq.map (·.serialize c.suite)).getD []

end Commitments

/-! ## Reading back what is written -/

section Read

variable [DecidableEq G]

theorem Curve.readG_toBytes (c : Curve F G) {P : G} (hP : P ≠ 0) (rest : List UInt8) :
    c.readG (c.suite.toBytes P ++ rest) = .ok P rest := by
  simp only [Curve.readG, bind_of_ok (Crypto.readG_toBytes c.suite P rest), hP, if_false]
  rfl

theorem GeneratorCommitments.read_write (c : Curve F G) {gc : GeneratorCommitments G} (hD : gc.D ≠ 0)
    (hE : gc.E ≠ 0) (rest : List UInt8) : read c (gc.write c ++ rest) = .ok gc rest := by
  simp only [read, write, List.append_assoc, bind_of_ok (c.readG_toBytes hD _), bind_of_ok (c.readG_toBytes hE _)]
  rfl

omit [DecidableEq G] in
theorem NonceCommitments.ne_zero_new {nonce : Nonce F} (hd : nonce.d ≠ 0) (he : nonce.e ≠ 0) {generators : List G}
    (hgen : ∀ g ∈ generators, g ≠ 0) : ∀ gc ∈ (NonceCommitments.new nonce generators).generators, gc.D ≠ 0 ∧ gc.E ≠ 0 := by
  intro gc hgc
  obtain ⟨g, hg, rfl⟩ := List.mem_map.mp hgc
  exact ⟨smul_ne_zero hd (hgen g hg), smul_ne_zero he (hgen g hg)⟩

theorem NonceCommitments.read_write (c : Curve F G) {nc : NonceCommitments G} {generators : List G}
    (hlen : nc.generators.length = generators.length) (hne : ∀ gc ∈ nc.generators, gc.D ≠ 0 ∧ gc.E ≠ 0)
    (rest : List UInt8) : read c generators (nc.write c ++ rest) = .ok nc rest := by
  simp only [read, write, ← hlen,
    bind_of_ok (readMany_flatMap (fun gc hgc => GeneratorCommitments.read_write c (hne gc hgc).1 (hne gc hgc).2) rest)]
  rfl

omit [DecidableEq G] in
theorem mapM_reader_flatMap {α β : Type} {r : α → Reader β} {w : β → List UInt8} {as : List α} {bs : List β}
    (hlen : as.length = bs.length) (h : ∀ p ∈ as.zip bs, ∀ rest, r p.1 (w p.2 ++ rest) = .ok p.2 rest)
    (rest : List UInt8) : as.mapM r (bs.flatMap w ++ rest) = .ok bs rest := by
  induction as generalizing bs with
  | nil =>
    cases bs with
    | nil => rfl
    | cons _ _ => cases hlen
  | cons a as ih =>
    cases bs with
    | nil => cases hlen
    | cons b bs =>
      simp only [List.mapM_cons, List.flatMap_cons, List.append_assoc,
        bind_of_ok (h (a, b) List.mem_cons_self _),
        bind_of_ok (ih (Nat.succ_inj.mp hlen) fun p hp => h p (List.mem_cons_of_mem _ hp) : as.mapM r _ = _)]
      rfl

omit [DecidableEq G] in
theorem aggregate_new (nonce : Nonce F) (generators : List G) (a : F) :
    (NonceCommitments.new nonce generators).generators.map (fun gc => gc.D + a • gc.E) =
      generators.map ((a * nonce.e + nonce.d) • ·) := by
  simp only [NonceCommitments.new, List.map_map]
  refine List.map_congr_left fun g _ => ?_
  simp only [Function.comp_apply, add_smul, mul_smul, add_comm]

omit [DecidableEq G] in
theorem Commitments.map_fst_drawn (draws : NonceDraws F) (planned : List (List G)) :
    (Commitments.drawn draws planned).map (·.1) = planned := by
  simp only [Commitments.drawn, List.map_map]
  exact List.zipIdx_map_fst 0 planned

omit [DecidableEq G] in
theorem zip_map_self {α β γ : Type} (l : List α) (f : α → β) (g : α → γ) :
    (l.map f).zip (l.map g) = l.map fun a => (f a, g a) := by
  induction l with
  | nil => rfl
  | cons a l ih => simp [ih]

omit [DecidableEq G] in
theorem Commitments.zip_drawn (draws : NonceDraws F) (planned : List (List G)) :
    planned.zip ((Commitments.drawn draws planned).map (·.2.2)) =
      (Commitments.drawn draws planned).map fun x => (x.1, x.2.2) := by
  have h := zip_map_self (Commitments.drawn draws planned) (·.1) (·.2.2)
  rwa [Commitments.map_fst_drawn] at h

omit [DecidableEq G] in
theorem Commitments.mem_drawn {draws : NonceDraws F} {planned : List (List G)}
    {x : List G × Nonce F × NonceCommitments G} (hx : x ∈ Commitments.drawn draws planned) :
    x.1 ∈ planned ∧ x.2.2 = NonceCommitments.new x.2.1 x.1 := by
  obtain ⟨⟨gens, n⟩, hgens, rfl⟩ := List.mem_map.mp hx
  exact ⟨List.fst_mem_of_mem_zipIdx hgens, rfl⟩

theorem Commitments.read_write_new [DecidableEq F] (c : Curve F G) (H : Digest) (draws : NonceDraws F)
    {planned : List (List G)} (context : List UInt8) (hgen : ∀ gens ∈ planned, ∀ g ∈ gens, g ≠ 0)
    {nonces : List (Nonce F)} {cm : Commitments F G} (hnew : Commitments.new c H draws planned context = some (nonces, cm))
    (rest : List UInt8) : Commitments.read c H planned context (cm.write c ++ rest) = .ok cm rest := by
  obtain ⟨dleq, hdleq, hcm⟩ := Option.bind_eq_some_iff.mp hnew
  obtain rfl : ⟨(Commitments.drawn draws planned).map (·.2.2), dleq⟩ = cm := (Prod.mk.inj (Option.some.inj hcm)).2
  -- every nonce's commitments are read back first
  have hread : planned.mapM (NonceCommitments.read c) (((Commitments.drawn draws planned).map (·.2.2)).flatMap
      (·.write c) ++ ((dleq.map (·.serialize c.suite)).getD [] ++ rest)) =
        .ok ((Commitments.drawn draws planned).map (·.2.2)) ((dleq.map (·.serialize c.suite)).getD [] ++ rest) := by
    refine mapM_reader_flatMap (by simp [Commitments.drawn]) (fun p hp rest => ?_) _
    rw [Commitments.zip_drawn] at hp
    obtain ⟨x, hx, rfl⟩ := List.mem_map.mp hp
    obtain ⟨⟨gens, n⟩, hgens, rfl⟩ := List.mem_map.mp hx
    exact NonceCommitments.read_write c (by simp [NonceCommitments.new])
      (NonceCommitments.ne_zero_new (draws.d_ne_zero n) (draws.e_ne_zero n)
        (hgen gens (List.fst_mem_of_mem_zipIdx hgens))) rest
  unfold Commitments.read
  rw [Commitments.write, List.append_assoc, bind_of_ok hread]
  simp only [Commitments.zip_drawn, List.filter_map, Function.comp_def, List.map_map, List.isEmpty_map]
  unfold Commitments.dleqProof at hdleq
  dsimp only at hdleq
  split at hdleq
  · -- no nonce is over more than one generator: no proof is written or read
    rename_i hempty
    cases hdleq
    simp only [hempty, if_true]
    rfl
  · rename_i hempty
    split at hdleq
    · -- the proof is read back, and verifies for the aggregated commitments
      rename_i proof t' hprove
      cases hdleq
      have hs := MultiDLEqProof.length_s_of_prove hprove
      have hpoints : (((Commitments.drawn draws planned).filter fun x => 1 < x.1.length).map fun x =>
          x.2.2.generators.map fun gc => gc.D + x.2.2.aggregationFactor c H context • gc.E) =
            List.zipWith (fun x gens => gens.map (x • ·))
              (((Commitments.drawn draws planned).filter fun x => 1 < x.1.length).map fun x =>
                x.2.2.aggregationFactor c H context * x.2.1.e + x.2.1.d)
              (((Commitments.drawn draws planned).filter fun x => 1 < x.1.length).map (·.1)) := by
        rw [List.zipWith_map, List.zipWith_self]
        refine List.map_congr_left fun x hx => ?_
        rw [(Commitments.mem_drawn (List.mem_of_mem_filter hx)).2, aggregate_new]
      simp only [hempty, Bool.false_eq_true, if_false, Option.map_some, Option.getD_some]
      rw [← hs, bind_of_ok (MultiDLEqProof.read_serialize c.suite proof rest), hpoints,
        MultiDLEqProof.verify_prove c.suite H c.numBits draws.dleq _ hprove]
      rfl
    · cases hdleq

end Read

/-! ## Binding factors -/

/-- `IndividualBinding`. -/
structure IndividualBinding (F G : Type) where
  commitments : Commitments F G
  bindingFactors : Option (List F)

/-- `BindingFactor`: each participant's commitments and binding factors. -/
structure BindingFactor (F G : Type) where
  bindings : Std.HashMap Participant (IndividualBinding F G)

/-- `k` challenges labelled `rho`, one after the other. -/
def rhoChallenges (H : Digest) (t : DigestTranscript) : ℕ → List (List UInt8)
  | 0 => []
  | k + 1 => (t.challenge H (byteString "rho")).1 :: rhoChallenges H (t.challenge H (byteString "rho")).2 k

namespace BindingFactor

/-- `BindingFactor::insert`. -/
def insert (B : BindingFactor F G) (i : Participant) (commitments : Commitments F G) : BindingFactor F G :=
  ⟨B.bindings.insert i ⟨commitments, none⟩⟩

/-- `BindingFactor::calculate_binding_factors`: each participant's factors, one per nonce,
    from the rho transcript forked with its index. Each entry is computed from itself and
    the transcript alone, so the map's order of iteration does not matter. -/
def calculateBindingFactors (c : Curve F G) (H : Digest) (B : BindingFactor F G) (t : DigestTranscript) :
    BindingFactor F G :=
  ⟨B.bindings.map fun l binding =>
    let t := t.appendMessage (byteString "participant") (c.suite.toRepr (toScalar (F := F) l))
    ⟨binding.commitments, some ((rhoChallenges H t binding.commitments.nonces.length).map c.hashBindingFactor)⟩⟩

/-- `BindingFactor::binding_factors`; `none` is the panic of the index or the `unwrap`. -/
def bindingFactors (B : BindingFactor F G) (i : Participant) : Option (List F) := do
  let binding ← B.bindings[i]?
  binding.bindingFactors

/-- `BindingFactor::bound`: a participant's nonces, each commitment `D + ρ·E`. -/
def bound (B : BindingFactor F G) (l : Participant) : Option (List (List G)) := do
  let binding ← B.bindings[l]?
  let rhos ← binding.bindingFactors
  pure ((binding.commitments.nonces.zip rhos).map fun p => p.1.generators.map fun gc => gc.D + p.2 • gc.E)

/-- The term a participant adds to the session's nonce `n` over generator `g`: its `D` and its
    `(ρ, E)`; `none` is the panic of an index or of the `unwrap`. -/
def term (binding : IndividualBinding F G) (n g : ℕ) : Option (G × (F × G)) := do
  let nc ← binding.commitments.nonces[n]?
  let gc ← nc.generators[g]?
  let rhos ← binding.bindingFactors
  let rho ← rhos[n]?
  pure (gc.D, (rho, gc.E))

/-- `BindingFactor::nonces`: each nonce over each of its generators, `∑ D_l` plus the
    multiexp of the `(ρ_l, E_l)`, over the participants in the map's order (its `values()`,
    the second items of its entries). -/
def nonces (B : BindingFactor F G) (plannedNonces : List (List G)) : Option (List (List G)) :=
  plannedNonces.zipIdx.mapM fun p => (List.range p.1.length).mapM fun g => do
    let terms ← B.bindings.toList.mapM fun e => term e.2 p.2 g
    pure ((terms.map (·.1)).sum + multiexp (terms.map (·.2)))

/-- The point participant `l` adds to nonce `n` over generator `g`: `D + ρ·E`. -/
def termPoint (binding : IndividualBinding F G) (n g : ℕ) : G :=
  ((term binding n g).map fun x => x.1 + x.2.1 • x.2.2).getD 0

/-- Participant `l`'s bound nonce `n` over generator `g`, or zero where `bound` has none. -/
def boundAt (B : BindingFactor F G) (l : Participant) (n g : ℕ) : G :=
  (((B.bound l).bind (·[n]?)).bind (·[g]?)).getD 0

/-! ### What they compute -/

theorem getElem?_of_mapM_eq_some {α β : Type} {f : α → Option β} {l : List α} {r : List β}
    (h : l.mapM f = some r) (i : ℕ) : r[i]? = l[i]?.bind f := by
  induction l generalizing r i with
  | nil =>
    cases h
    rfl
  | cons a l ih =>
    rw [List.mapM_cons] at h
    obtain ⟨b, hb, h⟩ := Option.bind_eq_some_iff.mp h
    obtain ⟨bs, hbs, h⟩ := Option.bind_eq_some_iff.mp h
    cases h
    cases i with
    | zero => exact hb.symm
    | succ i => exact ih hbs i

theorem isSome_of_mapM_eq_some {α β : Type} {f : α → Option β} {l : List α} {r : List β}
    (h : l.mapM f = some r) : ∀ a ∈ l, (f a).isSome := by
  induction l generalizing r with
  | nil => simp
  | cons a l ih =>
    rw [List.mapM_cons] at h
    obtain ⟨b, hb, h⟩ := Option.bind_eq_some_iff.mp h
    obtain ⟨bs, hbs, -⟩ := Option.bind_eq_some_iff.mp h
    intro a' ha'
    rcases List.mem_cons.mp ha' with rfl | ha'
    · simp [hb]
    · exact ih hbs a' ha'

theorem boundAt_eq {B : BindingFactor F G} {l : Participant} {binding : IndividualBinding F G}
    (hl : B.bindings[l]? = some binding) {n g : ℕ} (hterm : (term binding n g).isSome) :
    boundAt B l n g = termPoint binding n g := by
  obtain ⟨x, hx⟩ := Option.isSome_iff_exists.mp hterm
  obtain ⟨nc, hnc, hx⟩ := Option.bind_eq_some_iff.mp hx
  obtain ⟨gc, hgc, hx⟩ := Option.bind_eq_some_iff.mp hx
  obtain ⟨rhos, hrhos, hx⟩ := Option.bind_eq_some_iff.mp hx
  obtain ⟨ρ, hρ, -⟩ := Option.bind_eq_some_iff.mp hx
  have hbound : B.bound l = some ((binding.commitments.nonces.zip rhos).map fun p =>
      p.1.generators.map fun gc => gc.D + p.2 • gc.E) := by
    simp only [bound, hl, hrhos, Option.bind_eq_bind, Option.pure_def, Option.bind_some]
  have hz : (binding.commitments.nonces.zip rhos)[n]? = some (nc, ρ) := List.getElem?_zip_eq_some.mpr ⟨hnc, hρ⟩
  simp only [boundAt, hbound, termPoint, term, hnc, hgc, hrhos, hρ, Option.bind_eq_bind, Option.pure_def,
    Option.bind_some, List.getElem?_map, hz, Option.map_some, Option.getD_some]

theorem sum_terms (L : List (Participant × IndividualBinding F G)) (n g : ℕ)
    (hall : ∀ e ∈ L, (term e.2 n g).isSome) :
    ((L.filterMap fun e => term e.2 n g).map (·.1)).sum + multiexp ((L.filterMap fun e => term e.2 n g).map (·.2)) =
      (L.map fun e => termPoint e.2 n g).sum := by
  induction L with
  | nil => simp
  | cons e L ih =>
    obtain ⟨x, hx⟩ := Option.isSome_iff_exists.mp (hall e List.mem_cons_self)
    have ih' := ih fun e' he' => hall e' (List.mem_cons_of_mem _ he')
    simp only [List.filterMap_cons, hx, List.map_cons, List.sum_cons, multiexp_cons, termPoint, Option.map_some,
      Option.getD_some] at ih' ⊢
    rw [← ih']
    abel

theorem nonces_eq_sum_bound [DecidableEq G] {B : BindingFactor F G} {included : List Participant}
    (hnodup : included.Nodup) (hkeys : ∀ l, l ∈ B.bindings ↔ l ∈ included) {planned : List (List G)}
    {Rs : List (List G)} (h : B.nonces planned = some Rs) {n g : ℕ} (hn : n < planned.length)
    (hg : g < planned[n].length) :
    (Rs[n]?.bind (·[g]?)) = some (included.map fun l => boundAt B l n g).sum := by
  -- the row of nonce `n`, then its entry `g`
  have hrow := getElem?_of_mapM_eq_some h n
  rw [List.getElem?_zipIdx, List.getElem?_eq_getElem hn] at hrow
  obtain ⟨row, hrowsome⟩ := Option.isSome_iff_exists.mp
    (isSome_of_mapM_eq_some h (planned[n], n) (List.mem_zipIdx_iff_getElem?.mpr (by simp [hn])))
  simp only [Option.map_some, Option.bind_some, zero_add, hrowsome] at hrow
  have hcell := getElem?_of_mapM_eq_some hrowsome g
  rw [List.getElem?_range hg, Option.bind_some] at hcell
  obtain ⟨x, hx⟩ := Option.isSome_iff_exists.mp (isSome_of_mapM_eq_some hrowsome g (List.mem_range.mpr hg))
  rw [hrow, Option.bind_some, hcell, hx]
  obtain ⟨terms, hterms, hx⟩ := Option.bind_eq_some_iff.mp hx
  obtain rfl := Option.some.inj hx
  have hall := isSome_of_mapM_eq_some hterms
  rw [Option.some.inj (hterms.symm.trans (mapM_eq_filterMap hall)), sum_terms _ n g hall,
    sum_toList hnodup hkeys fun _ binding => termPoint binding n g]
  congr 2
  refine List.map_congr_left fun l hl => ?_
  obtain ⟨binding, hb⟩ := Option.isSome_iff_exists.mp
    (Std.HashMap.mem_iff_isSome_getElem?.mp ((hkeys l).mpr hl))
  rw [hb, Option.map_some, Option.getD_some,
    boundAt_eq hb (hall (l, binding) (Std.HashMap.mem_toList_iff_getElem?_eq_some.mpr hb))]

end BindingFactor

end Serai.Frost