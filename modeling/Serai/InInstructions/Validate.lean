import Serai.InInstructions.Pallet
/-
  Serai.InInstructions.Validate — what `validate_unsigned` admits, and what
  `execute_batch` writes.

  `validateUnsigned_ok` reads a successful `validate_unsigned` back into the keys
  `keys_for_network` found, each check it passed, the hand-over's `retire_set` and the
  writes of `LastBatchBlock` and `LastBatch`; `validateUnsigned_of_checks` is the
  converse, so the checks are exactly what admits a batch. `Admitted` is what they say of
  a batch in the state it is admitted in (`validateUnsigned_admitted`): the network is
  external, the signature verifies under the key of the network's current session or of
  the one before it, the network is not halted, and every instruction's coin is the
  network's. `execute_batch` leaves what these checks read, and the validator sets'
  sessions and keys, as they were (`executeBatch_view`); and it keeps, in `Coins` and in
  the DEX's `LiquidityTokens`, every coin's supply the sum of its balances
  (`execute_batch_conserves_coins`), whatever its instructions do in the DEX.
-/

namespace Serai.InInstructions

open Serai.Lib

variable {K Sig : Type} {rt rt' rt₁ : Runtime K} {α β : Type}

/-! ## Checks -/

theorem rejectIf_bind {c : Bool} {e : Invalid} {f : Unit → EStateM Invalid (Runtime K) β} {b : β}
    (h : (rejectIf c e >>= f) rt = .ok b rt') : c = false ∧ f () rt = .ok b rt' := by
  cases c with
  | false => exact ⟨rfl, h⟩
  | true => cases h

theorem rejectIf_ok {c : Bool} {e : Invalid} {u : Unit} (h : rejectIf c e rt = .ok u rt') :
    c = false ∧ rt' = rt := by
  cases c with
  | false => cases h; exact ⟨rfl, rfl⟩
  | true => cases h

theorem ofExcept_bind {x : Except Invalid α} {f : α → EStateM Invalid (Runtime K) β} {b : β}
    (h : (ofExcept x >>= f) rt = .ok b rt') : ∃ a, x = .ok a ∧ f a rt = .ok b rt' := by
  cases x with
  | ok a => exact ⟨a, rfl, h⟩
  | error e => cases h

@[simp] theorem rejectIf_false_bind (e : Invalid) (f : Unit → EStateM Invalid (Runtime K) β) (rt : Runtime K) :
    (rejectIf false e >>= f) rt = f () rt := rfl

@[simp] theorem rejectIf_false (e : Invalid) (rt : Runtime K) : rejectIf false e rt = .ok () rt := rfl

@[simp] theorem ofExcept_ok_bind (a : α) (f : α → EStateM Invalid (Runtime K) β) (rt : Runtime K) :
    (ofExcept (.ok a) >>= f) rt = f a rt := rfl

theorem verifies_eq_true {cfg : Config K Sig} {key : Option K} {batch : SignedBatch K Sig} :
    verifies cfg key batch = true ↔ ∃ k, key = some k ∧ cfg.verify k batch.batch batch.signature = true := by
  cases key <;> simp [verifies]

/-! ## `keys_for_network` and the hand-over -/

theorem keysForNetwork_ok {vs : ValidatorSets.St K} {network : NetworkId} {session : ℕ} {prior current : Option K}
    (h : keysForNetwork vs network = .ok (session, prior, current)) :
    vs.currentSession network = some session ∧
      prior = (if session ≠ 0 then (vs.keys ⟨session - 1, network⟩).map (·.key) else none) ∧
      current = (vs.keys ⟨session, network⟩).map (·.key) := by
  unfold keysForNetwork at h
  cases hs : vs.currentSession network with
  | none => simp [hs] at h
  | some session' =>
    simp only [hs] at h
    generalize hp : (if session' ≠ 0 then (vs.keys ⟨session' - 1, network⟩).map (·.key) else none) = p at h
    split at h
    · cases h
    · cases h
      exact ⟨rfl, hp.symm, rfl⟩

theorem retireIfHandedOver_ok {network : NetworkId} {session : ℕ} {prior : Option K} {validByPrior : Bool}
    {u : Unit} (h : retireIfHandedOver network session prior validByPrior rt = .ok u rt₁) :
    rt₁.blockNumber = rt.blockNumber ∧ rt₁.inInstructions = rt.inInstructions ∧
      if prior.isSome && !validByPrior then
        ValidatorSets.retireSet ⟨session - 1, network⟩ rt.validatorSets = .ok () rt₁.validatorSets
      else rt₁.validatorSets = rt.validatorSets := by
  unfold retireIfHandedOver at h
  split at h
  · rename_i hc
    unfold onValidatorSets at h
    split at h
    · rename_i w vs hr
      cases h
      exact ⟨rfl, rfl, by simpa [hc] using hr⟩
    · cases h
  · rename_i hc
    cases h
    exact ⟨rfl, rfl, by simp [hc]⟩

/-! ## `validate_unsigned` -/

section Validate

variable {cfg : Config K Sig} {batch : SignedBatch K Sig} {session : ℕ} {prior current : Option K}

theorem validateUnsigned_ok {u : Unit} (h : validateUnsigned cfg batch rt = .ok u rt') :
    ∃ session prior current rt₁,
      keysForNetwork rt.validatorSets batch.batch.network = .ok (session, prior, current) ∧
      cfg.encodedLen batch.batch ≤ maxBatchSize ∧ batch.batch.network ≠ .serai ∧
      (verifies cfg prior batch || verifies cfg current batch) = true ∧
      rt.inInstructions.halted batch.batch.network = false ∧
      retireIfHandedOver batch.batch.network session prior (verifies cfg prior batch) rt = .ok () rt₁ ∧
      (rt.inInstructions.lastBatchBlock batch.batch.network).getD 0 < rt.blockNumber ∧
      batch.batch.id = ((rt.inInstructions.lastBatch batch.batch.network).map (· + 1)).getD 0 ∧
      (∀ instruction ∈ batch.batch.instructions, instruction.balance.coin.network = batch.batch.network) ∧
      rt' = (rt₁.setLastBatchBlock batch.batch.network rt.blockNumber).setLastBatch batch.batch.network batch.batch.id := by
  simp only [validateUnsigned] at h
  obtain ⟨hlen, h⟩ := rejectIf_bind h
  obtain ⟨hn, h⟩ := rejectIf_bind h
  simp only [get_bind] at h
  obtain ⟨⟨session, prior, current⟩, hk, h⟩ := ofExcept_bind h
  obtain ⟨hv, h⟩ := rejectIf_bind h
  simp only [get_bind] at h
  obtain ⟨hh, h⟩ := rejectIf_bind h
  obtain ⟨_, rt₁, hr, h⟩ := bind_ok h
  obtain ⟨hbn, hii, -⟩ := retireIfHandedOver_ok hr
  simp only [get_bind] at h
  obtain ⟨hb, h⟩ := rejectIf_bind h
  simp only [modify_bind, get_bind] at h
  obtain ⟨hlt, h⟩ := rejectIf_bind h
  obtain ⟨hgt, h⟩ := rejectIf_bind h
  simp only [modify_bind] at h
  obtain ⟨hc, rfl⟩ := rejectIf_ok h
  -- the reads after the hand-over see the pallet's storage as it was
  simp only [Runtime.setLastBatchBlock, hbn, hii] at hb hlt hgt
  refine ⟨session, prior, current, rt₁, hk, by simpa using hlen, by simpa using hn,
    by simpa only [Bool.not_eq_eq_eq_not, Bool.not_false] using hv, hh, hr,
    by simpa using hb, ?_, by simpa using hc, by rw [hbn]⟩
  simp only [decide_eq_false_iff_not] at hlt hgt
  exact UInt32.le_antisymm (UInt32.not_lt.mp hgt) (UInt32.not_lt.mp hlt)

theorem validateUnsigned_of_checks
    (hk : keysForNetwork rt.validatorSets batch.batch.network = .ok (session, prior, current))
    (hlen : cfg.encodedLen batch.batch ≤ maxBatchSize) (hn : batch.batch.network ≠ .serai)
    (hv : (verifies cfg prior batch || verifies cfg current batch) = true)
    (hh : rt.inInstructions.halted batch.batch.network = false)
    (hr : retireIfHandedOver batch.batch.network session prior (verifies cfg prior batch) rt = .ok () rt₁)
    (hb : (rt.inInstructions.lastBatchBlock batch.batch.network).getD 0 < rt.blockNumber)
    (hid : batch.batch.id = ((rt.inInstructions.lastBatch batch.batch.network).map (· + 1)).getD 0)
    (hc : ∀ instruction ∈ batch.batch.instructions, instruction.balance.coin.network = batch.batch.network) :
    validateUnsigned cfg batch rt =
      .ok () ((rt₁.setLastBatchBlock batch.batch.network rt.blockNumber).setLastBatch batch.batch.network batch.batch.id) := by
  obtain ⟨hbn, hii, -⟩ := retireIfHandedOver_ok hr
  have hlen' : decide (maxBatchSize < cfg.encodedLen batch.batch) = false := by simpa using hlen
  have hn' : decide (batch.batch.network = .serai) = false := by simpa using hn
  have hv' : (!(verifies cfg prior batch || verifies cfg current batch)) = false := by simp [hv]
  simp only [validateUnsigned, hlen', hn', rejectIf_false_bind, get_bind, hk, ofExcept_ok_bind, hv', hh]
  rw [bind_of_ok hr]
  simp only [get_bind, Runtime.setLastBatchBlock, hbn, hii]
  have hb' : decide (rt.blockNumber ≤ (rt.inInstructions.lastBatchBlock batch.batch.network).getD 0) = false := by
    simpa using hb
  have hc' : (batch.batch.instructions.any fun instruction =>
      !decide (instruction.balance.coin.network = batch.batch.network)) = false := by
    simpa using hc
  simp [hb', hid, hc', Runtime.setLastBatch, hbn, hii]

/-- What the checks of `validate_unsigned` say of a batch, in the state it is admitted in. -/
structure Admitted (cfg : Config K Sig) (rt : Runtime K) (batch : SignedBatch K Sig) : Prop where
  external : batch.batch.network ≠ .serai
  signed : ∃ session keySession keyPair, rt.validatorSets.currentSession batch.batch.network = some session ∧
    (keySession = session ∨ keySession + 1 = session) ∧
    rt.validatorSets.keys ⟨keySession, batch.batch.network⟩ = some keyPair ∧
    cfg.verify keyPair.key batch.batch batch.signature = true
  notHalted : rt.inInstructions.halted batch.batch.network = false
  coins : ∀ instruction ∈ batch.batch.instructions, instruction.balance.coin.network = batch.batch.network

theorem signed_of_keys (hk : keysForNetwork rt.validatorSets batch.batch.network = .ok (session, prior, current))
    (hv : (verifies cfg prior batch || verifies cfg current batch) = true) :
    ∃ session keySession keyPair, rt.validatorSets.currentSession batch.batch.network = some session ∧
      (keySession = session ∨ keySession + 1 = session) ∧
      rt.validatorSets.keys ⟨keySession, batch.batch.network⟩ = some keyPair ∧
      cfg.verify keyPair.key batch.batch batch.signature = true := by
  obtain ⟨hs, hprior, hcurrent⟩ := keysForNetwork_ok hk
  rw [Bool.or_eq_true, verifies_eq_true, verifies_eq_true] at hv
  rcases hv with ⟨key, rfl, hkey⟩ | ⟨key, rfl, hkey⟩
  · -- by the prior key: a session before the current one
    by_cases h0 : session = 0
    · simp [h0] at hprior
    · simp only [ne_eq, h0, not_false_eq_true, if_true] at hprior
      obtain ⟨keyPair, hkp, rfl⟩ := Option.map_eq_some_iff.mp hprior.symm
      exact ⟨session, session - 1, keyPair, hs, .inr (by omega), hkp, hkey⟩
  · obtain ⟨keyPair, hkp, rfl⟩ := Option.map_eq_some_iff.mp hcurrent.symm
    exact ⟨session, session, keyPair, hs, .inl rfl, hkp, hkey⟩

theorem validateUnsigned_admitted {u : Unit} (h : validateUnsigned cfg batch rt = .ok u rt') :
    Admitted cfg rt batch := by
  obtain ⟨session, prior, current, rt₁, hk, -, hn, hv, hh, -, -, -, hc, -⟩ := validateUnsigned_ok h
  exact ⟨hn, signed_of_keys hk hv, hh, hc⟩

end Validate

/-! ## `execute_batch` -/

section Execute

variable [DecidableEq K] {allowMint : Balance → Bool} {dex : Dex.PalletConfig K} {executor : K}

/-- What the checks of `validate_unsigned` read, with the validator sets' sessions and keys. -/
def batchView (rt : Runtime K) :=
  (rt.blockNumber, rt.inInstructions.lastBatch, rt.inInstructions.lastBatchBlock, rt.inInstructions.halted,
    ValidatorSets.sessionView rt.validatorSets)

theorem executeBatch_none (batch : SignedBatch K Sig) (rt : Runtime K) :
    executeBatch allowMint dex executor none batch rt =
      .ok () (batch.batch.instructions.foldl (fun rt instruction => executeInLayer allowMint dex executor instruction rt)
        (rt.setLatestNetworkBlock batch.batch.network batch.batch.block)) := by
  simp only [executeBatch, ensureNone, pure_bind, modify_bind, forM_modify]

theorem executeBatch_ok {origin : Option K} {batch : SignedBatch K Sig} {u : Unit}
    (h : executeBatch allowMint dex executor origin batch rt = .ok u rt') :
    origin = none ∧ rt' = batch.batch.instructions.foldl (fun rt instruction => executeInLayer allowMint dex executor instruction rt)
      (rt.setLatestNetworkBlock batch.batch.network batch.batch.block) := by
  cases origin with
  | some who => cases h
  | none =>
    rw [executeBatch_none] at h
    cases h
    exact ⟨rfl, rfl⟩

theorem batchView_foldl (l : List (InInstructionWithBalance K)) (rt : Runtime K) :
    batchView (l.foldl (fun rt instruction => executeInLayer allowMint dex executor instruction rt) rt) = batchView rt := by
  induction l generalizing rt with
  | nil => rfl
  | cons instruction l ih => exact ih (executeInLayer allowMint dex executor instruction rt)

theorem executeBatch_view {origin : Option K} {batch : SignedBatch K Sig} {u : Unit}
    (h : executeBatch allowMint dex executor origin batch rt = .ok u rt') : batchView rt' = batchView rt := by
  obtain ⟨-, rfl⟩ := executeBatch_ok h
  exact batchView_foldl _ _

theorem conserved_foldl [Fintype K] (l : List (InInstructionWithBalance K)) {rt : Runtime K} (hc : CoinsConserved rt) :
    CoinsConserved (l.foldl (fun rt instruction => executeInLayer allowMint dex executor instruction rt) rt) := by
  induction l generalizing rt with
  | nil => exact hc
  | cons instruction l ih => exact ih (executeInLayer_conserved allowMint dex executor instruction hc)

/-- `execute_batch` keeps every coin's supply the sum of its balances, in `Coins` and in
    `LiquidityTokens`: each instruction, whatever the DEX does for it, only transfers, mints
    and burns, and one that fails leaves nothing behind. -/
theorem execute_batch_conserves_coins [Fintype K] {origin : Option K} {batch : SignedBatch K Sig} {u : Unit}
    (h : executeBatch allowMint dex executor origin batch rt = .ok u rt') (hc : CoinsConserved rt) :
    CoinsConserved rt' := by
  obtain ⟨-, rfl⟩ := executeBatch_ok h
  -- recording the network's block touches neither instance
  exact conserved_foldl _ hc

end Execute

/-! A batch of a transfer and two DEX instructions over the Bitcoin pool of `poolCoins`. -/

def poolRuntime : Runtime (Fin 3) :=
  ⟨0, ValidatorSets.St.empty poolCoins, St.empty, ⟨poolLiquidity, fun c => c == .bitcoin⟩⟩

/-- A deposit to the user, a deposit to swap and add as liquidity, and a swap out to Monero,
    which fails for want of a Monero pool. -/
def poolBatch : SignedBatch (Fin 3) Unit :=
  ⟨⟨.bitcoin, 0, [], [⟨.transfer 0, ⟨.bitcoin, 30000⟩⟩, ⟨.dex (.swapAndAddLiquidity 0), ⟨.bitcoin, 100000⟩⟩,
    ⟨.dex (.swap ⟨.monero, 1⟩ (.external [7])), ⟨.bitcoin, 20000⟩⟩]⟩, ()⟩

theorem pool_batch_conserves_coins :
    CoinsConserved poolRuntime ∧ CoinsConserved (state (executeBatch (fun _ => true)
      (Dex.PalletConfig.runtime fun _ => 1) 2 none poolBatch poolRuntime)) := by
  have hc : CoinsConserved poolRuntime := by
    intro i c
    cases i <;> cases c <;> decide
  have h : executeBatch (fun _ => true) (Dex.PalletConfig.runtime fun _ => 1) 2 none poolBatch poolRuntime =
      .ok () (state (executeBatch (fun _ => true) (Dex.PalletConfig.runtime fun _ => 1) 2 none poolBatch poolRuntime)) :=
    eq_ok_state (by rw [executeBatch_none]; rfl)
  exact ⟨hc, execute_batch_conserves_coins h hc⟩

end Serai.InInstructions
