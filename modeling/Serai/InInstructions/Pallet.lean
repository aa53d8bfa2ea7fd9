import Serai.ValidatorSets.Sessions
import Serai.Dex.Pallet
/-
  Serai.InInstructions.Pallet — the in-instructions pallet (substrate/in-instructions/pallet).

  An external network's validator set publishes `Batch`es of instructions, signed with the
  key the set agreed on. `execute_batch` is an unsigned extrinsic: `validate_unsigned`
  admits it, and runs again as `pre_dispatch` when a block includes it, with its writes
  kept. Its checks and writes interleave: the size, that the network is external, the
  signature under the prior or the current session's key (`keys_for_network`), that the
  network is not halted; then the hand-over's `retire_set`, the one-batch-per-block check
  and its `LastBatchBlock` write, the id check and its `LastBatch` write, and last the
  coins of the instructions. `execute_batch` then records the network's block and
  executes each instruction in a storage layer whose error is dropped.

  A call runs over `Runtime`: the pallet's storage, the validator-sets pallet it reads and
  retires sets of, the block number, and the DEX's storage. Signature verification and
  the length of a batch's SCALE encoding are parameters (`Config`). An instruction runs
  over the coins pallet and the DEX (Serai.Dex.Pallet): a `Transfer` mints to its
  address, a `Dex` instruction mints to `IN_INSTRUCTION_EXECUTOR` and swaps, adds
  liquidity and burns from there. A `Transfer` may name `IN_INSTRUCTION_EXECUTOR`, and
  its coins then stay in the executor's account (`transfer_strands_executor`), until a
  `SwapAndAddLiquidity` of the coin sends the executor's leftovers on
  (`swapAndAddLiquidity_clears_executor`).
-/

namespace Serai.InInstructions

open Serai.Lib

/-- `OutAddress`. -/
inductive OutAddress (K : Type) where
  | serai (address : K)
  | external (address : List UInt8)

/-- `DexCall`. -/
inductive DexCall (K : Type) where
  | swapAndAddLiquidity (address : K)
  | swap (outBalance : Balance) (outAddress : OutAddress K)

/-- `InInstruction`. -/
inductive InInstruction (K : Type) where
  | transfer (address : K)
  | dex (call : DexCall K)

structure InInstructionWithBalance (K : Type) where
  instruction : InInstruction K
  balance : Balance

/-- `Batch`: `block` is the external network's block hash. -/
structure Batch (K : Type) where
  network : NetworkId
  id : UInt32
  block : List UInt8
  instructions : List (InInstructionWithBalance K)

structure SignedBatch (K Sig : Type) where
  batch : Batch K
  signature : Sig

/-- `MAX_BATCH_SIZE`. -/
def maxBatchSize : ℕ := 25000

/-- The `InvalidTransaction`s `validate_unsigned` returns, and a panic. -/
inductive Invalid where
  | exhaustsResources
  | custom (code : UInt8)
  | badProof
  | future
  | stale
  | panic
  deriving DecidableEq, Repr

/-- The pallet's storage: `LastBatch`, `LastBatchBlock`, `Halted`, `LatestNetworkBlock`. -/
structure St where
  lastBatch : NetworkId → Option UInt32
  lastBatchBlock : NetworkId → Option ℕ
  halted : NetworkId → Bool
  latestNetworkBlock : NetworkId → Option (List UInt8)

/-- Empty storage: the pallet has no genesis config. -/
def St.empty : St where
  lastBatch := fun _ => none
  lastBatchBlock := fun _ => none
  halted := fun _ => false
  latestNetworkBlock := fun _ => none

/-- What a call of the pallet reads and writes: `frame_system`'s block number, the
    validator-sets pallet (with the coins instance inside it), the pallet's storage, and
    the DEX's, which its instructions drive. -/
structure Runtime (K : Type) where
  blockNumber : ℕ
  validatorSets : ValidatorSets.St K
  inInstructions : St
  dex : Dex.Storage K

/-- What the pallet takes from outside: `key.verify(&batch_message(batch), signature)`,
    and `batch.encode().len()`. -/
structure Config (K Sig : Type) where
  verify : K → Batch K → Sig → Bool
  encodedLen : Batch K → ℕ

variable {K Sig : Type}

/-! ## Storage writes -/

namespace Runtime

def setLastBatchBlock (rt : Runtime K) (network : NetworkId) (block : ℕ) : Runtime K :=
  { rt with inInstructions := { rt.inInstructions with
      lastBatchBlock := Function.update rt.inInstructions.lastBatchBlock network (some block) } }

def setLastBatch (rt : Runtime K) (network : NetworkId) (id : UInt32) : Runtime K :=
  { rt with inInstructions := { rt.inInstructions with
      lastBatch := Function.update rt.inInstructions.lastBatch network (some id) } }

def setLatestNetworkBlock (rt : Runtime K) (network : NetworkId) (block : List UInt8) : Runtime K :=
  { rt with inInstructions := { rt.inInstructions with
      latestNetworkBlock := Function.update rt.inInstructions.latestNetworkBlock network (some block) } }

@[simp] theorem setLastBatchBlock_blockNumber (rt : Runtime K) (network : NetworkId) (block : ℕ) :
    (rt.setLastBatchBlock network block).blockNumber = rt.blockNumber := rfl

@[simp] theorem setLastBatchBlock_validatorSets (rt : Runtime K) (network : NetworkId) (block : ℕ) :
    (rt.setLastBatchBlock network block).validatorSets = rt.validatorSets := rfl

@[simp] theorem setLastBatch_blockNumber (rt : Runtime K) (network : NetworkId) (id : UInt32) :
    (rt.setLastBatch network id).blockNumber = rt.blockNumber := rfl

@[simp] theorem setLastBatch_validatorSets (rt : Runtime K) (network : NetworkId) (id : UInt32) :
    (rt.setLastBatch network id).validatorSets = rt.validatorSets := rfl

@[simp] theorem setLatestNetworkBlock_blockNumber (rt : Runtime K) (network : NetworkId) (block : List UInt8) :
    (rt.setLatestNetworkBlock network block).blockNumber = rt.blockNumber := rfl

@[simp] theorem setLatestNetworkBlock_validatorSets (rt : Runtime K) (network : NetworkId) (block : List UInt8) :
    (rt.setLatestNetworkBlock network block).validatorSets = rt.validatorSets := rfl

end Runtime

/-- `halt`, which the signals pallet calls. -/
def halt (network : NetworkId) (rt : Runtime K) : Runtime K :=
  { rt with inInstructions := { rt.inInstructions with
      halted := Function.update rt.inInstructions.halted network true } }

/-! ## `validate_unsigned` -/

/-- `keys_for_network`: the network's session, and the keys of the session before it
    (none in session 0) and of the session itself; an error if neither is set. -/
def keysForNetwork (vs : ValidatorSets.St K) (network : NetworkId) : Except Invalid (ℕ × Option K × Option K) :=
  match vs.currentSession network with
  | none => .error .badProof
  | some session =>
    let latest := (vs.keys ⟨session, network⟩).map (·.key)
    let prior := if session ≠ 0 then (vs.keys ⟨session - 1, network⟩).map (·.key) else none
    if prior.isNone && latest.isNone then .error .badProof else .ok (session, prior, latest)

/-- `if let Some(key) = key { key.verify(..) } else { false }`. -/
def verifies (cfg : Config K Sig) (key : Option K) (batch : SignedBatch K Sig) : Bool :=
  match key with
  | some key => cfg.verify key batch.batch batch.signature
  | none => false

/-- `Err(e)?` when `c` holds. -/
def rejectIf (c : Bool) (e : Invalid) : EStateM Invalid (Runtime K) Unit :=
  if c then throw e else pure ()

/-- The `?` on a `Result`. -/
def ofExcept {α : Type} : Except Invalid α → EStateM Invalid (Runtime K) α
  | .ok a => pure a
  | .error e => throw e

/-- A call of the validator-sets pallet; its panic is a panic here. -/
def onValidatorSets (m : EStateM ValidatorSets.Fail (ValidatorSets.St K) Unit) :
    EStateM Invalid (Runtime K) Unit := fun rt =>
  match m rt.validatorSets with
  | .ok _ vs => .ok () { rt with validatorSets := vs }
  | .error _ vs => .error .panic { rt with validatorSets := vs }

/-- A batch not valid by the prior key while one is set was valid by the current key: the
    current set accepts the hand-over, and the prior set is retired. -/
def retireIfHandedOver (network : NetworkId) (currentSession : ℕ) (prior : Option K) (validByPrior : Bool) :
    EStateM Invalid (Runtime K) Unit :=
  if prior.isSome && !validByPrior then
    onValidatorSets (ValidatorSets.retireSet ⟨currentSession - 1, network⟩)
  else pure ()

/-- `validate_unsigned` of `execute_batch`, which `pre_dispatch` runs with its writes kept. -/
def validateUnsigned (cfg : Config K Sig) (batch : SignedBatch K Sig) : EStateM Invalid (Runtime K) Unit := do
  rejectIf (maxBatchSize < cfg.encodedLen batch.batch) .exhaustsResources
  let network := batch.batch.network
  rejectIf (network = .serai) (.custom 0)
  let (currentSession, prior, current) ← ofExcept (keysForNetwork (← get).validatorSets network)
  -- the prior key is checked first
  let validByPrior := verifies cfg prior batch
  let valid := validByPrior || verifies cfg current batch
  rejectIf (!valid) .badProof
  rejectIf ((← get).inInstructions.halted network) (.custom 1)
  retireIfHandedOver network currentSession prior validByPrior
  let currentBlock := (← get).blockNumber
  let lastBlock := ((← get).inInstructions.lastBatchBlock network).getD 0
  rejectIf (currentBlock ≤ lastBlock) .future
  modify fun rt => rt.setLastBatchBlock batch.batch.network rt.blockNumber
  let expected := (((← get).inInstructions.lastBatch network).map (· + 1)).getD 0
  rejectIf (batch.batch.id < expected) .stale
  rejectIf (expected < batch.batch.id) .future
  modify fun rt => rt.setLastBatch batch.batch.network batch.batch.id
  rejectIf (batch.batch.instructions.any fun instruction => instruction.balance.coin.network ≠ batch.batch.network)
    (.custom 2)

/-! ## `execute_batch` -/

/-- `OutAddress::is_native`. -/
def OutAddress.isNative : OutAddress K → Bool
  | .serai _ => true
  | .external _ => false

/-- What `execute` fails with (a `DispatchError`): the pallet's `InvalidAddressForCoin`, or
    a failure of the coins or DEX pallet it calls. -/
inductive ExecuteFail where
  | invalidAddressForCoin
  | call (f : Dex.Fail)
  deriving DecidableEq, Repr

variable [DecidableEq K]

section Execute

variable (allowMint : Balance → Bool) (dex : Dex.PalletConfig K) (executor : K)

/-- A call of the coins or DEX pallet, made from `execute`. -/
def call {α : Type} (m : EStateM Dex.Fail (Dex.St K) α) : EStateM ExecuteFail (Dex.St K) α :=
  m.adaptExcept .call

/-- `BoundedVec::try_from(path).unwrap()`: a path past `MaxSwapPathLength` panics. -/
def boundedPath (path : List Coin) : EStateM ExecuteFail (Dex.St K) (List Coin) :=
  if dex.maxSwapPathLength < path.length then throw (.call .panic) else pure path

/-- `execute`: a `Transfer` mints to its address; a `Dex` instruction mints to
    `IN_INSTRUCTION_EXECUTOR` (`executor`) and drives the DEX from there. -/
def execute (instruction : InInstructionWithBalance K) : EStateM ExecuteFail (Dex.St K) Unit :=
  match instruction.instruction with
  | .transfer address => call (Dex.prim allowMint (.mint .coins address instruction.balance))
  | .dex (.swapAndAddLiquidity address) => do
    let coin := instruction.balance.coin
    call (Dex.prim allowMint (.mint .coins executor instruction.balance))
    -- swap half of it for SRI, accepting whatever that gives
    let half := instruction.balance.amount / 2
    let path ← boundedPath dex [coin, .serai]
    call (Dex.swapExactTokensForTokens dex (some executor) path half 1 executor)
    let sriAmount := Dex.getBalance (← get) executor .serai
    call (Dex.addLiquidity dex (some executor) coin half sriAmount 1 1 address)
    -- the leftovers go to the address
    let coinBalance := Dex.getBalance (← get) executor coin
    let sriBalance := Dex.getBalance (← get) executor .serai
    if coinBalance ≠ 0 then call (Dex.transfer executor address ⟨coin, coinBalance⟩)
    if sriBalance ≠ 0 then call (Dex.transfer executor address ⟨.serai, sriBalance⟩)
  | .dex (.swap outBalance outAddress) => do
    let sendToExternal := !outAddress.isNative
    let nativeCoin := outBalance.coin.isNative
    if nativeCoin && sendToExternal then throw .invalidAddressForCoin
    call (Dex.prim allowMint (.mint .coins executor instruction.balance))
    let path ← boundedPath dex ([instruction.balance.coin, .serai] ++ if !nativeCoin then [outBalance.coin] else [])
    -- to an external address, the executor swaps to itself and burns what it gets
    let sendTo := match outAddress with
      | .serai address => address
      | .external _ => executor
    call (Dex.swapExactTokensForTokens dex (some executor) path instruction.balance.amount outBalance.amount sendTo)
    if sendToExternal then
      let coinBalance := Dex.getBalance (← get) executor outBalance.coin
      call (Dex.prim allowMint (.burnWithInstruction .coins (some executor) ⟨outBalance.coin, coinBalance⟩))

/-- An instruction in its `#[transactional]` layer, whose error only deposits an event. -/
def executeInLayer (instruction : InInstructionWithBalance K) (rt : Runtime K) : Runtime K :=
  let s := state (layer (execute allowMint dex executor instruction) (rt.dex.withCoins rt.validatorSets.coins))
  { rt with validatorSets := { rt.validatorSets with coins := s.world.coins }, dex := s.storage }

/-! ## What an instruction keeps -/

theorem execute_keepsOk {P : Dex.St K → Prop} (hprim : ∀ allowMint op, KeepsOk P (Dex.prim allowMint op))
    (instruction : InInstructionWithBalance K) : KeepsOk P (execute allowMint dex executor instruction) := by
  unfold execute call boundedPath
  dsimp only
  -- the mints, the DEX's calls and the transfers of the leftovers, bound in sequence
  repeat' first
    | exact KeepsOk.pure _
    | exact KeepsOk.throw _
    | exact KeepsOk.get
    | exact KeepsOk.adaptExcept _ (Dex.swapExactTokensForTokens_keepsOk dex hprim _ _ _ _ _)
    | exact KeepsOk.adaptExcept _ (Dex.addLiquidity_keepsOk dex hprim _ _ _ _ _ _ _)
    | exact KeepsOk.adaptExcept _ (hprim _ _)
    | with_reducible refine KeepsOk.ite ?_ ?_
    | with_reducible refine KeepsOk.bind ?_ fun _ => ?_
    | split

/-- In the runtime's `Coins` and in the DEX's `LiquidityTokens`, every coin's supply is the
    sum of its balances. -/
def CoinsConserved [Fintype K] (rt : Runtime K) : Prop := Dex.Conserved (rt.dex.withCoins rt.validatorSets.coins)

/-- An instruction in its layer keeps the coins conserved, whatever it ends with. -/
theorem executeInLayer_conserved [Fintype K] (instruction : InInstructionWithBalance K) {rt : Runtime K}
    (hc : CoinsConserved rt) : CoinsConserved (executeInLayer allowMint dex executor instruction rt) :=
  (execute_keepsOk allowMint dex executor Dex.prim_conserved instruction).layer hc

end Execute

/-- A `Transfer` mints to the address it names, and nothing keeps that address from being
    `IN_INSTRUCTION_EXECUTOR`: the coins then stay in the executor's account, whatever the
    DEX's state, and the next `SwapAndAddLiquidity` of the coin sends them on as its
    leftovers. -/
theorem transfer_strands_executor (allowMint : Balance → Bool) (dex : Dex.PalletConfig K) (executor : K)
    (b : Balance) (s : Dex.St K) (hmint : allowMint b = true) (hzero : Coins.balance s.world.coins executor b.coin = 0)
    (hsupply : (s.world.coins.supply b.coin).toNat + b.amount.toNat < 2 ^ 64) :
    ∃ s', execute allowMint dex executor ⟨.transfer executor, b⟩ s = .ok () s' ∧
      Coins.balance s'.world.coins executor b.coin = b.amount := by
  have hbal : checkedAdd (s.world.coins.balances (executor, b.coin)) b.amount = some b.amount := by
    have h0 : s.world.coins.balances (executor, b.coin) = 0 := hzero
    rw [h0, checkedAdd, if_pos (by simpa using b.amount.toNat_lt), UInt64.zero_add]
  have hsup : checkedAdd (s.world.coins.supply b.coin) b.amount = some (s.world.coins.supply b.coin + b.amount) :=
    if_pos hsupply
  refine ⟨⟨⟨Coins.setSupply (Coins.setBalance s.world.coins executor b.coin b.amount) b.coin
    (s.world.coins.supply b.coin + b.amount), s.world.liquidityTokens⟩, s.pools⟩, ?_, ?_⟩
  · simp only [execute, call, Dex.prim, EStateM.adaptExcept, Dex.onWorld, Coins.exec, Coins.onInstance,
      Coins.World.get, Coins.mint_eq, hmint, hbal, hsup]
    rfl
  · simp [Coins.balance, Coins.setBalance]

theorem transfer_strands_executor_empty :
    ∃ s', execute (K := ℕ) (fun _ => true) (Dex.PalletConfig.runtime fun _ => 1) 0 ⟨.transfer 0, ⟨.bitcoin, 1⟩⟩
        ⟨⟨⟨fun _ => 0, fun _ => 0⟩, ⟨fun _ => 0, fun _ => 0⟩⟩, fun _ => false⟩ = .ok () s' ∧
      Coins.balance s'.world.coins 0 .bitcoin = 1 :=
  transfer_strands_executor (fun _ => true) (Dex.PalletConfig.runtime fun _ => 1) 0 ⟨.bitcoin, 1⟩
    ⟨⟨⟨fun _ => 0, fun _ => 0⟩, ⟨fun _ => 0, fun _ => 0⟩⟩, fun _ => false⟩ rfl rfl (by decide)

/-- The Bitcoin pool: its account `1` holds a million of Bitcoin and of SRI, the user `0`
    half a million Bitcoin; `IN_INSTRUCTION_EXECUTOR` is `2`. -/
def poolCoins : Coins.St (Fin 3) where
  balances
    | (0, .bitcoin) => 500000
    | (1, .bitcoin) => 1000000
    | (1, .serai) => 1000000
    | _ => 0
  supply
    | .bitcoin => 1500000
    | .serai => 1000000
    | _ => 0

/-- The user holds the Bitcoin pool's million liquidity tokens. -/
def poolLiquidity : Coins.St (Fin 3) where
  balances
    | (0, .bitcoin) => 1000000
    | _ => 0
  supply
    | .bitcoin => 1000000
    | _ => 0

/-- `ensure_none`. -/
def ensureNone (origin : Option K) : EStateM Coins.Fail (Runtime K) Unit :=
  match origin with
  | none => pure ()
  | some _ => throw .badOrigin

/-- `execute_batch`. -/
def executeBatch (allowMint : Balance → Bool) (dex : Dex.PalletConfig K) (executor : K) (origin : Option K)
    (batch : SignedBatch K Sig) : EStateM Coins.Fail (Runtime K) Unit := do
  ensureNone origin
  modify fun rt => rt.setLatestNetworkBlock batch.batch.network batch.batch.block
  batch.batch.instructions.forM fun instruction => modify (executeInLayer allowMint dex executor instruction)

end Serai.InInstructions
