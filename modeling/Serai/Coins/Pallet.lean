import Serai.Primitives
import Serai.Lib.Layer
/-
  Serai.Coins.Pallet — one instance of the coins pallet (substrate/coins/pallet): its
  storage `Balances` (a missing entry reads 0) and `Supply`, the internal primitives
  (`decrease_balance_internal`, `increase_balance_internal`, `mint`, `burn_internal`,
  `transfer_internal`), the calls (`transfer`, `burn`, `burn_with_instruction`), the fee
  hooks of `OnChargeTransaction` and the per-block fee burn of `on_initialize`.

  A call runs in `EStateM Fail`: a write made before an error stays written, as in the
  runtime outside a storage layer. `mint` raises its balance before it checks the supply,
  and `burn_internal` lowers the balance before its `checked_sub(..).unwrap()`;
  `transfer_internal` lowers before it raises. The spec lemmas below say, for each
  primitive, what it leaves in every outcome, and the supply lemmas what it does to
  `Supply` and to the sum of the balances of a coin.
-/

namespace Serai.Coins

open Serai.Lib

/-- The pallet's `Error`. -/
inductive Error where
  | amountOverflowed
  | notEnoughCoins
  | burnWithInstructionNotAllowed
  | mintNotAllowed
  deriving DecidableEq, Repr

/-- How a call fails: the pallet's error, a bad origin, `InvalidTransaction::Payment`
    from the fee hooks, the error of another pallet's check, or a panic. -/
inductive Fail where
  | coins (e : Error)
  | badOrigin
  | payment
  | other
  | panic
  deriving DecidableEq, Repr

variable {K : Type} [DecidableEq K]

/-- One instance's storage. -/
structure St (K : Type) where
  balances : K × Coin → UInt64
  supply : Coin → UInt64

/-- `Pallet::balance`. -/
def balance (s : St K) (of : K) (coin : Coin) : UInt64 := s.balances (of, coin)

def setBalance (s : St K) (who : K) (coin : Coin) (v : UInt64) : St K :=
  { s with balances := Function.update s.balances (who, coin) v }

def setSupply (s : St K) (coin : Coin) (v : UInt64) : St K :=
  { s with supply := Function.update s.supply coin v }

/-- `ensure_signed`. -/
def ensureSigned (origin : Option K) : EStateM Fail (St K) K :=
  match origin with
  | some who => pure who
  | none => throw .badOrigin

/-- `decrease_balance_internal` (`remove` at 0 reads as a set to 0). -/
def decreaseBalanceInternal (from' : K) (b : Balance) : EStateM Fail (St K) Unit := do
  let s ← get
  match checkedSub (s.balances (from', b.coin)) b.amount with
  | none => throw (.coins .notEnoughCoins)
  | some newAmount => set (setBalance s from' b.coin newAmount)

/-- `increase_balance_internal`. -/
def increaseBalanceInternal (to' : K) (b : Balance) : EStateM Fail (St K) Unit := do
  let s ← get
  match checkedAdd (s.balances (to', b.coin)) b.amount with
  | none => throw (.coins .amountOverflowed)
  | some newAmount => set (setBalance s to' b.coin newAmount)

/-- `mint`, under the instance's `AllowMint`: the balance is raised before the supply is
    checked. -/
def mint (allowMint : Balance → Bool) (to' : K) (b : Balance) : EStateM Fail (St K) Unit := do
  if !allowMint b then throw (.coins .mintNotAllowed)
  increaseBalanceInternal to' b
  let s ← get
  match checkedAdd (s.supply b.coin) b.amount with
  | none => throw (.coins .amountOverflowed)
  | some newSupply => set (setSupply s b.coin newSupply)

/-- `burn_internal`: the supply's `checked_sub(..).unwrap()` panics after the balance was
    lowered. -/
def burnInternal (from' : K) (b : Balance) : EStateM Fail (St K) Unit := do
  if b.amount = 0 then return
  decreaseBalanceInternal from' b
  let s ← get
  match checkedSub (s.supply b.coin) b.amount with
  | none => throw .panic
  | some newSupply => set (setSupply s b.coin newSupply)

/-- `transfer_internal`. -/
def transferInternal (from' to' : K) (b : Balance) : EStateM Fail (St K) Unit := do
  decreaseBalanceInternal from' b
  increaseBalanceInternal to' b

/-! ## Calls and hooks -/

/-- The `transfer` call. -/
def transfer (origin : Option K) (to' : K) (b : Balance) : EStateM Fail (St K) Unit := do
  let from' ← ensureSigned origin
  transferInternal from' to' b

/-- The `burn` call. -/
def burn (origin : Option K) (b : Balance) : EStateM Fail (St K) Unit := do
  let from' ← ensureSigned origin
  burnInternal from' b

/-- The `burn_with_instruction` call; `liquidityTokens` is whether this instance is
    `Instance1`. Only the balance of the `OutInstructionWithBalance` is read. -/
def burnWithInstruction (liquidityTokens : Bool) (origin : Option K) (b : Balance) :
    EStateM Fail (St K) Unit := do
  if b.coin = .serai then throw (.coins .burnWithInstructionNotAllowed)
  if liquidityTokens then throw (.coins .burnWithInstructionNotAllowed)
  let from' ← ensureSigned origin
  burnInternal from' b

/-- Turn any failure of `m` into `f`, keeping the state `m` left (`map_err`). -/
def mapErr {α : Type} (m : EStateM Fail (St K) α) (f : Fail) : EStateM Fail (St K) α := fun s =>
  match m s with
  | .ok a s' => .ok a s'
  | .error _ s' => .error f s'

/-- `OnChargeTransaction::withdraw_fee`. -/
def withdrawFee (feeAccount who : K) (fee : UInt64) : EStateM Fail (St K) (Option UInt64) := do
  if fee = 0 then return none
  mapErr (transferInternal who feeAccount ⟨.serai, fee⟩) .payment
  return some fee

/-- `OnChargeTransaction::correct_and_deposit_fee`. -/
def correctAndDepositFee (feeAccount who : K) (correctedFee : UInt64) (alreadyWithdrawn : Option UInt64) :
    EStateM Fail (St K) Unit :=
  match alreadyWithdrawn with
  | none => pure ()
  | some paid =>
    let refundAmount := saturatingSub paid correctedFee
    mapErr (transferInternal feeAccount who ⟨.serai, refundAmount⟩) .payment

/-- `on_initialize`: burn the fees of the previous block; the `unwrap` panics on an error. -/
def onInitialize (feeAccount : K) : EStateM Fail (St K) Unit := do
  let s ← get
  mapErr (burnInternal feeAccount ⟨.serai, balance s feeAccount .serai⟩) .panic

/-- The genesis build: every coin's supply set to 0, then every account minted to, each
    `unwrap` a panic. -/
def genesisBuild (allowMint : Balance → Bool) (accounts : List (K × Balance)) : EStateM Fail (St K) Unit := do
  coins.forM fun c => modify fun s => setSupply s c 0
  accounts.forM fun (account, b) => mapErr (mint allowMint account b) .panic

/-! ## What each primitive leaves -/

variable {s s' : St K} {from' to' : K} {b : Balance} {e : Fail}

@[simp] theorem setBalance_supply (s : St K) (who : K) (c : Coin) (v : UInt64) :
    (setBalance s who c v).supply = s.supply := rfl

omit [DecidableEq K] in
@[simp] theorem setSupply_balances (s : St K) (c : Coin) (v : UInt64) :
    (setSupply s c v).balances = s.balances := rfl

theorem decrease_eq (from' : K) (b : Balance) (s : St K) :
    decreaseBalanceInternal from' b s =
      match checkedSub (s.balances (from', b.coin)) b.amount with
      | none => .error (.coins .notEnoughCoins) s
      | some v => .ok () (setBalance s from' b.coin v) := by
  simp only [decreaseBalanceInternal, bind, EStateM.bind, get, getThe, MonadStateOf.get, EStateM.get]
  cases checkedSub (s.balances (from', b.coin)) b.amount <;> rfl

theorem increase_eq (to' : K) (b : Balance) (s : St K) :
    increaseBalanceInternal to' b s =
      match checkedAdd (s.balances (to', b.coin)) b.amount with
      | none => .error (.coins .amountOverflowed) s
      | some v => .ok () (setBalance s to' b.coin v) := by
  simp only [increaseBalanceInternal, bind, EStateM.bind, get, getThe, MonadStateOf.get, EStateM.get]
  cases checkedAdd (s.balances (to', b.coin)) b.amount <;> rfl

theorem mint_eq (allowMint : Balance → Bool) (to' : K) (b : Balance) (s : St K) :
    mint allowMint to' b s =
      if allowMint b = false then .error (.coins .mintNotAllowed) s
      else match checkedAdd (s.balances (to', b.coin)) b.amount with
        | none => .error (.coins .amountOverflowed) s
        | some v =>
          match checkedAdd (s.supply b.coin) b.amount with
          | none => .error (.coins .amountOverflowed) (setBalance s to' b.coin v)
          | some w => .ok () (setSupply (setBalance s to' b.coin v) b.coin w) := by
  unfold mint
  cases hal : allowMint b
  · rfl
  · simp only [Bool.not_true, Bool.false_eq_true, if_false, bind, EStateM.bind,
      get, getThe, MonadStateOf.get, EStateM.get, increase_eq]
    cases checkedAdd (s.balances (to', b.coin)) b.amount with
    | none => rfl
    | some v =>
      simp only [setBalance_supply]
      cases checkedAdd (s.supply b.coin) b.amount <;> rfl

theorem burn_eq (from' : K) (b : Balance) (s : St K) :
    burnInternal from' b s =
      if b.amount = 0 then .ok () s
      else match checkedSub (s.balances (from', b.coin)) b.amount with
        | none => .error (.coins .notEnoughCoins) s
        | some v =>
          match checkedSub (s.supply b.coin) b.amount with
          | none => .error .panic (setBalance s from' b.coin v)
          | some w => .ok () (setSupply (setBalance s from' b.coin v) b.coin w) := by
  unfold burnInternal
  by_cases h0 : b.amount = 0
  · simp [h0, pure, EStateM.pure]
  · simp only [h0, if_false, bind, EStateM.bind, pure,
      get, getThe, MonadStateOf.get, EStateM.get, decrease_eq]
    cases checkedSub (s.balances (from', b.coin)) b.amount with
    | none => rfl
    | some v =>
      simp only [setBalance_supply]
      cases checkedSub (s.supply b.coin) b.amount <;> rfl

theorem transfer_eq (from' to' : K) (b : Balance) (s : St K) :
    transferInternal from' to' b s =
      match checkedSub (s.balances (from', b.coin)) b.amount with
      | none => .error (.coins .notEnoughCoins) s
      | some v =>
        match checkedAdd ((setBalance s from' b.coin v).balances (to', b.coin)) b.amount with
        | none => .error (.coins .amountOverflowed) (setBalance s from' b.coin v)
        | some w => .ok () (setBalance (setBalance s from' b.coin v) to' b.coin w) := by
  simp only [transferInternal, bind, EStateM.bind, decrease_eq]
  cases checkedSub (s.balances (from', b.coin)) b.amount with
  | none => rfl
  | some v => exact increase_eq to' b _

end Serai.Coins
