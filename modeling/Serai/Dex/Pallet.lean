import Serai.Dex.Pricing
import Serai.Coins.Supply
/-
  Serai.Dex.Pallet — the DEX pallet's calls that an in-instruction makes (substrate/dex/
  pallet: `create_pool` and the genesis build, `add_liquidity`, `quote`, `mul_div`,
  `calc_lp_amount_for_zero_supply`, `swap_exact_tokens_for_tokens`,
  `do_swap_exact_tokens_for_tokens`, `validate_swap_path`, `do_swap`).

  A pool pairs SRI with another coin and is named by that coin; it holds its reserves in
  its own account (`get_pool_account`, a hash of the pool's id, is a parameter), and its
  liquidity tokens are that coin's in the `LiquidityTokens` instance of the coins pallet,
  whose `AllowMint` is `()`. A call runs over both instances and `Pools` in `EStateM`: a
  write made before an error stays written, as in the runtime outside a storage layer.
  The prices are Serai.Dex.Pricing's. Every write to a coin goes through a primitive of
  the coins pallet (`Coins.exec`): the DEX moves coins into and out of pools and mints
  liquidity tokens, nothing else.

  - `addLiquidity_keepsOk`, `swapExactTokensForTokens_keepsOk`: a DEX call that succeeds
    keeps any invariant that every successful primitive of the coins pallet keeps;
    so (`*_conserved`) in both instances every coin's supply stays the sum of its
    balances.
-/

namespace Serai.Dex

open Serai.Lib

/-- The pallet's `Error`; those its prices return are `Error`'s. -/
inductive PalletError where
  | price (e : Error)
  | poolExists
  | wrongDesiredAmount
  | coinAmountLessThanMinimum
  | sriAmountLessThanMinimum
  | reserveLeftLessThanMinimum
  | coinOneDepositDidNotMeetMinimum
  | coinTwoDepositDidNotMeetMinimum
  | optimalAmountLessThanDesired
  | insufficientLiquidityMinted
  | zeroAmount
  | providedMinimumNotSufficientForSwap
  | invalidPath
  | pathError
  | nonUniquePath
  | correspondenceError
  deriving DecidableEq, Repr

/-- How a DEX call fails (`DispatchError`): the pallet's error, a failure of the coins
    pallet it calls, a bad origin, a `defensive_ok_or`'s `Other`, or a panic. -/
inductive Fail where
  | dex (e : PalletError)
  | coins (f : Coins.Fail)
  | badOrigin
  | other
  | panic
  deriving DecidableEq, Repr

/-- The pallet's `Config`: `LPFee` (the prices'), `MintMinLiquidity`, `MaxSwapPathLength`,
    and `get_pool_account`. -/
structure PalletConfig (K : Type) extends Config where
  mintMinLiquidity : UInt64
  maxSwapPathLength : ℕ
  poolAccount : Coin → K

/-- The runtime's: `MintMinLiquidity = 10000`, `MaxSwapPathLength = 3` (coin, SRI, coin). -/
def PalletConfig.runtime {K : Type} (poolAccount : Coin → K) : PalletConfig K :=
  { Config.runtime with mintMinLiquidity := 10000, maxSwapPathLength := 3, poolAccount := poolAccount }

/-- The DEX's storage in the runtime: the `LiquidityTokens` instance, and `Pools`. -/
structure Storage (K : Type) where
  liquidityTokens : Coins.St K
  pools : Coin → Bool

/-- What a DEX call reads and writes: both instances of the coins pallet, and `Pools`. -/
structure St (K : Type) where
  world : Coins.World K
  pools : Coin → Bool

/-- The call's state over the runtime's coins pallet. -/
def Storage.withCoins {K : Type} (d : Storage K) (coins : Coins.St K) : St K :=
  ⟨⟨coins, d.liquidityTokens⟩, d.pools⟩

/-- The DEX's storage a call leaves. -/
def St.storage {K : Type} (s : St K) : Storage K := ⟨s.world.liquidityTokens, s.pools⟩

variable {K : Type} [DecidableEq K]

/-! ## Calling the coins pallet -/

/-- A call of the coins pallets, its failure theirs. -/
def onWorld {α : Type} (m : EStateM Coins.Fail (Coins.World K) α) : EStateM Fail (St K) α := fun s =>
  match m s.world with
  | .ok a w => .ok a { s with world := w }
  | .error e w => .error (.coins e) { s with world := w }

/-- A primitive of the coins pallets, under `AllowMint` for `Coins` and `()` for
    `LiquidityTokens`. -/
def prim (allowMint : Balance → Bool) (op : Coins.Op K) : EStateM Fail (St K) Unit :=
  onWorld (Coins.exec (fun | .coins => allowMint | .liquidityTokens => fun _ => true) op)

/-- `Pallet::transfer`: `Coins::transfer_internal`. -/
def transfer (from' to' : K) (b : Balance) : EStateM Fail (St K) Unit :=
  prim (fun _ => true) (.transfer .coins from' to' b)

/-- `LiquidityTokens::mint`. -/
def mintLiquidity (to' : K) (b : Balance) : EStateM Fail (St K) Unit :=
  prim (fun _ => true) (.mint .liquidityTokens to' b)

/-- `get_balance`: `Coins::balance`. -/
def getBalance (s : St K) (owner : K) (coin : Coin) : UInt64 := Coins.balance s.world.coins owner coin

/-- A result of the pallet's own, its error the pallet's. -/
def ofExcept {α : Type} : Except PalletError α → EStateM Fail (St K) α
  | .ok a => pure a
  | .error e => throw (.dex e)

/-- `ensure_signed`. -/
def ensureSigned (origin : Option K) : EStateM Fail (St K) K :=
  match origin with
  | some who => pure who
  | none => throw .badOrigin

/-! ## Pools and liquidity -/

/-- `create_pool`: `Pools` gains the pool of `coin` and SRI. -/
def createPool (pools : Coin → Bool) (coin : Coin) : Except PalletError (Coin → Bool) := do
  if coin = .serai then throw (.price .equalCoins)
  -- `get_pool_id(coin, Coin::Serai).unwrap()` is `coin`
  if pools coin then throw .poolExists
  pure (Function.update pools coin true)

/-- The genesis build: the pools of `GenesisConfig::pools`; `none` is the panic of an
    `unwrap`. -/
def genesisBuild (pools : List Coin) : Option (Coin → Bool) :=
  pools.foldlM (fun acc coin => (createPool acc coin).toOption) fun _ => false

/-- `mul_div`: `a * b / c` on `u128`, each failure `Overflow`, as is a result past `u64`. -/
def mulDiv (a b c : UInt64) : Except PalletError UInt64 :=
  (toAmount ((checkedMul128 a.toNat b.toNat).bind (checkedDiv128 · c.toNat))).mapError .price

/-- `quote`: `amount * reserve2 / reserve1`. -/
def quote (amount reserve1 reserve2 : UInt64) : Except PalletError UInt64 := mulDiv amount reserve2 reserve1

section Calls

variable (cfg : PalletConfig K)

/-- The balances `get_reserves` reads: `get_balance(&get_pool_account(pool), coin)`. -/
def poolBalance (s : St K) (pool coin : Coin) : UInt64 := getBalance s (cfg.poolAccount pool) coin

/-- `calc_lp_amount_for_zero_supply`: `sqrt(amount1 * amount2) - MintMinLiquidity` on
    `u128`. -/
def calcLpAmountForZeroSupply (amount1 amount2 : UInt64) : Except PalletError UInt64 :=
  match checkedMul128 amount1.toNat amount2.toNat with
  | none => .error (.price .overflow)
  | some product =>
    match checkedSub128 product.sqrt cfg.mintMinLiquidity.toNat with
    | none => .error .insufficientLiquidityMinted
    | some result => (toAmount (some result)).mapError .price

/-- The amounts `add_liquidity` deposits, SRI first: the desired ones into an empty pool,
    else the most of them at the pool's price, each at least its minimum. -/
def depositAmounts (sriReserve coinReserve coinDesired sriDesired coinMin sriMin : UInt64) :
    Except PalletError (UInt64 × UInt64) := do
  if sriReserve = 0 ∨ coinReserve = 0 then return (sriDesired, coinDesired)
  let coinOptimal ← quote sriDesired sriReserve coinReserve
  if coinOptimal ≤ coinDesired then
    if coinOptimal < coinMin then throw .coinTwoDepositDidNotMeetMinimum
    return (sriDesired, coinOptimal)
  let sriOptimal ← quote coinDesired coinReserve sriReserve
  if sriDesired < sriOptimal then throw .optimalAmountLessThanDesired
  if sriOptimal < sriMin then throw .coinOneDepositDidNotMeetMinimum
  return (sriOptimal, coinDesired)

/-- `add_liquidity`. -/
def addLiquidity (origin : Option K) (coin : Coin) (coinDesired sriDesired coinMin sriMin : UInt64) (mintTo : K) :
    EStateM Fail (St K) Unit := do
  let sender ← ensureSigned origin
  if ¬(sriDesired > 0 ∧ coinDesired > 0) then throw (.dex .wrongDesiredAmount)
  if coin = .serai then throw (.dex (.price .equalCoins))
  -- `get_pool_id(coin, Coin::Serai).unwrap()` is `coin`
  if !(← get).pools coin then throw (.dex (.price .poolNotFound))
  let poolAccount := cfg.poolAccount coin
  let sriReserve := getBalance (← get) poolAccount .serai
  let coinReserve := getBalance (← get) poolAccount coin
  let (sriAmount, coinAmount) ← ofExcept (depositAmounts sriReserve coinReserve coinDesired sriDesired coinMin sriMin)
  if saturatingAdd sriAmount sriReserve < 1 then throw (.dex .sriAmountLessThanMinimum)
  if saturatingAdd coinAmount coinReserve < 1 then throw (.dex .coinAmountLessThanMinimum)
  transfer sender poolAccount ⟨.serai, sriAmount⟩
  transfer sender poolAccount ⟨coin, coinAmount⟩
  let totalSupply := (← get).world.liquidityTokens.supply coin
  let lpTokenAmount ← if totalSupply = 0 then do
      let lpTokenAmount ← ofExcept (calcLpAmountForZeroSupply cfg sriAmount coinAmount)
      mintLiquidity poolAccount ⟨coin, cfg.mintMinLiquidity⟩
      pure lpTokenAmount
    else do
      let side1 ← ofExcept (mulDiv sriAmount totalSupply sriReserve)
      let side2 ← ofExcept (mulDiv coinAmount totalSupply coinReserve)
      pure (min side1 side2)
  if lpTokenAmount ≤ cfg.mintMinLiquidity then throw (.dex .insufficientLiquidityMinted)
  mintLiquidity mintTo ⟨coin, lpTokenAmount⟩

/-! ## Swaps -/

/-- One pass of `validate_swap_path`'s loop: the hop's pool joins the `BoundedBTreeSet` of
    at most `MaxSwapPathLength` pools; one already there is `NonUniquePath`, one past the
    bound `Overflow`. -/
def insertPool (pools : List Coin) (hop : Coin × Coin) : Except PalletError (List Coin) := do
  let poolId ← (getPoolId hop.1 hop.2).mapError .price
  if poolId ∈ pools then throw .nonUniquePath
  if cfg.maxSwapPathLength ≤ pools.length then throw (.price .overflow)
  pure (poolId :: pools)

/-- `validate_swap_path`: at least two coins, each hop a pool, no pool twice. -/
def validateSwapPath (path : List Coin) : Except PalletError Unit := do
  if path.length < 2 then throw .invalidPath
  let _ ← (path.zip path.tail).foldlM (insertPool cfg) []

/-- One pass of `do_swap`'s loop over `path.windows(2)`, hop `i` from `coin1` to `coin2`:
    its pool pays `amounts[i + 1]` of `coin2` to the next hop's pool or, after the last
    hop, to `send_to`, and keeps at least one of it. -/
def swapHop (amounts : List UInt64) (path : List Coin) (sendTo : K) (hop : (Coin × Coin) × ℕ) :
    EStateM Fail (St K) Unit := do
  let poolAccount := cfg.poolAccount (← ofExcept ((getPoolId hop.1.1 hop.1.2).mapError .price))
  let some amountOut := amounts[hop.2 + 1]? | throw (.dex .correspondenceError)
  -- `path_len - 2`: `do_swap` runs its loop on a path of two coins at least
  let to' ← if hop.2 < path.length - 2 then do
      let some coin3 := path[hop.2 + 2]? | throw (.dex .pathError)
      pure (cfg.poolAccount (← ofExcept ((getPoolId hop.1.2 coin3).mapError .price)))
    else pure sendTo
  let reserve := getBalance (← get) poolAccount hop.1.2
  if saturatingSub reserve amountOut < 1 then throw (.dex .reserveLeftLessThanMinimum)
  transfer poolAccount to' ⟨hop.1.2, amountOut⟩

/-- `do_swap`: the first amount into the first pool, then the hops. -/
def doSwap (sender : K) (amounts : List UInt64) (path : List Coin) (sendTo : K) : EStateM Fail (St K) Unit := do
  if amounts.length ≤ 1 then throw (.dex .correspondenceError)
  match path with
  | coin1 :: coin2 :: _ =>
    let poolAccount := cfg.poolAccount (← ofExcept ((getPoolId coin1 coin2).mapError .price))
    let some firstAmount := amounts.head? | throw (.dex .correspondenceError)
    transfer sender poolAccount ⟨coin1, firstAmount⟩
    (path.zip path.tail).zipIdx.forM (swapHop cfg amounts path sendTo)
  | _ => throw (.dex .invalidPath)

/-- `do_swap_exact_tokens_for_tokens`: the amount out of `amount_in` along the path, at
    least `amount_out_min`, swapped. -/
def doSwapExactTokensForTokens (sender : K) (path : List Coin) (amountIn : UInt64) (amountOutMin : Option UInt64)
    (sendTo : K) : EStateM Fail (St K) UInt64 := do
  if amountIn = 0 then throw (.dex .zeroAmount)
  if amountOutMin = some 0 then throw (.dex .zeroAmount)
  ofExcept (validateSwapPath cfg path)
  let amounts ← ofExcept ((getAmountsOut cfg.toConfig (poolBalance cfg (← get)) amountIn path).mapError .price)
  -- `defensive_ok_or`: the amounts start with `amount_in`
  let some amountOut := amounts.getLast? | throw .other
  if amountOutMin.any (amountOut < ·) then throw (.dex .providedMinimumNotSufficientForSwap)
  doSwap cfg sender amounts path sendTo
  pure amountOut

/-- `swap_exact_tokens_for_tokens`. -/
def swapExactTokensForTokens (origin : Option K) (path : List Coin) (amountIn amountOutMin : UInt64) (sendTo : K) :
    EStateM Fail (St K) Unit := do
  let sender ← ensureSigned origin
  let _ ← doSwapExactTokensForTokens cfg sender path amountIn (some amountOutMin) sendTo

end Calls

/-! ## What a call keeps -/

section Keeps

variable {P : St K → Prop}

omit [DecidableEq K] in
theorem ofExcept_keepsOk {α : Type} (r : Except PalletError α) : KeepsOk P (ofExcept r : EStateM Fail (St K) α) := by
  cases r with
  | ok a => exact KeepsOk.pure a
  | error e => exact KeepsOk.throw _

omit [DecidableEq K] in
theorem ensureSigned_keepsOk (origin : Option K) : KeepsOk P (ensureSigned origin) := by
  cases origin with
  | some who => exact KeepsOk.pure who
  | none => exact KeepsOk.throw _

variable (cfg : PalletConfig K) (hprim : ∀ allowMint op, KeepsOk P (prim allowMint op))
include hprim

theorem swapHop_keepsOk (amounts : List UInt64) (path : List Coin) (sendTo : K) (hop : (Coin × Coin) × ℕ) :
    KeepsOk P (swapHop cfg amounts path sendTo hop) := by
  unfold swapHop
  dsimp only
  -- the pallet's checks, one read and one transfer, bound in sequence
  repeat' first
    | exact KeepsOk.pure _
    | exact KeepsOk.throw _
    | exact KeepsOk.get
    | exact ofExcept_keepsOk _
    | exact hprim _ _
    | with_reducible refine KeepsOk.ite ?_ ?_
    | with_reducible refine KeepsOk.bind ?_ fun _ => ?_
    | split

theorem doSwap_keepsOk (sender : K) (amounts : List UInt64) (path : List Coin) (sendTo : K) :
    KeepsOk P (doSwap cfg sender amounts path sendTo) := by
  unfold doSwap
  dsimp only
  repeat' first
    | exact KeepsOk.pure _
    | exact KeepsOk.throw _
    | exact KeepsOk.get
    | exact ofExcept_keepsOk _
    | exact hprim _ _
    -- the loop over the hops
    | exact KeepsOk.forM (swapHop_keepsOk cfg hprim _ _ _) _
    | with_reducible refine KeepsOk.ite ?_ ?_
    | with_reducible refine KeepsOk.bind ?_ fun _ => ?_
    | split

theorem swapExactTokensForTokens_keepsOk (origin : Option K) (path : List Coin) (amountIn amountOutMin : UInt64)
    (sendTo : K) : KeepsOk P (swapExactTokensForTokens cfg origin path amountIn amountOutMin sendTo) := by
  unfold swapExactTokensForTokens doSwapExactTokensForTokens
  dsimp only
  repeat' first
    | exact KeepsOk.pure _
    | exact KeepsOk.throw _
    | exact KeepsOk.get
    | exact ofExcept_keepsOk _
    | exact ensureSigned_keepsOk _
    | exact doSwap_keepsOk cfg hprim _ _ _ _
    | with_reducible refine KeepsOk.ite ?_ ?_
    | with_reducible refine KeepsOk.bind ?_ fun _ => ?_
    | split

theorem addLiquidity_keepsOk (origin : Option K) (coin : Coin) (coinDesired sriDesired coinMin sriMin : UInt64)
    (mintTo : K) : KeepsOk P (addLiquidity cfg origin coin coinDesired sriDesired coinMin sriMin mintTo) := by
  unfold addLiquidity
  dsimp only
  repeat' first
    | exact KeepsOk.pure _
    | exact KeepsOk.throw _
    | exact KeepsOk.get
    | exact ofExcept_keepsOk _
    | exact ensureSigned_keepsOk _
    | exact hprim _ _
    | with_reducible refine KeepsOk.ite ?_ ?_
    | with_reducible refine KeepsOk.bind ?_ fun _ => ?_

end Keeps

/-! ## Conservation -/

section Conservation

variable [Fintype K]

/-- In both instances of the coins pallet, every coin's supply is the sum of its balances. -/
def Conserved (s : St K) : Prop := Coins.WConserved s.world

theorem prim_conserved (allowMint : Balance → Bool) (op : Coins.Op K) : KeepsOk Conserved (prim allowMint op) := by
  intro s u s' hs h
  unfold prim onWorld at h
  split at h
  · rename_i w hw
    cases h
    exact Coins.exec_okClosed _ op s.world w hs hw
  · cases h

theorem swapExactTokensForTokens_conserved (cfg : PalletConfig K) (origin : Option K) (path : List Coin)
    (amountIn amountOutMin : UInt64) (sendTo : K) :
    KeepsOk Conserved (swapExactTokensForTokens cfg origin path amountIn amountOutMin sendTo) :=
  swapExactTokensForTokens_keepsOk cfg prim_conserved origin path amountIn amountOutMin sendTo

theorem addLiquidity_conserved (cfg : PalletConfig K) (origin : Option K) (coin : Coin)
    (coinDesired sriDesired coinMin sriMin : UInt64) (mintTo : K) :
    KeepsOk Conserved (addLiquidity cfg origin coin coinDesired sriDesired coinMin sriMin mintTo) :=
  addLiquidity_keepsOk cfg prim_conserved origin coin coinDesired sriDesired coinMin sriMin mintTo

end Conservation

end Serai.Dex
