import Mathlib
import Serai.Primitives
import Serai.Lib.Layer
/-
  Serai.Dex.Pricing — the prices of the DEX pallet (substrate/dex/pallet: `get_pool_id`,
  `get_reserves`, `get_amount_out`, `get_amount_in`, `get_amounts_out`, `get_amounts_in`).

  Amounts are `u64`; the prices are computed on `u128` (`HigherPrecisionBalance`) with
  checked arithmetic, every failure of which is `Error::Overflow`, as is a result past
  `u64`. On naturals the prices are `amountOutOf` and `amountInOf`: the exact-in price
  floors the constant-product output after the fee, the exact-out price floors the input
  it needs and adds one.

  Proved:
  - `getAmountOut_ok`, `getAmountIn_ok`: what a price the code returns is on naturals, and
    `getAmountOut_of_lt`: the exact-in price fails only when `amount_in * (1000 - LPFee) *
    reserve_out` leaves `u128`.
  - `le_amountOutOf_amountInOf`, `amountInOf_le_succ`: the exact-in price of the exact-out
    price is at least the amount asked for, and the exact-out price is at most one more than
    any input whose exact-in price reaches the amount.
  - `amountOutOf_mono`, `amountOutOf_lt`: the exact-in price grows with the input and stays
    below the reserve.
  - `getAmountsIn_eq`, `getAmountsOut_eq`: the amounts along a path, from its end or from
    its start, one hop after the other (`scanHops`, `amountsIn`); and
    `amountsOut_dominate`: executing a path from the input `get_amounts_in` quotes yields
    at least the quoted amount at every hop, when no reserve passes `2 ^ 54`.
  - `exact_out_overflows`: past that, the exact-in price of an exact-out price can overflow.
-/

namespace Serai.Dex

open Serai.Lib

/-- The pallet's errors the prices return. -/
inductive Error where
  | equalCoins
  | amountOutTooHigh
  | poolNotFound
  | overflow
  | zeroLiquidity
  deriving DecidableEq, Repr

/-- The runtime's `T::LPFee`, in thousandths; its values are below 1000, so the `u128`
    subtraction `1000 - LPFee` does not underflow. -/
structure Config where
  lpFee : ℕ
  lpFee_lt : lpFee < 1000

/-- The runtime's `LPFee`: 0.3%. -/
def Config.runtime : Config := ⟨3, by decide⟩

/-! ## `u128` arithmetic -/

/-- `u128::checked_mul`. -/
def checkedMul128 (a b : ℕ) : Option ℕ := if a * b < 2 ^ 128 then some (a * b) else none

/-- `u128::checked_add`. -/
def checkedAdd128 (a b : ℕ) : Option ℕ := if a + b < 2 ^ 128 then some (a + b) else none

/-- `u128::checked_sub`. -/
def checkedSub128 (a b : ℕ) : Option ℕ := if b ≤ a then some (a - b) else none

/-- `u128::checked_div`. -/
def checkedDiv128 (a b : ℕ) : Option ℕ := if b = 0 then none else some (a / b)

/-- The `?`s of a price, all `Error::Overflow`, then `result.try_into()` a `u64`. -/
def toAmount : Option ℕ → Except Error UInt64
  | none => .error .overflow
  | some result => if result < 2 ^ 64 then .ok (UInt64.ofNat result) else .error .overflow

/-! ## Prices -/

variable (cfg : Config)

/-- `get_amount_out`: the output of an exact input, the fee taken from the input. -/
def getAmountOut (amountIn reserveIn reserveOut : UInt64) : Except Error UInt64 :=
  if reserveIn = 0 ∨ reserveOut = 0 then .error .zeroLiquidity else
  toAmount do
    let amountInWithFee ← checkedMul128 amountIn.toNat (1000 - cfg.lpFee)
    let numerator ← checkedMul128 amountInWithFee reserveOut.toNat
    let denominator ← (checkedMul128 reserveIn.toNat 1000).bind (checkedAdd128 · amountInWithFee)
    checkedDiv128 numerator denominator

/-- `get_amount_in`: the input an exact output needs, rounded up by adding one. -/
def getAmountIn (amountOut reserveIn reserveOut : UInt64) : Except Error UInt64 :=
  if reserveIn = 0 ∨ reserveOut = 0 then .error .zeroLiquidity else
  if reserveOut ≤ amountOut then .error .amountOutTooHigh else
  toAmount do
    let numerator ← (checkedMul128 reserveIn.toNat amountOut.toNat).bind (checkedMul128 · 1000)
    let denominator ← (checkedSub128 reserveOut.toNat amountOut.toNat).bind (checkedMul128 · (1000 - cfg.lpFee))
    let result ← checkedDiv128 numerator denominator
    checkedAdd128 result 1

/-- `get_pool_id`: every pool pairs SRI with another coin, and is named by that coin. -/
def getPoolId (coin1 coin2 : Coin) : Except Error Coin :=
  if ¬(coin1 = .serai ∨ coin2 = .serai) then .error .poolNotFound else
  if coin1 = coin2 then .error .equalCoins else
  .ok (if coin1 = .serai then coin2 else coin1)

/-- `get_reserves`: the pool account's balances of both coins, in the order asked;
    `poolBalance pool coin` is `get_balance(&get_pool_account(pool), coin)`. -/
def getReserves (poolBalance : Coin → Coin → UInt64) (coin1 coin2 : Coin) : Except Error (UInt64 × UInt64) :=
  (getPoolId coin1 coin2).bind fun poolId =>
    if poolBalance poolId coin1 = 0 ∨ poolBalance poolId coin2 = 0 then .error .poolNotFound
    else .ok (poolBalance poolId coin1, poolBalance poolId coin2)

/-- One hop of `get_amounts_out`: the hop's reserves, then the exact-in price. -/
def hopOut (poolBalance : Coin → Coin → UInt64) (amountIn : UInt64) (coins : Coin × Coin) : Except Error UInt64 :=
  (getReserves poolBalance coins.1 coins.2).bind fun reserves => getAmountOut cfg amountIn reserves.1 reserves.2

/-- One hop of `get_amounts_in`: the hop's reserves, then the exact-out price. -/
def hopIn (poolBalance : Coin → Coin → UInt64) (amountOut : UInt64) (coins : Coin × Coin) : Except Error UInt64 :=
  (getReserves poolBalance coins.1 coins.2).bind fun reserves => getAmountIn cfg amountOut reserves.1 reserves.2

/-- `get_amounts_out`: over `path.windows(2)`, the amount out of each hop from the last amount,
    pushed (`amounts.last().expect(..)`: the amounts start with `amount_in`). -/
def getAmountsOut (poolBalance : Coin → Coin → UInt64) (amountIn : UInt64) (path : List Coin) :
    Except Error (List UInt64) :=
  (path.zip path.tail).foldlM
    (fun amounts coins => (hopOut cfg poolBalance (amounts.getLastD amountIn) coins).map (amounts ++ [·])) [amountIn]

/-- `get_amounts_in`: over `path.windows(2).rev()`, the amount into each hop from the last
    amount, pushed; then reversed. -/
def getAmountsIn (poolBalance : Coin → Coin → UInt64) (amountOut : UInt64) (path : List Coin) :
    Except Error (List UInt64) :=
  ((path.zip path.tail).reverse.foldlM
    (fun amounts coins => (hopIn cfg poolBalance (amounts.getLastD amountOut) coins).map (amounts ++ [·]))
    [amountOut]).map List.reverse

/-! ## The prices on naturals -/

/-- The exact-in price on naturals. -/
def amountOutOf (fee amountIn reserveIn reserveOut : ℕ) : ℕ :=
  amountIn * (1000 - fee) * reserveOut / (reserveIn * 1000 + amountIn * (1000 - fee))

/-- The exact-out price on naturals. -/
def amountInOf (fee amountOut reserveIn reserveOut : ℕ) : ℕ :=
  reserveIn * amountOut * 1000 / ((reserveOut - amountOut) * (1000 - fee)) + 1

section Naturals

variable {fee a a' b x0 reserveIn reserveOut : ℕ}

theorem amountOutOf_lt (hin : 0 < reserveIn) (hout : 0 < reserveOut) :
    amountOutOf fee a reserveIn reserveOut < reserveOut := by
  apply Nat.div_lt_of_lt_mul
  exact Nat.mul_lt_mul_of_pos_right (by omega) hout

theorem le_amountOutOf_iff (hin : 0 < reserveIn) (hb : b ≤ reserveOut) :
    b ≤ amountOutOf fee a reserveIn reserveOut ↔ reserveIn * b * 1000 ≤ a * ((reserveOut - b) * (1000 - fee)) := by
  rw [amountOutOf, Nat.le_div_iff_mul_le (by omega)]
  obtain ⟨d, rfl⟩ : ∃ d, reserveOut = b + d := ⟨reserveOut - b, by omega⟩
  have e1 : b * (reserveIn * 1000 + a * (1000 - fee)) = reserveIn * b * 1000 + a * (1000 - fee) * b := by ring
  have e2 : a * (1000 - fee) * (b + d) = a * (b + d - b) * (1000 - fee) + a * (1000 - fee) * b := by
    rw [Nat.add_sub_cancel_left]
    ring
  rw [e1, e2, Nat.add_sub_cancel_left, Nat.mul_assoc a d]
  omega

theorem amountOutOf_mono (ha : a ≤ a') (hin : 0 < reserveIn) :
    amountOutOf fee a reserveIn reserveOut ≤ amountOutOf fee a' reserveIn reserveOut := by
  -- cross-multiplied, the terms in `a * a'` cancel and `a ≤ a'` is left
  set f := 1000 - fee
  have hd : 0 < reserveIn * 1000 + a * f := by positivity
  have hd' : 0 < reserveIn * 1000 + a' * f := by positivity
  have hcross : a * f * reserveOut * (reserveIn * 1000 + a' * f) ≤ a' * f * reserveOut * (reserveIn * 1000 + a * f) := by
    have hle : a * f * reserveOut * (reserveIn * 1000) ≤ a' * f * reserveOut * (reserveIn * 1000) :=
      Nat.mul_le_mul_right _ (Nat.mul_le_mul_right _ (Nat.mul_le_mul_right _ ha))
    calc a * f * reserveOut * (reserveIn * 1000 + a' * f)
        = a * f * reserveOut * (reserveIn * 1000) + a * f * reserveOut * (a' * f) := by ring
      _ ≤ a' * f * reserveOut * (reserveIn * 1000) + a * f * reserveOut * (a' * f) := by omega
      _ = a' * f * reserveOut * (reserveIn * 1000 + a * f) := by ring
  unfold amountOutOf
  rw [Nat.le_div_iff_mul_le hd']
  have hq := Nat.div_mul_le_self (a * f * reserveOut) (reserveIn * 1000 + a * f)
  refine Nat.le_of_mul_le_mul_right ?_ hd
  calc a * f * reserveOut / (reserveIn * 1000 + a * f) * (reserveIn * 1000 + a' * f) * (reserveIn * 1000 + a * f)
      = a * f * reserveOut / (reserveIn * 1000 + a * f) * (reserveIn * 1000 + a * f) * (reserveIn * 1000 + a' * f) := by
        ring
    _ ≤ a * f * reserveOut * (reserveIn * 1000 + a' * f) := Nat.mul_le_mul_right _ hq
    _ ≤ a' * f * reserveOut * (reserveIn * 1000 + a * f) := hcross

theorem le_amountOutOf_amountInOf (hfee : fee < 1000) (hin : 0 < reserveIn) (hb : b < reserveOut) :
    b ≤ amountOutOf fee (amountInOf fee b reserveIn reserveOut) reserveIn reserveOut := by
  have hd : 0 < (reserveOut - b) * (1000 - fee) := Nat.mul_pos (by omega) (by omega)
  rw [le_amountOutOf_iff hin hb.le, amountInOf]
  have := Nat.lt_div_mul_add (a := reserveIn * b * 1000) hd
  rw [Nat.add_mul, Nat.one_mul]
  exact this.le

theorem amountInOf_le_succ (hin : 0 < reserveIn) (hb : b < reserveOut)
    (h : b ≤ amountOutOf fee x0 reserveIn reserveOut) : amountInOf fee b reserveIn reserveOut ≤ x0 + 1 := by
  rw [le_amountOutOf_iff hin hb.le] at h
  rw [amountInOf, Nat.add_le_add_iff_right]
  exact Nat.div_le_of_le_mul (h.trans_eq (Nat.mul_comm _ _))

end Naturals

/-! ## The prices of the code -/

section Code

variable {cfg} {amountIn amountOut reserveIn reserveOut x y : UInt64}

theorem checkedMul128_eq {a b : ℕ} (h : a * b < 2 ^ 128) : checkedMul128 a b = some (a * b) := if_pos h

theorem checkedAdd128_eq {a b : ℕ} (h : a + b < 2 ^ 128) : checkedAdd128 a b = some (a + b) := if_pos h

theorem toAmount_ok {r : Option ℕ} {v : UInt64} (h : toAmount r = .ok v) : ∃ n, r = some n ∧ v.toNat = n := by
  cases r with
  | none => cases h
  | some n =>
    simp only [toAmount] at h
    split_ifs at h with hn
    cases h
    exact ⟨n, rfl, by rw [UInt64.toNat_ofNat']; exact Nat.mod_eq_of_lt hn⟩

theorem getAmountOut_eq (hin : reserveIn ≠ 0) (hout : reserveOut ≠ 0) :
    getAmountOut cfg amountIn reserveIn reserveOut =
      if amountIn.toNat * (1000 - cfg.lpFee) * reserveOut.toNat < 2 ^ 128 then
        .ok (UInt64.ofNat (amountOutOf cfg.lpFee amountIn.toNat reserveIn.toNat reserveOut.toNat))
      else .error .overflow := by
  have hin' : 0 < reserveIn.toNat := Nat.pos_of_ne_zero fun h => hin (UInt64.toNat_inj.mp h)
  have hout' : 0 < reserveOut.toNat := Nat.pos_of_ne_zero fun h => hout (UInt64.toNat_inj.mp h)
  have hr := reserveIn.toNat_lt
  have ha := amountIn.toNat_lt
  have hsum : reserveIn.toNat * 1000 + amountIn.toNat * (1000 - cfg.lpFee) < 2 ^ 128 := by
    have := Nat.mul_le_mul_left amountIn.toNat (Nat.sub_le 1000 cfg.lpFee)
    omega
  have hmul : reserveIn.toNat * 1000 < 2 ^ 128 := lt_of_le_of_lt (Nat.le_add_right _ _) hsum
  have hpos : reserveIn.toNat * 1000 + amountIn.toNat * (1000 - cfg.lpFee) ≠ 0 := by positivity
  rw [getAmountOut, if_neg (by tauto)]
  split_ifs with hfit
  · have hfee : amountIn.toNat * (1000 - cfg.lpFee) < 2 ^ 128 :=
      lt_of_le_of_lt (Nat.le_mul_of_pos_right _ hout') hfit
    have hlt : amountOutOf cfg.lpFee amountIn.toNat reserveIn.toNat reserveOut.toNat < 2 ^ 64 :=
      lt_trans (amountOutOf_lt hin' hout') reserveOut.toNat_lt
    simp only [Option.bind_eq_bind, checkedMul128_eq hfee, checkedMul128_eq hfit, checkedMul128_eq hmul,
      Option.bind_some, checkedAdd128_eq hsum, checkedDiv128, if_neg hpos, toAmount]
    exact if_pos hlt
  · -- the numerator leaves `u128`, at its first product or at its second
    by_cases hfee : amountIn.toNat * (1000 - cfg.lpFee) < 2 ^ 128
    · simp only [Option.bind_eq_bind, checkedMul128, hfee, hfit, if_true, if_false, Option.bind_some,
        Option.bind_none, toAmount]
    · simp only [Option.bind_eq_bind, checkedMul128, hfee, if_false, Option.bind_none, toAmount]

theorem getAmountOut_ok (h : getAmountOut cfg amountIn reserveIn reserveOut = .ok y) :
    reserveIn ≠ 0 ∧ reserveOut ≠ 0 ∧ y.toNat = amountOutOf cfg.lpFee amountIn.toNat reserveIn.toNat reserveOut.toNat := by
  by_cases h0 : reserveIn = 0 ∨ reserveOut = 0
  · rw [getAmountOut, if_pos h0] at h
    cases h
  have hin : reserveIn ≠ 0 := fun h' => h0 (.inl h')
  have hout : reserveOut ≠ 0 := fun h' => h0 (.inr h')
  rw [getAmountOut_eq hin hout] at h
  split_ifs at h
  cases h
  refine ⟨hin, hout, ?_⟩
  rw [UInt64.toNat_ofNat']
  exact Nat.mod_eq_of_lt (lt_trans (amountOutOf_lt (Nat.pos_of_ne_zero fun h => hin (UInt64.toNat_inj.mp h))
    (Nat.pos_of_ne_zero fun h => hout (UInt64.toNat_inj.mp h))) reserveOut.toNat_lt)

theorem getAmountIn_ok (h : getAmountIn cfg amountOut reserveIn reserveOut = .ok x) :
    reserveIn ≠ 0 ∧ reserveOut ≠ 0 ∧ amountOut < reserveOut ∧
      x.toNat = amountInOf cfg.lpFee amountOut.toNat reserveIn.toNat reserveOut.toNat := by
  unfold getAmountIn at h
  split_ifs at h with h0 hle
  obtain ⟨n, hn, hx⟩ := toAmount_ok h
  rw [hx]
  refine ⟨fun h' => h0 (.inl h'), fun h' => h0 (.inr h'), UInt64.not_le.mp hle, ?_⟩
  simp only [Option.bind_eq_bind, Option.bind_eq_some_iff, checkedMul128, checkedAdd128, checkedSub128,
    checkedDiv128, Option.ite_none_right_eq_some, Option.ite_none_left_eq_some, Option.some.injEq] at hn
  obtain ⟨_, ⟨_, ⟨-, rfl⟩, -, rfl⟩, _, ⟨_, ⟨-, rfl⟩, -, rfl⟩, _, ⟨-, rfl⟩, -, rfl⟩ := hn
  rfl

theorem getAmountOut_of_le (hin : reserveIn ≠ 0) (hout : reserveOut ≠ 0) (hbound : reserveOut.toNat ≤ 2 ^ 54) :
    getAmountOut cfg amountIn reserveIn reserveOut =
      .ok (UInt64.ofNat (amountOutOf cfg.lpFee amountIn.toNat reserveIn.toNat reserveOut.toNat)) := by
  rw [getAmountOut_eq hin hout, if_pos]
  have ha := amountIn.toNat_lt
  have hfee : amountIn.toNat * (1000 - cfg.lpFee) ≤ amountIn.toNat * 1024 := Nat.mul_le_mul_left _ (by omega)
  calc amountIn.toNat * (1000 - cfg.lpFee) * reserveOut.toNat ≤ amountIn.toNat * 1024 * 2 ^ 54 :=
        Nat.mul_le_mul hfee hbound
    _ < 2 ^ 64 * 1024 * 2 ^ 54 := Nat.mul_lt_mul_of_pos_right (Nat.mul_lt_mul_of_pos_right ha (by norm_num)) (by norm_num)
    _ = 2 ^ 128 := by norm_num

end Code

/-! ## Paths -/

/-- The amounts along `hops` from `x`, each from the one before by `step`. -/
def scanHops (step : UInt64 → Coin × Coin → Except Error UInt64) :
    UInt64 → List (Coin × Coin) → Except Error (List UInt64)
  | x, [] => .ok [x]
  | x, hop :: hops => (step x hop).bind fun y => (scanHops step y hops).map (x :: ·)

/-- The amounts along `hops` into `x` at their end, each from the one after it by `step`. -/
def scanHopsBack (step : UInt64 → Coin × Coin → Except Error UInt64) (x : UInt64) :
    List (Coin × Coin) → Except Error (List UInt64)
  | [] => .ok [x]
  | hop :: hops => (scanHopsBack step x hops).bind fun amounts => (step (amounts.headD x) hop).map (· :: amounts)

section Paths

variable {cfg} {poolBalance : Coin → Coin → UInt64}

theorem foldlM_push (step : UInt64 → Coin × Coin → Except Error UInt64) (d : UInt64) :
    ∀ (hops : List (Coin × Coin)) (acc : List UInt64) (x : UInt64),
      hops.foldlM (fun amounts coins => (step (amounts.getLastD d) coins).map (amounts ++ [·])) (acc ++ [x]) =
        (scanHops step x hops).map (acc ++ ·)
  | [], _, _ => rfl
  | hop :: hops, acc, x => by
    rw [List.foldlM_cons, List.getLastD_concat, scanHops]
    cases step x hop with
    | error e => rfl
    | ok y =>
      have ih := foldlM_push step d hops (acc ++ [x]) y
      simp only [Except.map, bind, Except.bind] at ih ⊢
      rw [ih]
      cases scanHops step y hops <;> simp

theorem getAmountsOut_eq (amountIn : UInt64) (path : List Coin) :
    getAmountsOut cfg poolBalance amountIn path = scanHops (hopOut cfg poolBalance) amountIn (path.zip path.tail) := by
  have h := foldlM_push (hopOut cfg poolBalance) amountIn (path.zip path.tail) [] amountIn
  rw [List.nil_append] at h
  rw [getAmountsOut, h]
  cases scanHops (hopOut cfg poolBalance) amountIn (path.zip path.tail) <;> rfl

theorem reverse_headD (l : List UInt64) (d : UInt64) : l.reverse.headD d = l.getLastD d := by
  rw [List.headD_eq_head?_getD, List.head?_reverse, List.getLastD_eq_getLast?]

theorem foldrM_push (step : UInt64 → Coin × Coin → Except Error UInt64) (d : UInt64) :
    ∀ hops : List (Coin × Coin),
      (hops.foldrM (fun coins amounts => (step (amounts.getLastD d) coins).map (amounts ++ [·])) [d]).map
        List.reverse = scanHopsBack step d hops
  | [] => rfl
  | hop :: hops => by
    rw [List.foldrM_cons, scanHopsBack, ← foldrM_push step d hops]
    -- the loop keeps the amounts reversed: its last is the head of `scanHopsBack`'s
    cases hf : hops.foldrM (fun coins amounts => (step (amounts.getLastD d) coins).map (amounts ++ [·])) [d] with
    | error e => rfl
    | ok acc =>
      simp only [bind, Except.bind, Except.map, reverse_headD]
      cases step (acc.getLastD d) hop <;> simp

theorem getAmountsIn_eq (amountOut : UInt64) (path : List Coin) :
    getAmountsIn cfg poolBalance amountOut path = scanHopsBack (hopIn cfg poolBalance) amountOut (path.zip path.tail) := by
  rw [getAmountsIn, List.foldlM_reverse]
  exact foldrM_push _ _ _

theorem getReserves_ok {coin1 coin2 : Coin} {reserves : UInt64 × UInt64}
    (h : getReserves poolBalance coin1 coin2 = .ok reserves) :
    ∃ pool, reserves = (poolBalance pool coin1, poolBalance pool coin2) ∧ reserves.1 ≠ 0 ∧ reserves.2 ≠ 0 := by
  unfold getReserves at h
  cases hpool : getPoolId coin1 coin2 with
  | error e => rw [hpool] at h; cases h
  | ok pool =>
    rw [hpool] at h
    simp only [Except.bind] at h
    split_ifs at h with h0
    cases h
    exact ⟨pool, rfl, fun h' => h0 (.inl h'), fun h' => h0 (.inr h')⟩

theorem hopOut_of_hopIn (hbound : ∀ pool coin, (poolBalance pool coin).toNat ≤ 2 ^ 54) {hop : Coin × Coin}
    {y x x' : UInt64} (h : hopIn cfg poolBalance y hop = .ok x) (hx : x ≤ x') :
    ∃ y', hopOut cfg poolBalance x' hop = .ok y' ∧ y ≤ y' := by
  obtain ⟨reserves, hres, hin⟩ := except_bind_ok h
  obtain ⟨pool, rfl, hr1, hr2⟩ := getReserves_ok hres
  obtain ⟨-, -, hlt, hxval⟩ := getAmountIn_ok hin
  dsimp only at hr1 hr2 hlt hxval
  have hin' : 0 < (poolBalance pool hop.1).toNat := Nat.pos_of_ne_zero fun h => hr1 (UInt64.toNat_inj.mp h)
  have hout' : 0 < (poolBalance pool hop.2).toNat := Nat.pos_of_ne_zero fun h => hr2 (UInt64.toNat_inj.mp h)
  have hout : getAmountOut cfg x' (poolBalance pool hop.1) (poolBalance pool hop.2) =
      .ok (UInt64.ofNat (amountOutOf cfg.lpFee x'.toNat (poolBalance pool hop.1).toNat (poolBalance pool hop.2).toNat)) :=
    getAmountOut_of_le hr1 hr2 (hbound pool hop.2)
  refine ⟨_, by rw [hopOut, hres]; exact hout, ?_⟩
  -- the quote is reached from `x`, and the price grows with the input
  have hreach : y.toNat ≤ amountOutOf cfg.lpFee x.toNat (poolBalance pool hop.1).toNat (poolBalance pool hop.2).toNat := by
    rw [hxval]
    exact le_amountOutOf_amountInOf cfg.lpFee_lt hin' (UInt64.lt_iff_toNat_lt.mp hlt)
  have hmono : amountOutOf cfg.lpFee x.toNat (poolBalance pool hop.1).toNat (poolBalance pool hop.2).toNat ≤
      amountOutOf cfg.lpFee x'.toNat (poolBalance pool hop.1).toNat (poolBalance pool hop.2).toNat :=
    amountOutOf_mono (UInt64.le_iff_toNat_le.mp hx) hin'
  rw [UInt64.le_iff_toNat_le, UInt64.toNat_ofNat', Nat.mod_eq_of_lt
    (lt_trans (amountOutOf_lt hin' hout') (poolBalance pool hop.2).toNat_lt)]
  exact hreach.trans hmono

theorem scanHops_dominate (hbound : ∀ pool coin, (poolBalance pool coin).toNat ≤ 2 ^ 54) (amountOut : UInt64) :
    ∀ (hops : List (Coin × Coin)) (xs : List UInt64), scanHopsBack (hopIn cfg poolBalance) amountOut hops = .ok xs →
      ∀ x', xs.headD amountOut ≤ x' → ∃ ys, scanHops (hopOut cfg poolBalance) x' hops = .ok ys ∧
        List.Forall₂ (· ≤ ·) xs ys
  | [], xs, h, x', hx => by
    cases h
    exact ⟨[x'], rfl, List.Forall₂.cons hx List.Forall₂.nil⟩
  | hop :: hops, xs, h, x', hx => by
    obtain ⟨amounts, hamounts, hstep⟩ := except_bind_ok h
    cases hin : hopIn cfg poolBalance (amounts.headD amountOut) hop with
    | error e => rw [hin] at hstep; cases hstep
    | ok x0 =>
      rw [hin] at hstep
      cases hstep
      obtain ⟨y', hy', hle⟩ := hopOut_of_hopIn hbound hin hx
      obtain ⟨ys, hys, hall⟩ := scanHops_dominate hbound amountOut hops amounts hamounts y' hle
      refine ⟨x' :: ys, ?_, List.Forall₂.cons hx hall⟩
      rw [scanHops, hy']
      simp only [Except.bind, hys]
      rfl

theorem scanHopsBack_ne_nil {step : UInt64 → Coin × Coin → Except Error UInt64} {x : UInt64} :
    ∀ {hops : List (Coin × Coin)} {xs : List UInt64}, scanHopsBack step x hops = .ok xs → xs ≠ []
  | [], _, h => by cases h; simp
  | hop :: hops, xs, h => by
    obtain ⟨amounts, -, hstep⟩ := except_bind_ok h
    cases hs : step (amounts.headD x) hop with
    | error e => rw [hs] at hstep; cases hstep
    | ok y => rw [hs] at hstep; cases hstep; simp

end Paths

/-! ## Exact-out and exact-in prices -/

/-- The exact-out and the exact-in prices agree, where `get_amount_out` does not overflow:
    the exact-in price of an exact-out price `x` reaches the amount asked for, and it is
    returned whenever `x * (1000 - LPFee) * reserve_out` fits `u128`; `x` is at most one
    more than any input whose exact-in price reaches the amount; the exact-in price grows
    with the input and stays below the reserve; and along every path whose pools hold at
    most `2 ^ 54` of each coin, executing from the first amount `get_amounts_in` quotes
    yields at least the quoted amount at every hop. -/
theorem exact_in_out_prices_agree (cfg : Config) (poolBalance : Coin → Coin → UInt64) :
    (∀ amountOut reserveIn reserveOut x : UInt64, getAmountIn cfg amountOut reserveIn reserveOut = .ok x →
      (∀ y, getAmountOut cfg x reserveIn reserveOut = .ok y → amountOut ≤ y) ∧
      (x.toNat * (1000 - cfg.lpFee) * reserveOut.toNat < 2 ^ 128 →
        ∃ y, getAmountOut cfg x reserveIn reserveOut = .ok y) ∧
      (∀ x0 y0, getAmountOut cfg x0 reserveIn reserveOut = .ok y0 → amountOut ≤ y0 → x.toNat ≤ x0.toNat + 1)) ∧
    (∀ amountIn amountIn' reserveIn reserveOut y y' : UInt64, amountIn ≤ amountIn' →
      getAmountOut cfg amountIn reserveIn reserveOut = .ok y →
      getAmountOut cfg amountIn' reserveIn reserveOut = .ok y' → y ≤ y' ∧ y' < reserveOut) ∧
    (∀ (amountOut : UInt64) (path : List Coin) (xs : List UInt64),
      (∀ pool coin, (poolBalance pool coin).toNat ≤ 2 ^ 54) →
      getAmountsIn cfg poolBalance amountOut path = .ok xs →
      ∃ ys, getAmountsOut cfg poolBalance (xs.headD 0) path = .ok ys ∧ List.Forall₂ (· ≤ ·) xs ys) := by
  refine ⟨fun amountOut reserveIn reserveOut x hx => ?_, fun amountIn amountIn' reserveIn reserveOut y y' hle hy hy' => ?_,
    fun amountOut path xs hbound hxs => ?_⟩
  · obtain ⟨hin, hout, hlt, hxval⟩ := getAmountIn_ok hx
    have hin' : 0 < reserveIn.toNat := Nat.pos_of_ne_zero fun h => hin (UInt64.toNat_inj.mp h)
    have hlt' := UInt64.lt_iff_toNat_lt.mp hlt
    refine ⟨fun y hy => ?_, fun hfit => ⟨_, getAmountOut_eq hin hout ▸ if_pos hfit⟩, fun x0 y0 hy0 hle => ?_⟩
    · obtain ⟨-, -, hyval⟩ := getAmountOut_ok hy
      rw [UInt64.le_iff_toNat_le, hyval, hxval]
      exact le_amountOutOf_amountInOf cfg.lpFee_lt hin' hlt'
    · obtain ⟨-, -, hyval⟩ := getAmountOut_ok hy0
      rw [hxval]
      exact amountInOf_le_succ hin' hlt' (hyval ▸ UInt64.le_iff_toNat_le.mp hle)
  · obtain ⟨hin, hout, hyval⟩ := getAmountOut_ok hy
    obtain ⟨-, -, hyval'⟩ := getAmountOut_ok hy'
    have hin' : 0 < reserveIn.toNat := Nat.pos_of_ne_zero fun h => hin (UInt64.toNat_inj.mp h)
    have hout' : 0 < reserveOut.toNat := Nat.pos_of_ne_zero fun h => hout (UInt64.toNat_inj.mp h)
    refine ⟨?_, ?_⟩
    · rw [UInt64.le_iff_toNat_le, hyval, hyval']
      exact amountOutOf_mono (UInt64.le_iff_toNat_le.mp hle) hin'
    · rw [UInt64.lt_iff_toNat_lt, hyval']
      exact amountOutOf_lt hin' hout'
  · rw [getAmountsIn_eq] at hxs
    obtain ⟨x0, rest, rfl⟩ := List.exists_cons_of_ne_nil (scanHopsBack_ne_nil hxs)
    rw [getAmountsOut_eq]
    exact scanHops_dominate hbound amountOut _ _ hxs x0 (UInt64.le_iff_toNat_le.mpr (Nat.le_refl _))

/-- Past `2 ^ 54`, the exact-in price of an exact-out price can overflow: with the runtime's
    fee, one unit of SRI against `2 ^ 63` of a coin, and `2 ^ 63 - 1` of the coin asked for,
    `get_amount_in` quotes an input whose `get_amount_out` fails with `Overflow`. -/
theorem exact_out_overflows :
    getAmountIn Config.runtime 9223372036854775807 1 9223372036854775808 = .ok 9251125413094057981 ∧
      getAmountOut Config.runtime 9251125413094057981 1 9223372036854775808 = .error .overflow := by
  decide

end Serai.Dex
