import Serai.Coins.Pallet
import Serai.Lib.Ledger
/-
  Serai.Coins.Supply — coin conservation over both instances of the coins pallet (`Coins`
  and `LiquidityTokens`, substrate/runtime).

  The runtime changes coin storage through the primitives of the two instances only. A
  dispatchable (a coins call, a DEX call, `allocate`, `deallocate`, `claim_deallocation`,
  `execute_batch`) and an in-instruction's `#[transactional] execute` run in a storage
  layer: whatever they compute, they are a program of primitive calls (`Op`) whose error
  discards the layer's writes. The fee hooks of `OnChargeTransaction` and the slash's
  `Coins::burn(..).unwrap()` run outside one; `on_initialize` burns the fees with an
  `unwrap`, and a genesis `mint` that fails panics, so neither leaves a state behind.
  The per-account balances of a coin live on a `Fintype` of accounts (`Public` is 32
  bytes), so every coin's total is a finite sum.

  Proved (`coin_conservation`): in every reachable state, for both instances and every
  coin, `Supply` is the sum of the balances; so `increase_balance_internal` never
  overflows inside `transfer_internal`, `burn_internal`'s `unwrap` never panics and
  `on_initialize` always succeeds. The step lemmas: each primitive that succeeds keeps
  the sum (`conserved_of_*`), a transfer that fails does so before writing
  (`transfer_error_unchanged`), and a burn fails only for want of balance
  (`burn_error_not_panic`).
-/

namespace Serai.Coins

open Serai.Lib

variable {K : Type} [Fintype K] [DecidableEq K]

/-! ## The sum of a coin's balances -/

/-- The sum of every account's balance of `c`. -/
def total (s : St K) (c : Coin) : ℕ := ∑ a, (s.balances (a, c)).toNat

/-- `Supply[c]` is the sum of every account's balance of `c`, for every coin. -/
def Conserved (s : St K) : Prop := ∀ c, (s.supply c).toNat = total s c

theorem total_setBalance_same (s : St K) (who : K) (c : Coin) (v : UInt64) :
    total (setBalance s who c v) c + (s.balances (who, c)).toNat = total s c + v.toNat := by
  have hf : (fun a => ((setBalance s who c v).balances (a, c)).toNat) =
      Function.update (fun a => (s.balances (a, c)).toNat) who v.toNat := by
    funext a
    by_cases ha : a = who
    · subst ha; simp [setBalance]
    · simp [setBalance, ha]
  unfold total
  rw [hf]
  exact sum_update_add (fun a => (s.balances (a, c)).toNat) who v.toNat

theorem total_setBalance_other (s : St K) (who : K) {c c' : Coin} (h : c' ≠ c) (v : UInt64) :
    total (setBalance s who c' v) c = total s c := by
  unfold total setBalance
  congr 1
  funext a
  have : (a, c) ≠ (who, c') := fun e => h (Prod.mk.inj e).2.symm
  simp [this]

omit [DecidableEq K] in
@[simp] theorem total_setSupply (s : St K) (c c' : Coin) (w : UInt64) : total (setSupply s c w) c' = total s c' := rfl

omit [DecidableEq K] in
theorem balance_le_total (s : St K) (a : K) (c : Coin) : (s.balances (a, c)).toNat ≤ total s c :=
  le_sum (fun a => (s.balances (a, c)).toNat) a

theorem balances_le_total (s : St K) {a b : K} (h : a ≠ b) (c : Coin) :
    (s.balances (a, c)).toNat + (s.balances (b, c)).toNat ≤ total s c :=
  add_le_sum (fun a => (s.balances (a, c)).toNat) h

/-! ## Each primitive keeps the sum -/

variable {s s' : St K} {from' to' : K} {b : Balance}

theorem conserved_setBalance_setSupply (hs : Conserved s) {v w : UInt64}
    (hsum : (v.toNat + (s.supply b.coin).toNat = (s.balances (from', b.coin)).toNat + (w.toNat))) :
    Conserved (setSupply (setBalance s from' b.coin v) b.coin w) := by
  intro c
  rw [total_setSupply]
  by_cases hc : c = b.coin
  · subst hc
    have := total_setBalance_same s from' b.coin v
    have := hs b.coin
    simp only [setSupply, Function.update_self]
    omega
  · simp only [setSupply, Function.update_of_ne hc, setBalance_supply]
    rw [total_setBalance_other s from' (Ne.symm hc)]
    exact hs c

theorem conserved_of_transfer (hs : Conserved s) (h : transferInternal from' to' b s = .ok () s') :
    Conserved s' := by
  rw [transfer_eq] at h
  cases hv : checkedSub (s.balances (from', b.coin)) b.amount with
  | none => simp [hv] at h
  | some v =>
    cases hw : checkedAdd ((setBalance s from' b.coin v).balances (to', b.coin)) b.amount with
    | none => simp [hv, hw] at h
    | some w =>
      simp only [hv, hw, EStateM.Result.ok.injEq, true_and] at h
      subst h
      have h1 := checkedSub_eq_some hv
      have h2 := checkedAdd_eq_some hw
      have e1 := total_setBalance_same s from' b.coin v
      have e2 := total_setBalance_same (setBalance s from' b.coin v) to' b.coin w
      intro c
      by_cases hc : c = b.coin
      · subst hc
        have := hs b.coin
        simp only [setBalance_supply]
        omega
      · simp only [setBalance_supply]
        rw [total_setBalance_other _ _ (Ne.symm hc), total_setBalance_other _ _ (Ne.symm hc)]
        exact hs c

theorem conserved_of_mint (hs : Conserved s) {allowMint : Balance → Bool}
    (h : mint allowMint to' b s = .ok () s') : Conserved s' := by
  rw [mint_eq] at h
  split at h
  · cases h
  · cases hv : checkedAdd (s.balances (to', b.coin)) b.amount with
    | none => simp [hv] at h
    | some v =>
      cases hw : checkedAdd (s.supply b.coin) b.amount with
      | none => simp [hv, hw] at h
      | some w =>
        simp only [hv, hw, EStateM.Result.ok.injEq, true_and] at h
        subst h
        have := checkedAdd_eq_some hv
        have := checkedAdd_eq_some hw
        exact conserved_setBalance_setSupply hs (by omega)

theorem conserved_of_burn (hs : Conserved s) (h : burnInternal from' b s = .ok () s') : Conserved s' := by
  rw [burn_eq] at h
  split at h
  · cases h; exact hs
  · cases hv : checkedSub (s.balances (from', b.coin)) b.amount with
    | none => simp [hv] at h
    | some v =>
      cases hw : checkedSub (s.supply b.coin) b.amount with
      | none => simp [hv, hw] at h
      | some w =>
        simp only [hv, hw, EStateM.Result.ok.injEq, true_and] at h
        subst h
        have := checkedSub_eq_some hv
        have := checkedSub_eq_some hw
        exact conserved_setBalance_setSupply hs (by omega)

/-! ## Under the invariant nothing fails halfway -/

theorem transfer_error_unchanged (hs : Conserved s) {e : Fail} (h : transferInternal from' to' b s = .error e s') :
    s' = s ∧ e = .coins .notEnoughCoins := by
  rw [transfer_eq] at h
  cases hv : checkedSub (s.balances (from', b.coin)) b.amount with
  | none =>
    simp only [hv, EStateM.Result.error.injEq] at h
    exact ⟨h.2.symm, h.1.symm⟩
  | some v =>
    cases hw : checkedAdd ((setBalance s from' b.coin v).balances (to', b.coin)) b.amount with
    | some w => simp [hv, hw] at h
    | none =>
      exfalso
      have h1 := checkedSub_eq_some hv
      have h2 := checkedAdd_eq_none.mp hw
      have hsup := (s.supply b.coin).toNat_lt
      have hc := hs b.coin
      by_cases he : to' = from'
      · subst he
        simp only [setBalance, Function.update_self] at h2
        have := (s.balances (to', b.coin)).toNat_lt
        omega
      · have hne : (to', b.coin) ≠ (from', b.coin) := fun e => he (Prod.mk.inj e).1
        simp only [setBalance, Function.update_of_ne hne] at h2
        have := balances_le_total s he b.coin
        omega

theorem burn_error_not_panic (hs : Conserved s) {e : Fail} (h : burnInternal from' b s = .error e s') :
    s' = s ∧ e = .coins .notEnoughCoins := by
  rw [burn_eq] at h
  split at h
  · cases h
  · cases hv : checkedSub (s.balances (from', b.coin)) b.amount with
    | none =>
      simp only [hv, EStateM.Result.error.injEq] at h
      exact ⟨h.2.symm, h.1.symm⟩
    | some v =>
      cases hw : checkedSub (s.supply b.coin) b.amount with
      | some w => simp [hv, hw] at h
      | none =>
        exfalso
        have := checkedSub_eq_some hv
        have := checkedSub_eq_none.mp hw
        have := balance_le_total s from' b.coin
        have := hs b.coin
        omega

theorem onInitialize_ok (feeAccount : K) (hs : Conserved s) :
    ∃ s', onInitialize feeAccount s = .ok () s' ∧ Conserved s' := by
  cases h : burnInternal feeAccount ⟨.serai, balance s feeAccount .serai⟩ s with
  | ok _ s' =>
    refine ⟨s', ?_, conserved_of_burn hs h⟩
    simp [onInitialize, mapErr, bind, EStateM.bind, get, getThe, MonadStateOf.get, EStateM.get, h]
  | error e s' =>
    exfalso
    obtain ⟨-, he⟩ := burn_error_not_panic hs h
    -- the whole balance is there to burn, so only the supply's `unwrap` could fail
    have hle : checkedSub (s.balances (feeAccount, .serai)) (balance s feeAccount .serai) = some 0 := by
      simp [checkedSub, balance]
    rw [burn_eq] at h
    split at h
    · cases h
    · simp only [hle] at h
      split at h
      · cases h; cases he
      · cases h

/-! ## The runtime's two instances -/

inductive Instance where
  | coins
  | liquidityTokens
  deriving DecidableEq, Repr

/-- The storage of both instances. -/
structure World (K : Type) where
  coins : St K
  liquidityTokens : St K

def World.get (w : World K) : Instance → St K
  | .coins => w.coins
  | .liquidityTokens => w.liquidityTokens

def World.set (w : World K) : Instance → St K → World K
  | .coins, s => { w with coins := s }
  | .liquidityTokens, s => { w with liquidityTokens := s }

omit [Fintype K] [DecidableEq K] in
@[simp] theorem World.get_set_self (w : World K) (i : Instance) (s : St K) : (w.set i s).get i = s := by
  cases i <;> rfl

omit [Fintype K] [DecidableEq K] in
@[simp] theorem World.get_set_ne (w : World K) {i j : Instance} (h : i ≠ j) (s : St K) :
    (w.set i s).get j = w.get j := by
  cases i <;> cases j <;> first | rfl | exact absurd rfl h

/-- A call of one instance, on the storage of both. -/
def onInstance {α : Type} (i : Instance) (m : EStateM Fail (St K) α) : EStateM Fail (World K) α := fun w =>
  match m (w.get i) with
  | .ok a s => .ok a (w.set i s)
  | .error e s => .error e (w.set i s)

/-- The coin calls other pallets make: `mint` (the DEX's LP tokens, an in-instruction's
    deposit), `burn` (the DEX's LP tokens, the slash), `burn_with_instruction` (an
    in-instruction's swap out), `transfer_internal` (every transfer), and a check of the
    calling pallet that fails (`ensure!`, `?` on its own errors), which writes nothing. -/
inductive Op (K : Type) where
  | mint (i : Instance) (to' : K) (b : Balance)
  | burn (i : Instance) (origin : Option K) (b : Balance)
  | burnWithInstruction (i : Instance) (origin : Option K) (b : Balance)
  | transfer (i : Instance) (from' to' : K) (b : Balance)
  | fail

/-- What an `Op` does; `allowMint` is each instance's `AllowMint` at the call. -/
def exec (allowMint : Instance → Balance → Bool) : Op K → EStateM Fail (World K) Unit
  | .mint i to' b => onInstance i (mint (allowMint i) to' b)
  | .burn i origin b => onInstance i (burn origin b)
  | .burnWithInstruction i origin b => onInstance i (burnWithInstruction (i = .liquidityTokens) origin b)
  | .transfer i from' to' b => onInstance i (transferInternal from' to' b)
  | .fail => throw .other

/-- Both instances keep their sums. -/
def WConserved (w : World K) : Prop := ∀ i, Conserved (w.get i)

omit [DecidableEq K] in
theorem wconserved_set {w : World K} (hw : WConserved w) {i : Instance} {s : St K} (hs : Conserved s) :
    WConserved (w.set i s) := by
  intro j
  by_cases h : i = j
  · subst h; simpa using hs
  · rw [World.get_set_ne w h]; exact hw j

omit [Fintype K] [DecidableEq K] in
theorem onInstance_ok {α : Type} {i : Instance} {m : EStateM Fail (St K) α} {w w' : World K} {a : α}
    (h : onInstance i m w = .ok a w') : ∃ s', m (w.get i) = .ok a s' ∧ w' = w.set i s' := by
  unfold onInstance at h
  split at h
  · rename_i s' hm
    cases h
    exact ⟨s', hm, rfl⟩
  · cases h

omit [Fintype K] in
theorem burn_call_ok {origin : Option K} (h : burn origin b s = .ok () s') :
    ∃ from', burnInternal from' b s = .ok () s' := by
  cases origin with
  | none => cases h
  | some from' => exact ⟨from', h⟩

omit [Fintype K] in
theorem burnWithInstruction_ok {lt : Bool} {origin : Option K} (h : burnWithInstruction lt origin b s = .ok () s') :
    ∃ from', burnInternal from' b s = .ok () s' := by
  unfold burnWithInstruction at h
  by_cases hc : b.coin = .serai
  · simp [hc, throw, throwThe, MonadExceptOf.throw, EStateM.throw, bind, EStateM.bind] at h
  · cases lt
    · simp only [hc, if_false, Bool.false_eq_true, bind, EStateM.bind] at h
      exact burn_call_ok h
    · simp [hc, throw, throwThe, MonadExceptOf.throw, EStateM.throw, bind, EStateM.bind] at h

theorem exec_okClosed (allowMint : Instance → Balance → Bool) : OkClosed (exec allowMint) (WConserved (K := K)) := by
  intro o w w' hw h
  cases o with
  | mint i to' b =>
    obtain ⟨s', hm, rfl⟩ := onInstance_ok h
    exact wconserved_set hw (conserved_of_mint (hw i) hm)
  | burn i origin b =>
    obtain ⟨s', hm, rfl⟩ := onInstance_ok h
    obtain ⟨from', hb⟩ := burn_call_ok hm
    exact wconserved_set hw (conserved_of_burn (hw i) hb)
  | burnWithInstruction i origin b =>
    obtain ⟨s', hm, rfl⟩ := onInstance_ok h
    obtain ⟨from', hb⟩ := burnWithInstruction_ok hm
    exact wconserved_set hw (conserved_of_burn (hw i) hb)
  | transfer i from' to' b =>
    obtain ⟨s', hm, rfl⟩ := onInstance_ok h
    exact wconserved_set hw (conserved_of_transfer (hw i) hm)
  | fail => cases h

/-! ## Calls outside a layer -/

omit [Fintype K] [DecidableEq K] in
theorem state_onInstance {α : Type} (i : Instance) (m : EStateM Fail (St K) α) (w : World K) :
    state (onInstance i m w) = w.set i (state (m (w.get i))) := by
  unfold onInstance
  split <;> rename_i h <;> simp [state, h]

omit [Fintype K] [DecidableEq K] in
theorem state_mapErr {α : Type} (m : EStateM Fail (St K) α) (f : Fail) (s : St K) :
    state (mapErr m f s) = state (m s) := by
  unfold mapErr
  split <;> rename_i h <;> simp [state, h]

theorem transfer_state_conserved (hs : Conserved s) (from' to' : K) (b : Balance) :
    Conserved (state (transferInternal from' to' b s)) := by
  cases h : transferInternal from' to' b s with
  | ok _ s' => exact conserved_of_transfer hs h
  | error e s' =>
    obtain ⟨rfl, -⟩ := transfer_error_unchanged hs h
    exact hs

theorem withdrawFee_conserved (feeAccount who : K) (fee : UInt64) (hs : Conserved s) :
    Conserved (state (withdrawFee feeAccount who fee s)) := by
  unfold withdrawFee
  by_cases h0 : fee = 0
  · simp [h0, pure, EStateM.pure, state, hs]
  · simp only [h0, if_false, bind, EStateM.bind, pure, EStateM.pure]
    have := transfer_state_conserved hs who feeAccount ⟨.serai, fee⟩
    rw [← state_mapErr _ .payment] at this
    split <;> rename_i h <;> rw [h] at this <;> exact this

theorem correctAndDepositFee_conserved (feeAccount who : K) (corrected : UInt64) (already : Option UInt64)
    (hs : Conserved s) : Conserved (state (correctAndDepositFee feeAccount who corrected already s)) := by
  cases already with
  | none => exact hs
  | some paid =>
    simp only [correctAndDepositFee, state_mapErr]
    exact transfer_state_conserved hs feeAccount who _

/-! ## Runs -/

/-- Storage before genesis: nothing written. -/
def St.empty : St K := ⟨fun _ => 0, fun _ => 0⟩

/-- The runtime's moves on coin storage. -/
inductive Step (feeAccount : K) : World K → World K → Prop
  /-- A dispatchable or a `#[transactional]` in-instruction: coin calls in a storage layer. -/
  | dispatch (allowMint : Instance → Balance → Bool) (w : World K) (p : Prog (Op K)) :
      Step feeAccount w (state ((Prog.layer p).run (exec allowMint) w))
  | withdrawFee (w : World K) (who : K) (fee : UInt64) :
      Step feeAccount w (state (onInstance .coins (withdrawFee feeAccount who fee) w))
  | correctAndDepositFee (w : World K) (who : K) (corrected : UInt64) (already : Option UInt64) :
      Step feeAccount w (state (onInstance .coins (correctAndDepositFee feeAccount who corrected already) w))
  /-- `on_initialize`; its `unwrap` panicking would leave no block. -/
  | onInitialize (w w' : World K) : onInstance .coins (onInitialize feeAccount) w = .ok () w' → Step feeAccount w w'
  /-- A `Coins::burn(..).unwrap()` outside a layer (`slash_serai_validator`). -/
  | burn (w w' : World K) (origin : Option K) (b : Balance) :
      onInstance .coins (burn origin b) w = .ok () w' → Step feeAccount w w'

inductive Reach (feeAccount : K) : World K → Prop
  /-- Both instances' genesis builds, on empty storage; a failed `unwrap` leaves no chain. -/
  | genesis (allowMint : Instance → Balance → Bool) (accounts lpAccounts : List (K × Balance)) (c l : St K) :
      genesisBuild (allowMint .coins) accounts St.empty = .ok () c →
      genesisBuild (allowMint .liquidityTokens) lpAccounts St.empty = .ok () l → Reach feeAccount ⟨c, l⟩
  | step {w w' : World K} : Reach feeAccount w → Step feeAccount w w' → Reach feeAccount w'

/-- No balance and no supply: the storage before genesis, kept by the supply loop. -/
def Blank (s : St K) : Prop := (∀ p, s.balances p = 0) ∧ (∀ c, s.supply c = 0)

omit [Fintype K] [DecidableEq K] in
theorem genesis_supplies :
    ∀ (l : List Coin) (s s' : St K), Blank s →
      l.forM (fun c => (modify fun s => setSupply s c 0 : EStateM Fail (St K) PUnit)) s = .ok ⟨⟩ s' → Blank s' := by
  refine forM_ok_inv Blank _ (fun c s s' hs h => ?_)
  obtain ⟨hb, hsup⟩ := hs
  cases h
  refine ⟨hb, fun c' => ?_⟩
  by_cases hc : c' = c
  · subst hc; simp [setSupply]
  · simp [setSupply, Function.update_of_ne hc, hsup c']

theorem genesis_conserved {allowMint : Balance → Bool} {accounts : List (K × Balance)} {s : St K}
    (h : genesisBuild allowMint accounts St.empty = .ok () s) : Conserved s := by
  simp only [genesisBuild, bind, EStateM.bind] at h
  split at h
  · rename_i s1 h1
    -- the supplies are set to 0 on storage with no balance
    obtain ⟨hb, hsup⟩ := genesis_supplies coins St.empty s1 ⟨fun _ => rfl, fun _ => rfl⟩ h1
    have h0 : Conserved s1 := fun c => by simp [total, hb, hsup c]
    refine forM_ok_inv (P := Conserved) _ (fun x s s' hs hx => ?_) accounts s1 s h0 h
    have hm : mint allowMint x.1 x.2 s = .ok () s' := by
      simp only [mapErr] at hx
      split at hx
      · cases hx; assumption
      · cases hx
    exact conserved_of_mint hs hm
  · cases h

theorem step_wconserved {feeAccount : K} {w w' : World K} (hw : WConserved w) (h : Step feeAccount w w') :
    WConserved w' := by
  cases h with
  | dispatch allowMint _ p => exact layer_inv _ _ (exec_okClosed allowMint) p hw
  | withdrawFee _ who fee =>
    rw [state_onInstance]
    exact wconserved_set hw (withdrawFee_conserved feeAccount who fee (hw .coins))
  | correctAndDepositFee _ who corrected already =>
    rw [state_onInstance]
    exact wconserved_set hw (correctAndDepositFee_conserved feeAccount who corrected already (hw .coins))
  | onInitialize _ _ h =>
    obtain ⟨s', hm, rfl⟩ := onInstance_ok h
    have hb : burnInternal feeAccount ⟨.serai, balance (w.get .coins) feeAccount .serai⟩ (w.get .coins) = .ok () s' := by
      simp only [onInitialize, bind, EStateM.bind, get, getThe, MonadStateOf.get, EStateM.get, mapErr] at hm
      split at hm
      · cases hm; assumption
      · cases hm
    exact wconserved_set hw (conserved_of_burn (hw .coins) hb)
  | burn _ _ origin b h =>
    obtain ⟨s', hm, rfl⟩ := onInstance_ok h
    obtain ⟨from', hb⟩ := burn_call_ok hm
    exact wconserved_set hw (conserved_of_burn (hw .coins) hb)

theorem reach_wconserved {feeAccount : K} {w : World K} (h : Reach feeAccount w) : WConserved w := by
  induction h with
  | genesis allowMint accounts lpAccounts c l hc hl =>
    intro i
    cases i
    · exact genesis_conserved hc
    · exact genesis_conserved hl
  | step _ hs ih => exact step_wconserved ih hs

/-- Coin conservation: in every reachable state, for both instances and every coin, the
    supply is the sum of the balances; a transfer fails only at its decrease, before any
    write, so its raise never overflows; `burn_internal`'s `unwrap` never panics; and
    `on_initialize`'s fee burn succeeds. -/
theorem coin_conservation {feeAccount : K} {w : World K} (h : Reach feeAccount w) :
    (∀ i c, ((w.get i).supply c).toNat = total (w.get i) c) ∧
    (∀ i from' to' b e s', transferInternal from' to' b (w.get i) = .error e s' →
      s' = w.get i ∧ e = .coins .notEnoughCoins) ∧
    (∀ i from' b e s', burnInternal from' b (w.get i) = .error e s' → e ≠ .panic) ∧
    (∃ w', onInstance .coins (onInitialize feeAccount) w = .ok () w') := by
  have hw := reach_wconserved h
  refine ⟨fun i c => hw i c, fun i from' to' b e s' ht => transfer_error_unchanged (hw i) ht,
    fun i from' b e s' hb => ?_, ?_⟩
  · obtain ⟨-, rfl⟩ := burn_error_not_panic (hw i) hb
    exact Fail.noConfusion
  · obtain ⟨s', hs', -⟩ := onInitialize_ok feeAccount (hw .coins)
    refine ⟨w.set .coins s', ?_⟩
    unfold onInstance
    rw [hs']

/-- Genesis with one account holding 5 SRI, under an `AllowMint` that allows everything. -/
def genesisWorld : World Bool :=
  ⟨state (genesisBuild (fun _ => true) [(true, ⟨.serai, 5⟩)] St.empty), state (genesisBuild (fun _ => true) [] St.empty)⟩

/-- One block after `genesisWorld`, each call its own extrinsic: a mint of 3 SRI to `false`,
    a transfer of 2 SRI from `true` to `false`, and a burn of 1 SRI by `false`. -/
def afterCalls : World Bool :=
  let call (o : Op Bool) (w : World Bool) := state ((Prog.layer (.call o)).run (exec fun _ _ => true) w)
  call (.burn .coins (some false) ⟨.serai, 1⟩) (call (.transfer .coins true false ⟨.serai, 2⟩)
    (call (.mint .coins false ⟨.serai, 3⟩) genesisWorld))

theorem afterCalls_conserved :
    Reach false afterCalls ∧ (afterCalls.get .coins).supply .serai = 7 ∧
      (afterCalls.get .coins).balances (true, .serai) = 3 ∧ (afterCalls.get .coins).balances (false, .serai) = 4 ∧
      ∀ i c, ((afterCalls.get i).supply c).toNat = total (afterCalls.get i) c := by
  have hgen : Reach false genesisWorld := .genesis (fun _ _ => true) [(true, ⟨.serai, 5⟩)] [] _ _ rfl rfl
  -- three dispatches, one per call
  have h : Reach false afterCalls := by
    unfold afterCalls
    exact .step (.step (.step hgen (.dispatch _ _ _)) (.dispatch _ _ _)) (.dispatch _ _ _)
  exact ⟨h, by decide, by decide, by decide, (coin_conservation h).1⟩

end Serai.Coins
