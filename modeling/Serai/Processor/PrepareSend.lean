import Serai.Processor.Scheduler
/-
  Serai.Processor.PrepareSend — `Network::prepare_send` (processor/src/networks/mod.rs): the fee
  a plan needs, amortized over its payments, the branch outputs' amounts after it, and the
  transaction for what is left.

  The back-end's `needed_fee` and `signable_transaction` are parameters (`Backend`): the
  results below hold for every back-end. `.sum::<u64>()` is `paymentAmounts`, and the
  subtractions of the change's amount wrap (`wrapSub`).
  - `amortizeClosure_ok`: when the payments cover the fee and the loop ends, the assertion
    holds, the payments kept are those at or above the dust threshold, and every branch
    payment is reported with its amount before and after.
  - When they do not cover it, the closure returns early with every branch reported dropped
    and the payments untouched, and the transaction is then built for them:
    `prepare_send_pays_dropped` (with `prepare_send_pays_dropped_bitcoin`, a branch payment
    of 10000 satoshis and a fee of 20000).
-/

namespace Serai.Processor

/-- `PostFeeBranch`. -/
structure PostFeeBranch where
  expected : ℕ
  actual : Option ℕ
  deriving DecidableEq, Repr

/-- `PreparedSend`. -/
structure PreparedSend (Tx : Type) where
  tx : Option Tx
  postFeeBranches : List PostFeeBranch
  operatingCosts : ℕ

/-- What `prepare_send` asks of a network's back-end: `needed_fee` (`None`: the plan cannot
    be fulfilled) and `signable_transaction` (`None`: no outputs left, or not enough funds). -/
structure Backend (A I Tx : Type) where
  neededFee : List (Output I) → List (Payment A) → Option A → Option ℕ
  signableTransaction : List (Output I) → List (Payment A) → Option A → Option Tx

/-- How `prepare_send` panics, or does not return. -/
inductive SendFailure where
  /-- `assert!((!plan.payments.is_empty()) || plan.change.is_some())` -/
  | noOutputs
  /-- the amortization loop ran out of fuel -/
  | unfinished
  /-- `assert!((new_outputs + total_fee) <= original_outputs)` -/
  | feeNotAmortized
  /-- `signable_transaction` returned `None` for a plan whose fee was found -/
  | signableNone
  deriving DecidableEq, Repr

variable {K A I Tx : Type} [DecidableEq A] (net : Network K A)

/-- `drop_branches`. -/
def dropBranches (key : K) (payments : List (Payment A)) : List PostFeeBranch :=
  (payments.filter fun p => p.address = net.branchAddress key).map fun p => ⟨p.amount, none⟩

/-- The branch payments' amounts before (`initial`) and after amortization, 0 reported as
    `None`. -/
def branchOutputs (key : K) (initial : List ℕ) (payments : List (Payment A)) : List PostFeeBranch :=
  (initial.zip payments).filterMap fun (amount, p) =>
    if p.address = net.branchAddress key then some ⟨amount, if p.amount = 0 then none else some p.amount⟩
    else none

/-- Payments below the dust threshold set to 0. -/
def zeroDust (payments : List (Payment A)) : List (Payment A) :=
  payments.map fun p => if p.amount < net.dust then { p with amount := 0 } else p

/-- The closure amortizing the fee: the branches after it, the operating costs and the
    payments left (the closure's `payments` is the caller's). -/
def amortizeClosure (fuel : ℕ) (key : K) (payments : List (Payment A)) (change : Option A) (txFee operatingCosts : ℕ) :
    Except SendFailure (List PostFeeBranch × ℕ × List (Payment A)) :=
  let totalFee := txFee + if change.isSome then operatingCosts else 0
  let originalOutputs := paymentAmounts payments
  if originalOutputs < totalFee then
    -- "drop and move on": the branches are reported dropped, the payments left as they are
    let remaining := if change.isSome then operatingCosts + txFee - originalOutputs else operatingCosts
    .ok (dropBranches net key payments, remaining, payments)
  else
    match amortizeFee fuel payments totalFee with
    | none => .error .unfinished
    | some amortized =>
      let zeroed := zeroDust net amortized
      let kept := zeroed.filter fun p => p.amount ≠ 0
      if paymentAmounts kept + totalFee ≤ originalOutputs then
        .ok (branchOutputs net key (payments.map (·.amount)) zeroed, if change.isSome then 0 else operatingCosts, kept)
      else .error .feeNotAmortized

/-- `Network::prepare_send`, its amortization loop on fuel. -/
def prepareSend (backend : Backend A I Tx) (fuel : ℕ) (plan : Plan K A I) (operatingCosts : ℕ) :
    Except SendFailure (PreparedSend Tx) :=
  if plan.payments.isEmpty && plan.change.isNone then .error .noOutputs
  else
    let theoreticalChangeAmount := wrapSub (outputAmounts plan.inputs) (paymentAmounts plan.payments)
    match backend.neededFee plan.inputs plan.payments plan.change with
    | none =>
      -- not fulfillable: its branches are dropped and its change becomes an operating cost
      .ok ⟨none, dropBranches net plan.key plan.payments,
        operatingCosts + if plan.change.isSome then theoreticalChangeAmount else 0⟩
    | some txFee =>
      match amortizeClosure net fuel plan.key plan.payments plan.change txFee operatingCosts with
      | .error e => .error e
      | .ok (postFeeBranches, operatingCosts, payments) =>
        match backend.signableTransaction plan.inputs payments plan.change with
        | none => .error .signableNone
        | some tx =>
          -- change below the dust threshold becomes an operating cost
          let onChainExpectedChange := wrapSub (wrapSub (outputAmounts plan.inputs) (paymentAmounts payments)) txFee
          .ok ⟨some tx, postFeeBranches,
            if plan.change.isSome && decide (onChainExpectedChange < net.dust) then
              operatingCosts + theoreticalChangeAmount
            else operatingCosts⟩

/-! ## Amortizing -/

section Amortizing

variable {net}

omit [DecidableEq A] in
theorem sumAmounts_zeroDust_le (payments : List (Payment A)) : sumAmounts (zeroDust net payments) ≤ sumAmounts payments := by
  induction payments with
  | nil => exact le_rfl
  | cons p ps ih =>
    simp only [zeroDust, List.map_cons, sumAmounts_cons] at *
    split
    · dsimp only
      omega
    · omega

omit [DecidableEq A] in
theorem sumAmounts_filter_ne_zero (payments : List (Payment A)) :
    sumAmounts (payments.filter fun p => p.amount ≠ 0) = sumAmounts payments := by
  induction payments with
  | nil => rfl
  | cons p ps ih =>
    rw [List.filter_cons]
    by_cases hp : p.amount = 0
    · rw [if_neg (by simp [hp]), sumAmounts_cons, hp, ih, Nat.zero_add]
    · rw [if_pos (by simp [hp]), sumAmounts_cons, sumAmounts_cons, ih]

omit [DecidableEq A] in
theorem dust_le_of_mem_kept {payments : List (Payment A)} {p : Payment A}
    (hp : p ∈ (zeroDust net payments).filter fun p => p.amount ≠ 0) : net.dust ≤ p.amount := by
  simp only [zeroDust, List.mem_filter, List.mem_map, ne_eq, decide_not, Bool.not_eq_eq_eq_not, Bool.not_true,
    decide_eq_false_iff_not] at hp
  obtain ⟨⟨q, -, rfl⟩, hne⟩ := hp
  split at hne
  · exact absurd rfl hne
  · rename_i hq
    simp only [if_neg hq]
    omega

theorem amortizeClosure_ok {fuel : ℕ} {key : K} {payments amortized : List (Payment A)} {change : Option A}
    {txFee operatingCosts : ℕ} (hsum : sumAmounts payments < 2 ^ 64)
    (hcover : txFee + (if change.isSome then operatingCosts else 0) ≤ paymentAmounts payments)
    (hloop : amortizeFee fuel payments (txFee + if change.isSome then operatingCosts else 0) = some amortized) :
    amortizeClosure net fuel key payments change txFee operatingCosts =
      .ok (branchOutputs net key (payments.map (·.amount)) (zeroDust net amortized),
        (if change.isSome then 0 else operatingCosts), (zeroDust net amortized).filter fun p => p.amount ≠ 0) := by
  have hexact : paymentAmounts payments = sumAmounts payments := Nat.mod_eq_of_lt hsum
  obtain ⟨-, hspec⟩ := amortizeFee_spec hloop
  -- the kept payments are worth what is left after the fee, less what fell under the dust threshold
  have hkept : paymentAmounts ((zeroDust net amortized).filter fun p => p.amount ≠ 0) +
      (txFee + if change.isSome then operatingCosts else 0) ≤ paymentAmounts payments := by
    have hmod : paymentAmounts ((zeroDust net amortized).filter fun p => p.amount ≠ 0) ≤
        sumAmounts ((zeroDust net amortized).filter fun p => p.amount ≠ 0) := Nat.mod_le _ _
    rw [sumAmounts_filter_ne_zero] at hmod
    have hzero := @sumAmounts_zeroDust_le _ _ net amortized
    rw [hexact]
    omega
  unfold amortizeClosure
  rw [if_neg (Nat.not_lt.mpr hcover), hloop]
  dsimp only
  rw [if_pos hkept]

theorem branchOutputs_expected {key : K} {payments amortized : List (Payment A)} (hlow : Lowered payments amortized) :
    (branchOutputs net key (payments.map (·.amount)) (zeroDust net amortized)).map (·.expected) =
      (payments.filter fun p => p.address = net.branchAddress key).map (·.amount) := by
  induction hlow with
  | nil => rfl
  | @cons p q ps qs hpq _ ih =>
    have hq : (if q.amount < net.dust then { q with amount := 0 } else q).address = q.address := by
      split <;> rfl
    simp only [branchOutputs, zeroDust, List.map_cons, List.zip_cons_cons, List.filterMap_cons] at ih ⊢
    rw [hq, hpq.1]
    by_cases hb : p.address = net.branchAddress key
    · simp [hb, ih]
    · simp [hb, ih]

end Amortizing

/-! ## Payments worth less than the fee -/

section Dropped

variable {net}

theorem amortizeClosure_of_lt {fuel : ℕ} {key : K} {payments : List (Payment A)} {change : Option A}
    {txFee operatingCosts : ℕ} (h : paymentAmounts payments < txFee + if change.isSome then operatingCosts else 0) :
    amortizeClosure net fuel key payments change txFee operatingCosts =
      .ok (dropBranches net key payments,
        (if change.isSome then operatingCosts + txFee - paymentAmounts payments else operatingCosts), payments) := by
  unfold amortizeClosure
  rw [if_pos h]

/-- A plan with change whose payments are worth less than the fee and the operating costs: its
    branches are reported dropped, yet the transaction is built for its payments as they are,
    none of the fee taken from them. -/
theorem prepare_send_pays_dropped {backend : Backend A I Tx} {fuel : ℕ} {plan : Plan K A I} {operatingCosts txFee : ℕ}
    {tx : Tx} (hchange : plan.change.isSome) (hfee : backend.neededFee plan.inputs plan.payments plan.change = some txFee)
    (hdrop : paymentAmounts plan.payments < txFee + operatingCosts)
    (htx : backend.signableTransaction plan.inputs plan.payments plan.change = some tx) :
    ∃ costs, prepareSend net backend fuel plan operatingCosts =
      .ok ⟨some tx, dropBranches net plan.key plan.payments, costs⟩ := by
  obtain ⟨c, hc⟩ := Option.isSome_iff_exists.mp hchange
  unfold prepareSend
  rw [if_neg (by simp [hc]), hfee]
  dsimp only
  rw [amortizeClosure_of_lt (by rw [if_pos hchange]; exact hdrop)]
  dsimp only
  rw [htx]
  exact ⟨_, rfl⟩

/-- Bitcoin's limits and dust threshold, with addresses 0 (branch) and 1 (change) for every key. -/
def bitcoinConstants : Network ℕ ℕ := ⟨520, 520, 10000, fun _ => 0, fun _ => 1, by decide, by decide⟩

/-- A back-end asking a fee of 20000 satoshis, whose transaction is the payments it is given. -/
def feeOf20000 : Backend ℕ ℕ (List (Payment ℕ)) := ⟨fun _ _ _ => some 20000, fun _ payments _ => some payments⟩

/-- A plan spending 100000 satoshis on a branch payment of 10000, with change: the branch is
    reported dropped and the transaction pays it in full. -/
theorem prepare_send_pays_dropped_bitcoin :
    ∃ costs, prepareSend bitcoinConstants feeOf20000 0 ⟨5, [⟨0, .external, 100000⟩], [⟨0, none, 10000⟩], some 1⟩ 0 =
      .ok ⟨some [⟨0, none, 10000⟩], [⟨10000, none⟩], costs⟩ :=
  prepare_send_pays_dropped rfl rfl (by decide) rfl

end Dropped

end Serai.Processor
