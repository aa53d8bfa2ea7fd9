import Mathlib
import Serai.Processor.Amortize
/-
  Serai.Processor.Scheduler — the processor's `Scheduler` (processor/src/multisigs/scheduler.rs):
  the branch plans it waits on, keyed by the amount of the branch output that will fund them
  (`queued_plans` before the output's fee is known, `plans` after), its UTXOs and its pending
  payments; `execute`, `add_outputs`, `schedule`, `consume_payments` and `created_output`.

  Amounts are `u64`s: a sum the code takes with `.sum::<u64>()` is taken modulo 2^64, and
  the subtraction `actual - expected` in `created_output` wraps (`wrapSub`), as in a release
  build.
  - `execute` moves payments past `MAX_OUTPUTS` into branch plans, one pass at a time
    (`branchOnce`). Without a change output each pass shortens the payments, and the loop
    ends with at most `MAX_OUTPUTS` of them (`execute_finishes`), each queued plan holding at
    most `MAX_OUTPUTS` payments, keyed by their sum (`branchOnce_queuedWF`).
  - With a change output the loop stops at `MAX_OUTPUTS - 1` payments while a pass removes
    `len + 1 - MAX_OUTPUTS` of them: at `MAX_OUTPUTS` payments it removes one and adds one,
    forever (`execute_never_finishes`).
  - `created_output_drops_branch`: a branch output created with less than expected wraps
    `actual - expected` to nearly 2^64, more than the branch's payments hold, so they are
    dropped while the output exists; `created_output_drops_branch_monero` is such a run.
  - Created with exactly what was expected, a branch's payments above `DUST` are recorded
    under that amount (`createdOutput_exact`). Created with less, the output of the smaller
    amount finds no plan when it is received and joins the UTXOs
    (`short_branch_output_joins_utxos`): the subtree is never paid.
-/

namespace Serai.Processor

/-- `OutputType`. -/
inductive OutputType where
  | external
  | branch
  | change
  | forwarded
  deriving DecidableEq, Repr

/-- An output the scheduler holds: its id, kind and amount (its coin is the scheduler's). -/
structure Output (I : Type) where
  id : I
  kind : OutputType
  amount : ℕ

/-- `Plan`. -/
structure Plan (K A I : Type) where
  key : K
  inputs : List (Output I)
  payments : List (Payment A)
  change : Option A

/-- What the scheduler reads of `Network`: its limits, its dust threshold and its addresses.
    Every network has room for an input and two outputs (Bitcoin: 520 and 520, Monero: 120
    and 16). -/
structure Network (K A : Type) where
  maxInputs : ℕ
  maxOutputs : ℕ
  dust : ℕ
  branchAddress : K → A
  changeAddress : K → A
  pos_maxInputs : 0 < maxInputs
  two_le_maxOutputs : 2 ≤ maxOutputs

/-- The scheduler's state. A map of amounts is a function, an amount with no entry mapping to
    the empty queue: the code removes an entry once its queue is empty. -/
structure Scheduler (K A I : Type) where
  key : K
  queuedPlans : ℕ → List (List (Payment A))
  plans : ℕ → List (List (Payment A))
  utxos : List (Output I)
  payments : List (Payment A)

variable {K A I : Type}

/-- `payment_amounts`: the payments' sum as a `u64`. -/
def paymentAmounts (payments : List (Payment A)) : ℕ := sumAmounts payments % 2 ^ 64

/-- The outputs' sum as a `u64`. -/
def outputAmounts (outputs : List (Output I)) : ℕ := (outputs.map (·.amount)).sum % 2 ^ 64

/-- `a - b` on `u64`s, wrapping. -/
def wrapSub (a b : ℕ) : ℕ := (a + 2 ^ 64 - b) % 2 ^ 64

/-- `map.entry(amount).or_insert(VecDeque::new()).push_back(payments)`. -/
def pushPlan (m : ℕ → List (List (Payment A))) (amount : ℕ) (payments : List (Payment A)) :
    ℕ → List (List (Payment A)) :=
  Function.update m amount (m amount ++ [payments])

/-- `Scheduler::new`. -/
def Scheduler.new (key : K) : Scheduler K A I := ⟨key, fun _ => [], fun _ => [], [], []⟩

variable (net : Network K A)

/-! ## `execute` -/

/-- One pass of `while payments.len() > max`: the last `to_remove` payments become a queued
    plan keyed by their sum, and a payment of that sum to the branch address goes first. -/
def Scheduler.branchOnce (s : Scheduler K A I) (payments : List (Payment A)) :
    Scheduler K A I × List (Payment A) :=
  let toRemove := min (payments.length + 1 - net.maxOutputs) net.maxOutputs
  let removed := payments.drop (payments.length - toRemove)
  let amount := paymentAmounts removed
  ({ s with queuedPlans := pushPlan s.queuedPlans amount removed },
    ⟨net.branchAddress s.key, none, amount⟩ :: payments.take (payments.length - toRemove))

/-- The loop, on fuel: `none` when the fuel runs out first. -/
def Scheduler.branchLoop (max : ℕ) : ℕ → Scheduler K A I → List (Payment A) →
    Option (Scheduler K A I × List (Payment A))
  | 0, s, payments => if payments.length ≤ max then some (s, payments) else none
  | fuel + 1, s, payments =>
    if payments.length ≤ max then some (s, payments)
    else
      let r := s.branchOnce net payments
      branchLoop max fuel r.1 r.2

/-- `Scheduler::execute`, its loop on fuel. -/
def Scheduler.execute (fuel : ℕ) (s : Scheduler K A I) (inputs : List (Output I)) (payments : List (Payment A))
    (keyForAnyChange : K) : Option (Scheduler K A I × Plan K A I) :=
  -- a change output is needed when the inputs are not spent exactly
  let change := outputAmounts inputs != paymentAmounts payments
  let max := if change then net.maxOutputs - 1 else net.maxOutputs
  (s.branchLoop net max fuel payments).map fun r =>
    (r.1, ⟨s.key, inputs, r.2, if change then some (net.changeAddress keyForAnyChange) else none⟩)

/-! ## `add_outputs`, `schedule`, `consume_payments` -/

/-- One output of `add_outputs`: a branch output with a plan waiting on its amount executes
    the first such plan; any other output joins the UTXOs. -/
def addOutput (fuel : ℕ) (keyForAnyChange : K) (acc : Scheduler K A I × List (Plan K A I)) (utxo : Output I) :
    Option (Scheduler K A I × List (Plan K A I)) :=
  match utxo.kind, acc.1.plans utxo.amount with
  | .branch, payments :: rest =>
    -- `assert!(amount >= ..)`: below it if payments were dropped as dust
    if paymentAmounts payments ≤ utxo.amount then
      ({ acc.1 with plans := Function.update acc.1.plans utxo.amount rest }.execute net fuel [utxo] payments
          keyForAnyChange).map fun (r : Scheduler K A I × Plan K A I) => (r.1, acc.2 ++ [r.2])
    else none
  | _, _ => some ({ acc.1 with utxos := acc.1.utxos ++ [utxo] }, acc.2)

/-- `Scheduler::add_outputs`. -/
def Scheduler.addOutputs (fuel : ℕ) (s : Scheduler K A I) (utxos : List (Output I)) (keyForAnyChange : K) :
    Option (Scheduler K A I × List (Plan K A I)) :=
  utxos.foldlM (addOutput net fuel keyForAnyChange) (s, [])

/-- The pending payments the balance covers, popped in order until the first it does not. -/
def takeAffordable : ℕ → List (Payment A) → List (Payment A) × List (Payment A)
  | _, [] => ([], [])
  | balance, p :: rest =>
    if p.amount ≤ balance then
      let r := takeAffordable (balance - p.amount) rest
      (p :: r.1, r.2)
    else ([], p :: rest)

/-- The last chunk, when it holds one output, is restored rather than aggregated. -/
def splitRestore (chunks : List (List (Output I))) : List (List (Output I)) × Option (Output I) :=
  match chunks.getLast? with
  | some [o] => (chunks.dropLast, some o)
  | _ => (chunks, none)

/-- `Scheduler::schedule`. `sort_by` is a stable sort, whose result insertion sort computes. -/
def Scheduler.schedule [DecidableEq A] (fuel : ℕ) (s : Scheduler K A I) (utxos : List (Output I)) (payments : List (Payment A))
    (keyForAnyChange : K) (forceSpend : Bool) : Option (Scheduler K A I × List (Plan K A I)) := do
  -- payments to our own branch address are dropped
  let payments := payments.filter fun p => p.address != net.branchAddress s.key
  let (s, plans) ← s.addOutputs net fuel utxos keyForAnyChange
  let s := { s with payments := s.payments ++ payments }
  if s.utxos.isEmpty then return (s, plans)
  let sorted := s.utxos.insertionSort fun a b => b.amount ≤ a.amount
  match sorted.toChunks net.maxInputs with
  | [] => none
  | utxos :: chunks =>
    let (chunks, toRestore) := splitRestore chunks
    -- every other chunk is aggregated
    let plans := plans ++ chunks.map fun chunk => ⟨s.key, chunk, [], some (net.changeAddress keyForAnyChange)⟩
    let (executing, pending) := takeAffordable (outputAmounts utxos) s.payments
    let s := { s with utxos := [], payments := pending }
    let (s, plans) ← if executing.isEmpty then pure ({ s with utxos := utxos }, plans)
      else (s.execute net fuel utxos executing keyForAnyChange).map fun (r : Scheduler K A I × Plan K A I) =>
        (r.1, plans ++ [r.2])
    let (s, plans) ← if forceSpend && !s.utxos.isEmpty then
        if s.utxos.length ≤ net.maxInputs then
          pure ({ s with utxos := [] }, plans ++ [⟨s.key, s.utxos, [], some (net.changeAddress keyForAnyChange)⟩])
        else none
      else pure (s, plans)
    pure (match toRestore with
      | some o => { s with utxos := s.utxos ++ [o] }
      | none => s, plans)

/-- `Scheduler::consume_payments`. -/
def Scheduler.consumePayments (s : Scheduler K A I) : List (Payment A) × Scheduler K A I :=
  (s.payments, { s with payments := [] })

/-! ## `created_output` -/

/-- `Scheduler::created_output`, its amortization loop on fuel: `none` is a panic (an
    `unwrap` of a missing plan, a failed assertion) or the loop running out of fuel. -/
def Scheduler.createdOutput (fuel : ℕ) (s : Scheduler K A I) (expected : ℕ) (actual : Option ℕ) :
    Option (Scheduler K A I) :=
  match s.queuedPlans expected with
  | [] => none
  | payments :: rest =>
    if expected ≠ paymentAmounts payments then none
    else
      let s := { s with queuedPlans := Function.update s.queuedPlans expected rest }
      match actual with
      -- not created: the child payments are dropped
      | none => some s
      | some actual =>
        let toAmortize := wrapSub actual expected
        -- payments worth less than the fee to amortize are dropped
        if paymentAmounts payments < toAmortize then some s
        else
          match amortizeFee fuel payments toAmortize with
          | none => none
          | some payments =>
            let payments := payments.filter fun p => net.dust ≤ p.amount
            if actual < paymentAmounts payments then none
            else if payments.isEmpty then some s
            else some { s with plans := pushPlan s.plans actual payments }

/-! ## The loop of `execute` -/

section Execute

variable {net}

@[simp] theorem mem_pushPlan {m : ℕ → List (List (Payment A))} {amount b : ℕ} {payments ps : List (Payment A)} :
    ps ∈ pushPlan m amount payments b ↔ ps ∈ m b ∨ (b = amount ∧ ps = payments) := by
  unfold pushPlan
  by_cases hb : b = amount
  · subst hb
    simp
  · simp [hb]

theorem branchOnce_spec (s : Scheduler K A I) (payments : List (Payment A)) :
    ∃ kept removed, payments = kept ++ removed ∧ removed.length ≤ net.maxOutputs ∧
      kept.length = payments.length - min (payments.length + 1 - net.maxOutputs) net.maxOutputs ∧
      s.branchOnce net payments = ({ s with queuedPlans := pushPlan s.queuedPlans (paymentAmounts removed) removed },
        ⟨net.branchAddress s.key, none, paymentAmounts removed⟩ :: kept) := by
  refine ⟨payments.take (payments.length - min (payments.length + 1 - net.maxOutputs) net.maxOutputs),
    payments.drop (payments.length - min (payments.length + 1 - net.maxOutputs) net.maxOutputs),
    (List.take_append_drop _ _).symm, ?_, ?_, rfl⟩
  · rw [List.length_drop]
    omega
  · rw [List.length_take]
    omega

theorem maxOutputs_le_branchOnce {payments : List (Payment A)} (h : net.maxOutputs ≤ payments.length)
    (s : Scheduler K A I) : net.maxOutputs ≤ (s.branchOnce net payments).2.length := by
  obtain ⟨kept, removed, -, -, hkept, hpass⟩ := @branchOnce_spec _ _ _ net s payments
  rw [hpass, List.length_cons, hkept]
  omega

theorem branchOnce_length_lt {payments : List (Payment A)} (h : net.maxOutputs < payments.length)
    (s : Scheduler K A I) : (s.branchOnce net payments).2.length < payments.length := by
  have := net.two_le_maxOutputs
  obtain ⟨kept, removed, -, -, hkept, hpass⟩ := @branchOnce_spec _ _ _ net s payments
  rw [hpass, List.length_cons, hkept]
  omega

theorem branchLoop_stuck (fuel : ℕ) :
    ∀ (s : Scheduler K A I) (payments : List (Payment A)), net.maxOutputs ≤ payments.length →
      s.branchLoop net (net.maxOutputs - 1) fuel payments = none := by
  have := net.two_le_maxOutputs
  induction fuel with
  | zero =>
    intro s payments h
    simp only [Scheduler.branchLoop]
    rw [if_neg (by omega)]
  | succ fuel ih =>
    intro s payments h
    simp only [Scheduler.branchLoop]
    rw [if_neg (by omega)]
    exact ih _ _ (maxOutputs_le_branchOnce h s)

theorem branchLoop_finishes (fuel : ℕ) :
    ∀ (s : Scheduler K A I) (payments : List (Payment A)), payments.length ≤ fuel + net.maxOutputs →
      ∃ r, s.branchLoop net net.maxOutputs fuel payments = some r ∧ r.2.length ≤ net.maxOutputs := by
  induction fuel with
  | zero =>
    intro s payments h
    simp only [Scheduler.branchLoop]
    have hle : payments.length ≤ net.maxOutputs := by omega
    rw [if_pos hle]
    exact ⟨_, rfl, hle⟩
  | succ fuel ih =>
    intro s payments h
    simp only [Scheduler.branchLoop]
    by_cases hle : payments.length ≤ net.maxOutputs
    · rw [if_pos hle]
      exact ⟨_, rfl, hle⟩
    · rw [if_neg hle]
      have hlt := branchOnce_length_lt (Nat.lt_of_not_le hle) s
      exact ih _ _ (by omega)

/-- With a change output and at least `MAX_OUTPUTS` payments, `execute` never returns: each
    pass removes one payment and adds one branch payment. -/
theorem execute_never_finishes (fuel : ℕ) (s : Scheduler K A I) {inputs : List (Output I)}
    {payments : List (Payment A)} (keyForAnyChange : K) (hchange : outputAmounts inputs ≠ paymentAmounts payments)
    (hlen : net.maxOutputs ≤ payments.length) : s.execute net fuel inputs payments keyForAnyChange = none := by
  unfold Scheduler.execute
  simp only [bne_iff_ne, ne_eq, hchange, not_false_eq_true, if_true]
  rw [branchLoop_stuck fuel s payments hlen]
  rfl

variable (net) in
/-- Every plan queued on an amount has that sum and at most `MAX_OUTPUTS` payments. -/
def QueuedWF (s : Scheduler K A I) : Prop :=
  ∀ amount, ∀ ps ∈ s.queuedPlans amount, paymentAmounts ps = amount ∧ ps.length ≤ net.maxOutputs

theorem branchOnce_queuedWF {s : Scheduler K A I} (hs : QueuedWF net s) (payments : List (Payment A)) :
    QueuedWF net (s.branchOnce net payments).1 := by
  obtain ⟨kept, removed, -, hlen, -, hpass⟩ := @branchOnce_spec _ _ _ net s payments
  rw [hpass]
  intro amount ps hps
  rcases mem_pushPlan.mp hps with hold | ⟨rfl, rfl⟩
  · exact hs amount ps hold
  · exact ⟨rfl, hlen⟩

theorem branchLoop_queuedWF {max : ℕ} (fuel : ℕ) :
    ∀ {s : Scheduler K A I} {payments : List (Payment A)} {r : Scheduler K A I × List (Payment A)},
      QueuedWF net s → s.branchLoop net max fuel payments = some r → QueuedWF net r.1 := by
  induction fuel with
  | zero =>
    intro s payments r hs h
    simp only [Scheduler.branchLoop] at h
    split at h
    · cases h
      exact hs
    · cases h
  | succ fuel ih =>
    intro s payments r hs h
    simp only [Scheduler.branchLoop] at h
    split at h
    · cases h
      exact hs
    · exact ih (branchOnce_queuedWF hs payments) h

theorem execute_finishes {fuel : ℕ} {s : Scheduler K A I} {inputs : List (Output I)} {payments : List (Payment A)}
    (keyForAnyChange : K) (hexact : outputAmounts inputs = paymentAmounts payments)
    (hfuel : payments.length ≤ fuel + net.maxOutputs) (hs : QueuedWF net s) :
    ∃ s' plan, s.execute net fuel inputs payments keyForAnyChange = some (s', plan) ∧
      plan.payments.length ≤ net.maxOutputs ∧ plan.change = none ∧ QueuedWF net s' := by
  obtain ⟨r, hr, hlen⟩ := branchLoop_finishes fuel s payments hfuel
  unfold Scheduler.execute
  simp only [hexact, bne_self_eq_false, Bool.false_eq_true, if_false, hr, Option.map_some]
  exact ⟨_, _, rfl, hlen, rfl, branchLoop_queuedWF fuel hs hr⟩

theorem execute_short {fuel : ℕ} {s : Scheduler K A I} {inputs : List (Output I)} {payments : List (Payment A)}
    (keyForAnyChange : K) (hchange : outputAmounts inputs ≠ paymentAmounts payments)
    (hlen : payments.length < net.maxOutputs) :
    s.execute net fuel inputs payments keyForAnyChange =
      some (s, ⟨s.key, inputs, payments, some (net.changeAddress keyForAnyChange)⟩) := by
  have hle : payments.length ≤ net.maxOutputs - 1 := by omega
  unfold Scheduler.execute
  simp only [bne_iff_ne, ne_eq, hchange, not_false_eq_true, if_true]
  cases fuel <;> simp [Scheduler.branchLoop, hle]

/-- Monero's limits and dust threshold, with addresses 0 (branch) and 1 (change) for every key. -/
def moneroConstants : Network ℕ ℕ where
  maxInputs := 120
  maxOutputs := 16
  dust := 10000000000
  branchAddress := fun _ => 0
  changeAddress := fun _ => 1
  pos_maxInputs := by decide
  two_le_maxOutputs := by decide

/-- Sixteen payments of 1 XMR from an output of 20 XMR: not done after a thousand passes. -/
theorem execute_never_finishes_monero :
    (Scheduler.new 5 : Scheduler ℕ ℕ ℕ).execute moneroConstants 1000 [⟨0, .external, 20000000000000⟩]
      (List.replicate 16 ⟨7, none, 1000000000000⟩) 5 = none :=
  execute_never_finishes 1000 _ 5 (by decide) (by decide)

end Execute

/-! ## `created_output` -/

section CreatedOutput

variable {net}

theorem paymentAmounts_lt (payments : List (Payment A)) : paymentAmounts payments < 2 ^ 64 :=
  Nat.mod_lt _ (Nat.two_pow_pos 64)

theorem wrapSub_of_lt {a b : ℕ} (h : a < b) : wrapSub a b = a + 2 ^ 64 - b := by
  unfold wrapSub
  exact Nat.mod_eq_of_lt (by omega)

theorem wrapSub_self (a : ℕ) : wrapSub a a = 0 := by
  simp [wrapSub]

theorem sumAmounts_filter_le (payments : List (Payment A)) (p : Payment A → Bool) :
    sumAmounts (payments.filter p) ≤ sumAmounts payments :=
  ((List.filter_sublist (l := payments)).map _).sum_le_sum fun _ _ => Nat.zero_le _

theorem createdOutput_of_lt_wrapSub {s : Scheduler K A I} {fuel expected actual : ℕ} {payments : List (Payment A)}
    {rest : List (List (Payment A))} (hq : s.queuedPlans expected = payments :: rest)
    (hsum : paymentAmounts payments = expected) (hlt : paymentAmounts payments < wrapSub actual expected) :
    s.createdOutput net fuel expected (some actual) =
      some { s with queuedPlans := Function.update s.queuedPlans expected rest } := by
  unfold Scheduler.createdOutput
  rw [hq]
  dsimp only
  rw [if_neg (by rw [hsum]; exact not_not.mpr rfl), if_pos hlt]

theorem createdOutput_exact {s : Scheduler K A I} {fuel expected : ℕ} {payments : List (Payment A)}
    {rest : List (List (Payment A))} (hq : s.queuedPlans expected = payments :: rest)
    (hsum : sumAmounts payments = expected) (hlt : expected < 2 ^ 64) :
    s.createdOutput net fuel expected (some expected) =
      let s₁ := { s with queuedPlans := Function.update s.queuedPlans expected rest }
      let kept := payments.filter fun p => net.dust ≤ p.amount
      some (if kept.isEmpty then s₁ else { s₁ with plans := pushPlan s.plans expected kept }) := by
  have hpay : paymentAmounts payments = expected := by rw [paymentAmounts, hsum, Nat.mod_eq_of_lt hlt]
  -- what is kept sums to at most the payments, so the assertion holds
  have hkept : paymentAmounts (payments.filter fun p => net.dust ≤ p.amount) ≤ expected :=
    (Nat.mod_le _ _).trans (hsum ▸ sumAmounts_filter_le payments _)
  unfold Scheduler.createdOutput
  rw [hq]
  dsimp only
  rw [if_neg (by rw [hpay]; exact not_not.mpr rfl), wrapSub_self, if_neg (Nat.not_lt_zero _), amortizeFee_zero]
  dsimp only
  rw [if_neg (not_lt.mpr hkept)]
  exact (apply_ite some _ _ _).symm

theorem addOutput_of_plans_nil {fuel : ℕ} {keyForAnyChange : K} {acc : Scheduler K A I × List (Plan K A I)}
    {utxo : Output I} (h : acc.1.plans utxo.amount = []) :
    addOutput net fuel keyForAnyChange acc utxo = some ({ acc.1 with utxos := acc.1.utxos ++ [utxo] }, acc.2) := by
  unfold addOutput
  rw [h]
  split
  · contradiction
  · rfl

/-- A branch output created with less than expected, its fee taken: `actual - expected`
    wraps to `2^64 - fee`, more than the branch's payments hold, so they are dropped, though
    the output exists. Only the queue of plans changes. -/
theorem created_output_drops_branch {s : Scheduler K A I} {fuel expected actual : ℕ} {payments : List (Payment A)}
    {rest : List (List (Payment A))} (hq : s.queuedPlans expected = payments :: rest)
    (hsum : paymentAmounts payments = expected) (hlt : actual < expected) (hwrap : 2 * expected < 2 ^ 64 + actual) :
    s.createdOutput net fuel expected (some actual) =
      some { s with queuedPlans := Function.update s.queuedPlans expected rest } := by
  have hexp : expected < 2 ^ 64 := hsum ▸ paymentAmounts_lt payments
  refine createdOutput_of_lt_wrapSub hq hsum ?_
  rw [hsum, wrapSub_of_lt hlt]
  omega

/-- Seventeen payments of 0.1 XMR from an output of 1.7 XMR: `execute` queues the last two
    behind a branch payment of 0.2 XMR, whose output is created with 0.0001 XMR of fee. -/
theorem created_output_drops_branch_monero :
    ∃ s plans, (Scheduler.new 5 : Scheduler ℕ ℕ ℕ).schedule moneroConstants 1 [⟨0, .external, 1700000000000⟩]
        (List.replicate 17 ⟨7, none, 100000000000⟩) 5 false = some (s, plans) ∧
      s.createdOutput moneroConstants 0 200000000000 (some 199900000000) =
        some { s with queuedPlans := Function.update s.queuedPlans 200000000000 [] } := by
  obtain ⟨⟨s, plans⟩, hrun⟩ : ∃ r, (Scheduler.new 5 : Scheduler ℕ ℕ ℕ).schedule moneroConstants 1
      [⟨0, .external, 1700000000000⟩] (List.replicate 17 ⟨7, none, 100000000000⟩) 5 false = some r :=
    Option.isSome_iff_exists.mp (by decide)
  have hq : s.queuedPlans 200000000000 = [List.replicate 2 ⟨7, none, 100000000000⟩] := by
    have h : ((Scheduler.new 5 : Scheduler ℕ ℕ ℕ).schedule moneroConstants 1 [⟨0, .external, 1700000000000⟩]
        (List.replicate 17 ⟨7, none, 100000000000⟩) 5 false).map (fun r => r.1.queuedPlans 200000000000) =
          some [List.replicate 2 ⟨7, none, 100000000000⟩] := by decide
    rw [hrun, Option.map_some] at h
    exact Option.some.inj h
  exact ⟨s, plans, hrun, created_output_drops_branch hq (by decide) (by decide) (by decide)⟩

/-- The branch output of the amount `created_output` was told of, created for less than
    expected: `created_output` records nothing under that amount, so when the output is
    received it finds no plan and joins the UTXOs, and the payments of the branch are never
    executed. -/
theorem short_branch_output_joins_utxos {s : Scheduler K A I} {fuel expected actual : ℕ}
    {payments : List (Payment A)} {rest : List (List (Payment A))} (hq : s.queuedPlans expected = payments :: rest)
    (hsum : paymentAmounts payments = expected) (hlt : actual < expected) (hwrap : 2 * expected < 2 ^ 64 + actual)
    (hplans : s.plans actual = []) (fuel' : ℕ) (keyForAnyChange : K) (plans : List (Plan K A I)) (id : I) :
    ∃ s₁, s.createdOutput net fuel expected (some actual) = some s₁ ∧ s₁.plans = s.plans ∧
      addOutput net fuel' keyForAnyChange (s₁, plans) ⟨id, .branch, actual⟩ =
        some ({ s₁ with utxos := s₁.utxos ++ [⟨id, .branch, actual⟩] }, plans) := by
  have hexp : expected < 2 ^ 64 := hsum ▸ paymentAmounts_lt payments
  -- `actual - expected` wraps past what the payments hold
  have hwrapped : paymentAmounts payments < wrapSub actual expected := by
    rw [hsum, wrapSub_of_lt hlt]
    omega
  exact ⟨_, createdOutput_of_lt_wrapSub hq hsum hwrapped, rfl, addOutput_of_plans_nil hplans⟩

/-- The run of `created_output_drops_branch_monero`, then the branch output of 0.1999 XMR
    received. -/
theorem short_branch_output_joins_utxos_monero :
    ∃ s plans, (Scheduler.new 5 : Scheduler ℕ ℕ ℕ).schedule moneroConstants 1 [⟨0, .external, 1700000000000⟩]
        (List.replicate 17 ⟨7, none, 100000000000⟩) 5 false = some (s, plans) ∧
      ∃ s₁, s.createdOutput moneroConstants 0 200000000000 (some 199900000000) = some s₁ ∧ s₁.plans = s.plans ∧
        addOutput moneroConstants 1 5 (s₁, plans) ⟨1, .branch, 199900000000⟩ =
          some ({ s₁ with utxos := s₁.utxos ++ [⟨1, .branch, 199900000000⟩] }, plans) := by
  obtain ⟨⟨s, plans⟩, hrun⟩ : ∃ r, (Scheduler.new 5 : Scheduler ℕ ℕ ℕ).schedule moneroConstants 1
      [⟨0, .external, 1700000000000⟩] (List.replicate 17 ⟨7, none, 100000000000⟩) 5 false = some r :=
    Option.isSome_iff_exists.mp (by decide)
  have hstate : s.queuedPlans 200000000000 = [List.replicate 2 ⟨7, none, 100000000000⟩] ∧
      s.plans 199900000000 = [] := by
    have h : ((Scheduler.new 5 : Scheduler ℕ ℕ ℕ).schedule moneroConstants 1 [⟨0, .external, 1700000000000⟩]
        (List.replicate 17 ⟨7, none, 100000000000⟩) 5 false).map
          (fun r => (r.1.queuedPlans 200000000000, r.1.plans 199900000000)) =
          some ([List.replicate 2 ⟨7, none, 100000000000⟩], []) := by decide
    rw [hrun, Option.map_some] at h
    exact Prod.mk.inj (Option.some.inj h)
  exact ⟨s, plans, hrun, short_branch_output_joins_utxos hstate.1 (by decide) (by decide) (by decide) hstate.2 1 5 plans 1⟩

end CreatedOutput

end Serai.Processor
