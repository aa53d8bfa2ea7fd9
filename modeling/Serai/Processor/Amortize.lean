import Mathlib
/-
  Serai.Processor.Amortize — the loop that spreads a fee over a plan's payments
  (processor/src/networks/mod.rs, `Network::prepare_send`; the same loop amortizes a branch
  output's fee in `Scheduler::created_output`).

  Each pass divides the fee left by the number of payments; every payment pays that share
  and the first one the remainder as well, each as much as it holds.
  - `subtractFees_sum`, `amortizeFee_spec`: a pass takes from the payments exactly what it
    takes off the fee, and lowers only amounts; when the loop ends it has taken the whole fee.
  - `amortizeFee_of_covers`: when the first payment holds the whole fee, the loop ends
    within as many passes as the fee.
  - `amortizePass_stuck`: a pass whose share is 0 takes only the remainder, from the first
    payment; once that payment is empty the pass changes nothing and the loop runs forever
    (`amortizeFee_stuck`). `amortize_never_finishes`: payments `d` and `x > d` with a fee
    of `2d + 1` end there after one pass.
-/

namespace Serai.Processor

variable {A : Type}

/-- `Payment`: the coin of its balance is the one being scheduled, so only its amount is kept. -/
structure Payment (A : Type) where
  address : A
  data : Option (List UInt8)
  amount : ℕ
  deriving DecidableEq

/-- The sum of the payments' amounts. -/
def sumAmounts (payments : List (Payment A)) : ℕ := (payments.map (·.amount)).sum

@[simp] theorem sumAmounts_nil : sumAmounts ([] : List (Payment A)) = 0 := rfl

@[simp] theorem sumAmounts_cons (p : Payment A) (ps : List (Payment A)) :
    sumAmounts (p :: ps) = p.amount + sumAmounts ps := by
  simp [sumAmounts]

/-! ## The loop -/

/-- The body of `for payment in &mut payments`: the payment pays the pass's share and the
    overage left, as much as it holds; the overage is paid once, by the first payment.
    Returns the payments and the fee left. -/
def subtractFees (perPayment : ℕ) : ℕ → ℕ → List (Payment A) → List (Payment A) × ℕ
  | _, remaining, [] => ([], remaining)
  | overage, remaining, payment :: rest =>
    let subtractable := min payment.amount (perPayment + overage)
    let r := subtractFees perPayment 0 (remaining - subtractable) rest
    ({ payment with amount := payment.amount - subtractable } :: r.1, r.2)

/-- One pass of `while remaining_fee != 0`. The callers never reach it with no payments: a
    fee above the payments' sum is dropped before the loop. -/
def amortizePass (payments : List (Payment A)) (remaining : ℕ) : List (Payment A) × ℕ :=
  subtractFees (remaining / payments.length) (remaining % payments.length) remaining payments

/-- The loop, on fuel: `none` when the fuel runs out before the fee left is 0. -/
def amortizeFee : ℕ → List (Payment A) → ℕ → Option (List (Payment A))
  | _, payments, 0 => some payments
  | 0, _, _ + 1 => none
  | fuel + 1, payments, remaining + 1 =>
    let r := amortizePass payments (remaining + 1)
    amortizeFee fuel r.1 r.2

@[simp] theorem subtractFees_nil (per overage remaining : ℕ) :
    subtractFees per overage remaining ([] : List (Payment A)) = ([], remaining) := rfl

theorem subtractFees_cons (per overage remaining : ℕ) (p : Payment A) (ps : List (Payment A)) :
    subtractFees per overage remaining (p :: ps) =
      ({ p with amount := p.amount - min p.amount (per + overage) } ::
          (subtractFees per 0 (remaining - min p.amount (per + overage)) ps).1,
        (subtractFees per 0 (remaining - min p.amount (per + overage)) ps).2) := rfl

@[simp] theorem amortizeFee_zero (fuel : ℕ) (payments : List (Payment A)) :
    amortizeFee fuel payments 0 = some payments := by
  cases fuel <;> rfl

theorem amortizeFee_succ (fuel remaining : ℕ) (payments : List (Payment A)) (h : remaining ≠ 0) :
    amortizeFee (fuel + 1) payments remaining =
      amortizeFee fuel (amortizePass payments remaining).1 (amortizePass payments remaining).2 := by
  obtain ⟨r, rfl⟩ := Nat.exists_eq_succ_of_ne_zero h
  rfl

/-! ## What a pass takes -/

/-- `q` is `p` with its amount lowered. -/
def Payment.Lowered (p q : Payment A) : Prop :=
  q.address = p.address ∧ q.data = p.data ∧ q.amount ≤ p.amount

theorem Payment.Lowered.refl (p : Payment A) : p.Lowered p := ⟨rfl, rfl, le_rfl⟩

theorem Payment.Lowered.trans {p q r : Payment A} (h : p.Lowered q) (h' : q.Lowered r) : p.Lowered r :=
  ⟨h'.1.trans h.1, h'.2.1.trans h.2.1, h'.2.2.trans h.2.2⟩

/-- Payments lowered one by one. -/
def Lowered (ps qs : List (Payment A)) : Prop := List.Forall₂ Payment.Lowered ps qs

theorem Lowered.refl (ps : List (Payment A)) : Lowered ps ps :=
  List.forall₂_same.mpr fun p _ => Payment.Lowered.refl p

theorem Lowered.trans {ps qs rs : List (Payment A)} (h : Lowered ps qs) (h' : Lowered qs rs) : Lowered ps rs := by
  induction h generalizing rs with
  | nil => exact h'
  | cons hpq _ ih =>
    cases h' with
    | cons hqr hrest => exact .cons (hpq.trans hqr) (ih hrest)

theorem Lowered.length_eq {ps qs : List (Payment A)} (h : Lowered ps qs) : qs.length = ps.length :=
  (List.Forall₂.length_eq h).symm

theorem subtractFees_lowered (per overage remaining : ℕ) (ps : List (Payment A)) :
    Lowered ps (subtractFees per overage remaining ps).1 := by
  induction ps generalizing overage remaining with
  | nil => exact .nil
  | cons p ps ih =>
    rw [subtractFees_cons]
    exact .cons ⟨rfl, rfl, Nat.sub_le _ _⟩ (ih _ _)

theorem subtractFees_sum (per overage remaining : ℕ) (ps : List (Payment A))
    (h : per * ps.length + overage ≤ remaining) :
    sumAmounts (subtractFees per overage remaining ps).1 + remaining =
      sumAmounts ps + (subtractFees per overage remaining ps).2 := by
  induction ps generalizing overage remaining with
  | nil => simp
  | cons p ps ih =>
    rw [subtractFees_cons, sumAmounts_cons, sumAmounts_cons]
    dsimp only
    set sub := min p.amount (per + overage)
    have hsub : sub ≤ per + overage := Nat.min_le_right _ _
    have hsubp : sub ≤ p.amount := Nat.min_le_left _ _
    -- the rest of the pass hands out `per` a payment from what the first left
    rw [List.length_cons, Nat.mul_succ] at h
    have hrest : per * ps.length + 0 ≤ remaining - sub := by omega
    have := ih 0 (remaining - sub) hrest
    omega

theorem subtractFees_le (per overage remaining : ℕ) (ps : List (Payment A)) :
    (subtractFees per overage remaining ps).2 ≤ remaining := by
  induction ps generalizing overage remaining with
  | nil => exact le_rfl
  | cons p ps ih =>
    rw [subtractFees_cons]
    exact (ih _ _).trans (Nat.sub_le _ _)

theorem amortizePass_sum (payments : List (Payment A)) (remaining : ℕ) :
    sumAmounts (amortizePass payments remaining).1 + remaining =
      sumAmounts payments + (amortizePass payments remaining).2 :=
  subtractFees_sum _ _ _ _ (by rw [Nat.mul_comm]; exact (Nat.div_add_mod remaining payments.length).le)

theorem amortizeFee_spec {fuel remaining : ℕ} {payments payments' : List (Payment A)}
    (h : amortizeFee fuel payments remaining = some payments') :
    Lowered payments payments' ∧ sumAmounts payments' + remaining = sumAmounts payments := by
  induction fuel generalizing payments remaining with
  | zero =>
    cases remaining with
    | zero =>
      cases h
      exact ⟨Lowered.refl _, rfl⟩
    | succ r => cases h
  | succ fuel ih =>
    by_cases h0 : remaining = 0
    · subst h0
      cases h
      exact ⟨Lowered.refl _, rfl⟩
    · rw [amortizeFee_succ fuel remaining payments h0] at h
      obtain ⟨hlow, hsum⟩ := ih h
      have hpass := amortizePass_sum payments remaining
      exact ⟨(subtractFees_lowered _ _ _ _).trans hlow, by omega⟩

/-! ## When the loop ends -/

/-- The first payment holds at least the fee left. -/
def Covers (payments : List (Payment A)) (remaining : ℕ) : Prop :=
  ∃ p rest, payments = p :: rest ∧ remaining ≤ p.amount

theorem amortizePass_covers {payments : List (Payment A)} {remaining : ℕ} (h : Covers payments remaining)
    (hpos : 0 < remaining) :
    Covers (amortizePass payments remaining).1 (amortizePass payments remaining).2 ∧
      (amortizePass payments remaining).2 < remaining := by
  obtain ⟨p, rest, rfl, hp⟩ := h
  unfold amortizePass
  generalize hn : (p :: rest).length = n
  have hnpos : 0 < n := hn ▸ List.length_pos_of_ne_nil (List.cons_ne_nil _ _)
  have hdiv := Nat.div_add_mod remaining n
  generalize remaining / n = per at *
  generalize remaining % n = overage at *
  -- the first payment's share is at least 1: with a share of 0 the overage is the whole fee
  have hshare : 0 < per + overage ∧ per + overage ≤ remaining := by
    rcases Nat.eq_zero_or_pos per with h0 | h0
    · subst h0
      rw [Nat.mul_zero, Nat.zero_add] at hdiv
      omega
    · have : per ≤ n * per := Nat.le_mul_of_pos_left per hnpos
      omega
  have hmin : min p.amount (per + overage) = per + overage := Nat.min_eq_right (hshare.2.trans hp)
  rw [subtractFees_cons, hmin]
  have hrest := subtractFees_le per 0 (remaining - (per + overage)) rest
  refine ⟨⟨_, _, rfl, ?_⟩, ?_⟩
  · dsimp only
    omega
  · omega

theorem amortizeFee_of_covers {fuel remaining : ℕ} {payments : List (Payment A)} (h : Covers payments remaining)
    (hfuel : remaining ≤ fuel) : ∃ payments', amortizeFee fuel payments remaining = some payments' := by
  induction fuel generalizing payments remaining with
  | zero =>
    rw [Nat.le_zero.mp hfuel, amortizeFee_zero]
    exact ⟨_, rfl⟩
  | succ fuel ih =>
    by_cases h0 : remaining = 0
    · rw [h0, amortizeFee_zero]
      exact ⟨_, rfl⟩
    · obtain ⟨hcov, hlt⟩ := amortizePass_covers h (Nat.pos_of_ne_zero h0)
      rw [amortizeFee_succ fuel remaining payments h0]
      exact ih hcov (by omega)

/-! ## When the loop does not end -/

theorem amortizePass_stuck {p : Payment A} {rest : List (Payment A)} {remaining : ℕ} (hp : p.amount = 0)
    (hlt : remaining < (p :: rest).length) : amortizePass (p :: rest) remaining = (p :: rest, remaining) := by
  unfold amortizePass
  rw [Nat.div_eq_of_lt hlt, subtractFees_cons, hp, Nat.zero_min, Nat.sub_zero, Nat.sub_zero]
  -- every later payment is handed a share of 0
  have hzero : ∀ (ps : List (Payment A)) (r : ℕ), subtractFees 0 0 r ps = (ps, r) := by
    intro ps
    induction ps with
    | nil => intro r; rfl
    | cons q qs ih =>
      intro r
      rw [subtractFees_cons, Nat.add_zero, Nat.min_zero, Nat.sub_zero, Nat.sub_zero, ih]
  rw [hzero]
  cases p
  simp_all

theorem amortizeFee_stuck {p : Payment A} {rest : List (Payment A)} {remaining : ℕ} (hp : p.amount = 0)
    (hpos : 0 < remaining) (hlt : remaining < (p :: rest).length) (fuel : ℕ) :
    amortizeFee fuel (p :: rest) remaining = none := by
  induction fuel with
  | zero =>
    obtain ⟨r, rfl⟩ := Nat.exists_eq_succ_of_ne_zero hpos.ne'
    rfl
  | succ fuel ih =>
    rw [amortizeFee_succ fuel remaining _ hpos.ne', amortizePass_stuck hp hlt]
    exact ih

/-- Two payments `d < x` and a fee of `2d + 1`: the first pass takes `d` from each, emptying
    the first, and leaves 1, which no later pass takes. -/
theorem amortize_never_finishes (a a' : A) (data data' : Option (List UInt8)) {d x : ℕ} (h : d < x) (fuel : ℕ) :
    amortizeFee fuel [⟨a, data, d⟩, ⟨a', data', x⟩] (2 * d + 1) = none := by
  cases fuel with
  | zero => rfl
  | succ fuel =>
    rw [amortizeFee_succ fuel _ _ (by omega)]
    have hpass : amortizePass [⟨a, data, d⟩, ⟨a', data', x⟩] (2 * d + 1) = ([⟨a, data, 0⟩, ⟨a', data', x - d⟩], 1) := by
      have hper : (2 * d + 1) / 2 = d := by omega
      have hov : (2 * d + 1) % 2 = 1 := by omega
      simp only [amortizePass, List.length_cons, List.length_nil, hper, hov, subtractFees_cons, subtractFees_nil,
        Nat.add_zero, Prod.mk.injEq, List.cons.injEq, Payment.mk.injEq, true_and, and_true]
      omega
    rw [hpass]
    exact amortizeFee_stuck rfl Nat.one_pos (by simp) fuel

/-- A payment of 10000 satoshis (Bitcoin's dust threshold) and one of 1000000, with a fee of
    20001: not done after a thousand passes. -/
theorem amortize_never_finishes_bitcoin :
    amortizeFee 1000 [(⟨0, none, 10000⟩ : Payment ℕ), ⟨1, none, 1000000⟩] (2 * 10000 + 1) = none :=
  amortize_never_finishes 0 1 none none (by decide) 1000

end Serai.Processor
