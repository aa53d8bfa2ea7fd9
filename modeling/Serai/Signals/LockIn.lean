import Mathlib
import Serai.Signals.Pallet
import Serai.Lib.Layer
/-
  Serai.Signals.LockIn — how `LockedInRetirement` is set and how it is kept.

  A lock-in is a `favor` of the retirement signal whose tallies both came out in favor.
  `tally_for_network` counts the current allocations of the favoring members of the
  network's latest decided set against `(total * 4).div_ceil(5)` of its stake
  (`neededFavor_eq_zero`), and `tally_for_all_networks` the stake of the networks whose
  latest decided set `SetsInFavor` records against `(total * 4).div_ceil(5)` of all
  networks' (`stakeTally_toNat`). Both are `u64` as the code has them, so they are the
  80% thresholds only while four times the stake of the networks with a decided session
  stays below `2 ^ 64`.

  - `dispatch_locks` and `favor_locks`: what a call that sets the lock checked and
    tallied; `dispatch_of_locked`: a call made while it is set leaves it, or is the
    revocation of its signal by the registrant; `dispatch_blocked`: while it is set no
    retirement signal is registered, favored, revoked in favor or stood against.
  - `retirement_lock_in`: over every step of the runtime (the pallet's extrinsics, the
    validator sets or any other pallet changing, a new block), the three together.
  - `retirement_locks_in_below_threshold`: after a genesis of two validators with `2 ^ 61`
    each, Bitcoin's stake of `2 ^ 62` tallies `(2 ^ 62 * 4).div_ceil(5) = 0` favor as
    needed, so the favor of one of them, half the stake, locks a retirement in.
-/

namespace Serai.Signals

open Serai.Lib (except_bind_ok exists_ok_of_toOption state)
open Serai.ValidatorSets (ValidatorSet inSetContains allocation latestDecidedSession)

variable {K Id : Type}

/-! ## Stakes -/

section Stakes

variable [DecidableEq K]

/-- The favoring members' stake: the current allocations of those of `accounts` in the
    network's latest decided set. -/
def favoringStake (vs : ValidatorSets.St K) (network : NetworkId) (accounts : List K) : ℕ :=
  ((accounts.filter fun account => inSetContains vs network account).map fun account =>
    ((allocation vs network account).getD 0).toNat).sum

/-- The stake of the networks of `l` with a decided session whose latest decided set
    satisfies `p`. -/
def stakeOf (vs : ValidatorSets.St K) (p : ValidatorSet → Bool) : List NetworkId → ℕ
  | [] => 0
  | network :: rest =>
    (match latestDecidedSession vs network with
      | some session => if p ⟨session, network⟩ then ((vs.totalAllocatedStake network).getD 0).toNat else 0
      | none => 0) + stakeOf vs p rest

/-- The stake of every network with a decided session. -/
def decidedStake (vs : ValidatorSets.St K) : ℕ := stakeOf vs (fun _ => true) networks

/-- The stake of the networks whose latest decided set is recorded in favor of the signal. -/
def inFavorStake [DecidableEq Id] (vs : ValidatorSets.St K) (signals : St K Id) (signalId : SignalId Id) : ℕ :=
  stakeOf vs (fun set => signals.setsInFavor (signalId, set)) networks

omit [DecidableEq K] in
theorem le_stakeOf {vs : ValidatorSets.St K} {p : ValidatorSet → Bool} {network : NetworkId} {session : ℕ}
    (hs : latestDecidedSession vs network = some session) (hp : p ⟨session, network⟩ = true) :
    ∀ {l : List NetworkId}, network ∈ l → ((vs.totalAllocatedStake network).getD 0).toNat ≤ stakeOf vs p l
  | [], hl => by cases hl
  | network' :: rest, hl => by
    rw [stakeOf]
    rcases List.mem_cons.mp hl with rfl | hl
    · rw [hs]
      simp only [hp, if_true]
      omega
    · have := le_stakeOf hs hp hl
      omega

omit [DecidableEq K] in
theorem stakeOf_le_decided (vs : ValidatorSets.St K) (p : ValidatorSet → Bool) :
    ∀ l, stakeOf vs p l ≤ stakeOf vs (fun _ => true) l
  | [] => le_rfl
  | network :: rest => by
    have ih := stakeOf_le_decided vs p rest
    simp only [stakeOf]
    cases latestDecidedSession vs network with
    | none =>
      dsimp only
      omega
    | some session =>
      dsimp only
      simp only [if_true]
      split_ifs <;> omega

theorem neededFavor_eq_zero {vs : ValidatorSets.St K} {network : NetworkId} :
    ∀ {accounts : List K} {needed : UInt64}, neededFavor vs network accounts needed = some 0 →
      needed.toNat ≤ favoringStake vs network accounts
  | [], needed, h => by
    simp only [neededFavor, Option.some.injEq] at h
    simp [h]
  | account :: rest, needed, h => by
    by_cases h0 : needed = 0
    · simp [h0]
    simp only [neededFavor, if_neg h0] at h
    by_cases hin : inSetContains vs network account = true
    · rw [if_pos hin] at h
      obtain ⟨a, ha, hrest⟩ := Option.bind_eq_some_iff.mp h
      have ih := neededFavor_eq_zero hrest
      rw [saturatingSub_toNat] at ih
      have hstake : favoringStake vs network (account :: rest) = a.toNat + favoringStake vs network rest := by
        simp [favoringStake, hin, ha]
      omega
    · rw [if_neg hin] at h
      have hstake : favoringStake vs network (account :: rest) = favoringStake vs network rest := by
        simp [favoringStake, hin]
      rw [hstake]
      exact neededFavor_eq_zero h

theorem divCeil_requirementDivisor_toNat (a : UInt64) :
    (divCeil a requirementDivisor).toNat = (a.toNat + 4) / 5 := by
  have ha := a.toNat_lt
  unfold divCeil requirementDivisor
  split_ifs with h
  · have hmod : 0 < a.toNat % 5 := by
      simpa [UInt64.lt_iff_toNat_lt, UInt64.toNat_mod] using h
    rw [UInt64.toNat_add, UInt64.toNat_div]
    simp only [UInt64.reduceToNat, UInt64.toNat_one]
    omega
  · have hmod : a.toNat % 5 = 0 := by
      simpa [UInt64.lt_iff_toNat_lt, UInt64.toNat_mod] using h
    rw [UInt64.toNat_div]
    simp only [UInt64.reduceToNat]
    omega

theorem threshold_of_divCeil_le {total : UInt64} {favor : ℕ} (hover : 4 * total.toNat < 2 ^ 64)
    (h : (divCeil (total * requirementNumerator) requirementDivisor).toNat ≤ favor) :
    4 * total.toNat ≤ 5 * favor := by
  have hmul : (total * requirementNumerator).toNat = 4 * total.toNat := by
    rw [UInt64.toNat_mul, show requirementNumerator.toNat = 4 from rfl, Nat.mod_eq_of_lt (by omega)]
    ring
  rw [divCeil_requirementDivisor_toNat, hmul] at h
  omega

end Stakes

/-! ## Tallies -/

section Tally

variable [DecidableEq K] [DecidableEq Id]

theorem tallyForNetwork_ok {signalId : SignalId Id} {network : NetworkId} {rt rt' : Runtime K Id}
    {inFavor : Bool} (h : tallyForNetwork signalId network rt = .ok (inFavor, rt')) :
    ∃ session total needed, latestDecidedSession rt.validatorSets network = some session ∧
      rt.validatorSets.totalAllocatedStake network = some total ∧
      neededFavor rt.validatorSets network (rt.signals.favors (signalId, network))
        (divCeil (total * requirementNumerator) requirementDivisor) = some needed ∧
      inFavor = (needed == 0) ∧ rt' = rt.setSetInFavor (signalId, ⟨session, network⟩) (needed == 0) := by
  unfold tallyForNetwork at h
  cases hs : latestDecidedSession rt.validatorSets network with
  | none => simp [hs, unwrapOrPanic, bind, Except.bind] at h
  | some session =>
    cases ht : rt.validatorSets.totalAllocatedStake network with
    | none => simp [hs, ht, unwrapOrPanic, bind, Except.bind] at h
    | some total =>
      cases hn : neededFavor rt.validatorSets network (rt.signals.favors (signalId, network))
          (divCeil (total * requirementNumerator) requirementDivisor) with
      | none => simp [hs, ht, hn, unwrapOrPanic, bind, Except.bind] at h
      | some needed =>
        refine ⟨session, total, needed, rfl, rfl, hn, ?_⟩
        simp only [hs, ht, hn, unwrapOrPanic, bind, Except.bind, pure, Except.pure] at h
        -- a write of what `SetsInFavor` already holds changes nothing
        by_cases h0 : needed = 0
        · subst h0
          simp only [if_true, Except.ok.injEq, Prod.mk.injEq] at h
          obtain ⟨rfl, rfl⟩ := h
          refine ⟨rfl, ?_⟩
          split_ifs with hset
          · rfl
          · exact (Runtime.setSetInFavor_self (by simpa using hset)).symm
        · simp only [if_neg h0, Except.ok.injEq, Prod.mk.injEq] at h
          obtain ⟨rfl, rfl⟩ := h
          have hb : (needed == 0) = false := by simpa using h0
          rw [hb]
          refine ⟨rfl, ?_⟩
          split_ifs with hset
          · rfl
          · exact (Runtime.setSetInFavor_self (by simpa using hset)).symm

theorem tallyForNetwork_frame {signalId : SignalId Id} {network : NetworkId} {rt rt' : Runtime K Id}
    {inFavor : Bool} (h : tallyForNetwork signalId network rt = .ok (inFavor, rt')) :
    rt'.base = rt.base ∧ rt'.signals.favors = rt.signals.favors ∧
      rt'.signals.lockedInRetirement = rt.signals.lockedInRetirement := by
  obtain ⟨session, total, needed, -, -, -, -, rfl⟩ := tallyForNetwork_ok h
  simp

omit [DecidableEq K] [DecidableEq Id] in
theorem tallyForAllNetworks_ok {signalId : SignalId Id} {rt : Runtime K Id}
    (h : tallyForAllNetworks signalId rt = .ok true) :
    ∃ totalInFavorStake totalAllocatedStake,
      stakeTally rt signalId networks (0, 0) = some (totalInFavorStake, totalAllocatedStake) ∧
      divCeil (totalAllocatedStake * requirementNumerator) requirementDivisor ≤ totalInFavorStake := by
  unfold tallyForAllNetworks at h
  cases hs : stakeTally rt signalId networks (0, 0) with
  | none => simp [hs, unwrapOrPanic, bind, Except.bind] at h
  | some r =>
    obtain ⟨x, y⟩ := r
    simp only [hs, unwrapOrPanic, bind, Except.bind, pure, Except.pure, Except.ok.injEq,
      decide_eq_true_eq] at h
    exact ⟨x, y, rfl, h⟩

omit [DecidableEq K] [DecidableEq Id] in
theorem stakeTally_toNat {rt : Runtime K Id} {signalId : SignalId Id} :
    ∀ {l : List NetworkId} {a b x y : UInt64}, stakeTally rt signalId l (a, b) = some (x, y) →
      x.toNat = (a.toNat + stakeOf rt.validatorSets (fun set => rt.signals.setsInFavor (signalId, set)) l) % 2 ^ 64 ∧
      y.toNat = (b.toNat + stakeOf rt.validatorSets (fun _ => true) l) % 2 ^ 64
  | [], a, b, x, y, h => by
    simp only [stakeTally, Option.some.injEq, Prod.mk.injEq] at h
    obtain ⟨rfl, rfl⟩ := h
    simp [stakeOf, Nat.mod_eq_of_lt (UInt64.toNat_lt _)]
  | network :: rest, a, b, x, y, h => by
    simp only [stakeTally] at h
    cases hs : latestDecidedSession rt.validatorSets network with
    | none =>
      rw [hs] at h
      simpa [stakeOf, hs] using stakeTally_toNat h
    | some session =>
      rw [hs] at h
      obtain ⟨stake, hstake, h⟩ := Option.bind_eq_some_iff.mp h
      obtain ⟨hx, hy⟩ := stakeTally_toNat h
      simp only [stakeOf, hs, hstake, Option.getD_some, if_true]
      constructor
      · rw [hx]
        split_ifs
        · rw [UInt64.toNat_add, Nat.mod_add_mod, Nat.add_assoc]
        · rw [Nat.zero_add]
      · rw [hy, UInt64.toNat_add, Nat.mod_add_mod, Nat.add_assoc]

theorem network_threshold {signalId : SignalId Id} {network : NetworkId} {rt rt' : Runtime K Id}
    (h : tallyForNetwork signalId network rt = .ok (true, rt'))
    (hover : 4 * decidedStake rt.validatorSets < 2 ^ 64) :
    ∃ total, rt.validatorSets.totalAllocatedStake network = some total ∧
      4 * total.toNat ≤ 5 * favoringStake rt.validatorSets network (rt'.signals.favors (signalId, network)) := by
  obtain ⟨session, total, needed, hs, ht, hn, hin, rfl⟩ := tallyForNetwork_ok h
  have h0 : needed = 0 := by simpa using hin.symm
  subst h0
  have hle : total.toNat ≤ decidedStake rt.validatorSets := by
    have := le_stakeOf (p := fun _ => true) hs rfl (mem_networks network)
    simpa [ht, decidedStake] using this
  refine ⟨total, ht, ?_⟩
  simpa using threshold_of_divCeil_le (by omega) (neededFavor_eq_zero hn)

omit [DecidableEq K] in
theorem all_networks_threshold {signalId : SignalId Id} {rt : Runtime K Id}
    (h : tallyForAllNetworks signalId rt = .ok true) (hover : 4 * decidedStake rt.validatorSets < 2 ^ 64) :
    4 * decidedStake rt.validatorSets ≤ 5 * inFavorStake rt.validatorSets rt.signals signalId := by
  obtain ⟨x, y, hs, hle⟩ := tallyForAllNetworks_ok h
  obtain ⟨hx, hy⟩ := stakeTally_toNat hs
  have hfav := stakeOf_le_decided rt.validatorSets (fun set => rt.signals.setsInFavor (signalId, set)) networks
  unfold decidedStake at hover ⊢
  unfold inFavorStake
  simp only [UInt64.toNat_zero, Nat.zero_add] at hx hy
  rw [Nat.mod_eq_of_lt (by omega)] at hx hy
  have hthreshold := threshold_of_divCeil_le (by omega) (UInt64.le_iff_toNat_le.mp hle)
  rw [hx, hy] at hthreshold
  exact hthreshold

end Tally

/-! ## Calls -/

section Calls

variable [DecidableEq K] [DecidableEq Id] (cfg : Config K Id)

omit [DecidableEq K] [DecidableEq Id] in
theorem ensureSigned_ok {origin : Option K} {account : K} (h : ensureSigned origin = .ok account) :
    origin = some account := by
  cases origin with
  | none => cases h
  | some a => cases h; rfl

theorem failIf_ok {c : Bool} {e : Error} {u : Unit} (h : failIf c e = .ok u) : c = false := by
  cases c with
  | false => rfl
  | true => cases h

omit [DecidableEq K] [DecidableEq Id] in
theorem checkRetirementSignal_ok {signalId : Id} {rt : Runtime K Id}
    (h : checkRetirementSignal cfg signalId rt = .ok ()) :
    rt.signals.lockedInRetirement = none ∧ ∃ signal, rt.signals.registeredRetirementSignals signalId = some signal ∧
      rt.blockNumber ≤ signal.registeredAt + cfg.retirementValidityDuration := by
  unfold checkRetirementSignal at h
  obtain ⟨⟨⟩, hlocked, h⟩ := except_bind_ok h
  cases hr : rt.signals.registeredRetirementSignals signalId with
  | none => simp [hr] at h
  | some signal =>
    simp only [hr] at h
    have hvalid := failIf_ok h
    refine ⟨by simpa using failIf_ok hlocked, signal, rfl, ?_⟩
    simp only [decide_eq_false_iff_not, not_lt] at hvalid
    exact hvalid

omit [DecidableEq K] [DecidableEq Id] in
@[simp] theorem enact_retirement (signalId : Id) (rt : Runtime K Id) :
    enact cfg (.retirement signalId) rt = rt.setLocked (some (signalId, rt.blockNumber + cfg.retirementLockInDuration)) :=
  rfl

omit [DecidableEq K] [DecidableEq Id] in
@[simp] theorem enact_halt_signals (network : NetworkId) (rt : Runtime K Id) :
    (enact cfg (.halt network) rt).signals = rt.signals := rfl

omit [DecidableEq K] in
theorem addFavorIf_frame (c : Prop) [Decidable c] (rt : Runtime K Id) (key : SignalId Id × NetworkId) (account : K) :
    (if c then rt.addFavor key account else rt).base = rt.base ∧
      (if c then rt.addFavor key account else rt).signals.lockedInRetirement = rt.signals.lockedInRetirement := by
  split_ifs <;> exact ⟨rfl, rfl⟩

theorem favor_ok {origin : Option K} {signalId : SignalId Id} {forNetwork : NetworkId} {rt rt' : Runtime K Id}
    (h : favor cfg origin signalId forNetwork rt = .ok rt') :
    ∃ account, origin = some account ∧ checkSignal cfg signalId rt = .ok () ∧
      inSetContains rt.validatorSets forNetwork account = true ∧
      ∃ inFavor rt₂, tallyForNetwork signalId forNetwork
          (if account ∉ rt.signals.favors (signalId, forNetwork) then rt.addFavor (signalId, forNetwork) account
            else rt) = .ok (inFavor, rt₂) ∧
        (rt' = rt₂ ∨ inFavor = true ∧ tallyForAllNetworks signalId rt₂ = .ok true ∧ rt' = enact cfg signalId rt₂) := by
  unfold favor at h
  obtain ⟨account, hacc, h⟩ := except_bind_ok h
  obtain ⟨⟨⟩, hcheck, h⟩ := except_bind_ok h
  obtain ⟨⟨⟩, hvalidator, h⟩ := except_bind_ok h
  obtain ⟨⟨inFavor, rt₂⟩, htally, h⟩ := except_bind_ok h
  refine ⟨account, ensureSigned_ok hacc, hcheck, by simpa using failIf_ok hvalidator, inFavor, rt₂, htally, ?_⟩
  cases inFavor with
  | false =>
    simp only [Bool.false_eq_true, if_false, pure, Except.pure, Except.ok.injEq] at h
    exact .inl h.symm
  | true =>
    simp only [if_true] at h
    obtain ⟨enough, hall, h⟩ := except_bind_ok h
    simp only [pure, Except.pure, Except.ok.injEq] at h
    cases enough with
    | false => exact .inl (by simpa using h.symm)
    | true => exact .inr ⟨rfl, hall, by simpa using h.symm⟩

theorem favor_locked {origin : Option K} {signalId : SignalId Id} {forNetwork : NetworkId} {rt rt' : Runtime K Id}
    (h : favor cfg origin signalId forNetwork rt = .ok rt') :
    (∀ s, signalId = .retirement s → rt.signals.lockedInRetirement = none) ∧
      (rt'.signals.lockedInRetirement = rt.signals.lockedInRetirement ∨
        ∃ s, signalId = .retirement s ∧
          rt'.signals.lockedInRetirement = some (s, rt.blockNumber + cfg.retirementLockInDuration)) := by
  obtain ⟨account, -, hcheck, -, inFavor, rt₂, htally, hrt'⟩ := favor_ok cfg h
  obtain ⟨hbase₂, -, hlocked₂⟩ := tallyForNetwork_frame htally
  obtain ⟨hbase₁, hlocked₁⟩ := addFavorIf_frame (account ∉ rt.signals.favors (signalId, forNetwork)) rt
    (signalId, forNetwork) account
  refine ⟨fun s hs => (checkRetirementSignal_ok cfg (hs ▸ hcheck)).1, ?_⟩
  rcases hrt' with rfl | ⟨-, -, rfl⟩
  · exact .inl (hlocked₂.trans hlocked₁)
  · cases signalId with
    | retirement s =>
      refine .inr ⟨s, rfl, ?_⟩
      simp only [enact_retirement, Runtime.setLocked_lockedInRetirement, Runtime.blockNumber, hbase₂, hbase₁]
    | halt network =>
      rw [enact_halt_signals]
      exact .inl (hlocked₂.trans hlocked₁)

omit [DecidableEq K] in
theorem registerRetirementSignal_locked {origin : Option K} {inFavorOf : Id} {rt rt' : Runtime K Id}
    (h : registerRetirementSignal cfg origin inFavorOf rt = .ok rt') :
    rt.signals.lockedInRetirement = none ∧ rt'.signals.lockedInRetirement = rt.signals.lockedInRetirement := by
  unfold registerRetirementSignal at h
  obtain ⟨⟨⟩, hlocked, h⟩ := except_bind_ok h
  obtain ⟨account, -, h⟩ := except_bind_ok h
  obtain ⟨⟨⟩, -, h⟩ := except_bind_ok h
  simp only [pure, Except.pure, Except.ok.injEq] at h
  subst h
  exact ⟨by simpa using failIf_ok hlocked, rfl⟩

theorem revokeRetirementSignal_ok {origin : Option K} {retirementSignalId : Id} {rt rt' : Runtime K Id}
    (h : revokeRetirementSignal origin retirementSignalId rt = .ok rt') :
    ∃ signal, rt.signals.registeredRetirementSignals retirementSignalId = some signal ∧
      origin = some signal.registrant ∧
      rt' = if rt.signals.lockedInRetirement.map Prod.fst = some retirementSignalId then
          (rt.setRegistered retirementSignalId none).setLocked none
        else rt.setRegistered retirementSignalId none := by
  unfold revokeRetirementSignal at h
  obtain ⟨account, hacc, h⟩ := except_bind_ok h
  cases hr : rt.signals.registeredRetirementSignals retirementSignalId with
  | none => simp [hr] at h
  | some signal =>
    simp only [hr] at h
    obtain ⟨⟨⟩, hregistrant, h⟩ := except_bind_ok h
    have haccount : account = signal.registrant := by simpa using failIf_ok hregistrant
    refine ⟨signal, rfl, haccount ▸ ensureSigned_ok hacc, ?_⟩
    simp only [Runtime.setRegistered_lockedInRetirement] at h
    split_ifs at h ⊢ with hc <;> simpa [hc, pure, Except.pure] using h.symm

theorem revokeFavorInternal_locked {account : K} {signalId : SignalId Id} {forNetwork : NetworkId}
    {rt rt' : Runtime K Id} (h : revokeFavorInternal account signalId forNetwork rt = .ok rt') :
    rt'.signals.lockedInRetirement = rt.signals.lockedInRetirement := by
  unfold revokeFavorInternal at h
  obtain ⟨⟨⟩, -, h⟩ := except_bind_ok h
  obtain ⟨⟨inFavor, rt₂⟩, htally, h⟩ := except_bind_ok h
  simp only [pure, Except.pure, Except.ok.injEq] at h
  subst h
  rw [(tallyForNetwork_frame htally).2.2, Runtime.removeFavor_lockedInRetirement]

theorem revokeFavor_locked {origin : Option K} {signalId : SignalId Id} {forNetwork : NetworkId}
    {rt rt' : Runtime K Id} (h : revokeFavor origin signalId forNetwork rt = .ok rt') :
    (signalId.isRetirement = true → rt.signals.lockedInRetirement = none) ∧
      rt'.signals.lockedInRetirement = rt.signals.lockedInRetirement := by
  unfold revokeFavor at h
  obtain ⟨⟨⟩, hlocked, h⟩ := except_bind_ok h
  obtain ⟨account, -, h⟩ := except_bind_ok h
  exact ⟨fun hr => by simpa [hr] using failIf_ok hlocked, revokeFavorInternal_locked h⟩

theorem standAgainst_locked {origin : Option K} {signalId : SignalId Id} {forNetwork : NetworkId}
    {rt rt' : Runtime K Id} (h : standAgainst origin signalId forNetwork rt = .ok rt') :
    rt.signals.lockedInRetirement = none ∧ rt'.signals.lockedInRetirement = rt.signals.lockedInRetirement := by
  unfold standAgainst at h
  obtain ⟨⟨⟩, hlocked, h⟩ := except_bind_ok h
  obtain ⟨account, -, h⟩ := except_bind_ok h
  refine ⟨by simpa using failIf_ok hlocked, ?_⟩
  split_ifs at h
  · exact revokeFavorInternal_locked h
  · cases signalId with
    | retirement signalId =>
      obtain ⟨⟨⟩, -, h⟩ := except_bind_ok h
      cases h
      rfl
    | halt network =>
      cases h
      rfl

theorem dispatch_locks {origin : Option K} {call : Call Id} {rt rt' : Runtime K Id} {s : Id} {b : ℕ}
    (h : dispatch cfg origin call rt = .ok rt') (h0 : rt.signals.lockedInRetirement = none)
    (h1 : rt'.signals.lockedInRetirement = some (s, b)) :
    ∃ network, call = .favor (.retirement s) network := by
  cases call with
  | registerRetirementSignal inFavorOf =>
    rw [(registerRetirementSignal_locked cfg h).2, h0] at h1
    cases h1
  | revokeRetirementSignal retirementSignalId =>
    obtain ⟨signal, -, -, rfl⟩ := revokeRetirementSignal_ok h
    split_ifs at h1 <;> simp [h0] at h1
  | favor signalId network =>
    rcases (favor_locked cfg h).2 with hsame | ⟨s', rfl, hs'⟩
    · rw [hsame, h0] at h1
      cases h1
    · rw [hs'] at h1
      cases h1
      exact ⟨network, rfl⟩
  | revokeFavor signalId network =>
    rw [(revokeFavor_locked h).2, h0] at h1
    cases h1
  | standAgainst signalId network =>
    rw [(standAgainst_locked h).2, h0] at h1
    cases h1

theorem dispatch_of_locked {origin : Option K} {call : Call Id} {rt rt' : Runtime K Id} {s : Id} {b : ℕ}
    (h : dispatch cfg origin call rt = .ok rt') (hl : rt.signals.lockedInRetirement = some (s, b)) :
    rt'.signals.lockedInRetirement = some (s, b) ∨
      rt'.signals.lockedInRetirement = none ∧ ∃ signal, rt.signals.registeredRetirementSignals s = some signal ∧
        dispatch cfg (some signal.registrant) (.revokeRetirementSignal s) rt = .ok rt' := by
  cases call with
  | registerRetirementSignal inFavorOf =>
    rw [(registerRetirementSignal_locked cfg h).1] at hl
    cases hl
  | revokeRetirementSignal retirementSignalId =>
    obtain ⟨signal, hr, horigin, hrt'⟩ := revokeRetirementSignal_ok h
    by_cases hid : retirementSignalId = s
    · -- the revocation of the locked-in signal
      subst hid
      refine .inr ⟨?_, signal, hr, horigin ▸ h⟩
      rw [hrt', if_pos (by simp [hl])]
      rfl
    · left
      rw [hrt', if_neg (by simp [hl, Ne.symm hid])]
      exact hl
  | favor signalId network =>
    obtain ⟨hretirement, hlock⟩ := favor_locked cfg h
    rcases hlock with hsame | ⟨s', rfl, -⟩
    · exact .inl (hsame.trans hl)
    · rw [hretirement s' rfl] at hl
      cases hl
  | revokeFavor signalId network =>
    exact .inl ((revokeFavor_locked h).2.trans hl)
  | standAgainst signalId network =>
    rw [(standAgainst_locked h).1] at hl
    cases hl

theorem dispatch_blocked {rt : Runtime K Id} {s : Id} {b : ℕ} (hl : rt.signals.lockedInRetirement = some (s, b))
    (origin : Option K) :
    (∀ inFavorOf, ∃ e, dispatch cfg origin (.registerRetirementSignal inFavorOf) rt = .error e) ∧
      (∀ signalId network, ∃ e, dispatch cfg origin (.favor (.retirement signalId) network) rt = .error e) ∧
      (∀ signalId network, ∃ e, dispatch cfg origin (.revokeFavor (.retirement signalId) network) rt = .error e) ∧
      (∀ signalId network, ∃ e, dispatch cfg origin (.standAgainst signalId network) rt = .error e) := by
  refine ⟨fun inFavorOf => ?_, fun signalId network => ?_, fun signalId network => ?_, fun signalId network => ?_⟩
  · cases hd : dispatch cfg origin (.registerRetirementSignal inFavorOf) rt with
    | error e => exact ⟨e, rfl⟩
    | ok rt' =>
      rw [(registerRetirementSignal_locked cfg hd).1] at hl
      cases hl
  · cases hd : dispatch cfg origin (.favor (.retirement signalId) network) rt with
    | error e => exact ⟨e, rfl⟩
    | ok rt' =>
      rw [(favor_locked cfg hd).1 signalId rfl] at hl
      cases hl
  · cases hd : dispatch cfg origin (.revokeFavor (.retirement signalId) network) rt with
    | error e => exact ⟨e, rfl⟩
    | ok rt' =>
      rw [(revokeFavor_locked hd).1 rfl] at hl
      cases hl
  · cases hd : dispatch cfg origin (.standAgainst signalId network) rt with
    | error e => exact ⟨e, rfl⟩
    | ok rt' =>
      rw [(standAgainst_locked hd).1] at hl
      cases hl

theorem favor_locks {origin : Option K} {s : Id} {network : NetworkId} {rt rt' : Runtime K Id} {b : ℕ}
    (h : favor cfg origin (.retirement s) network rt = .ok rt')
    (h0 : rt.signals.lockedInRetirement = none) (h1 : rt'.signals.lockedInRetirement = some (s, b))
    (hover : 4 * decidedStake rt.validatorSets < 2 ^ 64) :
    ∃ account, origin = some account ∧ b = rt.blockNumber + cfg.retirementLockInDuration ∧
      (∃ signal, rt.signals.registeredRetirementSignals s = some signal ∧
        rt.blockNumber ≤ signal.registeredAt + cfg.retirementValidityDuration) ∧
      inSetContains rt.validatorSets network account ∧
      (∃ total, rt.validatorSets.totalAllocatedStake network = some total ∧
        4 * total.toNat ≤ 5 * favoringStake rt.validatorSets network (rt'.signals.favors (.retirement s, network))) ∧
      4 * decidedStake rt.validatorSets ≤ 5 * inFavorStake rt.validatorSets rt'.signals (.retirement s) := by
  obtain ⟨account, rfl, hcheck, hin, inFavor, rt₂, htally, hrt'⟩ := favor_ok cfg h
  obtain ⟨-, hsignal⟩ := checkRetirementSignal_ok cfg hcheck
  obtain ⟨hbase₁, hlocked₁⟩ :=
    addFavorIf_frame (account ∉ rt.signals.favors (.retirement s, network)) rt (.retirement s, network) account
  obtain ⟨hbase₂, -, hlocked₂⟩ := tallyForNetwork_frame htally
  have hvs₁ : (if account ∉ rt.signals.favors (.retirement s, network) then
      rt.addFavor (.retirement s, network) account else rt).validatorSets = rt.validatorSets :=
    congrArg InInstructions.Runtime.validatorSets hbase₁
  have hvs₂ : rt₂.validatorSets = rt.validatorSets :=
    congrArg InInstructions.Runtime.validatorSets (hbase₂.trans hbase₁)
  -- the network's tally leaves the lock unset, so the favor enacted the signal
  rcases hrt' with rfl | ⟨rfl, hall, rfl⟩
  · rw [hlocked₂, hlocked₁, h0] at h1
    cases h1
  · have hb : rt₂.blockNumber = rt.blockNumber := congrArg InInstructions.Runtime.blockNumber (hbase₂.trans hbase₁)
    have hb₁ : rt₂.blockNumber + cfg.retirementLockInDuration = b := by simpa using h1
    obtain ⟨total, ht, hle⟩ := network_threshold htally (by rwa [hvs₁])
    rw [hvs₁] at ht hle
    have hall' := all_networks_threshold hall (by rwa [hvs₂])
    rw [hvs₂] at hall'
    exact ⟨account, rfl, by rw [← hb₁, hb], hsignal, hin, ⟨total, ht, hle⟩, hall'⟩

theorem step_signals {rt rt' : Runtime K Id} (h : Step cfg rt rt') :
    (∃ origin call, dispatch cfg origin call rt = .ok rt') ∨ rt'.signals = rt.signals := by
  cases h with
  | extrinsic origin call h => exact .inl ⟨origin, call, h⟩
  | others base hbase => exact .inr rfl
  | newBlock hinit => exact .inr rfl

end Calls

/-! ## The lock over every step -/

/-- Two validators, `0` and `1`, with `2 ^ 61` each on Bitcoin and 1 each on Serai. -/
def wrappingSets : ValidatorSets.St ℕ :=
  state (ValidatorSets.genesisBuild ⟨100, fun _ _ key => key⟩ [(.serai, 1), (.bitcoin, 2 ^ 61)] [0, 1]
    (ValidatorSets.St.empty ⟨fun _ => 0, fun _ => 0⟩))

/-- Block 0 after the genesis build, with the signal `0` just registered by `0`. -/
def wrappingRuntime : Runtime ℕ ℕ :=
  Runtime.setRegistered ⟨⟨0, wrappingSets, InInstructions.St.empty, ⟨Coins.St.empty, fun _ => false⟩⟩, St.empty⟩ 0 (some ⟨0, 0, 0⟩)

def wrappingConfig : Config ℕ ℕ := ⟨1, 2, by decide, fun _ => 0⟩

theorem retirement_lock_in [DecidableEq K] [DecidableEq Id] (cfg : Config K Id) :
    (∀ rt rt' s b, Step cfg rt rt' → rt.signals.lockedInRetirement = none →
      rt'.signals.lockedInRetirement = some (s, b) → 4 * decidedStake rt.validatorSets < 2 ^ 64 →
      ∃ account network, dispatch cfg (some account) (.favor (.retirement s) network) rt = .ok rt' ∧
        b = rt.blockNumber + cfg.retirementLockInDuration ∧
        (∃ signal, rt.signals.registeredRetirementSignals s = some signal ∧
          rt.blockNumber ≤ signal.registeredAt + cfg.retirementValidityDuration) ∧
        inSetContains rt.validatorSets network account ∧
        (∃ total, rt.validatorSets.totalAllocatedStake network = some total ∧
          4 * total.toNat ≤ 5 * favoringStake rt.validatorSets network (rt'.signals.favors (.retirement s, network))) ∧
        4 * decidedStake rt.validatorSets ≤ 5 * inFavorStake rt.validatorSets rt'.signals (.retirement s)) ∧
    (∀ rt rt' s b, Step cfg rt rt' → rt.signals.lockedInRetirement = some (s, b) →
      rt'.signals.lockedInRetirement = some (s, b) ∨
        rt'.signals.lockedInRetirement = none ∧ ∃ signal, rt.signals.registeredRetirementSignals s = some signal ∧
          dispatch cfg (some signal.registrant) (.revokeRetirementSignal s) rt = .ok rt') ∧
    (∀ rt s b origin, rt.signals.lockedInRetirement = some (s, b) →
      (∀ inFavorOf, ∃ e, dispatch cfg origin (.registerRetirementSignal inFavorOf) rt = .error e) ∧
      (∀ signalId network, ∃ e, dispatch cfg origin (.favor (.retirement signalId) network) rt = .error e) ∧
      (∀ signalId network, ∃ e, dispatch cfg origin (.revokeFavor (.retirement signalId) network) rt = .error e) ∧
      (∀ signalId network, ∃ e, dispatch cfg origin (.standAgainst signalId network) rt = .error e)) := by
  refine ⟨fun rt rt' s b hstep h0 h1 hover => ?_, fun rt rt' s b hstep hl => ?_,
    fun rt s b origin hl => dispatch_blocked cfg hl origin⟩
  · rcases step_signals cfg hstep with ⟨origin, call, h⟩ | hsame
    · obtain ⟨network, rfl⟩ := dispatch_locks cfg h h0 h1
      obtain ⟨account, rfl, hb, hsignal, hin, hnetwork, hall⟩ := favor_locks cfg h h0 h1 hover
      exact ⟨account, network, h, hb, hsignal, hin, hnetwork, hall⟩
    · rw [hsame, h0] at h1
      cases h1
  · rcases step_signals cfg hstep with ⟨origin, call, h⟩ | hsame
    · exact dispatch_of_locked cfg h hl
    · exact .inl (hsame ▸ hl)

/-- While a retirement is locked in, registering another fails. -/
theorem retirement_lock_in_blocks_registration :
    ∃ e, dispatch wrappingConfig (some 0) (.registerRetirementSignal 1) (wrappingRuntime.setLocked (some (0, 2))) =
      .error e :=
  ((retirement_lock_in wrappingConfig).2.2 _ 0 2 (some 0) rfl).1 1

theorem retirement_locks_in_below_threshold :
    ∃ rt', Step wrappingConfig wrappingRuntime rt' ∧ wrappingRuntime.signals.lockedInRetirement = none ∧
      rt'.signals.lockedInRetirement = some (0, 2) ∧
      wrappingRuntime.validatorSets.totalAllocatedStake .bitcoin = some (2 ^ 62) ∧
      5 * favoringStake wrappingRuntime.validatorSets .bitcoin (rt'.signals.favors (.retirement 0, .bitcoin)) <
        4 * 2 ^ 62 := by
  obtain ⟨rt', h, hrt'⟩ := exists_ok_of_toOption
    (f := fun rt' : Runtime ℕ ℕ => (rt'.signals.lockedInRetirement,
      favoringStake wrappingRuntime.validatorSets .bitcoin (rt'.signals.favors (.retirement 0, .bitcoin))))
    (show (dispatch wrappingConfig (some 0) (.favor (.retirement 0) .bitcoin) wrappingRuntime).toOption.map _ =
      some (some (0, 2), 2 ^ 61) by decide +kernel)
  simp only [Prod.mk.injEq] at hrt'
  refine ⟨rt', .extrinsic _ _ h, rfl, hrt'.1, by decide +kernel, ?_⟩
  rw [hrt'.2]
  norm_num

end Serai.Signals
