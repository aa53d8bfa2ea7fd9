import Mathlib
import Serai.InInstructions.Pallet
/-
  Serai.Signals.Pallet — the signals pallet (substrate/signals/pallet): retirement signals,
  registered by a developer and revocable by them, and the favor of validators for a
  signal, tallied per network against its latest decided set and then across networks.
  A retirement signal favored by 80% of every network's stake and 80% of all stake is
  locked in (`LockedInRetirement`) until the lock-in duration has passed, when
  `on_initialize` halts the chain; a halt signal halts a network's in-instructions.

  A call runs over `Runtime`: the in-instructions runtime (the block number, the
  validator-sets pallet the tallies read, the in-instructions pallet a halt writes) and
  the pallet's storage. An extrinsic's writes are kept only when it succeeds, so a call
  is a function to the runtime it leaves or to its error. Events and weights are not
  modelled. Stakes are `u64` as the code has them: `* REQUIREMENT_NUMERATOR` and the
  cross-network sums wrap.
-/

namespace Serai.Signals

open Serai.ValidatorSets (ValidatorSet inSetContains allocation latestDecidedSession)

variable {K Id : Type}

/-- `REQUIREMENT_NUMERATOR / REQUIREMENT_DIVISOR`: 80%. -/
def requirementNumerator : UInt64 := 4

def requirementDivisor : UInt64 := 5

inductive SignalId (Id : Type) where
  | retirement (signalId : Id)
  | halt (network : NetworkId)
  deriving DecidableEq, Repr

def SignalId.isRetirement : SignalId Id → Bool
  | .retirement _ => true
  | .halt _ => false

structure RegisteredRetirementSignal (K Id : Type) where
  inFavorOf : Id
  registrant : K
  registeredAt : ℕ

/-- The pallet's storage. -/
structure St (K Id : Type) where
  registeredRetirementSignals : Id → Option (RegisteredRetirementSignal K Id)
  /-- `Favors`: the accounts under each `(signal, network)` prefix, in the order its
      iterator visits them. -/
  favors : SignalId Id × NetworkId → List K
  setsInFavor : SignalId Id × ValidatorSet → Bool
  lockedInRetirement : Option (Id × ℕ)

/-- Empty storage: the genesis build only asserts the durations. -/
def St.empty : St K Id := ⟨fun _ => none, fun _ => [], fun _ => false, none⟩

structure Runtime (K Id : Type) where
  base : InInstructions.Runtime K
  signals : St K Id

/-- The pallet's `Config`: its two durations, whose order the genesis build asserts, and
    `RegisteredRetirementSignal::id`, the Blake2 hash of `b"Signal"` and the encoded
    signal. -/
structure Config (K Id : Type) where
  retirementValidityDuration : ℕ
  retirementLockInDuration : ℕ
  validity_lt_lockIn : retirementValidityDuration < retirementLockInDuration
  id : RegisteredRetirementSignal K Id → Id

inductive Error where
  | retirementSignalLockedIn
  | retirementSignalAlreadyRegistered
  | notRetirementSignalRegistrant
  | nonExistentRetirementSignal
  | expiredRetirementSignal
  | notValidator
  | revokingNonExistentFavor
  deriving DecidableEq, Repr

inductive Fail where
  | signals (e : Error)
  | badOrigin
  | panic
  deriving DecidableEq, Repr

namespace Runtime

def blockNumber (rt : Runtime K Id) : ℕ := rt.base.blockNumber

def validatorSets (rt : Runtime K Id) : ValidatorSets.St K := rt.base.validatorSets

def setLocked (rt : Runtime K Id) (locked : Option (Id × ℕ)) : Runtime K Id :=
  { rt with signals := { rt.signals with lockedInRetirement := locked } }

@[simp] theorem setLocked_lockedInRetirement (rt : Runtime K Id) (locked : Option (Id × ℕ)) :
    (rt.setLocked locked).signals.lockedInRetirement = locked := rfl

@[simp] theorem setLocked_setsInFavor (rt : Runtime K Id) (locked : Option (Id × ℕ)) :
    (rt.setLocked locked).signals.setsInFavor = rt.signals.setsInFavor := rfl

@[simp] theorem setLocked_favors (rt : Runtime K Id) (locked : Option (Id × ℕ)) :
    (rt.setLocked locked).signals.favors = rt.signals.favors := rfl

@[simp] theorem setLocked_base (rt : Runtime K Id) (locked : Option (Id × ℕ)) :
    (rt.setLocked locked).base = rt.base := rfl

variable [DecidableEq Id]

def setRegistered (rt : Runtime K Id) (signalId : Id) (signal : Option (RegisteredRetirementSignal K Id)) :
    Runtime K Id :=
  { rt with signals := { rt.signals with
      registeredRetirementSignals := Function.update rt.signals.registeredRetirementSignals signalId signal } }

def addFavor (rt : Runtime K Id) (key : SignalId Id × NetworkId) (account : K) : Runtime K Id :=
  { rt with signals := { rt.signals with
      favors := Function.update rt.signals.favors key (rt.signals.favors key ++ [account]) } }

def setSetInFavor (rt : Runtime K Id) (key : SignalId Id × ValidatorSet) (inFavor : Bool) : Runtime K Id :=
  { rt with signals := { rt.signals with
      setsInFavor := Function.update rt.signals.setsInFavor key inFavor } }

@[simp] theorem setRegistered_lockedInRetirement (rt : Runtime K Id) (signalId : Id)
    (signal : Option (RegisteredRetirementSignal K Id)) :
    (rt.setRegistered signalId signal).signals.lockedInRetirement = rt.signals.lockedInRetirement := rfl

@[simp] theorem addFavor_base (rt : Runtime K Id) (key : SignalId Id × NetworkId) (account : K) :
    (rt.addFavor key account).base = rt.base := rfl

@[simp] theorem addFavor_lockedInRetirement (rt : Runtime K Id) (key : SignalId Id × NetworkId) (account : K) :
    (rt.addFavor key account).signals.lockedInRetirement = rt.signals.lockedInRetirement := rfl

@[simp] theorem setSetInFavor_base (rt : Runtime K Id) (key : SignalId Id × ValidatorSet) (inFavor : Bool) :
    (rt.setSetInFavor key inFavor).base = rt.base := rfl

@[simp] theorem setSetInFavor_favors (rt : Runtime K Id) (key : SignalId Id × ValidatorSet) (inFavor : Bool) :
    (rt.setSetInFavor key inFavor).signals.favors = rt.signals.favors := rfl

theorem setSetInFavor_self {rt : Runtime K Id} {key : SignalId Id × ValidatorSet} {inFavor : Bool}
    (h : rt.signals.setsInFavor key = inFavor) : rt.setSetInFavor key inFavor = rt := by
  unfold setSetInFavor
  rw [← h, Function.update_eq_self]

@[simp] theorem setSetInFavor_lockedInRetirement (rt : Runtime K Id) (key : SignalId Id × ValidatorSet)
    (inFavor : Bool) : (rt.setSetInFavor key inFavor).signals.lockedInRetirement = rt.signals.lockedInRetirement :=
  rfl

variable [DecidableEq K]

def removeFavor (rt : Runtime K Id) (key : SignalId Id × NetworkId) (account : K) : Runtime K Id :=
  { rt with signals := { rt.signals with
      favors := Function.update rt.signals.favors key ((rt.signals.favors key).erase account) } }

@[simp] theorem removeFavor_base (rt : Runtime K Id) (key : SignalId Id × NetworkId) (account : K) :
    (rt.removeFavor key account).base = rt.base := rfl

@[simp] theorem removeFavor_lockedInRetirement (rt : Runtime K Id) (key : SignalId Id × NetworkId) (account : K) :
    (rt.removeFavor key account).signals.lockedInRetirement = rt.signals.lockedInRetirement := rfl

end Runtime

/-- `ensure_signed`. -/
def ensureSigned (origin : Option K) : Except Fail K :=
  match origin with
  | some account => .ok account
  | none => .error .badOrigin

/-- An `unwrap`. -/
def unwrapOrPanic {α : Type} : Option α → Except Fail α
  | some a => .ok a
  | none => .error .panic

/-- `Err(e)?` when `c` holds. -/
def failIf (c : Bool) (e : Error) : Except Fail Unit :=
  if c then .error (.signals e) else .ok ()

/-! ## Tallies -/

section Tally

variable [DecidableEq K]

/-- The loop of `tally_for_network` over `Favors`: while favor is still needed, each
    account of the latest decided set takes its current allocation off, saturating; `none`
    for the `unwrap` of a member without an allocation. -/
def neededFavor (vs : ValidatorSets.St K) (network : NetworkId) : List K → UInt64 → Option UInt64
  | [], needed => some needed
  | account :: rest, needed =>
    -- `iter.next().is_some() && (needed_favor != 0)`: the account is taken first
    if needed = 0 then some needed
    else if inSetContains vs network account then
      (allocation vs network account).bind fun a => neededFavor vs network rest (saturatingSub needed a)
    else neededFavor vs network rest needed

variable [DecidableEq Id]

/-- `tally_for_network`: whether the network's latest decided set favors the signal, which
    `SetsInFavor` records until the next tally. -/
def tallyForNetwork (signalId : SignalId Id) (network : NetworkId) (rt : Runtime K Id) :
    Except Fail (Bool × Runtime K Id) := do
  let thisNetworkSession ← unwrapOrPanic (latestDecidedSession rt.validatorSets network)
  let thisSet : ValidatorSet := ⟨thisNetworkSession, network⟩
  let total ← unwrapOrPanic (rt.validatorSets.totalAllocatedStake network)
  let needed ← unwrapOrPanic (neededFavor rt.validatorSets network (rt.signals.favors (signalId, network))
    (divCeil (total * requirementNumerator) requirementDivisor))
  if needed = 0 then
    let rt := if !rt.signals.setsInFavor (signalId, thisSet) then rt.setSetInFavor (signalId, thisSet) true else rt
    pure (true, rt)
  else
    let rt := if rt.signals.setsInFavor (signalId, thisSet) then rt.setSetInFavor (signalId, thisSet) false else rt
    pure (false, rt)

/-- The loop of `tally_for_all_networks` over the networks with a decided session: the stake
    of those whose latest decided set is in favor and the stake of all, each summed with
    `u64`'s wrapping `+=`; `none` for the `unwrap` of a missing stake. -/
def stakeTally (rt : Runtime K Id) (signalId : SignalId Id) :
    List NetworkId → UInt64 × UInt64 → Option (UInt64 × UInt64)
  | [], acc => some acc
  | network :: rest, (totalInFavorStake, totalAllocatedStake) =>
    match latestDecidedSession rt.validatorSets network with
    | none => stakeTally rt signalId rest (totalInFavorStake, totalAllocatedStake)
    | some session =>
      (rt.validatorSets.totalAllocatedStake network).bind fun networkStake =>
        let totalInFavorStake :=
          if rt.signals.setsInFavor (signalId, ⟨session, network⟩) then totalInFavorStake + networkStake
          else totalInFavorStake
        stakeTally rt signalId rest (totalInFavorStake, totalAllocatedStake + networkStake)

/-- `tally_for_all_networks`. -/
def tallyForAllNetworks (signalId : SignalId Id) (rt : Runtime K Id) : Except Fail Bool := do
  let (totalInFavorStake, totalAllocatedStake) ← unwrapOrPanic (stakeTally rt signalId networks (0, 0))
  pure (divCeil (totalAllocatedStake * requirementNumerator) requirementDivisor ≤ totalInFavorStake)

/-- `revoke_favor_internal`: the network is re-tallied, the result dropped. -/
def revokeFavorInternal (account : K) (signalId : SignalId Id) (forNetwork : NetworkId) (rt : Runtime K Id) :
    Except Fail (Runtime K Id) := do
  failIf (account ∉ rt.signals.favors (signalId, forNetwork)) .revokingNonExistentFavor
  let rt := rt.removeFavor (signalId, forNetwork) account
  let (_, rt) ← tallyForNetwork signalId forNetwork rt
  pure rt

end Tally

/-! ## Calls -/

section Calls

variable [DecidableEq K] [DecidableEq Id] (cfg : Config K Id)

def registerRetirementSignal (origin : Option K) (inFavorOf : Id) (rt : Runtime K Id) :
    Except Fail (Runtime K Id) := do
  failIf rt.signals.lockedInRetirement.isSome .retirementSignalLockedIn
  let account ← ensureSigned origin
  -- the ID binds the registrant, so no one else can register it first and revoke it
  let signal : RegisteredRetirementSignal K Id := ⟨inFavorOf, account, rt.blockNumber⟩
  let signalId := cfg.id signal
  failIf (rt.signals.registeredRetirementSignals signalId).isSome .retirementSignalAlreadyRegistered
  pure (rt.setRegistered signalId (some signal))

def revokeRetirementSignal (origin : Option K) (retirementSignalId : Id) (rt : Runtime K Id) :
    Except Fail (Runtime K Id) := do
  let account ← ensureSigned origin
  let some registeredSignal := rt.signals.registeredRetirementSignals retirementSignalId
    | .error (.signals .nonExistentRetirementSignal)
  failIf (account ≠ registeredSignal.registrant) .notRetirementSignalRegistrant
  let rt := rt.setRegistered retirementSignalId none
  -- a signal locked in is unlocked by its revocation
  if rt.signals.lockedInRetirement.map Prod.fst = some retirementSignalId then pure (rt.setLocked none)
  else pure rt

/-- The checks `favor` makes of a retirement signal. -/
def checkRetirementSignal (signalId : Id) (rt : Runtime K Id) : Except Fail Unit := do
  failIf rt.signals.lockedInRetirement.isSome .retirementSignalLockedIn
  let some registeredSignal := rt.signals.registeredRetirementSignals signalId
    | .error (.signals .nonExistentRetirementSignal)
  failIf (registeredSignal.registeredAt + cfg.retirementValidityDuration < rt.blockNumber) .expiredRetirementSignal

/-- What a signal favored by enough stake does: a retirement is locked in, a network halted. -/
def enact (signalId : SignalId Id) (rt : Runtime K Id) : Runtime K Id :=
  match signalId with
  | .retirement signalId => rt.setLocked (some (signalId, rt.blockNumber + cfg.retirementLockInDuration))
  | .halt network => { rt with base := InInstructions.halt network rt.base }

/-- The checks `favor` makes of a signal: a halt signal has none. -/
def checkSignal (signalId : SignalId Id) (rt : Runtime K Id) : Except Fail Unit :=
  match signalId with
  | .retirement signalId => checkRetirementSignal cfg signalId rt
  | .halt _ => pure ()

def favor (origin : Option K) (signalId : SignalId Id) (forNetwork : NetworkId) (rt : Runtime K Id) :
    Except Fail (Runtime K Id) := do
  let account ← ensureSigned origin
  checkSignal cfg signalId rt
  failIf (!inSetContains rt.validatorSets forNetwork account) .notValidator
  -- a repeated favor re-tallies
  let rt := if account ∉ rt.signals.favors (signalId, forNetwork) then rt.addFavor (signalId, forNetwork) account
    else rt
  let (networkInFavor, rt) ← tallyForNetwork signalId forNetwork rt
  if networkInFavor then
    let enough ← tallyForAllNetworks signalId rt
    pure (if enough then enact cfg signalId rt else rt)
  else pure rt

def revokeFavor (origin : Option K) (signalId : SignalId Id) (forNetwork : NetworkId) (rt : Runtime K Id) :
    Except Fail (Runtime K Id) := do
  failIf (signalId.isRetirement && rt.signals.lockedInRetirement.isSome) .retirementSignalLockedIn
  revokeFavorInternal (← ensureSigned origin) signalId forNetwork rt

def standAgainst (origin : Option K) (signalId : SignalId Id) (forNetwork : NetworkId) (rt : Runtime K Id) :
    Except Fail (Runtime K Id) := do
  failIf rt.signals.lockedInRetirement.isSome .retirementSignalLockedIn
  let account ← ensureSigned origin
  if account ∈ rt.signals.favors (signalId, forNetwork) then revokeFavorInternal account signalId forNetwork rt
  else
    match signalId with
    | .retirement signalId =>
      failIf (rt.signals.registeredRetirementSignals signalId).isNone .nonExistentRetirementSignal
      pure rt
    | .halt _ => pure rt

/-- `on_initialize`: the block a lock-in ends at is not built. -/
def onInitialize (currentNumber : ℕ) (rt : Runtime K Id) : Except Fail Unit :=
  match rt.signals.lockedInRetirement with
  | some (_, blockNumber) => if blockNumber = currentNumber then .error .panic else .ok ()
  | none => .ok ()

inductive Call (Id : Type) where
  | registerRetirementSignal (inFavorOf : Id)
  | revokeRetirementSignal (retirementSignalId : Id)
  | favor (signalId : SignalId Id) (forNetwork : NetworkId)
  | revokeFavor (signalId : SignalId Id) (forNetwork : NetworkId)
  | standAgainst (signalId : SignalId Id) (forNetwork : NetworkId)

/-- An extrinsic of the pallet. -/
def dispatch (origin : Option K) : Call Id → Runtime K Id → Except Fail (Runtime K Id)
  | .registerRetirementSignal inFavorOf => registerRetirementSignal cfg origin inFavorOf
  | .revokeRetirementSignal retirementSignalId => revokeRetirementSignal origin retirementSignalId
  | .favor signalId forNetwork => favor cfg origin signalId forNetwork
  | .revokeFavor signalId forNetwork => revokeFavor origin signalId forNetwork
  | .standAgainst signalId forNetwork => standAgainst origin signalId forNetwork

/-- Every way the runtime changes: an extrinsic of the pallet that succeeds, anything the
    other pallets do within a block (the validator sets changing among them), and a new
    block, which `on_initialize` lets through. -/
inductive Step : Runtime K Id → Runtime K Id → Prop
  | extrinsic {rt rt' : Runtime K Id} (origin : Option K) (call : Call Id)
      (h : dispatch cfg origin call rt = .ok rt') : Step rt rt'
  | others {rt : Runtime K Id} (base : InInstructions.Runtime K) (h : base.blockNumber = rt.base.blockNumber) :
      Step rt { rt with base := base }
  | newBlock {rt : Runtime K Id} (h : onInitialize (rt.blockNumber + 1) rt = .ok ()) :
      Step rt { rt with base := { rt.base with blockNumber := rt.base.blockNumber + 1 } }

end Calls

end Serai.Signals
