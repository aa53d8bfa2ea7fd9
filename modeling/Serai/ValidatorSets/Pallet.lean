import Mathlib
import Serai.Coins.Pallet
/-
  Serai.ValidatorSets.Pallet — the validator-sets pallet (substrate/validator-sets/pallet,
  with `amortize_excess_key_shares` and `post_amortization_key_shares_for_top_validator`
  from its primitives).

  Storage: the current session of each network, the allocation per key share, the
  participants of the latest decided set and `InSet`, `TotalAllocatedStake`,
  `Allocations` and the sorted view `SortedAllocations` kept beside it by
  `set_allocation`, `PendingDeallocations` keyed by the session they unlock on, the key
  pairs of the sets and `PendingSlashReport`. The state also holds what the pallet reads
  of other pallets: BABE's current authorities (`in_set` for Serai), the DEX's
  `SecurityOracleValue` (the required stake), and the coins pallet (stake moves to and
  from the pallet's account, and the slash burns from it).

  Amounts are `u64`. The runtime is built without overflow checks, so a plain `+`, `-`
  or `*` on a `u64` wraps; `checked_*`, `saturating_*` and `Amount`'s own operators
  (which `unwrap` a checked operation) are modelled as written. A division by zero, an
  `unwrap` or `expect` of `None` and a failed `assert` are panics.

  `SortedAllocations` is modelled by its keys `(network, amount, key)`; its iterator
  yields a network's entries in the storage order: larger amounts first (the amount is
  stored in `reverse_lexicographic_order`), equal amounts by the Blake2 hash of
  `(network, amount, key)`, which is a parameter (`hash`). The iteration is the entries
  sorted by that order (by insertion, which computes in the kernel).
-/

namespace Serai.ValidatorSets

open Serai.Lib

/-- `MAX_KEY_SHARES_PER_SET`. -/
def maxKeySharesPerSet : UInt64 := 150

/-- `ValidatorSet`. -/
structure ValidatorSet where
  session : Nat
  network : NetworkId
  deriving DecidableEq, Repr

/-- `KeyPair`: the set's Ristretto key (a `Public`) and its key on the external network. -/
structure KeyPair (K : Type) where
  key : K
  external : List UInt8
  deriving DecidableEq, Repr

/-- The pallet's `Error`. -/
inductive Error where
  | nonExistentValidatorSet
  | insufficientAllocation
  | notEnoughAllocated
  | allocationWouldRemoveFaultTolerance
  | allocationWouldPreventFaultTolerance
  | deallocationWouldRemoveParticipant
  | deallocationWouldRemoveFaultTolerance
  | nonExistentDeallocation
  | alreadyGeneratedKeys
  | badSignature
  | nonExistentValidator
  | deallocationWouldRemoveEconomicSecurity
  deriving DecidableEq, Repr

/-- How a call fails: the pallet's error, a coins error, or a panic. -/
inductive Fail where
  | validatorSets (e : Error)
  | coins (e : Coins.Fail)
  | panic
  deriving DecidableEq, Repr

variable {K : Type} [DecidableEq K]

structure St (K : Type) where
  currentSession : NetworkId → Option Nat
  allocationPerKeyShare : NetworkId → Option UInt64
  participants : NetworkId → Option (List (K × UInt64))
  /-- `InSet`: each network's entries. -/
  inSet : NetworkId → List (K × UInt64)
  totalAllocatedStake : NetworkId → Option UInt64
  allocations : NetworkId × K → Option UInt64
  /-- `SortedAllocations`: its keys, the hash aside. -/
  sortedAllocations : List (NetworkId × UInt64 × K)
  pendingDeallocations : NetworkId × K → Nat → Option UInt64
  keys : ValidatorSet → Option (KeyPair K)
  pendingSlashReport : NetworkId → Option K
  /-- BABE's current authorities. -/
  babe : List K
  /-- The DEX's `SecurityOracleValue`. -/
  securityOracleValue : Coin → Option UInt64
  /-- The `Coins` instance of the coins pallet. -/
  coins : Coins.St K

/-- The parameters of the pallet that the code takes from outside it: the pallet's
    account (`system_address(b"ValidatorSets")`) and the Blake2 hash of a sorted key. -/
structure Config (K : Type) where
  account : K
  hash : NetworkId → UInt64 → K → Nat

/-- The pallet's storage before its genesis build, beside the coins pallet's. -/
def St.empty (coins : Coins.St K) : St K where
  currentSession := fun _ => none
  allocationPerKeyShare := fun _ => none
  participants := fun _ => none
  inSet := fun _ => []
  totalAllocatedStake := fun _ => none
  allocations := fun _ => none
  sortedAllocations := []
  pendingDeallocations := fun _ _ => none
  keys := fun _ => none
  pendingSlashReport := fun _ => none
  babe := []
  securityOracleValue := fun _ => none
  coins := coins

variable (cfg : Config K)

/-! ## Storage helpers -/

/-- `InSet::contains_key`. -/
def inSetContains (s : St K) (network : NetworkId) (key : K) : Bool :=
  (s.inSet network).any (·.1 == key)

/-- `InSet::get`. -/
def inSetGet (s : St K) (network : NetworkId) (key : K) : Option UInt64 :=
  (s.inSet network).lookup key

/-- `latest_decided_session`: Serai's next session is decided along with its current one. -/
def latestDecidedSession (s : St K) (network : NetworkId) : Option Nat :=
  (s.currentSession network).map fun session => if network = .serai then session + 1 else session

/-- `Allocations::get`. -/
def allocation (s : St K) (network : NetworkId) (key : K) : Option UInt64 := s.allocations (network, key)

/-- `set_allocation`: the prior entry and its sorted key are taken; a nonzero amount is
    written to both. Returns whether there was a prior entry. -/
def setAllocation (s : St K) (network : NetworkId) (key : K) (amount : UInt64) : St K × Bool :=
  let prior := s.allocations (network, key)
  let sorted := match prior with
    | some a => s.sortedAllocations.erase (network, a, key)
    | none => s.sortedAllocations
  let s' : St K := { s with allocations := Function.update s.allocations (network, key) none, sortedAllocations := sorted }
  let s' := if amount ≠ 0 then
      { s' with allocations := Function.update s.allocations (network, key) (some amount),
                sortedAllocations := sorted.insert (network, amount, key) }
    else s'
  (s', prior.isSome)

/-- The storage order of `SortedAllocations` under one network. -/
def sortedLe (network : NetworkId) (x y : K × UInt64) : Bool :=
  decide (y.2 < x.2) || (decide (x.2 = y.2) && decide (cfg.hash network x.2 x.1 ≤ cfg.hash network y.2 y.1))

/-- `SortedAllocationsIter::new(network)`, run to its end. -/
def sortedAllocationsIter (s : St K) (network : NetworkId) : List (K × UInt64) :=
  ((s.sortedAllocations.filter (·.1 = network)).map fun (_, a, k) => (k, a)).insertionSort
    fun x y => sortedLe cfg network x y

/-- `session_to_unlock_on_for_current_set`. -/
def sessionToUnlockOnForCurrentSet (s : St K) (network : NetworkId) : Option Nat :=
  (s.currentSession network).map fun session =>
    session + 1 + (if network = .serai then 1 else 0) + 1

/-- `in_set`: in `InSet`, or, for Serai, a current BABE authority. -/
def inSet (s : St K) (network : NetworkId) (account : K) : Bool :=
  inSetContains s network account || (network = .serai && s.babe.contains account)

/-- `handover_completed`. -/
def handoverCompleted (s : St K) (network : NetworkId) (session : Nat) : Bool :=
  match s.currentSession network with
  | none => false
  | some current =>
    if current = 0 then true
    else if current < session then false
    else if current = session then
      network = .serai || (s.keys ⟨current - 1, network⟩).isNone
    else true

/-! ## Key shares -/

/-- `amortize_excess_key_shares`: past `MAX_KEY_SHARES_PER_SET` shares, take one share at
    a time from the validators in reverse round-robin. -/
def amortizeExcessKeyShares (validators : List (K × UInt64)) : List (K × UInt64) :=
  let total := (validators.map (·.2)).sum
  (List.range (saturatingSub total maxKeySharesPerSet).toNat).foldl
    (fun vs i => vs.modify (vs.length - ((i % vs.length) + 1)) fun (k, sh) => (k, sh - 1)) validators

/-- `post_amortization_key_shares_for_top_validator`. -/
def postAmortizationKeySharesForTopValidator (validators : Nat) (top keyShares : UInt64) : UInt64 :=
  top - (saturatingSub keyShares maxKeySharesPerSet / UInt64.ofNat validators)

/-- `new_set`'s loop: allocations in sorted order while fewer than
    `MAX_KEY_SHARES_PER_SET` key shares are taken; the participants with their shares,
    and the stake they allocated. -/
def selectParticipants (apks : UInt64) : List (K × UInt64) → UInt64 → List (K × UInt64) × UInt64
  | [], _ => ([], 0)
  | (key, amount) :: rest, keyShares =>
    if keyShares < maxKeySharesPerSet then
      let these := min (amount / apks) maxKeySharesPerSet
      let r := selectParticipants apks rest (keyShares + these)
      ((key, these) :: r.1, amount + r.2)
    else ([], 0)

/-- `is_bft`'s loop: how many validators it read, their key shares, and the first one's. -/
def bftScan (apks : UInt64) : List (K × UInt64) → Nat → UInt64 → Option UInt64 → Nat × UInt64 × Option UInt64
  | [], len, keyShares, top => (len, keyShares, top)
  | (_, amount) :: rest, len, keyShares, top =>
    let keyShares := keyShares + amount / apks
    let top := top.orElse fun _ => some keyShares
    if maxKeySharesPerSet < keyShares then (len + 1, keyShares, top)
    else bftScan apks rest (len + 1) keyShares top

/-! ## Calls, in `EStateM Fail (St K)` -/

def fail {α : Type} (e : Error) : EStateM Fail (St K) α := throw (.validatorSets e)

def panic {α : Type} : EStateM Fail (St K) α := throw .panic

/-- `if c { Err(e)? }`. -/
def failIf (c : Bool) (e : Error) : EStateM Fail (St K) Unit := if c then fail e else pure ()

/-- A panic when `c` holds: a failed `assert`, or a division by a zero
    `AllocationPerKeyShare`. -/
def panicIf (c : Bool) : EStateM Fail (St K) Unit := if c then panic else pure ()

/-- `.ok_or(e)?`. -/
def okOr {α : Type} : Option α → Error → EStateM Fail (St K) α
  | some a, _ => pure a
  | none, e => fail e

def unwrapOrPanic {α : Type} : Option α → EStateM Fail (St K) α
  | some a => pure a
  | none => panic

/-- Run a call of the coins pallet. -/
def onCoins {α : Type} (m : EStateM Coins.Fail (Coins.St K) α) : EStateM Fail (St K) α := fun s =>
  match m s.coins with
  | .ok a c => .ok a { s with coins := c }
  | .error e c => .error (.coins e) { s with coins := c }

/-- A call whose error is `unwrap`ped. -/
def orPanic {α : Type} (m : EStateM Fail (St K) α) : EStateM Fail (St K) α := fun s =>
  match m s with
  | .ok a s' => .ok a s'
  | .error _ s' => .error .panic s'

/-- `is_bft`. -/
def isBft (network : NetworkId) : EStateM Fail (St K) Bool := do
  let s ← get
  let apks ← unwrapOrPanic (s.allocationPerKeyShare network)
  panicIf (apks = 0)
  let (len, keyShares, top) := bftScan apks (sortedAllocationsIter cfg s network) 0 0 none
  match top with
  | none => pure false
  | some top =>
    let top := postAmortizationKeySharesForTopValidator len top keyShares
    pure (top * 3 < min keyShares maxKeySharesPerSet)

/-- The fault-tolerance read of `increase_allocation` and `decrease_allocation` before
    their write, made only when the write changes the validator's key shares
    (`was_bft`). -/
def readWasBft (network : NetworkId) (changesKeyShares : Bool) : EStateM Fail (St K) (Option Bool) :=
  if changesKeyShares then some <$> isBft cfg network else pure none

/-- The fault-tolerance check of `increase_allocation` and `decrease_allocation` after
    their write: error with `e` if the set was BFT before and no longer is. -/
def recheckBft (network : NetworkId) (wasBft : Option Bool) (e : Error) : EStateM Fail (St K) Unit :=
  match wasBft with
  | none => pure ()
  | some wasBft => do
    let isBftNow ← isBft cfg network
    failIf (wasBft && !isBftNow) e

/-- `new_set`. -/
def newSet (network : NetworkId) : EStateM Fail (St K) Unit := do
  let s ← get
  let session := ((s.currentSession network).map (· + 1)).getD 0
  -- `clear_prefix` with a limit of `MAX_KEY_SHARES_PER_SET`, asserted to have cleared all
  panicIf (maxKeySharesPerSet.toNat < (s.inSet network).length)
  let apks ← unwrapOrPanic (s.allocationPerKeyShare network)
  panicIf (apks = 0)
  let (participants, totalStake) := selectParticipants apks (sortedAllocationsIter cfg s network) 0
  let participants := amortizeExcessKeyShares participants
  -- the `try_into().unwrap()` into a vector bounded by `MAX_KEY_SHARES_PER_SET`
  panicIf (maxKeySharesPerSet.toNat < participants.length)
  set { s with
    currentSession := Function.update s.currentSession network (some session)
    inSet := Function.update s.inSet network participants
    totalAllocatedStake := Function.update s.totalAllocatedStake network (some totalStake)
    participants := Function.update s.participants network (some participants) }

/-- `increase_allocation`. -/
def increaseAllocation (network : NetworkId) (account : K) (amount : UInt64) : EStateM Fail (St K) Unit := do
  let s ← get
  let oldAllocation := (allocation s network account).getD 0
  let newAllocation := oldAllocation + amount
  let apks ← unwrapOrPanic (s.allocationPerKeyShare network)
  panicIf (apks = 0)
  failIf (newAllocation < apks) .insufficientAllocation
  let increasedKeyShares := oldAllocation / apks < newAllocation / apks
  let wasBft ← readWasBft cfg network increasedKeyShares
  modify fun s => (setAllocation s network account newAllocation).1
  recheckBft cfg network wasBft .allocationWouldRemoveFaultTolerance
  failIf ((maxKeySharesPerSet / 3) ≤ newAllocation / apks) .allocationWouldPreventFaultTolerance
  let s ← get
  if inSetContains s network account then
    let total := ((s.totalAllocatedStake network).getD 0) + amount
    set { s with totalAllocatedStake := Function.update s.totalAllocatedStake network (some total) }

/-- `required_stake`: the SRI that secures `balance` at the DEX's oracle value. -/
def requiredStake (s : St K) (b : Balance) : UInt64 :=
  let sriPerCoin := (s.securityOracleValue b.coin).getD 0
  let accuracyIncrease := 10 ^ (max b.coin.decimals 5)
  let totalCoinValue := min (b.amount.toNat * sriPerCoin.toNat / accuracyIncrease) (2 ^ 64 - 1)
  let requiredStake := min (totalCoinValue * 3) (2 ^ 64 - 1) / 2
  UInt64.ofNat (min (requiredStake + totalCoinValue / 5) (2 ^ 64 - 1))

/-- `required_stake_for_network`: summed with the wrapping `+=`. -/
def requiredStakeForNetwork (s : St K) (network : NetworkId) : UInt64 :=
  (network.coins.map fun coin => requiredStake s ⟨coin, s.coins.supply coin⟩).foldl (· + ·) 0

/-- The tail of `decrease_allocation`: an account in the set has the amount pending until
    the current set's unlock session; any other may take it at once (`true`). -/
def queueDeallocation (network : NetworkId) (account : K) (amount : UInt64) : EStateM Fail (St K) Bool := do
  let s ← get
  if !inSet s network account then pure true
  else
    let toUnlockOn ← unwrapOrPanic (sessionToUnlockOnForCurrentSet s network)
    let existing := (s.pendingDeallocations (network, account) toUnlockOn).getD 0
    let pending := Function.update (s.pendingDeallocations (network, account)) toUnlockOn (some (existing + amount))
    set { s with pendingDeallocations := Function.update s.pendingDeallocations (network, account) pending }
    pure false

/-- `decrease_allocation`: returns whether the amount is free at once. -/
def decreaseAllocation (network : NetworkId) (account : K) (amount : UInt64) : EStateM Fail (St K) Bool := do
  let s ← get
  let total ← unwrapOrPanic (s.totalAllocatedStake network)
  let newTotalStaked ← okOr (checkedSub total amount) .notEnoughAllocated
  failIf (newTotalStaked < requiredStakeForNetwork s network) .deallocationWouldRemoveEconomicSecurity
  let oldAllocation ← okOr (allocation s network account) .nonExistentValidator
  let newAllocation ← okOr (checkedSub oldAllocation amount) .notEnoughAllocated
  let apks ← unwrapOrPanic (s.allocationPerKeyShare network)
  panicIf (apks = 0)
  failIf (newAllocation ≠ 0 && newAllocation < apks) .deallocationWouldRemoveParticipant
  let decreasedKeyShares := newAllocation / apks < oldAllocation / apks
  let wasBft ← readWasBft cfg network decreasedKeyShares
  -- `TotalAllocatedStake` is left as it is: the amount is only queued for deallocation
  modify fun s => (setAllocation s network account newAllocation).1
  recheckBft cfg network wasBft .deallocationWouldRemoveFaultTolerance
  queueDeallocation network account amount

/-- `retire_set`. -/
def retireSet (set : ValidatorSet) : EStateM Fail (St K) Unit := do
  if set.network ≠ .serai then
    let s ← get
    let keys ← unwrapOrPanic (s.keys set)
    modify fun s => { s with
      keys := Function.update s.keys set none
      pendingSlashReport := Function.update s.pendingSlashReport set.network (some keys.key) }

/-- `PendingDeallocations::take`. -/
def takePending (network : NetworkId) (key : K) (session : Nat) : EStateM Fail (St K) (Option UInt64) := do
  let s ← get
  let pending := Function.update (s.pendingDeallocations (network, key)) session none
  set { s with pendingDeallocations := Function.update s.pendingDeallocations (network, key) pending }
  pure (s.pendingDeallocations (network, key) session)

/-- `take_deallocatable_amount`. -/
def takeDeallocatableAmount (network : NetworkId) (session : Nat) (key : K) : EStateM Fail (St K) (Option UInt64) := do
  let s ← get
  if !handoverCompleted s network session then pure none
  else takePending network key session

/-- One network of `new_session`, with the DEX's `on_new_session`: the oracle of a
    network whose set rotated is reset to the DEX's median price. -/
def newSessionFor (medianPrice : Coin → Option UInt64) (network : NetworkId) : EStateM Fail (St K) Unit := do
  let s ← get
  match s.currentSession network with
  | none => pure ()
  | some currentSession =>
    if network = .serai || handoverCompleted s network currentSession then
      newSet cfg network
      modify fun s => { s with securityOracleValue := fun c =>
        if c.network = network then medianPrice c else s.securityOracleValue c }

/-- `new_session`. -/
def newSession (medianPrice : Coin → Option UInt64) : EStateM Fail (St K) Unit :=
  networks.forM (newSessionFor cfg medianPrice)

/-- `rotate_session`: retire the Serai set, start the new sets, and hand BABE the set
    decided before (the disabled-validator bookkeeping is left out). -/
def rotateSession (medianPrice : Coin → Option UInt64) : EStateM Fail (St K) Unit := do
  let s ← get
  let nowValidators ← unwrapOrPanic (s.participants .serai)
  let priorSeraiSession ← unwrapOrPanic (s.currentSession .serai)
  retireSet ⟨priorSeraiSession, .serai⟩
  newSession cfg medianPrice
  let _ ← unwrapOrPanic ((← get).participants .serai)
  modify fun s => { s with babe := nowValidators.map (·.1) }

/-- The part of `slash_serai_validator` between the two takes: a validator of the latest
    decided set takes its slashed stake out of `TotalAllocatedStake`, with `Amount`'s
    `-` (a `checked_sub(..).unwrap()`). -/
def reduceTotalAllocatedStake (network : NetworkId) (validator : K) (amount : UInt64) : EStateM Fail (St K) Unit := do
  let s ← get
  if inSetContains s network validator then
    let currentStaked ← unwrapOrPanic (s.totalAllocatedStake network)
    let remaining ← unwrapOrPanic (checkedSub currentStaked amount)
    set { s with totalAllocatedStake := Function.update s.totalAllocatedStake network (some remaining) }

/-- `PendingDeallocations::drain_prefix`: every pending deallocation of the key, summed
    with the wrapping `+=` (none is pending past `bound`). -/
def drainPending (network : NetworkId) (key : K) (bound : Nat) : EStateM Fail (St K) UInt64 := do
  let s ← get
  let drained := (List.range (bound + 1)).foldl (fun acc session =>
    acc + ((s.pendingDeallocations (network, key) session).getD 0)) 0
  set { s with pendingDeallocations := Function.update s.pendingDeallocations (network, key) fun _ => none }
  pure drained

/-- `slash_serai_validator`: the allocation and the pending deallocations are burnt from
    the pallet's account, with `Coins::burn(..).unwrap()`. -/
def slashSeraiValidator (validator : K) : EStateM Fail (St K) Unit := do
  let network := NetworkId.serai
  let s ← get
  let allocation0 := (allocation s network validator).getD 0
  modify fun s => (setAllocation s network validator 0).1
  let unlock ← unwrapOrPanic (sessionToUnlockOnForCurrentSet (← get) network)
  let pendingNow ← takePending network validator unlock
  -- `allocation.0 += ...` is a plain, wrapping `+`
  let allocation1 := allocation0 + pendingNow.getD 0
  reduceTotalAllocatedStake network validator allocation1
  let others ← drainPending network validator unlock
  orPanic (onCoins (Coins.burn (some cfg.account) ⟨.serai, allocation1 + others⟩))

/-! ## Dispatchables -/

/-- `allocate`. -/
def allocate (validator : K) (network : NetworkId) (amount : UInt64) : EStateM Fail (St K) Unit := do
  onCoins (Coins.transferInternal validator cfg.account ⟨.serai, amount⟩)
  increaseAllocation cfg network validator amount

/-- `deallocate`. -/
def deallocate (account : K) (network : NetworkId) (amount : UInt64) : EStateM Fail (St K) Unit := do
  let canImmediatelyDeallocate ← decreaseAllocation cfg network account amount
  if canImmediatelyDeallocate then
    onCoins (Coins.transferInternal cfg.account account ⟨.serai, amount⟩)

/-- `claim_deallocation`. -/
def claimDeallocation (account : K) (network : NetworkId) (session : Nat) : EStateM Fail (St K) Unit := do
  let amount ← takeDeallocatableAmount network session account
  let amount ← okOr amount .nonExistentDeallocation
  onCoins (Coins.transferInternal cfg.account account ⟨.serai, amount⟩)

/-- `set_keys`, once `validate_unsigned` let it through (`setKeysValid`). -/
def setKeys (network : NetworkId) (keyPair : KeyPair K) : EStateM Fail (St K) Unit := do
  let s ← get
  let session ← unwrapOrPanic (s.currentSession network)
  set { s with keys := Function.update s.keys ⟨session, network⟩ (some keyPair) }

/-- `validate_unsigned` for `set_keys`, but for the MuSig signature, which is given. -/
def setKeysValid (s : St K) (network : NetworkId) (removed : List K) (signatureValid : Bool) : Bool :=
  match s.currentSession network with
  | none => false
  | some session =>
    network ≠ .serai && (s.keys ⟨session, network⟩).isNone && removed.Nodup &&
      match s.participants network with
      | none => false
      | some participants =>
        let shares : List Nat := participants.map fun (p, _) => ((inSetGet s network p).getD 0).toNat
        let all := shares.sum
        let signing := ((participants.zip shares).filter fun ((p, _), _) => !removed.contains p).map (·.2) |>.sum
        decide (2 * (all - signing) + 1 ≤ signing) && signatureValid

/-- Genesis for one participant: the network's stake per key share, allocated (a
    duplicate panics). -/
def genesisAllocate (id : NetworkId) (stake : UInt64) (participant : K) : EStateM Fail (St K) Unit := do
  let (s', prior) := setAllocation (← get) id participant stake
  set s'
  panicIf prior

/-- One network of the genesis build: its stake per key share, every participant
    allocated it, and its first set. -/
def genesisNetwork (participants : List K) (network : NetworkId × UInt64) : EStateM Fail (St K) Unit := do
  let (id, stake) := network
  modify fun s => { s with allocationPerKeyShare := Function.update s.allocationPerKeyShare id (some stake) }
  participants.forM (genesisAllocate id stake)
  newSet cfg id

/-- The genesis build. -/
def genesisBuild (networks : List (NetworkId × UInt64)) (participants : List K) : EStateM Fail (St K) Unit :=
  networks.forM (genesisNetwork cfg participants)

end Serai.ValidatorSets
