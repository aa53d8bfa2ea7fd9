import Mathlib
import Serai.ValidatorSets.Calls
import Serai.Lib.KeyOrder
/-
  Serai.ValidatorSets.Sorted — `SortedAllocations` as the bytes of its storage keys.

  The map's key is `(network, amount, hash, key)`: the amount as its big-endian bytes in
  `reverse_lexicographic_order`, then the Blake2 hash of the three, then the validator's
  `Public`. Under the `Identity` hasher its raw storage key is the map's final prefix
  followed by these bytes, so the store's lexicographic order walks a network's entries
  from the largest amount down. `recover_*_from_sorted_allocation_key` read the amount and
  the key back from the end of a raw key, and `SortedAllocationsIter` walks the store
  with `next_key` while the keys keep the network's prefix. The store's `next_key` is
  `Serai.Lib.nextKey`; Blake2 is a parameter.

  Proved:
  - `step_allocView`, `reach_allocView`: `set_allocation` is the only write to
    `Allocations` and `SortedAllocations` of every call, the genesis build included, so
    a property of the two that it keeps holds in every state a run reaches;
  - `reach_sortedInv`: in every such state, `SortedAllocations` holds one entry per
    nonzero allocation, with its amount, and nothing else;
  - `recoverAmount_rawKey`, `recoverKey_rawKey`: the recovery inverts the key's layout;
  - `collect_new`: the iterator yields each nonzero allocation of the network once, from
    the largest amount down, and nothing of another network.
-/

namespace Serai.ValidatorSets

open Serai.Lib

/-! ## The key's bytes -/

/-- `sr25519::Public`. -/
structure Public where
  bytes : List UInt8
  length_bytes : bytes.length = 32
  deriving DecidableEq

/-- `u64::to_be_bytes`. -/
def toBeBytes (x : UInt64) : List UInt8 := beBytes 8 x.toNat

/-- `u64::from_be_bytes`. -/
def fromBeBytes (bytes : List UInt8) : UInt64 := UInt64.ofNat (ofBeBytes bytes)

/-- `reverse_lexicographic_order`. -/
def reverseLexicographicOrder (bytes : List UInt8) : List UInt8 := bytes.map (~~~ ·)

/-- `sp_io::hashing::blake2_128`. -/
structure Blake2b128 where
  hash : List UInt8 → List UInt8
  length_hash : ∀ message, (hash message).length = 16

/-- `sorted_allocation_key`: the hash is of the SCALE encoding of the network, the
    amount's bytes and the key. -/
def sortedAllocationKey (blake2 : Blake2b128) (network : NetworkId) (key : Public) (amount : UInt64) :
    NetworkId × List UInt8 × List UInt8 × Public :=
  let amount := reverseLexicographicOrder (toBeBytes amount)
  let hash := blake2.hash (network.encode :: amount ++ key.bytes)
  (network, amount, hash, key)

/-- The raw storage key of an entry: the map's final prefix, then the SCALE encoding of
    the key tuple, which the `Identity` hasher keeps as it is. -/
def rawKey (finalPrefix : List UInt8) (k : NetworkId × List UInt8 × List UInt8 × Public) : List UInt8 :=
  finalPrefix ++ k.1.encode :: (k.2.1 ++ k.2.2.1 ++ k.2.2.2.bytes)

/-- `recover_amount_from_sorted_allocation_key`: `none` is the panic of a key shorter than
    the 56 bytes it reads back from. -/
def recoverAmountFromSortedAllocationKey (key : List UInt8) : Option UInt64 :=
  let distanceFromEnd := 8 + 16 + 32
  if key.length < distanceFromEnd then none
  else
    let startPos := key.length - distanceFromEnd
    let raw := (key.drop startPos).take 8
    some (fromBeBytes (raw.map (~~~ ·)))

/-- `recover_key_from_sorted_allocation_key`. -/
def recoverKeyFromSortedAllocationKey (key : List UInt8) : Option Public :=
  if h : 32 ≤ key.length then some ⟨key.drop (key.length - 32), by rw [List.length_drop]; omega⟩ else none

@[simp] theorem length_toBeBytes (x : UInt64) : (toBeBytes x).length = 8 := length_beBytes 8 _

theorem fromBeBytes_toBeBytes (x : UInt64) : fromBeBytes (toBeBytes x) = x := by
  rw [fromBeBytes, toBeBytes, ofBeBytes_beBytes x.toNat_lt, UInt64.ofNat_toNat]

@[simp] theorem reverseLexicographicOrder_reverseLexicographicOrder (bytes : List UInt8) :
    (reverseLexicographicOrder bytes).map (~~~ ·) = bytes := by
  simp [reverseLexicographicOrder, Function.comp_def]

theorem recoverAmount_append (head amount hash key : List UInt8) (ha : amount.length = 8) (hh : hash.length = 16)
    (hk : key.length = 32) :
    recoverAmountFromSortedAllocationKey (head ++ (amount ++ hash ++ key)) = some (fromBeBytes (amount.map (~~~ ·))) := by
  have hlen : (head ++ (amount ++ hash ++ key)).length = head.length + 56 := by
    simp only [List.length_append, ha, hh, hk]
  have hnot : ¬ head.length + 56 < 8 + 16 + 32 := by omega
  dsimp only [recoverAmountFromSortedAllocationKey]
  rw [hlen, if_neg hnot, Nat.add_sub_cancel, List.drop_left, List.append_assoc, List.take_left' ha]

theorem recoverKey_append (head key : List UInt8) (hk : key.length = 32) :
    recoverKeyFromSortedAllocationKey (head ++ key) = some ⟨key, hk⟩ := by
  have hlen : (head ++ key).length = head.length + 32 := by rw [List.length_append, hk]
  have hle : 32 ≤ (head ++ key).length := by omega
  rw [recoverKeyFromSortedAllocationKey, dif_pos hle]
  congr 2
  rw [hlen, Nat.add_sub_cancel, List.drop_left]

theorem rawKey_sortedAllocationKey (blake2 : Blake2b128) (finalPrefix : List UInt8) (network : NetworkId)
    (key : Public) (amount : UInt64) :
    rawKey finalPrefix (sortedAllocationKey blake2 network key amount) =
      (finalPrefix ++ [network.encode]) ++ (reverseLexicographicOrder (toBeBytes amount) ++
        blake2.hash (network.encode :: reverseLexicographicOrder (toBeBytes amount) ++ key.bytes) ++ key.bytes) := by
  simp [rawKey, sortedAllocationKey]

theorem recoverAmount_rawKey (blake2 : Blake2b128) (finalPrefix : List UInt8) (network : NetworkId)
    (key : Public) (amount : UInt64) :
    recoverAmountFromSortedAllocationKey (rawKey finalPrefix (sortedAllocationKey blake2 network key amount)) =
      some amount := by
  rw [rawKey_sortedAllocationKey, recoverAmount_append _ _ _ _ (by simp [reverseLexicographicOrder]) (blake2.length_hash _) key.length_bytes,
    reverseLexicographicOrder_reverseLexicographicOrder, fromBeBytes_toBeBytes]

theorem recoverKey_rawKey (blake2 : Blake2b128) (finalPrefix : List UInt8) (network : NetworkId)
    (key : Public) (amount : UInt64) :
    recoverKeyFromSortedAllocationKey (rawKey finalPrefix (sortedAllocationKey blake2 network key amount)) =
      some key := by
  have hraw : rawKey finalPrefix (sortedAllocationKey blake2 network key amount) =
      (finalPrefix ++ network.encode :: (reverseLexicographicOrder (toBeBytes amount) ++
        blake2.hash (network.encode :: reverseLexicographicOrder (toBeBytes amount) ++ key.bytes))) ++ key.bytes := by
    simp [rawKey, sortedAllocationKey]
  rw [hraw, recoverKey_append _ _ key.length_bytes]

theorem amount_le_of_rawKey_lt (blake2 : Blake2b128) (finalPrefix : List UInt8) (network : NetworkId)
    {key key' : Public} {amount amount' : UInt64}
    (h : rawKey finalPrefix (sortedAllocationKey blake2 network key amount) <
      rawKey finalPrefix (sortedAllocationKey blake2 network key' amount')) : amount' ≤ amount := by
  simp only [rawKey, sortedAllocationKey, List.append_assoc] at h
  -- past the common prefix and network, the amounts' bytes come first
  have h₁ := lt_of_append_lt_append_left h
  have h₂ := ((List.cons_lt_cons_iff.mp h₁).resolve_left Std.lt_irrefl).2
  have hle := le_of_append_lt_append (by simp [reverseLexicographicOrder]) h₂
  rcases Std.le_iff_lt_or_eq.mp hle with hlt | heq
  · -- the complemented bytes are below: the amount is above
    have hbe := (map_not_lt_map_not (by simp)).mp hlt
    rw [toBeBytes, toBeBytes, beBytes_lt_beBytes amount'.toNat_lt amount.toNat_lt] at hbe
    exact UInt64.le_iff_toNat_le.mpr hbe.le
  · have := congrArg (fun b => fromBeBytes (b.map (~~~ ·))) heq
    simp only [reverseLexicographicOrder_reverseLexicographicOrder, fromBeBytes_toBeBytes] at this
    rw [this]
    exact UInt64.le_iff_toNat_le.mpr (Nat.le_refl _)

/-! ## What the calls write to the allocations -/

variable {K : Type} [DecidableEq K] (cfg : Config K)

/-- `Allocations` and `SortedAllocations`. -/
def allocView (s : St K) : (NetworkId × K → Option UInt64) × List (NetworkId × UInt64 × K) :=
  (s.allocations, s.sortedAllocations)

theorem allocView_setAllocation {s₁ s₂ : St K} (h : allocView s₁ = allocView s₂) (network : NetworkId) (key : K)
    (amount : UInt64) : allocView (setAllocation s₁ network key amount).1 = allocView (setAllocation s₂ network key amount).1 := by
  simp only [allocView, Prod.mk.injEq] at h ⊢
  obtain ⟨ha, hs⟩ := h
  unfold setAllocation
  by_cases h0 : amount = 0 <;> simp [h0, ha, hs]

section View

variable (P : (NetworkId × K → Option UInt64) × List (NetworkId × UInt64 × K) → Prop)
  (hset : ∀ (s : St K) network key amount, P (allocView s) → P (allocView (setAllocation s network key amount).1))
include hset

variable {cfg} {s s' : St K} {network : NetworkId} {account : K} {amount : UInt64} {u : Unit}

theorem increaseAllocation_allocView (hi : P (allocView s)) (h : increaseAllocation cfg network account amount s = .ok u s') :
    P (allocView s') := by
  obtain ⟨apks, -, -, -, hs'⟩ := increaseAllocation_ok cfg h
  have hv : allocView s' = allocView (setAllocation s network account ((allocation s network account).getD 0 + amount)).1 := by
    rw [hs']
    split <;> rfl
  rw [hv]
  exact hset _ _ _ _ hi

theorem decreaseAllocation_allocView {r : Bool} (hi : P (allocView s))
    (h : decreaseAllocation cfg network account amount s = .ok r s') : P (allocView s') := by
  obtain ⟨-, -, -, new, -, -, -, -, -, -, -, -, -, h⟩ := decreaseAllocation_ok cfg h
  -- only `PendingDeallocations` is written after the allocation
  have hv : allocView s' = allocView (setAllocation s network account new).1 := by
    rcases queueDeallocation_ok h with ⟨-, -, rfl⟩ | ⟨-, -, t, -, rfl⟩ <;> rfl
  rw [hv]
  exact hset _ _ _ _ hi

omit [DecidableEq K] hset in
theorem newSet_allocView (h : newSet cfg network s = .ok u s') : allocView s' = allocView s := by
  obtain ⟨apks, -, -, rfl⟩ := newSet_ok cfg h
  rfl

omit [DecidableEq K] hset in
theorem newSession_allocView {medianPrice : Coin → Option UInt64} (h : newSession cfg medianPrice s = .ok () s') :
    allocView s' = allocView s := by
  refine forM_ok_inv (fun s₁ => allocView s₁ = allocView s) (newSessionFor cfg medianPrice) ?_ networks s s' rfl h
  intro network s₁ s₂ hv h
  rcases newSessionFor_ok cfg h with rfl | ⟨s₃, oracle, h3, rfl⟩
  · exact hv
  · exact (newSet_allocView h3).trans hv

theorem step_allocView (hi : P (allocView s)) (h : Step cfg s s') : P (allocView s') := by
  cases h with
  | allocate validator network amount h =>
    obtain ⟨c, -, h⟩ := allocate_ok cfg h
    have hi₁ : P (allocView { s with coins := c }) := hi
    exact increaseAllocation_allocView P hset hi₁ h
  | deallocate account network amount h =>
    obtain ⟨immediately, s₁, h1, h⟩ := deallocate_ok cfg h
    have hi₁ := decreaseAllocation_allocView P hset hi h1
    rcases h with ⟨-, rfl⟩ | ⟨-, c, -, rfl⟩
    · exact hi₁
    · exact hi₁
  | claimDeallocation account network session h =>
    obtain ⟨amount, s₁, h1, c, -, rfl⟩ := claimDeallocation_ok cfg h
    rcases takeDeallocatableAmount_ok h1 with ⟨-, -, rfl⟩ | ⟨-, h1⟩
    · exact hi
    · simp only [takePending_eq, EStateM.Result.ok.injEq] at h1
      obtain ⟨-, rfl⟩ := h1
      exact hi
  | setKeys network removed keyPair signatureValid _ h =>
    obtain ⟨session, -, rfl⟩ := setKeys_ok h
    exact hi
  | retireSet set h =>
    obtain ⟨keys, psr, rfl⟩ := retireSet_ok h
    exact hi
  | rotateSession medianPrice h =>
    obtain ⟨now, s₁, -, h1, rfl⟩ := rotateSession_ok cfg h
    show P (allocView s₁)
    rw [newSession_allocView h1]
    exact hi
  | slash validator h =>
    obtain ⟨unlock, coins, -, h⟩ := slashSeraiValidator_ok cfg h
    have hv : allocView s' = allocView (setAllocation s .serai validator 0).1 := by
      rcases h with ⟨-, rfl⟩ | ⟨-, current, remaining, -, -, rfl⟩ <;> rfl
    rw [hv]
    exact hset _ _ _ _ hi
  | mint allowMint to' b h =>
    obtain ⟨c, -, rfl⟩ := onCoins_ok h
    exact hi
  | transfer from' to' b _ h =>
    obtain ⟨c, -, rfl⟩ := onCoins_ok h
    exact hi
  | burn from' b _ h =>
    obtain ⟨c, -, rfl⟩ := onCoins_ok h
    exact hi

theorem genesisBuild_allocView {networks : List (NetworkId × UInt64)} {participants : List K}
    (hi : P (allocView s)) (h : genesisBuild cfg networks participants s = .ok () s') : P (allocView s') := by
  refine forM_ok_inv (fun s => P (allocView s)) (genesisNetwork cfg participants) ?_ networks s s' hi h
  rintro ⟨network, stake⟩ s s' hi h
  obtain ⟨s₁, h1, h2⟩ := genesisNetwork_ok cfg h
  -- the genesis allocations are `set_allocation`s, and the first set writes none
  have hi₀ : P (allocView { s with allocationPerKeyShare := Function.update s.allocationPerKeyShare network (some stake) }) := hi
  have hi₁ := forM_ok_inv (fun s => P (allocView s)) (genesisAllocate network stake)
    (fun _ s s' hi h => by
      obtain ⟨-, rfl⟩ := genesisAllocate_ok h
      exact hset _ _ _ _ hi) participants _ s₁ hi₀ h1
  rw [newSet_allocView h2]
  exact hi₁

theorem reach_allocView (h0 : ∀ coins : Coins.St K, P (allocView (St.empty coins))) (h : Reach cfg s) :
    P (allocView s) := by
  induction h with
  | genesis coins networks participants h => exact genesisBuild_allocView P hset (h0 coins) h
  | step _ hs ih => exact step_allocView P hset ih hs

end View

/-! ## One entry per allocation -/

/-- `SortedAllocations` holds each nonzero allocation once, with its amount, and nothing
    else. -/
structure SortedInv (v : (NetworkId × K → Option UInt64) × List (NetworkId × UInt64 × K)) : Prop where
  nodup : v.2.Nodup
  mem_iff : ∀ network key amount, (network, amount, key) ∈ v.2 ↔ v.1 (network, key) = some amount ∧ amount ≠ 0

omit [DecidableEq K] in
theorem sortedInv_empty (coins : Coins.St K) : SortedInv (allocView (St.empty coins)) :=
  ⟨List.nodup_nil, by simp [allocView, St.empty]⟩

theorem setAllocation_sortedInv (s : St K) (network : NetworkId) (key : K) (amount : UInt64)
    (hi : SortedInv (allocView s)) : SortedInv (allocView (setAllocation s network key amount).1) := by
  obtain ⟨hnd, hmem⟩ := hi
  simp only [allocView] at hnd hmem ⊢
  -- what is left once the prior entry is taken: the entries of every other key
  obtain ⟨base, hsorted, hbnd, hbmem⟩ : ∃ base : List (NetworkId × UInt64 × K),
      (setAllocation s network key amount).1.sortedAllocations =
        (if amount = 0 then base else base.insert (network, amount, key)) ∧ base.Nodup ∧
      ∀ n a k, (n, a, k) ∈ base ↔ (n, k) ≠ (network, key) ∧ (n, a, k) ∈ s.sortedAllocations := by
    cases hp : s.allocations (network, key) with
    | none =>
      refine ⟨s.sortedAllocations, ?_, hnd, fun n a k => ⟨fun hm => ⟨fun hk => ?_, hm⟩, fun h => h.2⟩⟩
      · unfold setAllocation
        by_cases h0 : amount = 0 <;> simp [hp, h0]
      · simp only [Prod.mk.injEq] at hk
        obtain ⟨rfl, rfl⟩ := hk
        have := ((hmem n k a).mp hm).1
        rw [hp] at this
        cases this
    | some prior =>
      refine ⟨s.sortedAllocations.erase (network, prior, key), ?_, hnd.erase _, fun n a k => ?_⟩
      · unfold setAllocation
        by_cases h0 : amount = 0 <;> simp [hp, h0]
      rw [hnd.mem_erase_iff]
      constructor
      · rintro ⟨hne, hm⟩
        refine ⟨fun hk => hne ?_, hm⟩
        simp only [Prod.mk.injEq] at hk
        obtain ⟨rfl, rfl⟩ := hk
        have := ((hmem n k a).mp hm).1
        rw [hp, Option.some.injEq] at this
        rw [this]
      · rintro ⟨hne, hm⟩
        exact ⟨fun he => hne (by simp only [Prod.mk.injEq] at he ⊢; exact ⟨he.1, he.2.2⟩), hm⟩
  rw [hsorted, setAllocation_allocations]
  by_cases h0 : amount = 0
  · simp only [if_pos h0]
    refine ⟨hbnd, fun n k a => ?_⟩
    dsimp only
    rw [hbmem]
    by_cases hk : (n, k) = (network, key)
    · rw [hk, Function.update_self]
      simp
    · rw [Function.update_of_ne hk, hmem]
      simp [hk]
  · simp only [if_neg h0]
    refine ⟨hbnd.insert, fun n k a => ?_⟩
    dsimp only
    rw [List.mem_insert_iff, hbmem]
    by_cases hk : (n, k) = (network, key)
    · simp only [Prod.mk.injEq] at hk
      obtain ⟨rfl, rfl⟩ := hk
      simp [eq_comm]
      rintro rfl
      exact h0
    · rw [Function.update_of_ne hk, hmem]
      have hne : (n, a, k) ≠ (network, amount, key) := fun he => hk (by simp only [Prod.mk.injEq] at he ⊢; exact ⟨he.1, he.2.2⟩)
      simp [hk, hne]

theorem reach_sortedInv {s : St K} (h : Reach cfg s) : SortedInv (allocView s) :=
  reach_allocView SortedInv setAllocation_sortedInv sortedInv_empty h

/-! ## The iterator -/

/-- The storage keys of `SortedAllocations`. -/
def sortedKeys (blake2 : Blake2b128) (s : St Public) : List (NetworkId × List UInt8 × List UInt8 × Public) :=
  s.sortedAllocations.map fun (network, amount, key) => sortedAllocationKey blake2 network key amount

/-- `SortedAllocationsIter`: the prefix of the network's raw keys and the last key read. -/
structure SortedAllocationsIter where
  networkPrefix : List UInt8
  last : List UInt8

/-- `SortedAllocationsIter::new`: the map's final prefix and the network's encoding. -/
def SortedAllocationsIter.new (finalPrefix : List UInt8) (network : NetworkId) : SortedAllocationsIter :=
  let networkPrefix := finalPrefix ++ [network.encode]
  ⟨networkPrefix, networkPrefix⟩

/-- The key and amount a raw key stands for, or the panic of a recovery. -/
def recoverEntry (next : List UInt8) : Option (Public × UInt64) := do
  let key ← recoverKeyFromSortedAllocationKey next
  let amount ← recoverAmountFromSortedAllocationKey next
  pure (key, amount)

/-- `Iterator::next` over the store's keys: the outer `none` is a panic. -/
def SortedAllocationsIter.next (keys : List (List UInt8)) (it : SortedAllocationsIter) :
    Option (Option ((Public × UInt64) × SortedAllocationsIter)) :=
  match nextKey keys it.last with
  | none => some none
  | some next =>
    if it.networkPrefix.isPrefixOf next then
      (recoverEntry next).map fun entry => some (entry, { it with last := next })
    else some none

/-- The items of at most `fuel` calls of `next`, or `none` if one panics. -/
def SortedAllocationsIter.collect (keys : List (List UInt8)) : ℕ → SortedAllocationsIter → Option (List (Public × UInt64))
  | 0, _ => some []
  | fuel + 1, it =>
    match it.next keys with
    | none => none
    | some none => some []
    | some (some (entry, it')) => (collect keys fuel it').map (entry :: ·)

theorem NetworkId.encode_inj {network network' : NetworkId} (h : network.encode = network'.encode) :
    network = network' := by
  revert h
  cases network <;> cases network' <;> decide

theorem sortedAllocationKey_inj (blake2 : Blake2b128) {network network' : NetworkId} {key key' : Public}
    {amount amount' : UInt64}
    (h : sortedAllocationKey blake2 network key amount = sortedAllocationKey blake2 network' key' amount') :
    network = network' ∧ key = key' ∧ amount = amount' := by
  simp only [sortedAllocationKey, Prod.mk.injEq] at h
  obtain ⟨hn, hamount, -, hk⟩ := h
  refine ⟨hn, hk, ?_⟩
  -- the amount is read back from its bytes
  have := congrArg (fun b => fromBeBytes (b.map (~~~ ·))) hamount
  simpa only [reverseLexicographicOrder_reverseLexicographicOrder, fromBeBytes_toBeBytes] using this

section Keys

variable {blake2 : Blake2b128} {s : St Public}

theorem mem_sortedKeys (hi : SortedInv (allocView s)) (network : NetworkId)
    (k : NetworkId × List UInt8 × List UInt8 × Public) :
    k ∈ sortedKeys blake2 s ∧ k.1 = network ↔
      ∃ key amount, s.allocations (network, key) = some amount ∧ amount ≠ 0 ∧
        k = sortedAllocationKey blake2 network key amount := by
  simp only [sortedKeys, List.mem_map]
  constructor
  · rintro ⟨⟨⟨n, amount, key⟩, he, rfl⟩, rfl⟩
    obtain ⟨ha, h0⟩ := (hi.mem_iff n key amount).mp he
    exact ⟨key, amount, ha, h0, rfl⟩
  · rintro ⟨key, amount, ha, h0, rfl⟩
    exact ⟨⟨(network, amount, key), (hi.mem_iff network key amount).mpr ⟨ha, h0⟩, rfl⟩, rfl⟩

theorem nodup_sortedKeys (hi : SortedInv (allocView s)) : (sortedKeys blake2 s).Nodup := by
  refine hi.nodup.map_on fun x _ y _ hxy => ?_
  obtain ⟨n, a, k⟩ := x
  obtain ⟨n', a', k'⟩ := y
  obtain ⟨rfl, rfl, rfl⟩ := sortedAllocationKey_inj blake2 hxy
  rfl

theorem mem_networkKeys {finalPrefix : List UInt8} {keys : List (List UInt8)}
    (hstore : ∀ r, r ∈ keys ∧ finalPrefix <+: r ↔ r ∈ (sortedKeys blake2 s).map (rawKey finalPrefix))
    (network : NetworkId) (r : List UInt8) :
    r ∈ keys ∧ finalPrefix ++ [network.encode] <+: r ↔
      ∃ key amount, (network, amount, key) ∈ s.sortedAllocations ∧
        r = rawKey finalPrefix (sortedAllocationKey blake2 network key amount) := by
  constructor
  · rintro ⟨hr, hpre⟩
    have hk := (hstore r).mp ⟨hr, (List.prefix_append _ _).trans hpre⟩
    simp only [sortedKeys, List.map_map, List.mem_map, Function.comp_apply] at hk
    obtain ⟨⟨n, amount, key⟩, he, rfl⟩ := hk
    -- the byte after the final prefix names the network
    have hn : network.encode = n.encode := by
      simp only [rawKey, sortedAllocationKey, List.prefix_append_right_inj, List.cons_prefix_cons] at hpre
      exact hpre.1
    rw [← NetworkId.encode_inj hn] at he ⊢
    exact ⟨key, amount, he, rfl⟩
  · rintro ⟨key, amount, he, rfl⟩
    have hmem : rawKey finalPrefix (sortedAllocationKey blake2 network key amount) ∈
        (sortedKeys blake2 s).map (rawKey finalPrefix) :=
      List.mem_map.mpr ⟨_, List.mem_map.mpr ⟨(network, amount, key), he, rfl⟩, rfl⟩
    refine ⟨((hstore _).mpr hmem).1, ?_⟩
    simp [rawKey, sortedAllocationKey]

end Keys

theorem recoverEntry_rawKey (blake2 : Blake2b128) (finalPrefix : List UInt8) (network : NetworkId) (key : Public)
    (amount : UInt64) :
    recoverEntry (rawKey finalPrefix (sortedAllocationKey blake2 network key amount)) = some (key, amount) := by
  simp [recoverEntry, recoverKey_rawKey, recoverAmount_rawKey]

theorem collect_eq (keys : List (List UInt8)) (networkPrefix : List UInt8) (fuel : ℕ) (last : List UInt8) :
    SortedAllocationsIter.collect keys fuel ⟨networkPrefix, last⟩ =
      (walk keys (networkPrefix.isPrefixOf ·) fuel last).mapM recoverEntry := by
  induction fuel generalizing last with
  | zero => rfl
  | succ fuel ih =>
    cases hn : nextKey keys last with
    | none =>
      simp [SortedAllocationsIter.collect, SortedAllocationsIter.next, hn, walk_succ_of_none hn]
    | some k =>
      rw [walk_succ_of_some hn]
      by_cases hp : networkPrefix.isPrefixOf k = true
      · rw [if_pos hp, List.mapM_cons]
        cases hr : recoverEntry k with
        | none => simp [SortedAllocationsIter.collect, SortedAllocationsIter.next, hn, hp, hr]
        | some entry =>
          simp only [SortedAllocationsIter.collect, SortedAllocationsIter.next, hn, hp, hr, ih, if_true,
            Option.map_some]
          cases List.mapM recoverEntry (walk keys (networkPrefix.isPrefixOf ·) fuel k) <;> rfl
      · simp [SortedAllocationsIter.collect, SortedAllocationsIter.next, hn, hp]

theorem collect_new {blake2 : Blake2b128} {s : St Public} (hi : SortedInv (allocView s)) {finalPrefix : List UInt8}
    {keys : List (List UInt8)}
    (hstore : ∀ r, r ∈ keys ∧ finalPrefix <+: r ↔ r ∈ (sortedKeys blake2 s).map (rawKey finalPrefix))
    (network : NetworkId) {fuel : ℕ} (hfuel : keys.length ≤ fuel) :
    ∃ items, SortedAllocationsIter.collect keys fuel (SortedAllocationsIter.new finalPrefix network) = some items ∧
      items.Nodup ∧ (∀ key amount, (key, amount) ∈ items ↔ s.allocations (network, key) = some amount ∧ amount ≠ 0) ∧
      items.Pairwise (fun x y => y.2 ≤ x.2) := by
  set networkPrefix := finalPrefix ++ [network.encode] with hpre
  -- the keys the walk reaches are the raw keys of the network's entries
  have hwalk : ∀ r, r ∈ walk keys (networkPrefix.isPrefixOf ·) fuel networkPrefix ↔
      ∃ key amount, (network, amount, key) ∈ s.sortedAllocations ∧
        r = rawKey finalPrefix (sortedAllocationKey blake2 network key amount) := by
    intro r
    have hf : (keys.filter (networkPrefix < ·)).length ≤ fuel := (List.length_filter_le _ _).trans hfuel
    rw [mem_walk (interval_of_isPrefix keys networkPrefix) hf, ← mem_networkKeys hstore network r,
      List.isPrefixOf_iff_prefix]
    constructor
    · rintro ⟨hr, -, hp⟩
      exact ⟨hr, hp⟩
    · rintro ⟨hr, hp⟩
      refine ⟨hr, ?_, hp⟩
      -- a raw key goes on past the network's prefix
      obtain ⟨key, amount, -, rfl⟩ := (mem_networkKeys hstore network r).mp ⟨hr, hp⟩
      rw [rawKey_sortedAllocationKey]
      refine lt_append_of_ne_nil _ fun hnil => ?_
      have := congrArg List.length hnil
      simp [key.length_bytes] at this
  obtain ⟨items, hitems, hrel⟩ := mapM_some_of_isSome (f := recoverEntry)
    (l := walk keys (networkPrefix.isPrefixOf ·) fuel networkPrefix) fun r hr => by
      obtain ⟨key, amount, -, rfl⟩ := (hwalk r).mp hr
      rw [recoverEntry_rawKey]
      rfl
  -- keys in increasing order read back to distinct entries with non-increasing amounts
  have hform : (walk keys (networkPrefix.isPrefixOf ·) fuel networkPrefix).Pairwise fun r r' => r < r' ∧
      (∃ key amount, (network, amount, key) ∈ s.sortedAllocations ∧
        r = rawKey finalPrefix (sortedAllocationKey blake2 network key amount)) ∧
      (∃ key amount, (network, amount, key) ∈ s.sortedAllocations ∧
        r' = rawKey finalPrefix (sortedAllocationKey blake2 network key amount)) :=
    (walk_sorted keys (networkPrefix.isPrefixOf ·) fuel networkPrefix).imp_of_mem
      fun ha hb hab => ⟨hab, (hwalk _).mp ha, (hwalk _).mp hb⟩
  have hpair : items.Pairwise (fun x y => y.2 ≤ x.2 ∧ x ≠ y) := by
    refine pairwise_of_forall₂ ?_ hrel hform
    rintro r r' e e' he he' ⟨hlt, ⟨key, amount, -, rfl⟩, ⟨key', amount', -, rfl⟩⟩
    rw [recoverEntry_rawKey, Option.some.injEq] at he he'
    subst he he'
    refine ⟨amount_le_of_rawKey_lt blake2 finalPrefix network hlt, fun heq => ?_⟩
    simp only [Prod.mk.injEq] at heq
    obtain ⟨rfl, rfl⟩ := heq
    exact Std.lt_irrefl hlt
  refine ⟨items, ?_, hpair.imp (·.2), fun key amount => ?_, hpair.imp (·.1)⟩
  · rw [show SortedAllocationsIter.new finalPrefix network = ⟨networkPrefix, networkPrefix⟩ from rfl, collect_eq]
    exact hitems
  constructor
  · intro hm
    obtain ⟨r, hr, he⟩ := exists_of_mem_forall₂_right hrel hm
    obtain ⟨key', amount', hmem, rfl⟩ := (hwalk r).mp hr
    rw [recoverEntry_rawKey, Option.some.injEq, Prod.mk.injEq] at he
    obtain ⟨rfl, rfl⟩ := he
    exact (hi.mem_iff network key' amount').mp hmem
  · intro ha
    have hr := (hwalk _).mpr ⟨key, amount, (hi.mem_iff network key amount).mpr ha, rfl⟩
    obtain ⟨e, he, hre⟩ := exists_of_mem_forall₂_left hrel hr
    rw [recoverEntry_rawKey, Option.some.injEq] at hre
    exact hre ▸ he

theorem sorted_allocations_index (cfg : Config Public) (blake2 : Blake2b128) (finalPrefix : List UInt8)
    {s : St Public} (hr : Reach cfg s) (network : NetworkId) :
    ((sortedKeys blake2 s).Nodup ∧ ∀ k, k ∈ sortedKeys blake2 s ∧ k.1 = network ↔
        ∃ key amount, s.allocations (network, key) = some amount ∧ amount ≠ 0 ∧
          k = sortedAllocationKey blake2 network key amount) ∧
    (∀ key amount,
        recoverAmountFromSortedAllocationKey (rawKey finalPrefix (sortedAllocationKey blake2 network key amount)) =
          some amount ∧
        recoverKeyFromSortedAllocationKey (rawKey finalPrefix (sortedAllocationKey blake2 network key amount)) =
          some key) ∧
    ∀ (keys : List (List UInt8)) (fuel : ℕ),
      (∀ r, r ∈ keys ∧ finalPrefix <+: r ↔ r ∈ (sortedKeys blake2 s).map (rawKey finalPrefix)) → keys.length ≤ fuel →
      ∃ items, SortedAllocationsIter.collect keys fuel (SortedAllocationsIter.new finalPrefix network) = some items ∧
        items.Nodup ∧ (∀ key amount, (key, amount) ∈ items ↔ s.allocations (network, key) = some amount ∧ amount ≠ 0) ∧
        items.Pairwise (fun x y => y.2 ≤ x.2) := by
  have hi := reach_sortedInv cfg hr
  refine ⟨⟨nodup_sortedKeys hi, mem_sortedKeys hi network⟩, fun key amount => ?_,
    fun keys fuel hstore hfuel => collect_new hi hstore network hfuel⟩
  exact ⟨recoverAmount_rawKey blake2 finalPrefix network key amount, recoverKey_rawKey blake2 finalPrefix network key amount⟩

/-- A hash that is zero everywhere, and the zero key. -/
def Blake2b128.zero : Blake2b128 := ⟨fun _ => List.replicate 16 0, fun _ => List.length_replicate⟩

def Public.zero : Public := ⟨List.replicate 32 0, List.length_replicate⟩

/-- The key of 32 bytes `b`. -/
def Public.ofByte (b : UInt8) : Public := ⟨List.replicate 32 b, List.length_replicate⟩

/-- The genesis of two participants, each allocated 5 on Serai and 5 on Bitcoin. -/
def twoAllocations : St Public :=
  state (genesisBuild ⟨Public.zero, fun _ _ _ => 0⟩ [(.serai, 5), (.bitcoin, 5)] [Public.ofByte 1, Public.ofByte 2]
    (St.empty ⟨fun _ => 0, fun _ => 0⟩))

theorem sorted_allocations_index_two :
    let s := twoAllocations
    s.allocations (.bitcoin, Public.ofByte 1) = some 5 ∧ s.allocations (.bitcoin, Public.ofByte 2) = some 5 ∧
    ((sortedKeys Blake2b128.zero s).Nodup ∧ ∀ k, k ∈ sortedKeys Blake2b128.zero s ∧ k.1 = .bitcoin ↔
        ∃ key amount, s.allocations (.bitcoin, key) = some amount ∧ amount ≠ 0 ∧
          k = sortedAllocationKey Blake2b128.zero .bitcoin key amount) ∧
    (∀ key amount,
        recoverAmountFromSortedAllocationKey (rawKey [] (sortedAllocationKey Blake2b128.zero .bitcoin key amount)) =
          some amount ∧
        recoverKeyFromSortedAllocationKey (rawKey [] (sortedAllocationKey Blake2b128.zero .bitcoin key amount)) =
          some key) ∧
    ∀ (keys : List (List UInt8)) (fuel : ℕ),
      (∀ r, r ∈ keys ∧ [] <+: r ↔ r ∈ (sortedKeys Blake2b128.zero s).map (rawKey [])) → keys.length ≤ fuel →
      ∃ items, SortedAllocationsIter.collect keys fuel (SortedAllocationsIter.new [] .bitcoin) = some items ∧
        items.Nodup ∧ (∀ key amount, (key, amount) ∈ items ↔ s.allocations (.bitcoin, key) = some amount ∧ amount ≠ 0) ∧
        items.Pairwise (fun x y => y.2 ≤ x.2) := by
  have hok : errorOf (genesisBuild ⟨Public.zero, fun _ _ _ => 0⟩ [(.serai, 5), (.bitcoin, 5)]
      [Public.ofByte 1, Public.ofByte 2] (St.empty ⟨fun _ => 0, fun _ => 0⟩)) = none := by decide +kernel
  have hgen : genesisBuild ⟨Public.zero, fun _ _ _ => 0⟩ [(.serai, 5), (.bitcoin, 5)] [Public.ofByte 1, Public.ofByte 2]
      (St.empty ⟨fun _ => 0, fun _ => 0⟩) = .ok () twoAllocations := eq_ok_state hok
  have h1 : twoAllocations.allocations (.bitcoin, Public.ofByte 1) = some 5 := by decide +kernel
  have h2 : twoAllocations.allocations (.bitcoin, Public.ofByte 2) = some 5 := by decide +kernel
  exact ⟨h1, h2,
    sorted_allocations_index ⟨Public.zero, fun _ _ _ => 0⟩ Blake2b128.zero [] (Reach.genesis _ _ _ hgen) .bitcoin⟩

end Serai.ValidatorSets
