import Mathlib
/-
  Serai.Primitives — what the pallets share from serai-primitives (substrate/primitives):
  networks, coins, balances, and the checked `u64` arithmetic of Rust's standard library
  the pallets do their accounting with.

  An `Amount` is a `u64` (`UInt64`); `checked_add` fails exactly when the sum leaves
  `u64` and `checked_sub` exactly when the subtrahend is larger. A plain `+` wraps: the
  value of a wrapped sum is at most the sum of the values (`toNat_sum_le`).
-/

namespace Serai

inductive NetworkId where
  | serai
  | bitcoin
  | ethereum
  | monero
  deriving DecidableEq, Repr

inductive Coin where
  | serai
  | bitcoin
  | ether
  | dai
  | monero
  deriving DecidableEq, Repr

/-- SCALE's encoding of a `NetworkId`: the variant's index. -/
def NetworkId.encode : NetworkId → UInt8
  | .serai => 0
  | .bitcoin => 1
  | .ethereum => 2
  | .monero => 3

/-- `NETWORKS`. -/
def networks : List NetworkId := [.serai, .bitcoin, .ethereum, .monero]

/-- `COINS`. -/
def coins : List Coin := [.serai, .bitcoin, .ether, .dai, .monero]

/-- `NetworkId::coins`. -/
def NetworkId.coins : NetworkId → List Coin
  | .serai => [.serai]
  | .bitcoin => [.bitcoin]
  | .ethereum => [.ether, .dai]
  | .monero => [.monero]

/-- `Coin::network`. -/
def Coin.network : Coin → NetworkId
  | .serai => .serai
  | .bitcoin => .bitcoin
  | .ether | .dai => .ethereum
  | .monero => .monero

/-- `Coin::decimals`. -/
def Coin.decimals : Coin → Nat
  | .serai | .bitcoin | .ether | .dai => 8
  | .monero => 12

/-- `Coin::is_native`. -/
def Coin.isNative (c : Coin) : Bool := c == .serai

/-- `Balance`: a coin and an `Amount` of it. -/
structure Balance where
  coin : Coin
  amount : UInt64
  deriving DecidableEq, Repr

/-- `u64::checked_add`. -/
def checkedAdd (a b : UInt64) : Option UInt64 :=
  if a.toNat + b.toNat < 2 ^ 64 then some (a + b) else none

/-- `u64::checked_sub`. -/
def checkedSub (a b : UInt64) : Option UInt64 :=
  if b ≤ a then some (a - b) else none

/-- `u64::saturating_add`. -/
def saturatingAdd (a b : UInt64) : UInt64 :=
  if a.toNat + b.toNat < 2 ^ 64 then a + b else UInt64.ofNat (2 ^ 64 - 1)

/-- `u64::saturating_sub`. -/
def saturatingSub (a b : UInt64) : UInt64 :=
  if b ≤ a then a - b else 0

/-- `u64::div_ceil`. -/
def divCeil (a b : UInt64) : UInt64 := if a % b > 0 then a / b + 1 else a / b

theorem checkedAdd_eq_some {a b c : UInt64} (h : checkedAdd a b = some c) :
    c.toNat = a.toNat + b.toNat := by
  unfold checkedAdd at h
  split at h
  · cases h
    rw [UInt64.toNat_add, Nat.mod_eq_of_lt ‹_›]
  · cases h

theorem checkedAdd_eq_none {a b : UInt64} : checkedAdd a b = none ↔ 2 ^ 64 ≤ a.toNat + b.toNat := by
  unfold checkedAdd
  split <;> simp_all

theorem checkedSub_eq_some {a b c : UInt64} (h : checkedSub a b = some c) :
    c.toNat + b.toNat = a.toNat := by
  unfold checkedSub at h
  split at h
  · cases h
    rename_i hle
    rw [UInt64.toNat_sub_of_le _ _ hle]
    have := UInt64.le_iff_toNat_le.mp hle
    omega
  · cases h

theorem checkedSub_eq_none {a b : UInt64} : checkedSub a b = none ↔ a.toNat < b.toNat := by
  unfold checkedSub
  split
  · rename_i h; simp only [reduceCtorEq, false_iff, not_lt]; exact UInt64.le_iff_toNat_le.mp h
  · rename_i h; simp only [true_iff]; exact Nat.lt_of_not_le (fun h' => h (UInt64.le_iff_toNat_le.mpr h'))

theorem checkedSub_add {a b c : UInt64} (h : checkedSub a b = some c) : c + b = a := by
  unfold checkedSub at h
  split at h
  · cases h
    exact UInt64.sub_add_cancel a b
  · cases h

theorem saturatingSub_toNat (a b : UInt64) : (saturatingSub a b).toNat = a.toNat - b.toNat := by
  unfold saturatingSub
  split
  · rename_i hle
    exact UInt64.toNat_sub_of_le _ _ hle
  · rename_i hlt
    have : a.toNat < b.toNat := Nat.lt_of_not_le (fun h' => hlt (UInt64.le_iff_toNat_le.mpr h'))
    simp only [UInt64.toNat_zero]
    omega

theorem mem_networks (network : NetworkId) : network ∈ networks := by
  cases network <;> decide

theorem toNat_add_le (a b : UInt64) : (a + b).toNat ≤ a.toNat + b.toNat := by
  rw [UInt64.toNat_add]
  exact Nat.mod_le _ _

theorem toNat_sum_le {β : Type} (l : List β) (f : β → UInt64) :
    ((l.map f).sum).toNat ≤ (l.map fun x => (f x).toNat).sum := by
  induction l with
  | nil => simp
  | cons x xs ih =>
    simp only [List.map_cons, List.sum_cons]
    have := toNat_add_le (f x) (xs.map f).sum
    omega

end Serai
