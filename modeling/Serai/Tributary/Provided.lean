import Serai.Tributary.Block
import Serai.Lib.Kv
import Serai.Lib.Layer
/-
  Serai.Tributary.Provided — a Tributary's provided transactions (coordinator/tributary/src/
  provided.rs): transactions every validator must provide locally before the block holding
  them is accepted, in an order per kind (`order`).

  The database keeps per order the number provided locally and the number included on
  chain, the hash of the i-th included one, and per block the on-chain number up to it.
  `provide` compares the i-th locally provided transaction with the i-th on-chain one when
  the chain is ahead, and else queues it; `complete`, called by `add_block` for each
  provided transaction of a block inside the block's database transaction, pops the queue
  and counts the transaction on chain.

  `complete` reads the on-chain counter from the committed database, not through the block's
  open transaction (`complete_onChainQuantity`). Two provided transactions of one order in
  one block both read the count from before the block: the count goes up by one, and the
  second overwrites the first's slot (`complete_twice`).
-/

namespace Serai.Tributary

open Serai.Lib

/-- The keys of a Tributary's database that the modelled calls read and write: those of
    `ProvidedTransactions` and the nonces and inclusion marks of `Blockchain`. -/
inductive Key (G O Hh : Type) where
  | transaction (hash : Hh)
  | currentProvided
  | localQuantity (order : O)
  | onChainQuantity (order : O)
  | blockQuantity (block : Hh) (order : O)
  | onChainTx (order : O) (id : UInt32)
  | nextNonce (signer : G) (order : O)
  | unsignedIncluded (hash : Hh)
  | providedIncluded (hash : Hh)
  deriving DecidableEq, Repr

variable {G O Hh : Type}

/-- What each key holds. -/
@[reducible] def Key.val : Key G O Hh → Type
  | .transaction _ => Transaction G O Hh
  | .currentProvided => List Hh
  | .localQuantity _ | .onChainQuantity _ | .blockQuantity .. => UInt32
  | .onChainTx .. => Hh
  | .nextNonce .. => UInt32
  | .unsignedIncluded _ | .providedIncluded _ => Unit

/-- A Tributary's database. -/
@[reducible] def TributaryDb (G O Hh : Type) := Db (Key G O Hh) Key.val

/-- A transaction on it. -/
@[reducible] def TributaryTxn (G O Hh : Type) := Txn (Key G O Hh) Key.val

/-- A `u32` counter (`map_or(0, ..)`). -/
def counter (v : Option UInt32) : UInt32 := v.getD 0

variable [DecidableEq G] [DecidableEq O] [DecidableEq Hh]

/-- `ProvidedTransactions::provide`; `transactions` are the queues of provided transactions
    not yet on chain, per order. -/
def provide (checks : Checks G O Hh) (db : TributaryDb G O Hh) (transactions : O → List (Transaction G O Hh))
    (tx : Transaction G O Hh) : Except (Fail Hh) (TributaryDb G O Hh × (O → List (Transaction G O Hh))) :=
  match tx.kind with
  | .provided order =>
    match verifyTransaction checks tx (fun _ _ (_ : Unit) => (none, ())) () with
    | .error e => throw (.provided (.invalidProvided e))
    | .ok () =>
      if (db (.transaction tx.hash)).isSome then throw (.provided .alreadyProvided)
      else
        let localQuantity := counter (db (.localQuantity order))
        let onChainQuantity := counter (db (.onChainQuantity order))
        let txn : TributaryTxn G O Hh :=
          ((Db.begin db).put (.transaction tx.hash) tx).put (.localQuantity order) (localQuantity + 1)
        let thisProvidedId := localQuantity
        if thisProvidedId < onChainQuantity then
          -- the chain is ahead: this must be the transaction it included at this index
          match txn.get (.onChainTx order thisProvidedId) with
          | none => throw .panic
          | some onChain =>
            if tx.hash ≠ onChain then throw (.provided .localMismatchesOnChain)
            else pure (txn.commit, transactions)
        else
          let currentlyProvided := (txn.get .currentProvided).getD []
          let txn := txn.put .currentProvided (currentlyProvided ++ [tx.hash])
          pure (txn.commit, Function.update transactions order (transactions order ++ [tx]))
  | _ => throw (.provided .notProvided)

/-- The queue part of `complete`: pop the order's next locally provided transaction, which
    must be this one, and drop it from the currently provided hashes. -/
def popProvided (transactions : O → List (Transaction G O Hh)) (txn : TributaryTxn G O Hh) (order : O)
    (hash : Hh) : Except (Fail Hh) (TributaryTxn G O Hh × (O → List (Transaction G O Hh))) :=
  match transactions order with
  | [] => pure (txn, transactions)
  | next :: rest =>
    if next.hash ≠ hash then throw .panic
    else match txn.get .currentProvided with
      | none => throw .panic
      | some currentlyProvided =>
        -- `panic!("couldn't find completed TX in currently provided")`
        if hash ∉ currentlyProvided then throw .panic
        else pure (txn.put .currentProvided (currentlyProvided.erase hash), Function.update transactions order rest)

/-- The counting part of `complete`: the on-chain counter is read from the committed
    database (`self.db`), the writes go to the block's transaction. -/
def countOnChain (txn : TributaryTxn G O Hh) (order : O) (block hash : Hh) : TributaryTxn G O Hh :=
  let onChainQuantity := counter (txn.base (.onChainQuantity order))
  let thisProvidedId := onChainQuantity
  ((txn.put (.onChainTx order thisProvidedId) hash).put (.onChainQuantity order) (onChainQuantity + 1)).put
    (.blockQuantity block order) (onChainQuantity + 1)

/-- `ProvidedTransactions::complete`. -/
def complete (transactions : O → List (Transaction G O Hh)) (txn : TributaryTxn G O Hh) (order : O)
    (block hash : Hh) : Except (Fail Hh) (TributaryTxn G O Hh × (O → List (Transaction G O Hh))) := do
  let (txn, transactions) ← popProvided transactions txn order hash
  pure (countOnChain txn order block hash, transactions)

/-! ## What `complete` counts -/

section Counting

variable {txn : TributaryTxn G O Hh} {order : O} {block hash : Hh}

@[simp] theorem base_countOnChain : (countOnChain txn order block hash).base = txn.base := rfl

theorem popProvided_base {transactions : O → List (Transaction G O Hh)} {txn' : TributaryTxn G O Hh}
    {transactions' : O → List (Transaction G O Hh)}
    (h : popProvided transactions txn order hash = .ok (txn', transactions')) : txn'.base = txn.base := by
  unfold popProvided at h
  split at h
  · cases h
    rfl
  · split at h
    · cases h
    · split at h
      · cases h
      · split at h
        · cases h
        · cases h
          rfl

theorem complete_onChainQuantity {transactions : O → List (Transaction G O Hh)} {txn' : TributaryTxn G O Hh}
    {transactions' : O → List (Transaction G O Hh)}
    (h : complete transactions txn order block hash = .ok (txn', transactions')) :
    txn'.get (.onChainQuantity order) = some (counter (txn.base (.onChainQuantity order)) + 1) ∧
      txn'.get (.onChainTx order (counter (txn.base (.onChainQuantity order)))) = some hash ∧
      txn'.base = txn.base := by
  unfold complete at h
  obtain ⟨⟨txn₁, transactions₁⟩, hpop, h⟩ := except_bind_ok h
  cases h
  have hbase := popProvided_base hpop
  rw [← hbase]
  refine ⟨?_, ?_, rfl⟩
  · simp [countOnChain]
  · simp [countOnChain]

theorem complete_twice {transactions transactions₁ transactions₂ : O → List (Transaction G O Hh)}
    {txn₁ txn₂ : TributaryTxn G O Hh} {hash₁ hash₂ : Hh}
    (h₁ : complete transactions txn order block hash₁ = .ok (txn₁, transactions₁))
    (h₂ : complete transactions₁ txn₁ order block hash₂ = .ok (txn₂, transactions₂)) :
    txn₂.get (.onChainQuantity order) = some (counter (txn.base (.onChainQuantity order)) + 1) ∧
      txn₂.get (.onChainTx order (counter (txn.base (.onChainQuantity order)))) = some hash₂ := by
  obtain ⟨-, -, hbase₁⟩ := complete_onChainQuantity h₁
  obtain ⟨hq, htx, -⟩ := complete_onChainQuantity h₂
  rw [hbase₁] at hq htx
  exact ⟨hq, htx⟩

end Counting

end Serai.Tributary
