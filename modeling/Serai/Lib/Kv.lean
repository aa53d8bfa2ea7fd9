import Mathlib
/-
  Serai.Lib.Kv — a key-value database with transactions, as serai-db's `MemDb` implements
  one: a transaction buffers its writes over the committed database, reads through them,
  and commits them at once.

  Keys are typed: `β k` is what key `k` holds, so a read returns a value of the type the
  key was written with. A transaction's reads see its own writes (`get_put_self`,
  `get_del_self`) and otherwise the committed database (`get_put_ne`, `get_begin`); a
  commit leaves what the transaction read (`commit_get`); a put keeps a key that held a
  value holding one (`isSome_get_put`). Reads of the committed database while a
  transaction is open do not see the transaction's writes: that is `base`.
-/

namespace Serai.Lib

variable {κ : Type} {β : κ → Type}

/-- A committed database. -/
def Db (κ : Type) (β : κ → Type) := (k : κ) → Option (β k)

/-- An open transaction: the committed database it started from, and per key its pending
    write (`some (some v)` a put, `some none` a delete). -/
structure Txn (κ : Type) (β : κ → Type) where
  base : Db κ β
  writes : (k : κ) → Option (Option (β k))

/-- `Db::txn`. -/
def Db.begin (d : Db κ β) : Txn κ β := ⟨d, fun _ => none⟩

/-- `Get::get` on a transaction: its pending write, else the committed value. -/
def Txn.get (t : Txn κ β) (k : κ) : Option (β k) :=
  match t.writes k with
  | some w => w
  | none => t.base k

/-- `DbTxn::commit`. -/
def Txn.commit (t : Txn κ β) : Db κ β := fun k => t.get k

@[simp] theorem get_begin (d : Db κ β) (k : κ) : d.begin.get k = d k := rfl

@[simp] theorem commit_get (t : Txn κ β) (k : κ) : t.commit k = t.get k := rfl

variable [DecidableEq κ]

/-- `DbTxn::put`. -/
def Txn.put (t : Txn κ β) (k : κ) (v : β k) : Txn κ β :=
  { t with writes := Function.update t.writes k (some (some v)) }

/-- `DbTxn::del`. -/
def Txn.del (t : Txn κ β) (k : κ) : Txn κ β :=
  { t with writes := Function.update t.writes k (some none) }

@[simp] theorem get_put_self (t : Txn κ β) (k : κ) (v : β k) : (t.put k v).get k = some v := by
  simp [Txn.put, Txn.get]

@[simp] theorem get_put_ne (t : Txn κ β) {k k' : κ} (v : β k) (h : k' ≠ k) : (t.put k v).get k' = t.get k' := by
  simp [Txn.put, Txn.get, Function.update_of_ne h]

@[simp] theorem get_del_self (t : Txn κ β) (k : κ) : (t.del k).get k = none := by
  simp [Txn.del, Txn.get]

@[simp] theorem get_del_ne (t : Txn κ β) {k k' : κ} (h : k' ≠ k) : (t.del k).get k' = t.get k' := by
  simp [Txn.del, Txn.get, Function.update_of_ne h]

theorem isSome_get_put (t : Txn κ β) (k : κ) (v : β k) {k' : κ} (h : (t.get k').isSome) :
    ((t.put k v).get k').isSome := by
  by_cases hk : k' = k
  · subst hk
    simp
  · rw [get_put_ne _ _ hk]
    exact h

@[simp] theorem base_put (t : Txn κ β) (k : κ) (v : β k) : (t.put k v).base = t.base := rfl

@[simp] theorem base_del (t : Txn κ β) (k : κ) : (t.del k).base = t.base := rfl

end Serai.Lib
