import Serai.Tributary.Block
/-
  Serai.Tributary.Mempool — a Tributary's mempool (coordinator/tributary/src/mempool.rs):
  the transactions waiting for a block, keyed by hash, the number of them per signer, and
  per signer and order the nonce of the last one (`last_nonce_in_mempool`).

  `add` takes a signed transaction at the next nonce: one past the mempool's last for its
  signer and order, or the chain's next nonce when the mempool has none, and asserts that
  the mempool's last nonce is not behind the chain's. `remove` drops a transaction by hash,
  and forgets its signer's last nonce only when that nonce is the removed transaction's.
  The copy of the mempool in the database, read back on a restart, is not modelled.

  - `remove_absent`: removing a hash the mempool does not hold changes nothing; so a block
    that includes another transaction at the mempool's last nonce leaves that nonce in
    place.
  - `add_panics_of_behind`: once the mempool's last nonce for a signer and order is behind
    the chain's next nonce, adding any signed transaction of that signer and order panics.
-/

namespace Serai.Tributary

variable {G O Hh : Type}

/-- `ACCOUNT_MEMPOOL_LIMIT`. -/
def accountMempoolLimit : UInt32 := 50

/-- `Mempool`, in memory. -/
structure Mempool (G O Hh : Type) where
  lastNonceInMempool : G × O → Option UInt32
  txs : List (Transaction G O Hh)
  txsPerSigner : G → Option UInt32

/-- An empty mempool. -/
def Mempool.empty : Mempool G O Hh := ⟨fun _ => none, [], fun _ => none⟩

/-- The nonce `add` takes a signed transaction at: one past the mempool's last, after the
    assertion that it is not behind the chain's next nonce. -/
def Mempool.nextNonce (m : Mempool G O Hh) (signer : G) (order : O) (blockchainNextNonce : UInt32) :
    Except (Fail Hh) UInt32 :=
  match m.lastNonceInMempool (signer, order) with
  | some mempoolLastNonce =>
    if mempoolLastNonce < blockchainNextNonce then throw .panic else pure (mempoolLastNonce + 1)
  | none => pure blockchainNextNonce

/-- `next_nonce_in_mempool`. -/
def Mempool.nextNonceInMempool (m : Mempool G O Hh) (signer : G) (order : O) : Option UInt32 :=
  (m.lastNonceInMempool (signer, order)).map (· + 1)

theorem nextNonce_behind {m : Mempool G O Hh} {signer : G} {order : O} {last next : UInt32}
    (hlast : m.lastNonceInMempool (signer, order) = some last) (hbehind : last < next) :
    m.nextNonce signer order next = .error .panic := by
  unfold Mempool.nextNonce
  rw [hlast]
  simp only [if_pos hbehind]
  rfl

variable [DecidableEq Hh]

/-- `txs.contains_key(hash)`. -/
def Mempool.contains (m : Mempool G O Hh) (hash : Hh) : Bool := m.txs.any fun tx => tx.hash == hash

/-- `unsigned_already_exist`. -/
def Mempool.unsignedAlreadyExist (m : Mempool G O Hh) (hash : Hh) (unsignedInChain : Hh → Bool) : Bool :=
  unsignedInChain hash || m.contains hash

theorem find?_eq_none_of_not_contains {m : Mempool G O Hh} {hash : Hh} (h : m.contains hash = false) :
    m.txs.find? (fun tx => tx.hash == hash) = none := by
  rw [List.find?_eq_none]
  intro tx hmem heq
  have : m.contains hash = true := List.any_eq_true.mpr ⟨tx, hmem, heq⟩
  rw [h] at this
  cases this

variable [DecidableEq G] [DecidableEq O]

/-- `save_tx`, in memory: `txs.insert(hash, tx)`. -/
def Mempool.saveTx (m : Mempool G O Hh) (tx : Transaction G O Hh) : Mempool G O Hh :=
  { m with txs := m.txs.filter (fun t => t.hash ≠ tx.hash) ++ [tx] }

/-- `Mempool::add`: `Ok(true)` for a new transaction, `Ok(false)` for an unsigned one already
    present. `blockchainNextNonce` is the chain's next nonce of a participant (`None` for
    anyone else). -/
def Mempool.add (checks : Checks G O Hh) (blockchainNextNonce : G → O → Option UInt32) (internal : Bool)
    (tx : Transaction G O Hh) (unsignedInChain : Hh → Bool) (m : Mempool G O Hh) :
    Except (Fail Hh) (Bool × Mempool G O Hh) :=
  if tx.tendermint then
    -- every Tendermint transaction is unsigned
    if tx.kind ≠ .unsigned then throw .panic
    else if m.unsignedAlreadyExist tx.hash unsignedInChain then pure (false, m)
    else match checks.verifyTendermint tx with
      | .error e => throw (.tx e)
      | .ok () => pure (true, m.saveTx tx)
  else
    match tx.kind with
    | .signed order signer _ =>
      match blockchainNextNonce signer order with
      | none => throw (.tx .invalidSigner)
      | some blockchainNext => do
        let nextNonce ← m.nextNonce signer order blockchainNext
        let amountInPool := (m.txsPerSigner signer).getD 0 + 1
        if !internal && accountMempoolLimit < amountInPool then throw (.tx .tooManyInMempool)
        match verifyTransaction checks tx (fun _ _ (_ : Unit) => (some nextNonce, ())) () with
        | .error e => throw (.tx e)
        | .ok () =>
          pure (true, { m with
            lastNonceInMempool := Function.update m.lastNonceInMempool (signer, order) (some nextNonce),
            txsPerSigner := Function.update m.txsPerSigner signer (some amountInPool) }.saveTx tx)
    | .unsigned =>
      if m.unsignedAlreadyExist tx.hash unsignedInChain then pure (false, m)
      else match checks.verify tx with
        | .error e => throw (.tx e)
        | .ok () => pure (true, m.saveTx tx)
    | .provided _ => throw (.tx .providedAddedToMempool)

/-- `Mempool::block`: the unsigned transactions, then the signed ones sorted by nonce;
    `None` is the panic on a provided one. The map's iteration order is the list's. -/
def Mempool.block (m : Mempool G O Hh) : Option (List (Transaction G O Hh)) :=
  if m.txs.any fun tx => tx.kind.rank = 0 then none
  else
    some (m.txs.filter (fun tx => tx.kind.rank = 1) ++
      (m.txs.filter fun tx => tx.kind.rank = 2).mergeSort fun a b => a.nonce ≤ b.nonce)

/-- `Mempool::remove`, in memory. -/
def Mempool.remove (m : Mempool G O Hh) (hash : Hh) : Except (Fail Hh) (Mempool G O Hh) :=
  match m.txs.find? fun tx => tx.hash == hash with
  | none => pure m
  | some tx =>
    let m := { m with txs := m.txs.filter fun t => t.hash ≠ hash }
    match tx.kind with
    | .signed order signer nonce =>
      match m.txsPerSigner signer with
      | none => throw .panic
      | some amount =>
        let m := { m with txsPerSigner := Function.update m.txsPerSigner signer (some (amount - 1)) }
        if m.lastNonceInMempool (signer, order) = some nonce then
          pure { m with lastNonceInMempool := Function.update m.lastNonceInMempool (signer, order) none }
        else pure m
    | _ => pure m

/-! ## Removal and the nonce assertion -/

theorem remove_absent {m : Mempool G O Hh} {hash : Hh} (h : m.contains hash = false) : m.remove hash = .ok m := by
  unfold Mempool.remove
  rw [find?_eq_none_of_not_contains h]
  rfl

theorem add_panics_of_behind {m : Mempool G O Hh} (checks : Checks G O Hh) (blockchainNextNonce : G → O → Option UInt32)
    (internal : Bool) (unsignedInChain : Hh → Bool) {tx : Transaction G O Hh} {order : O} {signer : G}
    {nonce last next : UInt32} (happ : tx.tendermint = false) (hkind : tx.kind = .signed order signer nonce)
    (hnext : blockchainNextNonce signer order = some next)
    (hlast : m.lastNonceInMempool (signer, order) = some last) (hbehind : last < next) :
    m.add checks blockchainNextNonce internal tx unsignedInChain = .error .panic := by
  unfold Mempool.add
  simp only [happ, Bool.false_eq_true, if_false, hkind, hnext]
  rw [nextNonce_behind hlast hbehind]
  rfl

end Serai.Tributary
