import Mathlib
/-
  Serai.Tributary.Block — a Tributary's transactions and blocks (coordinator/tributary/src/
  transaction.rs, block.rs): a transaction's kind (provided for an order, unsigned, or
  signed by a participant with a nonce for an order), `verify_transaction`, and
  `Block::verify`, which checks a block against the chain: its size and parent, the order
  Provided, Unsigned, Signed, provided transactions against the locally provided queues,
  unsigned ones against those already included, and each transaction, signed ones against
  the next nonce of their signer and order.

  What a transaction's checks need beyond the chain (its size and `Transaction::verify`,
  `verify_tendermint_tx` with the commits it reads, a signature's validity) are the
  functions of `Checks`; hashes, the merkle root and the header hash are values of a type
  `Hh`. The nonces a block's signed transactions read and bump (`get_and_increment_nonce`)
  live in a state `σ` the caller chooses, as in the source, where it is a closure over a
  database transaction.
-/

namespace Serai.Tributary

/-- `TransactionKind`, with `Signed`'s signer and nonce. -/
inductive TransactionKind (G O : Type) where
  | provided (order : O)
  | unsigned
  | signed (order : O) (signer : G) (nonce : UInt32)
  deriving DecidableEq, Repr

/-- A transaction on the chain (`Transaction<T>`): a Tendermint transaction (evidence) or an
    application one, with its hash and kind. -/
structure Transaction (G O Hh : Type) where
  tendermint : Bool
  hash : Hh
  kind : TransactionKind G O
  -- `TendermintTx::kind` is `TransactionKind::Unsigned`: evidence is never signed
  tendermint_unsigned : tendermint = true → kind = .unsigned
  deriving DecidableEq, Repr

/-- `TransactionError`. -/
inductive TransactionError where
  | tooLargeTransaction
  | invalidSigner
  | invalidNonce
  | invalidSignature
  | invalidContent
  | tooManyInMempool
  | providedAddedToMempool
  deriving DecidableEq, Repr

/-- What the chain checks of a transaction without reading its own state. -/
structure Checks (G O Hh : Type) where
  /-- `tx.serialize().len() <= TRANSACTION_SIZE_LIMIT`. -/
  withinSize : Transaction G O Hh → Bool
  /-- `Transaction::verify`, of an application transaction. -/
  verify : Transaction G O Hh → Except TransactionError Unit
  /-- `verify_tendermint_tx`. -/
  verifyTendermint : Transaction G O Hh → Except TransactionError Unit
  /-- `signature.verify(signer, tx.sig_hash(genesis))`. -/
  signatureValid : Transaction G O Hh → Bool

variable {G O Hh : Type}

/-- `verify_transaction`; `get_and_increment_nonce` returns the next nonce of a signer and
    order (`None`: the signer isn't a participant) and may update its state. -/
def verifyTransaction {σ : Type} (checks : Checks G O Hh) (tx : Transaction G O Hh)
    (getAndIncrementNonce : G → O → σ → Option UInt32 × σ) (s : σ) : Except TransactionError σ := do
  if !checks.withinSize tx then throw .tooLargeTransaction
  checks.verify tx
  match tx.kind with
  | .provided _ | .unsigned => pure s
  | .signed order signer nonce =>
    let (next, s) := getAndIncrementNonce signer order s
    match next with
    | none => throw .invalidSigner
    | some next =>
      if nonce ≠ next then throw .invalidNonce
      if !checks.signatureValid tx then throw .invalidSignature
      pure s

/-- `BlockError`. -/
inductive BlockError (Hh : Type) where
  | tooLargeBlock
  | invalidParent
  | invalidTransactions
  | unsignedAlreadyIncluded
  | providedAlreadyIncluded
  | wrongTransactionOrder
  | nonLocalProvided (hash : Hh)
  | distinctProvided
  | transactionError (e : TransactionError)
  deriving DecidableEq, Repr

/-- `ProvidedError`. -/
inductive ProvidedError where
  | notProvided
  | invalidProvided (e : TransactionError)
  | alreadyProvided
  | localMismatchesOnChain
  deriving DecidableEq, Repr

/-- Why a call of the chain fails: an error it returns, or a panic (`assert!`, `unwrap`,
    `panic!`, an index out of range). -/
inductive Fail (Hh : Type) where
  | tx (e : TransactionError)
  | block (e : BlockError Hh)
  | provided (e : ProvidedError)
  | panic
  deriving DecidableEq, Repr

/-- A block: its header (`parent`, and `transactions`, the merkle root of the transactions'
    hashes) and its transactions. -/
structure Block (G O Hh : Type) where
  parent : Hh
  root : Hh
  transactions : List (Transaction G O Hh)
  deriving DecidableEq, Repr

/-- `BLOCK_SIZE_LIMIT`. -/
def blockSizeLimit : ℕ := 3001000

/-- What a block's encoding and hashing give: `block.serialize().len()` (a header is of fixed
    size, so it is a function of the transactions), `merkle` and `BlockHeader::hash`. -/
structure Encoding (G O Hh : Type) where
  size : List (Transaction G O Hh) → ℕ
  merkle : List Hh → Hh
  headerHash : Hh → Hh → Hh

/-- `Block::hash`. -/
def Block.hash (enc : Encoding G O Hh) (b : Block G O Hh) : Hh := enc.headerHash b.parent b.root

/-- The order a block's transactions must come in: Provided, Unsigned, Signed. -/
def TransactionKind.rank : TransactionKind G O → ℕ
  | .provided _ => 0
  | .unsigned => 1
  | .signed .. => 2

variable [DecidableEq G] [DecidableEq O] [DecidableEq Hh]

/-- What `Block::verify`'s loop carries: the order of the last transaction, the unsigned
    hashes included so far, the locally provided queues it pops, and the nonce state. -/
structure VerifyAcc (G O Hh σ : Type) where
  lastOrder : ℕ
  included : List Hh
  locallyProvided : O → List (Transaction G O Hh)
  nonces : σ

/-- One transaction of `Block::verify`'s loop. -/
def verifyStep {σ : Type} (checks : Checks G O Hh) (getAndIncrementNonce : G → O → σ → Option UInt32 × σ)
    (providedOrUnsignedInChain : Hh → Bool) (allowNonLocalProvided : Bool) (acc : VerifyAcc G O Hh σ)
    (tx : Transaction G O Hh) : Except (BlockError Hh) (VerifyAcc G O Hh σ) := do
  let acc ← match tx.kind with
    | .provided order =>
      if providedOrUnsignedInChain tx.hash then throw .providedAlreadyIncluded
      match acc.locallyProvided order with
      | localTx :: rest =>
        if tx.tendermint then throw (.nonLocalProvided tx.hash)
        if tx ≠ localTx then throw .distinctProvided
        pure { acc with locallyProvided := Function.update acc.locallyProvided order rest }
      | [] =>
        if !allowNonLocalProvided then throw (.nonLocalProvided tx.hash)
        pure acc
    | .unsigned =>
      if providedOrUnsignedInChain tx.hash || acc.included.contains tx.hash then
        throw .unsignedAlreadyIncluded
      pure { acc with included := tx.hash :: acc.included }
    | .signed .. => pure acc
  if tx.kind.rank < acc.lastOrder then throw .wrongTransactionOrder
  let acc := { acc with lastOrder := tx.kind.rank }
  if tx.tendermint then
    match checks.verifyTendermint tx with
    | .error e => throw (.transactionError e)
    | .ok () => pure acc
  else
    match verifyTransaction checks tx getAndIncrementNonce acc.nonces with
    | .error e => throw (.transactionError e)
    | .ok nonces => pure { acc with nonces := nonces }

/-- `Block::verify`. -/
def Block.verify {σ : Type} (enc : Encoding G O Hh) (checks : Checks G O Hh) (b : Block G O Hh) (lastBlock : Hh)
    (locallyProvided : O → List (Transaction G O Hh)) (getAndIncrementNonce : G → O → σ → Option UInt32 × σ)
    (nonces : σ) (providedOrUnsignedInChain : Hh → Bool) (allowNonLocalProvided : Bool) :
    Except (BlockError Hh) Unit := do
  if blockSizeLimit < enc.size b.transactions then throw .tooLargeBlock
  if b.parent ≠ lastBlock then throw .invalidParent
  let _ ← b.transactions.foldlM
    (verifyStep checks getAndIncrementNonce providedOrUnsignedInChain allowNonLocalProvided)
    ⟨0, [], locallyProvided, nonces⟩
  if enc.merkle (b.transactions.map (·.hash)) ≠ b.root then throw .invalidTransactions


/-- The nonce `Block::new` checks the order of: a signed transaction's, 0 for the others. -/
def Transaction.nonce (tx : Transaction G O Hh) : UInt32 :=
  match tx.kind with
  | .signed _ _ nonce => nonce
  | _ => 0

/-- `Block::new`'s check that no nonce is below the one before it. -/
def nondecreasingNonces : List (Transaction G O Hh) → Bool
  | a :: b :: rest => a.nonce ≤ b.nonce && nondecreasingNonces (b :: rest)
  | _ => true

/-- `Block::new`'s `while res.serialize().len() > BLOCK_SIZE_LIMIT` loop, with `n` pops left:
    the last transaction is popped until the block fits, and `None` is the `assert!` on
    popping from an empty list. -/
def popUntilFits (fits : List (Transaction G O Hh) → Bool) : ℕ → List (Transaction G O Hh) →
    Option (List (Transaction G O Hh))
  | n, txs =>
    if fits txs then some txs
    else match n with
      | 0 => none
      | n + 1 => popUntilFits fits n txs.dropLast

/-- `Block::new`: the provided transactions, then the mempool's unsigned, then its signed
    ones; `None` is a panic (a provided transaction in the mempool, nonces out of order, or
    nothing left to pop). -/
def Block.new (enc : Encoding G O Hh) (parent : Hh) (provided mempool : List (Transaction G O Hh)) :
    Option (Block G O Hh) := do
  if mempool.any fun tx => tx.kind.rank = 0 then none
  let txs := provided ++ mempool.filter (fun tx => tx.kind.rank = 1) ++ mempool.filter (fun tx => tx.kind.rank = 2)
  if !nondecreasingNonces txs then none
  let fits := fun txs => decide (enc.size txs ≤ blockSizeLimit)
  let txs ← popUntilFits fits txs.length txs
  pure ⟨parent, enc.merkle (txs.map (·.hash)), txs⟩

end Serai.Tributary
