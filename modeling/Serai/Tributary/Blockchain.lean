import Serai.Tributary.Mempool
import Serai.Tributary.Provided
/-
  Serai.Tributary.Blockchain — a Tributary's chain (coordinator/tributary/src/blockchain.rs):
  its database, tip and block number, its participants, the locally provided transactions
  and the mempool; `add_transaction`, `provide_transaction`, `verify_block` and
  `add_block`, and runs of them in any interleaving.

  `add_block` verifies the block (accepting provided transactions not yet provided
  locally), then in one database transaction completes each provided transaction, marks
  each unsigned one included, sets each signed one's signer's next nonce past it, and
  removes unsigned and signed ones from the mempool by hash. The writes to the database of
  blocks, commits and hashes by number, read by nothing modelled here, are left out.

  - `addBlock_nextNonce`: after a block, each signer's next nonce of each order is past the
    last of their transactions the block holds; `addBlock_mempool_of_absent`: a block of
    transactions the mempool does not hold leaves the mempool, and its last nonces, as
    they were.
  - `addTransaction_panics_after_block`: so a block that includes another transaction at
    the mempool's last nonce of a participant leaves the mempool behind the chain, and the
    participant's next transaction of that order panics.
  - `participant_double_sign_panics`: a participant signs two transactions with one nonce;
    the mempool takes one, a block from another proposer includes the other, and the next
    transaction of that participant panics at `add`'s assertion.
  - `same_order_block_miscounts`: a block with two provided transactions of one order,
    neither provided locally, leaves the on-chain count of that order at 1, with the
    second's hash at index 0.
-/

namespace Serai.Tributary

open Serai.Lib

variable {G O Hh : Type} [DecidableEq G] [DecidableEq O] [DecidableEq Hh]

/-- `Blockchain`: the database, the tip and block number, the participants, the queues of
    locally provided transactions (`provided.transactions`) and the mempool. -/
structure Blockchain (G O Hh : Type) where
  db : TributaryDb G O Hh
  tip : Hh
  blockNumber : UInt64
  participants : List G
  provided : O → List (Transaction G O Hh)
  mempool : Mempool G O Hh

/-- What a chain is built with: the checks of its transactions and the encoding of its
    blocks. -/
structure Params (G O Hh : Type) where
  checks : Checks G O Hh
  enc : Encoding G O Hh

/-- `Blockchain::new` on an empty database. -/
def Blockchain.new (genesis : Hh) (participants : List G) : Blockchain G O Hh :=
  ⟨fun _ => none, genesis, 0, participants, fun _ => [], Mempool.empty⟩

namespace Blockchain

/-- The chain's next nonce of a participant (`None` for anyone else), read from the
    committed database. -/
def chainNextNonce (c : Blockchain G O Hh) (signer : G) (order : O) : Option UInt32 :=
  if signer ∈ c.participants then some (counter (c.db (.nextNonce signer order))) else none

/-- `add_transaction`. -/
def addTransaction (p : Params G O Hh) (c : Blockchain G O Hh) (internal : Bool) (tx : Transaction G O Hh) :
    Except (Fail Hh) (Bool × Blockchain G O Hh) := do
  let (added, mempool) ← c.mempool.add p.checks c.chainNextNonce internal tx
    fun hash => (c.db (.unsignedIncluded hash)).isSome
  pure (added, { c with mempool := mempool })

/-- `provide_transaction`. -/
def provideTransaction (p : Params G O Hh) (c : Blockchain G O Hh) (tx : Transaction G O Hh) :
    Except (Fail Hh) (Blockchain G O Hh) := do
  let (db, provided) ← provide p.checks c.db c.provided tx
  pure { c with db := db, provided := provided }

/-- `verify_block`'s `get_and_increment_nonce`, over a scratch database transaction. -/
def getAndIncrementNonce (c : Blockchain G O Hh) (signer : G) (order : O) (txn : TributaryTxn G O Hh) :
    Option UInt32 × TributaryTxn G O Hh :=
  if signer ∈ c.participants then
    let next := counter (txn.get (.nextNonce signer order))
    (some next, txn.put (.nextNonce signer order) (next + 1))
  else (none, txn)

/-- `verify_block`. -/
def verifyBlock (p : Params G O Hh) (c : Blockchain G O Hh) (b : Block G O Hh) (allowNonLocalProvided : Bool) :
    Except (BlockError Hh) Unit :=
  b.verify p.enc p.checks c.tip c.provided c.getAndIncrementNonce (Db.begin c.db)
    (fun hash => (c.db (.unsignedIncluded hash)).isSome || (c.db (.providedIncluded hash)).isSome)
    allowNonLocalProvided

/-- What `add_block`'s loop carries: the block's database transaction, the provided queues
    and the mempool. -/
structure Including (G O Hh : Type) where
  txn : TributaryTxn G O Hh
  provided : O → List (Transaction G O Hh)
  mempool : Mempool G O Hh

/-- One transaction of `add_block`'s loop; `tip` is the new block's hash. -/
def includeTx (tip : Hh) (acc : Including G O Hh) (tx : Transaction G O Hh) : Except (Fail Hh) (Including G O Hh) :=
  match tx.kind with
  | .provided order => do
    let (txn, provided) ← complete acc.provided acc.txn order tip tx.hash
    pure { acc with txn := txn.put (.providedIncluded tx.hash) (), provided := provided }
  | .unsigned => do
    let mempool ← acc.mempool.remove tx.hash
    pure { acc with txn := acc.txn.put (.unsignedIncluded tx.hash) (), mempool := mempool }
  | .signed order signer nonce => do
    let mempool ← acc.mempool.remove tx.hash
    pure { acc with txn := acc.txn.put (.nextNonce signer order) (nonce + 1), mempool := mempool }

/-- `add_block`. -/
def addBlock (p : Params G O Hh) (c : Blockchain G O Hh) (b : Block G O Hh) : Except (Fail Hh) (Blockchain G O Hh) :=
  match c.verifyBlock p b true with
  | .error e => throw (.block e)
  | .ok () => do
    let tip := b.hash p.enc
    let acc ← b.transactions.foldlM (includeTx tip) ⟨Db.begin c.db, c.provided, c.mempool⟩
    pure { c with db := acc.txn.commit, tip := tip, blockNumber := c.blockNumber + 1,
                  provided := acc.provided, mempool := acc.mempool }

end Blockchain

/-- A call on a Tributary's chain. -/
inductive Call (G O Hh : Type) where
  | addTransaction (internal : Bool) (tx : Transaction G O Hh)
  | provideTransaction (tx : Transaction G O Hh)
  | addBlock (b : Block G O Hh)

namespace Blockchain

def step (p : Params G O Hh) (c : Blockchain G O Hh) : Call G O Hh → Except (Fail Hh) (Blockchain G O Hh)
  | .addTransaction internal tx => do
    let (_, c) ← c.addTransaction p internal tx
    pure c
  | .provideTransaction tx => c.provideTransaction p tx
  | .addBlock b => c.addBlock p b

/-- A run: the calls one after the other, until one fails. -/
def run (p : Params G O Hh) (c : Blockchain G O Hh) (calls : List (Call G O Hh)) :
    Except (Fail Hh) (Blockchain G O Hh) :=
  calls.foldlM (step p) c

end Blockchain

/-! ## What a block does to the nonces and the mempool -/

/-- The next nonce of `signer` for `order` after a block's transactions: past the last of
    theirs the block holds, else `before`. -/
def nextNonceAfter (signer : G) (order : O) (txs : List (Transaction G O Hh)) (before : Option UInt32) :
    Option UInt32 :=
  txs.foldl (fun next tx => match tx.kind with
    | .signed order' signer' nonce => if order' = order ∧ signer' = signer then some (nonce + 1) else next
    | _ => next) before

omit [DecidableEq Hh] in
theorem nextNonceAfter_append (signer : G) (order : O) (pre : List (Transaction G O Hh)) (tx : Transaction G O Hh)
    (before : Option UInt32) :
    nextNonceAfter signer order (pre ++ [tx]) before =
      match tx.kind with
      | .signed order' signer' nonce =>
        if order' = order ∧ signer' = signer then some (nonce + 1) else nextNonceAfter signer order pre before
      | _ => nextNonceAfter signer order pre before := by
  simp only [nextNonceAfter, List.foldl_append, List.foldl_cons, List.foldl_nil]

theorem complete_get_nextNonce {transactions transactions' : O → List (Transaction G O Hh)}
    {txn txn' : TributaryTxn G O Hh} {order : O} {block hash : Hh} (signer : G) (order' : O)
    (h : complete transactions txn order block hash = .ok (txn', transactions')) :
    txn'.get (.nextNonce signer order') = txn.get (.nextNonce signer order') := by
  unfold complete at h
  obtain ⟨⟨txn₁, transactions₁⟩, hpop, h⟩ := except_bind_ok h
  cases h
  have hpop' : txn₁.get (.nextNonce signer order') = txn.get (.nextNonce signer order') := by
    unfold popProvided at hpop
    split at hpop
    · cases hpop
      rfl
    · split at hpop
      · cases hpop
      · split at hpop
        · cases hpop
        · split at hpop
          · cases hpop
          · cases hpop
            simp
  simp [countOnChain, hpop']

theorem includeTx_get_nextNonce {tip : Hh} {acc acc' : Blockchain.Including G O Hh} {tx : Transaction G O Hh}
    (signer : G) (order : O) (h : Blockchain.includeTx tip acc tx = .ok acc') :
    acc'.txn.get (.nextNonce signer order) =
      match tx.kind with
      | .signed order' signer' nonce =>
        if order' = order ∧ signer' = signer then some (nonce + 1) else acc.txn.get (.nextNonce signer order)
      | _ => acc.txn.get (.nextNonce signer order) := by
  unfold Blockchain.includeTx at h
  split at h
  · rename_i order' hkind
    obtain ⟨⟨txn, provided⟩, hcomplete, h⟩ := except_bind_ok h
    cases h
    rw [hkind]
    simp [complete_get_nextNonce signer order hcomplete]
  · rename_i hkind
    obtain ⟨mempool, -, h⟩ := except_bind_ok h
    cases h
    rw [hkind]
    simp
  · rename_i order' signer' nonce hkind
    obtain ⟨mempool, -, h⟩ := except_bind_ok h
    cases h
    rw [hkind]
    by_cases hk : order' = order ∧ signer' = signer
    · obtain ⟨rfl, rfl⟩ := hk
      simp
    · have hne : Key.nextNonce signer order ≠ (.nextNonce signer' order' : Key G O Hh) := by
        intro heq
        cases heq
        exact hk ⟨rfl, rfl⟩
      simp only [if_neg hk]
      exact get_put_ne _ _ hne

theorem addBlock_nextNonce {p : Params G O Hh} {c c' : Blockchain G O Hh} {b : Block G O Hh}
    (h : c.addBlock p b = .ok c') (signer : G) (order : O) :
    c'.db (.nextNonce signer order) = nextNonceAfter signer order b.transactions (c.db (.nextNonce signer order)) := by
  unfold Blockchain.addBlock at h
  split at h
  · cases h
  obtain ⟨acc, hloop, h⟩ := except_bind_ok h
  cases h
  -- the loop's invariant: the transaction's nonce is the one after the transactions done
  have := foldlM_except_inv
    (fun pre (acc : Blockchain.Including G O Hh) =>
      acc.txn.get (.nextNonce signer order) = nextNonceAfter signer order pre (c.db (.nextNonce signer order)))
    b.transactions (fun pre tx _ acc acc' _ hpre hstep => by
      rw [includeTx_get_nextNonce signer order hstep, nextNonceAfter_append, hpre]) rfl hloop
  exact this

theorem addBlock_mempool_of_absent {p : Params G O Hh} {c c' : Blockchain G O Hh} {b : Block G O Hh}
    (h : c.addBlock p b = .ok c') (habsent : ∀ tx ∈ b.transactions, c.mempool.contains tx.hash = false) :
    c'.mempool = c.mempool := by
  unfold Blockchain.addBlock at h
  split at h
  · cases h
  obtain ⟨acc, hloop, h⟩ := except_bind_ok h
  cases h
  exact foldlM_except_inv (fun _ (acc : Blockchain.Including G O Hh) => acc.mempool = c.mempool) b.transactions
    (fun pre tx post acc acc' hl hpre hstep => by
      have hmem : tx ∈ b.transactions := by rw [← hl]; simp
      unfold Blockchain.includeTx at hstep
      split at hstep
      · obtain ⟨_, -, hstep⟩ := except_bind_ok hstep
        cases hstep
        exact hpre
      · obtain ⟨mempool, hremove, hstep⟩ := except_bind_ok hstep
        cases hstep
        rw [hpre, remove_absent (habsent tx hmem)] at hremove
        exact (Except.ok.inj hremove).symm
      · obtain ⟨mempool, hremove, hstep⟩ := except_bind_ok hstep
        cases hstep
        rw [hpre, remove_absent (habsent tx hmem)] at hremove
        exact (Except.ok.inj hremove).symm)
    rfl hloop

theorem addTransaction_panics_after_block {p : Params G O Hh} {c c' : Blockchain G O Hh} {b : Block G O Hh}
    (h : c.addBlock p b = .ok c') {signer : G} {order : O} {last : UInt32}
    (hlast : c.mempool.lastNonceInMempool (signer, order) = some last)
    (habsent : ∀ tx ∈ b.transactions, c.mempool.contains tx.hash = false)
    (hincluded : nextNonceAfter signer order b.transactions (c.db (.nextNonce signer order)) = some (last + 1))
    (hbehind : last < last + 1) (hparticipant : signer ∈ c.participants) (internal : Bool)
    {tx : Transaction G O Hh} {nonce : UInt32} (happ : tx.tendermint = false)
    (hkind : tx.kind = .signed order signer nonce) :
    c'.addTransaction p internal tx = .error .panic := by
  have hmempool := addBlock_mempool_of_absent h habsent
  have hnext : c'.chainNextNonce signer order = some (last + 1) := by
    have hparticipants : c'.participants = c.participants := by
      unfold Blockchain.addBlock at h
      split at h
      · cases h
      obtain ⟨acc, -, h⟩ := except_bind_ok h
      cases h
      rfl
    unfold Blockchain.chainNextNonce
    rw [hparticipants, if_pos hparticipant, addBlock_nextNonce h, hincluded]
    rfl
  unfold Blockchain.addTransaction
  rw [add_panics_of_behind p.checks _ internal _ happ hkind hnext (hmempool ▸ hlast) hbehind]
  rfl

/-! ## A participant signing twice at one nonce -/

/-- Chains of natural-number keys, orders and hashes whose checks all pass, with a block's
    size 0, a merkle root of 0 and a header hash of `parent + root + 1`. -/
def allValid : Params ℕ ℕ ℕ where
  checks := ⟨fun _ => true, fun _ => .ok (), fun _ => .ok (), fun _ => true⟩
  enc := ⟨fun _ => 0, fun _ => 0, fun parent root => parent + root + 1⟩

/-- Participant 7 signs transactions 100 and 101, both at nonce 0 of order 0. The local
    mempool takes 100; a block from another proposer includes 101; participant 7's next
    transaction, 102 at nonce 1, panics in `add`. -/
theorem participant_double_sign_panics :
    Blockchain.run allValid (Blockchain.new 0 [7])
      [.addTransaction false ⟨false, 100, .signed 0 7 0, nofun⟩,
       .addBlock ⟨0, 0, [⟨false, 101, .signed 0 7 0, nofun⟩]⟩,
       .addTransaction false ⟨false, 102, .signed 0 7 1, nofun⟩] = .error .panic :=
  eq_error_of_exceptError (by decide)

/-! ## Two provided transactions of one order in one block -/

/-- A block with provided transactions 200 and 201 of order 0, neither provided locally:
    after it, order 0's on-chain count is 1 and index 0 holds 201. -/
theorem same_order_block_miscounts :
    ∃ c, Blockchain.run allValid (Blockchain.new 0 [7])
        [.addBlock ⟨0, 0, [⟨false, 200, .provided 0, nofun⟩, ⟨false, 201, .provided 0, nofun⟩]⟩] = .ok c ∧
      (c.db (.onChainQuantity 0), c.db (.onChainTx 0 0), c.db (.onChainTx 0 1)) = (some 1, some 201, none) :=
  exists_ok_of_toOption (by decide)

end Serai.Tributary
