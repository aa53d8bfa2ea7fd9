import Mathlib
/-
  Serai.Bitcoin.Transaction — the transactions of the `bitcoin` crate (0.31) that
  coins/bitcoin builds and signs.

  The crate is not part of the repository. Its data types are kept as the code builds
  them; what the code calls of it, `Transaction::weight` and `ScriptBuf::new_op_return`,
  are the fields of `Crate`, with the facts of BIP-141 and of the script encoding the code
  relies on as laws.
  - `Crate.weight_of_keySpends` (a law): a transaction whose every input has an empty
    script and one 64-byte witness item (a Taproot key spend) weighs four times its bytes
    without witnesses, plus 2 for the marker and flag, plus 66 for each input's witness.
  - `Crate.weight_add_le_of_outputs`: so of two such transactions with as many inputs, the
    one with `d` more output bytes, and as many outputs or more, weighs `4 * d` more at least.
-/

namespace Serai.Bitcoin

/-- `OutPoint`: a transaction id and an output index. -/
structure OutPoint where
  txid : Vector UInt8 32
  vout : UInt32
  deriving DecidableEq, Repr

/-- `OutPoint::default()`, the null outpoint. -/
def OutPoint.default : OutPoint := ⟨Vector.replicate 32 0, 0xFFFFFFFF⟩

/-- `TxIn`. -/
structure TxIn where
  previousOutput : OutPoint
  scriptSig : List UInt8
  sequence : UInt32
  witness : List (List UInt8)
  deriving DecidableEq, Repr

/-- `TxOut`: an amount in satoshis and the script that locks it. -/
structure TxOut where
  value : UInt64
  scriptPubkey : List UInt8
  deriving DecidableEq, Repr

/-- `Transaction`. -/
structure Transaction where
  version : Int32
  lockTime : UInt32
  input : List TxIn
  output : List TxOut
  deriving DecidableEq, Repr

/-! ## The consensus encoding -/

/-- The length of Bitcoin's CompactSize encoding of `n`. -/
def varIntSize (n : ℕ) : ℕ :=
  if n ≤ 0xFC then 1 else if n ≤ 0xFFFF then 3 else if n ≤ 0xFFFFFFFF then 5 else 9

/-- An output's bytes in the consensus encoding: the amount (8 bytes) and the script. -/
def TxOut.size (output : TxOut) : ℕ := 8 + varIntSize output.scriptPubkey.length + output.scriptPubkey.length

/-- A Taproot key spend: no script, and one 64-byte signature as the witness. -/
def TxIn.IsKeySpend (input : TxIn) : Prop :=
  input.scriptSig = [] ∧ ∃ sig : Vector UInt8 64, input.witness = [sig.toList]

theorem varIntSize_mono {a b : ℕ} (h : a ≤ b) : varIntSize a ≤ varIntSize b := by
  unfold varIntSize
  split_ifs <;> omega

/-! ## What the code calls of the crate -/

/-- `Transaction::weight` and `ScriptBuf::new_op_return`, with what BIP-141 and the script
    encoding say of them. A key spend's bytes without witnesses are its outpoint (36), its
    empty script's length (1) and its sequence (4); its witness is one item of 64 bytes
    with the item count and length (66). -/
structure Crate where
  weight : Transaction → ℕ
  newOpReturn : List UInt8 → List UInt8
  weight_of_keySpends : ∀ tx : Transaction, tx.input ≠ [] → (∀ input ∈ tx.input, input.IsKeySpend) →
    weight tx = 4 * (8 + varIntSize tx.input.length + 41 * tx.input.length + varIntSize tx.output.length +
      (tx.output.map TxOut.size).sum) + 2 + 66 * tx.input.length
  -- `OP_RETURN`, a push opcode, then the data
  length_newOpReturn : ∀ data, data.length + 2 ≤ (newOpReturn data).length

/-- Of two transactions of as many key spends, the one with `d` more output bytes, and as
    many outputs or more, weighs `4 * d` more at least. -/
theorem Crate.weight_add_le_of_outputs (crate : Crate) {tx tx' : Transaction} {d : ℕ} (hne : tx.input ≠ [])
    (h : ∀ input ∈ tx.input, input.IsKeySpend) (h' : ∀ input ∈ tx'.input, input.IsKeySpend)
    (hinput : tx'.input.length = tx.input.length) (hlen : tx.output.length ≤ tx'.output.length)
    (hsize : (tx.output.map TxOut.size).sum + d ≤ (tx'.output.map TxOut.size).sum) :
    crate.weight tx + 4 * d ≤ crate.weight tx' := by
  have hne' : tx'.input ≠ [] := by
    rw [← List.length_pos_iff, hinput]
    exact List.length_pos_iff.mpr hne
  rw [crate.weight_of_keySpends tx hne h, crate.weight_of_keySpends tx' hne' h', hinput]
  have := varIntSize_mono hlen
  omega

end Serai.Bitcoin
