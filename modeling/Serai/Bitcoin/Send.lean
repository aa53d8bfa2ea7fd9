import Mathlib
import Serai.Bitcoin.Transaction
import Serai.Primitives
/-
  Serai.Bitcoin.Send — building a Bitcoin transaction to sign (coins/bitcoin/src/wallet/
  send.rs: `SignableTransaction::calculate_weight`, `needed_fee`, `fee`, `new`, and
  `TransactionSignatureMachine::complete`).

  `new` prices the transaction by `calculate_weight`, the weight of a stand-in with one
  64-byte witness per input, the payments and, when change is considered, a change
  output. It then adds the change output when what is left over the fee with change is at
  least `DUST`. Amounts are `u64`s, which wrap in a release build. The crate's weight and
  `OP_RETURN` script are those of a `Crate`, any that meets BIP-141.
  - `new_ok`: what `new` returns when it succeeds, and that its fee is the fee with change
    exactly when it created a change output (`fee_eq_neededFee`).
  - `needed_fee_omits_data_output`: the stand-in has no `OP_RETURN` output. With data,
    the signed transaction `complete` produces outweighs it, so any positive fee rate
    times its weight is more than the needed fee.
-/

namespace Serai.Bitcoin

/-- `DUST`. -/
def dust : UInt64 := 546

/-- `bitcoin::policy::DEFAULT_MIN_RELAY_TX_FEE`, in satoshis per kilo-vbyte. -/
def defaultMinRelayTxFee : UInt32 := 1000

/-- `bitcoin::policy::MAX_STANDARD_TX_WEIGHT`. -/
def maxStandardTxWeight : UInt32 := 400000

/-- `TransactionError`. -/
inductive TransactionError where
  | noInputs
  | noOutputs
  | dustPayment
  | tooMuchData
  | tooLowFee
  | notEnoughFunds
  | tooLargeTransaction
  deriving DecidableEq, Repr

/-- An `Address`, of which `new` reads only `script_pubkey()`. -/
structure Address where
  scriptPubkey : List UInt8
  deriving DecidableEq, Repr

/-- `ReceivedOutput`: the offset of the key that spends it, the output, and where it is. -/
structure ReceivedOutput (K : Type) where
  offset : K
  output : TxOut
  outpoint : OutPoint

/-- `SignableTransaction`. -/
structure SignableTransaction (K : Type) where
  tx : Transaction
  offsets : List K
  prevouts : List TxOut
  neededFee : UInt64

variable {K : Type} (crate : Crate)

/-- `calculate_weight`: the weight of `inputs` inputs each with one 64-byte witness, the
    payments, and a change output of amount zero when `change` is given. -/
def calculateWeight (inputs : ℕ) (payments : List (Address × UInt64)) (change : Option Address) : UInt64 :=
  let tx : Transaction := ⟨2, 0,
    List.replicate inputs (⟨OutPoint.default, [], 0xFFFFFFFF, [List.replicate 64 0]⟩ : TxIn),
    payments.map fun payment => (⟨payment.2, payment.1.scriptPubkey⟩ : TxOut)⟩
  match change with
  | some change => UInt64.ofNat (crate.weight { tx with output := tx.output ++ [(⟨0, change.scriptPubkey⟩ : TxOut)] })
  | none => UInt64.ofNat (crate.weight tx)

/-- `fee`: what the inputs hold less what the outputs pay, on `u64`. -/
def SignableTransaction.fee (stx : SignableTransaction K) : UInt64 :=
  (stx.prevouts.map TxOut.value).sum - (stx.tx.output.map TxOut.value).sum

/-- The change step of `new`: with a change address, the fee with change is taken, and
    what is left of the inputs over the payments and it, if `checked_sub` finds it and it
    is at least `DUST`, goes to a change output; the outputs, weight and needed fee. -/
def addChange (change : Option Address) (feePerWeight inputSat paymentSat : UInt64) (inputs : ℕ)
    (payments : List (Address × UInt64)) (acc : List TxOut × UInt64 × UInt64) : List TxOut × UInt64 × UInt64 :=
  match change with
  | none => acc
  | some change =>
    let weightWithChange := calculateWeight crate inputs payments (some change)
    let feeWithChange := feePerWeight * weightWithChange
    if paymentSat + feeWithChange ≤ inputSat ∧ dust ≤ inputSat - (paymentSat + feeWithChange) then
      (acc.1 ++ [(⟨inputSat - (paymentSat + feeWithChange), change.scriptPubkey⟩ : TxOut)], weightWithChange,
        feeWithChange)
    else acc

/-- `SignableTransaction::new`; each `Err(..)?` is an `.error` that ends it. -/
def SignableTransaction.new (inputs : List (ReceivedOutput K)) (payments : List (Address × UInt64))
    (change : Option Address) (data : Option (List UInt8)) (feePerWeight : UInt64) :
    Except TransactionError (SignableTransaction K) :=
  if inputs.isEmpty then .error .noInputs else
  if payments.isEmpty && change.isNone && data.isNone then .error .noOutputs else
  if payments.any (fun payment => payment.2 < dust) then .error .dustPayment else
  if 80 < (data.map List.length).getD 0 then .error .tooMuchData else
  let inputSat := (inputs.map fun input => input.output.value).sum
  let txIns := inputs.map fun input => (⟨input.outpoint, [], 0xFFFFFFFF, []⟩ : TxIn)
  let paymentSat := (payments.map fun payment => payment.2).sum
  -- the payments, then the `OP_RETURN` output
  let txOuts := payments.map (fun payment => (⟨payment.2, payment.1.scriptPubkey⟩ : TxOut)) ++
    (data.map fun data => (⟨0, crate.newOpReturn data⟩ : TxOut)).toList
  let weight := calculateWeight crate txIns.length payments none
  let neededFee := feePerWeight * weight
  let vsize := divCeil weight 4
  if neededFee < defaultMinRelayTxFee.toUInt64 * vsize / 1000 then .error .tooLowFee else
  if inputSat < paymentSat + neededFee then .error .notEnoughFunds else
  let withChange := addChange crate change feePerWeight inputSat paymentSat txIns.length payments (txOuts, weight, neededFee)
  if withChange.1.isEmpty then .error .noOutputs else
  if maxStandardTxWeight.toUInt64 < withChange.2.1 then .error .tooLargeTransaction else
  .ok ⟨⟨2, 0, txIns, withChange.1⟩, inputs.map (·.offset), inputs.map (·.output), withChange.2.2⟩

/-- `TransactionSignatureMachine::complete`: each input, zipped with its signature, gets the
    signature as its one witness item. -/
def complete (tx : Transaction) (sigs : List (Vector UInt8 64)) : Transaction :=
  { tx with input := tx.input.mapIdx fun k input =>
      match sigs[k]? with
      | some sig => { input with witness := [sig.toList] }
      | none => input }

variable {crate}

/-! ## What `new` returns -/

/-- The payments as outputs. -/
def paymentOutputs (payments : List (Address × UInt64)) : List TxOut :=
  payments.map fun payment => (⟨payment.2, payment.1.scriptPubkey⟩ : TxOut)

theorem new_ok {inputs : List (ReceivedOutput K)} {payments : List (Address × UInt64)} {change : Option Address}
    {data : Option (List UInt8)} {feePerWeight : UInt64} {stx : SignableTransaction K}
    (h : SignableTransaction.new crate inputs payments change data feePerWeight = .ok stx) :
    inputs ≠ [] ∧ stx = ⟨⟨2, 0, inputs.map fun input => ⟨input.outpoint, [], 0xFFFFFFFF, []⟩,
      (addChange crate change feePerWeight (inputs.map fun input => input.output.value).sum
        (payments.map fun payment => payment.2).sum inputs.length payments
        (paymentOutputs payments ++
          (data.map fun data => (⟨0, crate.newOpReturn data⟩ : TxOut)).toList,
          calculateWeight crate inputs.length payments none,
          feePerWeight * calculateWeight crate inputs.length payments none)).1⟩,
      inputs.map (·.offset), inputs.map (·.output),
      (addChange crate change feePerWeight (inputs.map fun input => input.output.value).sum
        (payments.map fun payment => payment.2).sum inputs.length payments
        (paymentOutputs payments ++
          (data.map fun data => (⟨0, crate.newOpReturn data⟩ : TxOut)).toList,
          calculateWeight crate inputs.length payments none,
          feePerWeight * calculateWeight crate inputs.length payments none)).2.2⟩ := by
  unfold SignableTransaction.new at h
  -- every guard is passed: an `.error` is never `.ok`
  split at h
  · cases h
  rename_i hinputs
  iterate 3
    split at h
    · cases h
  dsimp only at h
  iterate 4
    split at h
    · cases h
  cases h
  refine ⟨fun h0 => hinputs (by simp [h0]), ?_⟩
  simp only [List.length_map]
  rfl

theorem calculateWeight_eq (inputs : ℕ) (payments : List (Address × UInt64)) (change : Option Address) :
    calculateWeight crate inputs payments change = UInt64.ofNat (crate.weight ⟨2, 0,
      List.replicate inputs ⟨OutPoint.default, [], 0xFFFFFFFF, [List.replicate 64 0]⟩,
      paymentOutputs payments ++ (change.map fun change => (⟨0, change.scriptPubkey⟩ : TxOut)).toList⟩) := by
  cases change <;> simp [calculateWeight, paymentOutputs]

theorem addChange_cases (crate : Crate) (change : Option Address) (feePerWeight inputSat paymentSat : UInt64) (inputs : ℕ)
    (payments : List (Address × UInt64)) (acc : List TxOut × UInt64 × UInt64) :
    addChange crate change feePerWeight inputSat paymentSat inputs payments acc = acc ∨
      ∃ c, change = some c ∧ addChange crate change feePerWeight inputSat paymentSat inputs payments acc =
        (acc.1 ++ [⟨inputSat - (paymentSat + feePerWeight * calculateWeight crate inputs payments (some c)), c.scriptPubkey⟩],
          calculateWeight crate inputs payments (some c), feePerWeight * calculateWeight crate inputs payments (some c)) := by
  cases change with
  | none => exact .inl rfl
  | some c =>
    simp only [addChange]
    split_ifs
    · exact .inr ⟨c, rfl, rfl⟩
    · exact .inl rfl

theorem fee_eq_neededFee {inputs : List (ReceivedOutput K)} {payments : List (Address × UInt64)}
    {change : Option Address} {data : Option (List UInt8)} {feePerWeight : UInt64} {stx : SignableTransaction K}
    (hnew : SignableTransaction.new crate inputs payments change data feePerWeight = .ok stx) :
    (stx.tx.output = paymentOutputs payments ++ (data.map fun data => (⟨0, crate.newOpReturn data⟩ : TxOut)).toList ∧
      stx.neededFee = feePerWeight * calculateWeight crate inputs.length payments none) ∨
    ∃ c v, change = some c ∧
      stx.tx.output = paymentOutputs payments ++ (data.map fun data => (⟨0, crate.newOpReturn data⟩ : TxOut)).toList ++
        [⟨v, c.scriptPubkey⟩] ∧
      stx.neededFee = feePerWeight * calculateWeight crate inputs.length payments (some c) ∧ stx.fee = stx.neededFee := by
  obtain ⟨-, rfl⟩ := new_ok hnew
  rcases addChange_cases crate change feePerWeight (inputs.map fun input => input.output.value).sum
      (payments.map fun payment => payment.2).sum inputs.length payments
      (paymentOutputs payments ++ (data.map fun data => (⟨0, crate.newOpReturn data⟩ : TxOut)).toList,
        calculateWeight crate inputs.length payments none,
        feePerWeight * calculateWeight crate inputs.length payments none) with hacc | ⟨c, hc, hacc⟩
  · left
    exact ⟨by rw [hacc], by rw [hacc]⟩
  · right
    refine ⟨c, _, hc, by rw [hacc], by rw [hacc], ?_⟩
    -- the `OP_RETURN` output pays nothing
    have hdata : ((data.map fun data => (⟨0, crate.newOpReturn data⟩ : TxOut)).toList.map TxOut.value).sum = 0 := by
      cases data <;> rfl
    rw [SignableTransaction.fee, hacc]
    simp only [paymentOutputs, List.map_append, List.sum_append, hdata, List.map_map,
      Function.comp_def, List.map_cons, List.map_nil, List.sum_cons, List.sum_nil]
    abel

/-! ## The signed transaction -/

theorem complete_keySpends (tx : Transaction) {sigs : List (Vector UInt8 64)} (hsigs : tx.input.length ≤ sigs.length)
    (hscript : ∀ input ∈ tx.input, input.scriptSig = []) :
    ∀ input ∈ (complete tx sigs).input, input.IsKeySpend := by
  intro input hinput
  obtain ⟨k, hk, rfl⟩ := List.mem_mapIdx.mp hinput
  obtain ⟨sig, hsig⟩ : ∃ sig, sigs[k]? = some sig := ⟨sigs[k], List.getElem?_eq_getElem (by omega)⟩
  simp only [hsig]
  exact ⟨hscript tx.input[k] (List.getElem_mem hk), sig, rfl⟩

theorem standIn_keySpends (inputs : ℕ) :
    ∀ input ∈ List.replicate inputs (⟨OutPoint.default, [], 0xFFFFFFFF, [List.replicate 64 0]⟩ : TxIn),
      input.IsKeySpend := by
  intro input hinput
  rw [List.eq_of_mem_replicate hinput]
  exact ⟨rfl, Vector.replicate 64 0, rfl⟩

theorem Crate.size_opReturn (crate : Crate) (data : List UInt8) :
    11 + data.length ≤ (⟨0, crate.newOpReturn data⟩ : TxOut).size := by
  have hscript := crate.length_newOpReturn data
  have hvar : 1 ≤ varIntSize (crate.newOpReturn data).length := by
    unfold varIntSize
    split_ifs <;> omega
  simp only [TxOut.size]
  omega

theorem toNat_mul_ofNat_le (a : UInt64) (w : ℕ) : (a * UInt64.ofNat w).toNat ≤ a.toNat * w := by
  rw [UInt64.toNat_mul, UInt64.toNat_ofNat']
  calc a.toNat * (w % 2 ^ 64) % 2 ^ 64 ≤ a.toNat * (w % 2 ^ 64) := Nat.mod_le _ _
    _ ≤ a.toNat * w := Nat.mul_le_mul_left _ (Nat.mod_le _ _)

theorem neededFee_add_le (feePerWeight : UInt64) {standIn tx : Transaction} {d : ℕ} (hne : standIn.input ≠ [])
    (hstandIn : ∀ input ∈ standIn.input, input.IsKeySpend) (htx : ∀ input ∈ tx.input, input.IsKeySpend)
    (hinput : tx.input.length = standIn.input.length) (hlen : standIn.output.length ≤ tx.output.length)
    (hsize : (standIn.output.map TxOut.size).sum + d ≤ (tx.output.map TxOut.size).sum) :
    (feePerWeight * UInt64.ofNat (crate.weight standIn)).toNat + feePerWeight.toNat * (4 * d) ≤
      feePerWeight.toNat * crate.weight tx := by
  have hweight := crate.weight_add_le_of_outputs hne hstandIn htx hinput hlen hsize
  calc (feePerWeight * UInt64.ofNat (crate.weight standIn)).toNat + feePerWeight.toNat * (4 * d)
      ≤ feePerWeight.toNat * crate.weight standIn + feePerWeight.toNat * (4 * d) :=
        Nat.add_le_add_right (toNat_mul_ofNat_le _ _) _
    _ = feePerWeight.toNat * (crate.weight standIn + 4 * d) := (Nat.mul_add _ _ _).symm
    _ ≤ feePerWeight.toNat * crate.weight tx := Nat.mul_le_mul_left _ hweight

/-! ## The data output is not priced -/

theorem standIn_fee_add_le (crate : Crate) (feePerWeight : UInt64) {inputs : List (ReceivedOutput K)} (hne : inputs ≠ [])
    {sigs : List (Vector UInt8 64)} (hsigs : inputs.length ≤ sigs.length) (payments : List (Address × UInt64))
    (data : List UInt8) (change : Option Address) (v : UInt64) :
    (feePerWeight * calculateWeight crate inputs.length payments change).toNat +
        feePerWeight.toNat * (4 * (11 + data.length)) ≤
      feePerWeight.toNat * crate.weight (complete ⟨2, 0, inputs.map fun input => ⟨input.outpoint, [], 0xFFFFFFFF, []⟩,
        paymentOutputs payments ++ [⟨0, crate.newOpReturn data⟩] ++
          (change.map fun c => (⟨v, c.scriptPubkey⟩ : TxOut)).toList⟩ sigs) := by
  have hne' : List.replicate inputs.length
      (⟨OutPoint.default, [], 0xFFFFFFFF, [List.replicate 64 0]⟩ : TxIn) ≠ [] := by
    simpa [List.replicate_eq_nil_iff] using hne
  have hsigned := complete_keySpends ⟨2, 0, inputs.map fun input => ⟨input.outpoint, [], 0xFFFFFFFF, []⟩,
      paymentOutputs payments ++ [⟨0, crate.newOpReturn data⟩] ++
        (change.map fun c => (⟨v, c.scriptPubkey⟩ : TxOut)).toList⟩ (by simpa using hsigs)
    fun input hinput => by
      obtain ⟨_, -, rfl⟩ := List.mem_map.mp hinput
      rfl
  have hopReturn := crate.size_opReturn data
  simp only [TxOut.size] at hopReturn
  rw [calculateWeight_eq]
  refine neededFee_add_le feePerWeight hne' (standIn_keySpends _) hsigned (by simp [complete]) ?_ ?_
  -- the stand-in's outputs are the signed transaction's, less the `OP_RETURN` output; the
  -- change output is priced at amount zero, which has the same size
  · cases change <;> simp [complete, paymentOutputs]
  · cases change <;> simp [complete, paymentOutputs, TxOut.size] <;> omega

/-- With data, the needed fee prices a stand-in without the `OP_RETURN` output: it falls
    short of the fee rate times the weight of the signed transaction by the rate times four
    times that output's size, at least `11` bytes and the data. -/
theorem needed_fee_omits_data_output {inputs : List (ReceivedOutput K)} {payments : List (Address × UInt64)}
    {change : Option Address} {data : List UInt8} {feePerWeight : UInt64} {stx : SignableTransaction K}
    (hnew : SignableTransaction.new crate inputs payments change (some data) feePerWeight = .ok stx)
    (sigs : List (Vector UInt8 64)) (hsigs : stx.tx.input.length ≤ sigs.length) :
    stx.neededFee.toNat + feePerWeight.toNat * (4 * (11 + data.length)) ≤
      feePerWeight.toNat * crate.weight (complete stx.tx sigs) := by
  obtain ⟨hne, rfl⟩ := new_ok hnew
  have hsigs' : inputs.length ≤ sigs.length := by simpa using hsigs
  -- the needed fee prices the stand-in with the change output the signed transaction has, if any
  rcases addChange_cases crate change feePerWeight (inputs.map fun input => input.output.value).sum
      (payments.map fun payment => payment.2).sum inputs.length payments
      (paymentOutputs payments ++ [⟨0, crate.newOpReturn data⟩], calculateWeight crate inputs.length payments none,
        feePerWeight * calculateWeight crate inputs.length payments none) with hacc | ⟨c, -, hacc⟩
  · simp only [Option.map_some, Option.toList_some, hacc]
    simpa only [Option.map_none, Option.toList_none, List.append_nil] using
      standIn_fee_add_le crate feePerWeight hne hsigs' payments data none 0
  · simp only [Option.map_some, Option.toList_some, hacc]
    exact standIn_fee_add_le crate feePerWeight hne hsigs' payments data (some c) _

/-- A crate meeting the laws: the weight BIP-141 gives a transaction of key spends, and an
    `OP_RETURN` whose data, of fewer than 76 bytes, is pushed by its length. -/
def keySpendCrate : Crate where
  weight tx := 4 * (8 + varIntSize tx.input.length + 41 * tx.input.length + varIntSize tx.output.length +
    (tx.output.map TxOut.size).sum) + 2 + 66 * tx.input.length
  newOpReturn data := 0x6a :: UInt8.ofNat data.length :: data
  weight_of_keySpends _ _ _ := rfl
  length_newOpReturn _ := by simp

/-- A Taproot output script (`OP_1`, a 32-byte push). -/
def taprootScript : List UInt8 := [0x51, 0x20] ++ List.replicate 32 7

/-- One input of 100000 satoshis, locked to `taprootScript`. -/
def taprootInput : ReceivedOutput Unit := ⟨(), ⟨100000, taprootScript⟩, ⟨Vector.replicate 32 1, 0⟩⟩

theorem needed_fee_omits_data_output_taproot :
    ∃ stx : SignableTransaction Unit,
      SignableTransaction.new keySpendCrate [taprootInput] [(⟨taprootScript⟩, 10000)] (some ⟨taprootScript⟩)
        (some [1, 2, 3]) 1 = .ok stx ∧
      stx.neededFee.toNat + 56 ≤ keySpendCrate.weight (complete stx.tx [Vector.replicate 64 0]) :=
  ⟨_, rfl, by
    have h := needed_fee_omits_data_output
      (show SignableTransaction.new keySpendCrate [taprootInput] [(⟨taprootScript⟩, 10000)] (some ⟨taprootScript⟩)
        (some [1, 2, 3]) 1 = .ok _ from rfl)
      [Vector.replicate 64 0] (by decide)
    rwa [show (1 : UInt64).toNat = 1 from rfl, Nat.one_mul, Nat.one_mul] at h⟩

end Serai.Bitcoin
