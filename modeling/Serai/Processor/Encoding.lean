import Mathlib
import Serai.Processor.Scheduler
import Serai.Coordinator.Transaction
import Serai.Lib.HashMap
import Serai.Primitives
/-
  Serai.Processor.Encoding — the processor's byte encodings: `Payment::write` and `read`,
  `Plan::write` and `read` (processor/src/plan.rs), `Scheduler::serialize` and `read`
  (processor/src/multisigs/scheduler.rs), and SCALE's encoding of a `Balance`.

  The values are the code's own (`Wire.Payment` with its whole `Balance`, `Wire.Plan`,
  `Wire.Scheduler` with its two `HashMap`s), generic over the network's key, address and
  output types. The network's conversions are parameters: `AddressCodec` (`TryInto<Vec<u8>>`
  and `TryFrom<Vec<u8>>`, the second undoing the first) and `OutputCodec` (`Output::write`
  and `read`, the reader reading back what the writer wrote); the key is a point of the
  ciphersuite, read with `read_G`. A writer returns the bytes or its error, a panic (an
  `unwrap`) being `IoError.panic`; `serialize` unwraps every payment's `write`.

  1. `Wire.Payment.read_write`: a payment written is read back.
  2. `Wire.Plan.read_write`: a plan written is read back, when its change address, if any,
     does not convert to the empty string (no network's address does): `read` takes the
     empty string for `None`.
  3. `Wire.Scheduler.read_serialize`: a scheduler serialized is read back to one equal to it
     under the derived `PartialEq`, which compares the `HashMap`s by their entries: the maps
     are listed in any order and rebuilt by inserting (`readPlans_writePlans`). One whose
     data fit the format (`Wire.Scheduler.Fits`) is serialized without a panic
     (`Wire.Scheduler.serialize_ok`), and the one read back is the same scheduler of the
     model (`Wire.Scheduler.toModel_eq_of_eqv`).
  `processor_encodings_round_trip` is the three.
-/

namespace Serai

/-- SCALE's encoding of a `Coin`: the variant's index. -/
def Coin.encode : Coin → UInt8
  | .serai => 0
  | .bitcoin => 1
  | .ether => 2
  | .dai => 3
  | .monero => 4

/-- SCALE's decoding of a `Coin`: an index past the variants is refused. -/
def Coin.decode (index : UInt8) : Option Coin :=
  [Coin.serai, .bitcoin, .ether, .dai, .monero][index.toNat]?

@[simp] theorem Coin.decode_encode (c : Coin) : Coin.decode c.encode = some c := by
  cases c <;> rfl

/-- `Balance::encode`: the coin, then the amount's eight little-endian bytes. -/
def Balance.encode (b : Balance) : List UInt8 := b.coin.encode :: Coordinator.u64ToLeBytes b.amount

end Serai

namespace Serai.Processor

open Serai.Crypto Serai.Lib Serai.Coordinator
open Std (HashMap)

variable {A O : Type}

/-! ## The network's conversions -/

/-- `N::Address`'s conversions to and from bytes: `TryInto<Vec<u8>>`, and `TryFrom<Vec<u8>>`,
    which gives back the address of every conversion that succeeded. -/
structure AddressCodec (A : Type) where
  toBytes : A → Option (List UInt8)
  fromBytes : List UInt8 → Option A
  fromBytes_toBytes : ∀ a bytes, toBytes a = some bytes → fromBytes bytes = some a

/-- `N::Output`'s `write` and `read`: the reader reads back what the writer wrote. -/
structure OutputCodec (O : Type) where
  write : O → List UInt8
  read : Reader O
  read_write : ∀ o rest, read (write o ++ rest) = .ok o rest

/-! ## The values -/

namespace Wire

/-- `Payment`, with its whole `Balance`. -/
structure Payment (A : Type) where
  address : A
  data : Option (List UInt8)
  balance : Balance
  deriving DecidableEq

/-- `Plan`. -/
structure Plan (G A O : Type) where
  key : G
  inputs : List O
  payments : List (Payment A)
  change : Option A

/-- `Scheduler`: the plans waiting on an output of an amount are a `HashMap` from the amount;
    a `VecDeque` is a list. -/
structure Scheduler (G A O : Type) where
  key : G
  coin : Coin
  queuedPlans : HashMap UInt64 (List (List (Payment A)))
  plans : HashMap UInt64 (List (List (Payment A)))
  utxos : List O
  payments : List (Payment A)

/-- The derived `PartialEq` of `Scheduler`: two `HashMap`s are equal when they have the same
    entries. -/
def Scheduler.Eqv {G : Type} (s t : Scheduler G A O) : Prop :=
  s.key = t.key ∧ s.coin = t.coin ∧ s.queuedPlans.Equiv t.queuedPlans ∧ s.plans.Equiv t.plans ∧
    s.utxos = t.utxos ∧ s.payments = t.payments

end Wire

/-! ## Payments -/

/-- `u32::try_from(len).unwrap().to_le_bytes()`: a length past `u32` panics. -/
def lengthBytes (len : ℕ) : Except IoError (List UInt8) :=
  if len < 2 ^ 32 then .ok (u32ToLeBytes (UInt32.ofNat len)) else .error .panic

/-- `Payment::write`. -/
def Wire.Payment.write (codec : AddressCodec A) (payment : Wire.Payment A) : Except IoError (List UInt8) := do
  let address ← match codec.toBytes payment.address with
    | some address => pure address
    | none => throw (.other "address couldn't be serialized")
  let addressLen ← lengthBytes address.length
  let data ← match payment.data with
    | some data => do
      let dataLen ← lengthBytes data.length
      pure (dataLen ++ data)
    | none => pure []
  pure (addressLen ++ address ++ [if payment.data.isSome then 1 else 0] ++ data ++ payment.balance.encode)

/-- SCALE's `Balance::decode`: the coin's index, then the amount's eight bytes. -/
def decodeBalance : Reader Balance := do
  let index ← readU8
  match Coin.decode index with
  | some coin => do
    let amount ← readU64
    pure ⟨coin, amount⟩
  | none => throw (.other "invalid enum index")

/-- `Balance::decode(..).map_err(|_| io::Error::other("invalid balance"))`. -/
def readBalance : Reader Balance := fun buf =>
  match decodeBalance buf with
  | .ok balance rest => .ok balance rest
  | .error _ rest => .error (.other "invalid balance") rest

/-- `Payment::read`. -/
def Wire.Payment.read (codec : AddressCodec A) : Reader (Wire.Payment A) := do
  let len ← readU32
  let address ← readExact len.toNat
  let address ← match codec.fromBytes address with
    | some address => pure address
    | none => throw (.other "invalid address")
  let flag ← readU8
  let data ← if flag = 1 then do
      let len ← readU32
      let data ← readExact len.toNat
      pure (some data)
    else pure none
  let balance ← readBalance
  pure ⟨address, data, balance⟩

/-! ## Plans -/

section Plans

variable {F G : Type} [Field F] [AddCommGroup G] [Module F G] [DecidableEq G]

/-- The change as `Plan::write` converts it: its bytes, and no bytes for no change. -/
def changeBytes (codec : AddressCodec A) (change : Option A) : Except IoError (List UInt8) :=
  match change with
  | some change =>
    match codec.toBytes change with
    | some bytes => .ok bytes
    | none => .error (.other "an address we said to use as change couldn't be converted to a Vec<u8>")
  | none => .ok []

/-- `Plan::write`. -/
def Wire.Plan.write (C : Ciphersuite F G) (codec : AddressCodec A) (outputs : OutputCodec O)
    (plan : Wire.Plan G A O) : Except IoError (List UInt8) := do
  let inputsLen ← lengthBytes plan.inputs.length
  let paymentsLen ← lengthBytes plan.payments.length
  let payments ← plan.payments.mapM (Wire.Payment.write codec)
  let change ← changeBytes codec plan.change
  -- `u8::try_from(change.len()).unwrap()`
  if 256 ≤ change.length then throw .panic
  pure (C.toBytes plan.key ++ inputsLen ++ (plan.inputs.map outputs.write).flatten ++ paymentsLen ++
    payments.flatten ++ [UInt8.ofNat change.length] ++ change)

/-- The change of `Plan::read`: its length as one byte, then its bytes; no bytes is no
    change. -/
def readChange (codec : AddressCodec A) : Reader (Option A) := do
  let len ← readU8
  let change ← readExact len.toNat
  if change.isEmpty then pure none else
    match codec.fromBytes change with
    | some change => pure (some change)
    | none => throw (.other "couldn't deserialize an Address serialized into a Plan")

/-- `Plan::read`. -/
def Wire.Plan.read (C : Ciphersuite F G) (codec : AddressCodec A) (outputs : OutputCodec O) :
    Reader (Wire.Plan G A O) := do
  let key ← readG C
  let inputsLen ← readU32
  let inputs ← readMany outputs.read inputsLen.toNat
  let paymentsLen ← readU32
  let payments ← readMany (Wire.Payment.read codec) paymentsLen.toNat
  let change ← readChange codec
  pure ⟨key, inputs, payments, change⟩

end Plans

/-! ## The scheduler -/

section Scheduler

variable {G : Type}

/-- `.unwrap()` of a write: its error is a panic. -/
def unwrapWrite (r : Except IoError (List UInt8)) : Except IoError (List UInt8) :=
  match r with
  | .ok bytes => .ok bytes
  | .error _ => .error .panic

/-- One plan of `write_plans`: its number of payments, then each payment. -/
def writePlan (codec : AddressCodec A) (plan : List (Wire.Payment A)) : Except IoError (List UInt8) := do
  let planLen ← lengthBytes plan.length
  let payments ← plan.mapM fun payment => unwrapWrite (payment.write codec)
  pure (planLen ++ payments.flatten)

/-- One entry of `write_plans`: the amount, the number of its plans, then each plan. -/
def writePlansEntry (codec : AddressCodec A) (entry : UInt64 × List (List (Wire.Payment A))) :
    Except IoError (List UInt8) := do
  let plansLen ← lengthBytes entry.2.length
  let plans ← entry.2.mapM (writePlan codec)
  pure (u64ToLeBytes entry.1 ++ plansLen ++ plans.flatten)

/-- `write_plans`: the number of amounts, then each entry in the order the map lists them. -/
def writePlans (codec : AddressCodec A) (plans : HashMap UInt64 (List (List (Wire.Payment A)))) :
    Except IoError (List UInt8) := do
  let len ← lengthBytes plans.size
  let entries ← plans.toList.mapM (writePlansEntry codec)
  pure (len ++ entries.flatten)

/-- `Scheduler::serialize`. -/
def Wire.Scheduler.serialize (codec : AddressCodec A) (outputs : OutputCodec O) (s : Wire.Scheduler G A O) :
    Except IoError (List UInt8) := do
  let queuedPlans ← writePlans codec s.queuedPlans
  let plans ← writePlans codec s.plans
  let utxosLen ← lengthBytes s.utxos.length
  let paymentsLen ← lengthBytes s.payments.length
  let payments ← s.payments.mapM fun payment => unwrapWrite (payment.write codec)
  pure (queuedPlans ++ plans ++ utxosLen ++ (s.utxos.map outputs.write).flatten ++ paymentsLen ++ payments.flatten)

/-- One plan of `read_plans`: its number of payments, then each payment. -/
def readPlan (codec : AddressCodec A) : Reader (List (Wire.Payment A)) := do
  let paymentsLen ← readU32
  readMany (Wire.Payment.read codec) paymentsLen.toNat

/-- One entry of `read_plans`: the amount and its plans. -/
def readPlansEntry (codec : AddressCodec A) : Reader (UInt64 × List (List (Wire.Payment A))) := do
  let amount ← readU64
  let plansLen ← readU32
  let plans ← readMany (readPlan codec) plansLen.toNat
  pure (amount, plans)

/-- The loop of `read_plans`, which inserts each entry as it reads it. -/
def readPlansLoop (codec : AddressCodec A) :
    ℕ → HashMap UInt64 (List (List (Wire.Payment A))) → Reader (HashMap UInt64 (List (List (Wire.Payment A))))
  | 0, allPlans => pure allPlans
  | k + 1, allPlans => do
    let entry ← readPlansEntry codec
    readPlansLoop codec k (allPlans.insert entry.1 entry.2)

/-- `read_plans`. -/
def readPlans (codec : AddressCodec A) : Reader (HashMap UInt64 (List (List (Wire.Payment A)))) := do
  let len ← readU32
  readPlansLoop codec len.toNat ∅

/-- `Scheduler::read`. -/
def Wire.Scheduler.read (codec : AddressCodec A) (outputs : OutputCodec O) (key : G) (coin : Coin) :
    Reader (Wire.Scheduler G A O) := do
  let queuedPlans ← readPlans codec
  let plans ← readPlans codec
  let utxosLen ← readU32
  let utxos ← readMany outputs.read utxosLen.toNat
  let paymentsLen ← readU32
  let payments ← readMany (Wire.Payment.read codec) paymentsLen.toNat
  pure ⟨key, coin, queuedPlans, plans, utxos, payments⟩

end Scheduler

/-! ## What is written is read back -/

theorem lengthBytes_ok {len : ℕ} {bytes : List UInt8} (h : lengthBytes len = .ok bytes) :
    bytes = u32ToLeBytes (UInt32.ofNat len) ∧ (UInt32.ofNat len).toNat = len := by
  unfold lengthBytes at h
  split at h
  · cases h
    exact ⟨rfl, by rw [UInt32.toNat_ofNat', Nat.mod_eq_of_lt ‹_›]⟩
  · cases h

theorem readU32_of_lengthBytes {len : ℕ} {bytes : List UInt8} (h : lengthBytes len = .ok bytes) (rest : List UInt8) :
    readU32 (bytes ++ rest) = .ok (UInt32.ofNat len) rest := by
  rw [(lengthBytes_ok h).1, readU32_toLeBytes]

@[simp] theorem readBalance_encode (b : Balance) (rest : List UInt8) : readBalance (b.encode ++ rest) = .ok b rest := by
  have hdecode : decodeBalance (b.encode ++ rest) = .ok b rest := by
    simp only [decodeBalance, Balance.encode, List.cons_append, bind_of_ok (readU8_cons _ _), Coin.decode_encode,
      bind_of_ok (readU64_toLeBytes _ _)]
    rfl
  simp only [readBalance, hdecode]

theorem Wire.Payment.read_write (codec : AddressCodec A) {payment : Wire.Payment A} {bytes : List UInt8}
    (h : payment.write codec = .ok bytes) (rest : List UInt8) :
    Wire.Payment.read codec (bytes ++ rest) = .ok payment rest := by
  obtain ⟨address, data, balance⟩ := payment
  cases haddr : codec.toBytes address with
  | none =>
    simp only [Wire.Payment.write, haddr] at h
    cases h
  | some addressBytes =>
    simp only [Wire.Payment.write, haddr, pure_bind] at h
    obtain ⟨addressLen, hlen, h⟩ := except_bind_ok h
    have haddress := codec.fromBytes_toBytes _ _ haddr
    -- the flag, and the data when there is some
    cases data with
    | none =>
      cases h
      simp +decide only [Wire.Payment.read, List.append_assoc, List.cons_append, List.nil_append,
        bind_of_ok (readU32_of_lengthBytes hlen _), (lengthBytes_ok hlen).2, bind_of_ok (readExact_append rfl _),
        haddress, pure_bind, if_false, bind_of_ok (readU8_cons _ _),
        bind_of_ok (readBalance_encode _ _)]
      rfl
    | some data =>
      obtain ⟨dataLen, hdlen, h⟩ := except_bind_ok h
      cases h
      simp +decide only [Wire.Payment.read, List.append_assoc, List.cons_append, List.nil_append,
        bind_of_ok (readU32_of_lengthBytes hlen _), (lengthBytes_ok hlen).2, bind_of_ok (readExact_append rfl _),
        haddress, pure_bind, Option.isSome_some, if_true, bind_of_ok (readU8_cons _ _),
        bind_of_ok (readU32_of_lengthBytes hdlen _), (lengthBytes_ok hdlen).2, bind_of_ok (readBalance_encode _ _)]
      rfl

theorem readMany_outputs (outputs : OutputCodec O) (l : List O) (rest : List UInt8) :
    readMany outputs.read l.length ((l.map outputs.write).flatten ++ rest) = .ok l rest :=
  readMany_flatten (w := fun o => .ok (outputs.write o)) (fun o _ bytes h rest => by
      cases h
      exact outputs.read_write o rest)
    (mapM_except_ok fun _ _ => rfl) rest

theorem readMany_payments (codec : AddressCodec A) {payments : List (Wire.Payment A)} {chunks : List (List UInt8)}
    (h : payments.mapM (Wire.Payment.write codec) = .ok chunks) (rest : List UInt8) :
    readMany (Wire.Payment.read codec) payments.length (chunks.flatten ++ rest) = .ok payments rest :=
  readMany_flatten (fun _ _ _ hw rest => Wire.Payment.read_write codec hw rest) h rest

section Plans

variable {F G : Type} [Field F] [AddCommGroup G] [Module F G] [DecidableEq G]

theorem readChange_changeBytes (codec : AddressCodec A) {change : Option A} {bytes : List UInt8}
    (h : changeBytes codec change = .ok bytes) (hlen : bytes.length < 256)
    (hne : ∀ c, change = some c → codec.toBytes c ≠ some []) (rest : List UInt8) :
    readChange codec (UInt8.ofNat bytes.length :: (bytes ++ rest)) = .ok change rest := by
  have hbyte : (UInt8.ofNat bytes.length).toNat = bytes.length := by
    rw [UInt8.toNat_ofNat', Nat.mod_eq_of_lt hlen]
  simp only [readChange, bind_of_ok (readU8_cons _ _), hbyte, bind_of_ok (readExact_append rfl _)]
  cases change with
  | none =>
    cases h
    rfl
  | some c =>
    simp only [changeBytes] at h
    split at h
    · rename_i hb
      cases h
      have hempty : bytes.isEmpty = false := by
        rw [Bool.eq_false_iff, ne_eq, List.isEmpty_iff]
        rintro rfl
        exact hne c rfl hb
      simp only [hempty, Bool.false_eq_true, if_false, codec.fromBytes_toBytes _ _ hb]
      rfl
    · cases h

theorem Wire.Plan.read_write_of_readChange (C : Ciphersuite F G) (codec : AddressCodec A) (outputs : OutputCodec O)
    {plan : Wire.Plan G A O} {bytes : List UInt8} (h : plan.write C codec outputs = .ok bytes) {change' : Option A}
    {rest : List UInt8} (hchange : ∀ b, changeBytes codec plan.change = .ok b → b.length < 256 →
      readChange codec (UInt8.ofNat b.length :: (b ++ rest)) = .ok change' rest) :
    Wire.Plan.read C codec outputs (bytes ++ rest) = .ok { plan with change := change' } rest := by
  obtain ⟨key, inputs, payments, change⟩ := plan
  simp only [Wire.Plan.write] at h
  obtain ⟨inputsLen, hin, h⟩ := except_bind_ok h
  obtain ⟨paymentsLen, hpay, h⟩ := except_bind_ok h
  obtain ⟨chunks, hchunks, h⟩ := except_bind_ok h
  obtain ⟨changeBytes, hchangeBytes, h⟩ := except_bind_ok h
  -- the change's length fits its byte
  split at h
  · cases h
  · rename_i hlen
    cases h
    simp only [Wire.Plan.read, List.append_assoc, List.cons_append, List.nil_append,
      bind_of_ok (readG_toBytes C _ _), bind_of_ok (readU32_of_lengthBytes hin _), (lengthBytes_ok hin).2,
      bind_of_ok (readMany_outputs outputs _ _), bind_of_ok (readU32_of_lengthBytes hpay _), (lengthBytes_ok hpay).2,
      bind_of_ok (readMany_payments codec hchunks _), bind_of_ok (hchange _ hchangeBytes (by omega))]
    rfl

theorem Wire.Plan.read_write (C : Ciphersuite F G) (codec : AddressCodec A) (outputs : OutputCodec O)
    {plan : Wire.Plan G A O} {bytes : List UInt8} (h : plan.write C codec outputs = .ok bytes)
    (hchange : ∀ change, plan.change = some change → codec.toBytes change ≠ some []) (rest : List UInt8) :
    Wire.Plan.read C codec outputs (bytes ++ rest) = .ok plan rest :=
  Wire.Plan.read_write_of_readChange C codec outputs h fun _ hb hlen =>
    readChange_changeBytes codec hb hlen hchange rest

theorem Wire.Plan.read_write_of_toBytes_nil (C : Ciphersuite F G) (codec : AddressCodec A) (outputs : OutputCodec O)
    {plan : Wire.Plan G A O} {bytes : List UInt8} (h : plan.write C codec outputs = .ok bytes) {change : A}
    (hplan : plan.change = some change) (hnil : codec.toBytes change = some []) (rest : List UInt8) :
    Wire.Plan.read C codec outputs (bytes ++ rest) = .ok { plan with change := none } rest := by
  refine Wire.Plan.read_write_of_readChange C codec outputs h fun b hb _ => ?_
  simp only [changeBytes, hplan, hnil] at hb
  cases hb
  rfl

end Plans

section Scheduler

variable {G : Type}

theorem unwrapWrite_ok {r : Except IoError (List UInt8)} {bytes : List UInt8} (h : unwrapWrite r = .ok bytes) :
    r = .ok bytes := by
  unfold unwrapWrite at h
  split at h
  · exact h ▸ rfl
  · cases h

theorem readMany_payments_unwrap (codec : AddressCodec A) {payments : List (Wire.Payment A)}
    {chunks : List (List UInt8)} (h : payments.mapM (fun payment => unwrapWrite (payment.write codec)) = .ok chunks)
    (rest : List UInt8) :
    readMany (Wire.Payment.read codec) payments.length (chunks.flatten ++ rest) = .ok payments rest :=
  readMany_flatten (fun _ _ _ hw rest => Wire.Payment.read_write codec (unwrapWrite_ok hw) rest) h rest

theorem readPlan_writePlan (codec : AddressCodec A) {plan : List (Wire.Payment A)} {bytes : List UInt8}
    (h : writePlan codec plan = .ok bytes) (rest : List UInt8) : readPlan codec (bytes ++ rest) = .ok plan rest := by
  simp only [writePlan] at h
  obtain ⟨planLen, hlen, h⟩ := except_bind_ok h
  obtain ⟨chunks, hchunks, h⟩ := except_bind_ok h
  cases h
  simp only [readPlan, List.append_assoc, bind_of_ok (readU32_of_lengthBytes hlen _), (lengthBytes_ok hlen).2,
    readMany_payments_unwrap codec hchunks]

theorem readPlansEntry_writePlansEntry (codec : AddressCodec A) {entry : UInt64 × List (List (Wire.Payment A))}
    {bytes : List UInt8} (h : writePlansEntry codec entry = .ok bytes) (rest : List UInt8) :
    readPlansEntry codec (bytes ++ rest) = .ok entry rest := by
  simp only [writePlansEntry] at h
  obtain ⟨plansLen, hlen, h⟩ := except_bind_ok h
  obtain ⟨chunks, hchunks, h⟩ := except_bind_ok h
  cases h
  simp only [readPlansEntry, List.append_assoc, bind_of_ok (readU64_toLeBytes _ _),
    bind_of_ok (readU32_of_lengthBytes hlen _), (lengthBytes_ok hlen).2,
    bind_of_ok (readMany_flatten (fun _ _ _ hw rest => readPlan_writePlan codec hw rest) hchunks _)]
  rfl

theorem readPlansLoop_flatten (codec : AddressCodec A) {entries : List (UInt64 × List (List (Wire.Payment A)))}
    {chunks : List (List UInt8)} (h : entries.mapM (writePlansEntry codec) = .ok chunks)
    (allPlans : HashMap UInt64 (List (List (Wire.Payment A)))) (rest : List UInt8) :
    readPlansLoop codec entries.length allPlans (chunks.flatten ++ rest) =
      .ok (entries.foldl (fun m entry => m.insert entry.1 entry.2) allPlans) rest := by
  induction entries generalizing chunks allPlans with
  | nil =>
    cases h
    rfl
  | cons entry entries ih =>
    obtain ⟨b, bs, hb, hbs, rfl⟩ := mapM_cons_except_ok h
    rw [List.length_cons, List.flatten_cons, List.append_assoc]
    simp only [readPlansLoop, bind_of_ok (readPlansEntry_writePlansEntry codec hb _), ih hbs, List.foldl_cons]

theorem readPlans_writePlans (codec : AddressCodec A) {plans : HashMap UInt64 (List (List (Wire.Payment A)))}
    {bytes : List UInt8} (h : writePlans codec plans = .ok bytes) (rest : List UInt8) :
    ∃ plans', readPlans codec (bytes ++ rest) = .ok plans' rest ∧ plans'.Equiv plans := by
  simp only [writePlans] at h
  obtain ⟨len, hlen, h⟩ := except_bind_ok h
  obtain ⟨chunks, hchunks, h⟩ := except_bind_ok h
  cases h
  have hsize : (UInt32.ofNat plans.size).toNat = plans.toList.length := by
    rw [(lengthBytes_ok hlen).2, HashMap.length_toList]
  refine ⟨_, ?_, foldl_insert_toList_equiv plans⟩
  simp only [readPlans, List.append_assoc, bind_of_ok (readU32_of_lengthBytes hlen _), hsize,
    readPlansLoop_flatten codec hchunks]

theorem Wire.Scheduler.read_serialize (codec : AddressCodec A) (outputs : OutputCodec O) {s : Wire.Scheduler G A O}
    {bytes : List UInt8} (h : s.serialize codec outputs = .ok bytes) (rest : List UInt8) :
    ∃ t, Wire.Scheduler.read codec outputs s.key s.coin (bytes ++ rest) = .ok t rest ∧ t.Eqv s := by
  simp only [Wire.Scheduler.serialize] at h
  obtain ⟨queuedBytes, hqueued, h⟩ := except_bind_ok h
  obtain ⟨plansBytes, hplans, h⟩ := except_bind_ok h
  obtain ⟨utxosLen, hutxos, h⟩ := except_bind_ok h
  obtain ⟨paymentsLen, hpay, h⟩ := except_bind_ok h
  obtain ⟨chunks, hchunks, h⟩ := except_bind_ok h
  cases h
  obtain ⟨queued', hqueued', hqueuedEq⟩ := readPlans_writePlans codec hqueued
    (plansBytes ++ (utxosLen ++ ((s.utxos.map outputs.write).flatten ++ (paymentsLen ++ (chunks.flatten ++ rest)))))
  obtain ⟨plans', hplans', hplansEq⟩ := readPlans_writePlans codec hplans
    (utxosLen ++ ((s.utxos.map outputs.write).flatten ++ (paymentsLen ++ (chunks.flatten ++ rest))))
  refine ⟨⟨s.key, s.coin, queued', plans', s.utxos, s.payments⟩, ?_, rfl, rfl, hqueuedEq, hplansEq, rfl, rfl⟩
  simp only [Wire.Scheduler.read, List.append_assoc, bind_of_ok hqueued', bind_of_ok hplans',
    bind_of_ok (readU32_of_lengthBytes hutxos _), (lengthBytes_ok hutxos).2, bind_of_ok (readMany_outputs outputs _ _),
    bind_of_ok (readU32_of_lengthBytes hpay _), (lengthBytes_ok hpay).2, bind_of_ok (readMany_payments_unwrap codec hchunks _)]
  rfl

/-! ## What fits the format is written -/

/-- What `Payment::write` needs: the address converts to bytes, and the address and the data
    have fewer than `2 ^ 32` bytes. -/
def Wire.Payment.Fits (codec : AddressCodec A) (payment : Wire.Payment A) : Prop :=
  (∃ bytes, codec.toBytes payment.address = some bytes ∧ bytes.length < 2 ^ 32) ∧
    ∀ data, payment.data = some data → data.length < 2 ^ 32

/-- What `write_plans` needs of a map: fewer than `2 ^ 32` amounts, plans of an amount and
    payments of a plan, and every payment fits. -/
def PlansFit (codec : AddressCodec A) (plans : HashMap UInt64 (List (List (Wire.Payment A)))) : Prop :=
  plans.size < 2 ^ 32 ∧ ∀ entry ∈ plans.toList, entry.2.length < 2 ^ 32 ∧
    ∀ plan ∈ entry.2, plan.length < 2 ^ 32 ∧ ∀ payment ∈ plan, payment.Fits codec

/-- What `Scheduler::serialize` needs. -/
structure Wire.Scheduler.Fits (codec : AddressCodec A) (s : Wire.Scheduler G A O) : Prop where
  queuedPlans : PlansFit codec s.queuedPlans
  plans : PlansFit codec s.plans
  utxos : s.utxos.length < 2 ^ 32
  payments_length : s.payments.length < 2 ^ 32
  payments : ∀ payment ∈ s.payments, payment.Fits codec

theorem lengthBytes_of_lt {len : ℕ} (h : len < 2 ^ 32) : lengthBytes len = .ok (u32ToLeBytes (UInt32.ofNat len)) :=
  if_pos h

theorem Wire.Payment.write_ok (codec : AddressCodec A) {payment : Wire.Payment A} (h : payment.Fits codec) :
    ∃ bytes, payment.write codec = .ok bytes := by
  obtain ⟨⟨address, haddr, hlen⟩, hdata⟩ := h
  cases hd : payment.data with
  | none =>
    simp only [Wire.Payment.write, haddr, hd, pure_bind, except_bind_of_ok (lengthBytes_of_lt hlen)]
    exact ⟨_, rfl⟩
  | some data =>
    simp only [Wire.Payment.write, haddr, hd, pure_bind, except_bind_of_ok (lengthBytes_of_lt hlen),
      except_bind_of_ok (lengthBytes_of_lt (hdata data hd))]
    exact ⟨_, rfl⟩

theorem mapM_unwrapWrite_ok (codec : AddressCodec A) {payments : List (Wire.Payment A)}
    (h : ∀ payment ∈ payments, payment.Fits codec) :
    ∃ chunks, payments.mapM (fun payment => unwrapWrite (payment.write codec)) = .ok chunks :=
  mapM_except_exists fun payment hp => by
    obtain ⟨bytes, hb⟩ := Wire.Payment.write_ok codec (h payment hp)
    exact ⟨bytes, by rw [hb]; rfl⟩

theorem writePlans_ok (codec : AddressCodec A) {plans : HashMap UInt64 (List (List (Wire.Payment A)))}
    (h : PlansFit codec plans) : ∃ bytes, writePlans codec plans = .ok bytes := by
  obtain ⟨hsize, hentries⟩ := h
  -- each plan, then each entry, is written
  have hplan : ∀ entry ∈ plans.toList, ∀ plan ∈ entry.2, ∃ bytes, writePlan codec plan = .ok bytes := by
    intro entry he plan hp
    obtain ⟨hlen, hpayments⟩ := (hentries entry he).2 plan hp
    obtain ⟨chunks, hchunks⟩ := mapM_unwrapWrite_ok codec hpayments
    exact ⟨_, by rw [writePlan, except_bind_of_ok (lengthBytes_of_lt hlen), except_bind_of_ok hchunks]; rfl⟩
  have hentry : ∀ entry ∈ plans.toList, ∃ bytes, writePlansEntry codec entry = .ok bytes := by
    intro entry he
    obtain ⟨chunks, hchunks⟩ := mapM_except_exists (hplan entry he)
    exact ⟨_, by
      rw [writePlansEntry, except_bind_of_ok (lengthBytes_of_lt (hentries entry he).1), except_bind_of_ok hchunks]
      rfl⟩
  obtain ⟨chunks, hchunks⟩ := mapM_except_exists hentry
  exact ⟨_, by rw [writePlans, except_bind_of_ok (lengthBytes_of_lt hsize), except_bind_of_ok hchunks]; rfl⟩

theorem Wire.Scheduler.serialize_ok (codec : AddressCodec A) (outputs : OutputCodec O) {s : Wire.Scheduler G A O}
    (h : s.Fits codec) : ∃ bytes, s.serialize codec outputs = .ok bytes := by
  obtain ⟨queuedBytes, hqueued⟩ := writePlans_ok codec h.queuedPlans
  obtain ⟨plansBytes, hplans⟩ := writePlans_ok codec h.plans
  obtain ⟨chunks, hchunks⟩ := mapM_unwrapWrite_ok codec h.payments
  exact ⟨_, by
    rw [Wire.Scheduler.serialize, except_bind_of_ok hqueued, except_bind_of_ok hplans,
      except_bind_of_ok (lengthBytes_of_lt h.utxos), except_bind_of_ok (lengthBytes_of_lt h.payments_length),
      except_bind_of_ok hchunks]
    rfl⟩

/-! ## The scheduler of the model -/

/-- The model's payment: the balance's amount, its coin being the scheduler's. -/
def Wire.Payment.toModel (payment : Wire.Payment A) : Processor.Payment A :=
  ⟨payment.address, payment.data, payment.balance.amount.toNat⟩

/-- The model's map of amounts: the plans an amount has, none past `u64`. -/
def plansAt (plans : HashMap UInt64 (List (List (Wire.Payment A)))) (amount : ℕ) :
    List (List (Processor.Payment A)) :=
  if amount < 2 ^ 64 then (plans.getD (UInt64.ofNat amount) []).map (·.map Wire.Payment.toModel) else []

/-- The scheduler of the model a scheduler is, its outputs seen through `outputOf`. -/
def Wire.Scheduler.toModel {I : Type} (outputOf : O → Output I) (s : Wire.Scheduler G A O) :
    Processor.Scheduler G A I :=
  ⟨s.key, plansAt s.queuedPlans, plansAt s.plans, s.utxos.map outputOf, s.payments.map Wire.Payment.toModel⟩

theorem plansAt_eq_of_equiv {plans plans' : HashMap UInt64 (List (List (Wire.Payment A)))}
    (h : plans.Equiv plans') : plansAt plans = plansAt plans' := by
  funext amount
  simp only [plansAt, HashMap.Equiv.getD_eq h]

theorem Wire.Scheduler.toModel_eq_of_eqv {I : Type} (outputOf : O → Output I) {s t : Wire.Scheduler G A O}
    (h : s.Eqv t) : s.toModel outputOf = t.toModel outputOf := by
  obtain ⟨hkey, -, hqueued, hplans, hutxos, hpayments⟩ := h
  simp only [Wire.Scheduler.toModel, hkey, plansAt_eq_of_equiv hqueued, plansAt_eq_of_equiv hplans, hutxos,
    hpayments]

end Scheduler

/-! ## The encodings -/

theorem processor_encodings_round_trip {F G : Type} [Field F] [AddCommGroup G] [Module F G] [DecidableEq G]
    (C : Ciphersuite F G) (codec : AddressCodec A) (outputs : OutputCodec O) :
    (∀ s : Wire.Scheduler G A O, s.Fits codec → ∃ bytes t, s.serialize codec outputs = .ok bytes ∧
      Wire.Scheduler.read codec outputs s.key s.coin bytes = .ok t [] ∧ t.Eqv s) ∧
    (∀ (plan : Wire.Plan G A O) bytes, plan.write C codec outputs = .ok bytes →
      (∀ change, plan.change = some change → codec.toBytes change ≠ some []) →
      Wire.Plan.read C codec outputs bytes = .ok plan []) ∧
    (∀ (payment : Wire.Payment A) bytes, payment.write codec = .ok bytes →
      Wire.Payment.read codec bytes = .ok payment []) := by
  refine ⟨fun s hs => ?_, fun plan bytes h hchange => ?_, fun payment bytes h => ?_⟩
  · obtain ⟨bytes, hbytes⟩ := Wire.Scheduler.serialize_ok codec outputs hs
    obtain ⟨t, hread, heqv⟩ := Wire.Scheduler.read_serialize codec outputs hbytes []
    rw [List.append_nil] at hread
    exact ⟨bytes, t, hbytes, hread, heqv⟩
  · simpa using Wire.Plan.read_write C codec outputs h hchange []
  · simpa using Wire.Payment.read_write codec h []

/-- Addresses of one value, which converts to the byte `7`. -/
def byteAddressCodec : AddressCodec Unit := ⟨fun _ => some [7], fun _ => some (), fun _ _ _ => rfl⟩

/-- Outputs of one value, written as no bytes. -/
def unitOutputCodec : OutputCodec Unit := ⟨fun _ => [], fun buf => .ok () buf, fun _ _ => rfl⟩

/-- A payment of three atomic units of XMR, with two bytes of data. -/
def payment5 : Wire.Payment Unit := ⟨(), some [1, 2], ⟨.monero, 3⟩⟩

theorem payment5_fits : payment5.Fits byteAddressCodec := by
  refine ⟨⟨[7], rfl, by decide⟩, fun data h => ?_⟩
  cases h
  decide

theorem plansFit_singleton {codec : AddressCodec A} (amount : UInt64) {plans : List (List (Wire.Payment A))}
    (hlen : plans.length < 2 ^ 32)
    (hplans : ∀ plan ∈ plans, plan.length < 2 ^ 32 ∧ ∀ payment ∈ plan, payment.Fits codec) :
    PlansFit codec ((∅ : HashMap UInt64 (List (List (Wire.Payment A)))).insert amount plans) := by
  refine ⟨lt_of_le_of_lt Std.HashMap.size_insert_le (by simp), fun entry hentry => ?_⟩
  rw [Std.HashMap.mem_toList_iff_getElem?_eq_some, Std.HashMap.getElem?_insert] at hentry
  split_ifs at hentry
  · obtain rfl := Option.some.inj hentry
    exact ⟨hlen, hplans⟩
  · simp at hentry

/-- A scheduler with plans queued on one amount and waiting on another, a UTXO and a payment. -/
def queuedScheduler : Wire.Scheduler (ZMod 5) Unit Unit :=
  ⟨0, .monero, (∅ : HashMap UInt64 _).insert 5 [[payment5], [payment5, payment5]],
    (∅ : HashMap UInt64 _).insert 7 [[payment5, payment5]], [()], [payment5]⟩

/-- A plan spending one output, with a payment and change. -/
def changePlan5 : Wire.Plan (ZMod 5) Unit Unit := ⟨0, [()], [payment5], some ()⟩

theorem processor_encodings_round_trip_queued :
    (∃ bytes t, queuedScheduler.serialize byteAddressCodec unitOutputCodec = .ok bytes ∧
      Wire.Scheduler.read byteAddressCodec unitOutputCodec queuedScheduler.key queuedScheduler.coin bytes =
        .ok t [] ∧ t.Eqv queuedScheduler) ∧
    ∃ bytes, changePlan5.write Dkg.zmod5Suite byteAddressCodec unitOutputCodec = .ok bytes ∧
      Wire.Plan.read Dkg.zmod5Suite byteAddressCodec unitOutputCodec bytes = .ok changePlan5 [] := by
  have hround := processor_encodings_round_trip Dkg.zmod5Suite byteAddressCodec unitOutputCodec
  refine ⟨hround.1 queuedScheduler ⟨plansFit_singleton 5 (by decide) ?_, plansFit_singleton 7 (by decide) ?_,
    by decide, by decide, ?_⟩, _, rfl, hround.2.1 changePlan5 _ rfl fun _ _ => by simp [byteAddressCodec]⟩
  all_goals simp [queuedScheduler, payment5_fits]

end Serai.Processor
