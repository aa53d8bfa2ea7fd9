import Mathlib
import Serai.Crypto.Ciphersuite
/-
  Serai.Monero.Serialize — Monero's varints (coins/monero/src/serialize.rs: `varint_len`,
  `write_varint`, `read_varint`).

  A varint is written seven bits a byte, lowest first, with the continuation bit set on
  every byte but the last. `read_varint::<U>` reads one into an integer type of `U::BITS`
  bits: it refuses a zero byte after the first (`non-canonical varint`) and, at the last
  seven-bit group the type has room for, a byte with bits past `U::BITS` (`varint
  overflow`); it accumulates into a `u64`. The arithmetic the code could panic on panics in
  the model where it would overflow: the `usize` subtraction `U::BITS - bits`, the `u8` shift
  `1 << _`, the shift of a `u64` by `bits` and the `u64` sum.

  Proved, for every integer type of at most 64 bits (`VarInt`: `u8`, `u32`, `u64`, `usize`):
  - `length_writeVarint`: the writer writes `varint_len` bytes.
  - `readVarint_writeVarint`: every value of the type is read back from what the writer
    wrote, and the bytes after it are left.
  - `writeVarint_of_readVarint`: what the reader accepts is exactly what the writer writes
    for the value it returns, which fits the type; so the reader accepts the canonical
    encoding only.
  - `readVarint_ne_panic`: the reader never panics, so it never shifts a `u64` by 64 bits
    or more and its sum never overflows.
-/

namespace Serai.Monero

open Serai.Crypto

/-- The `VarInt` trait: an unsigned integer type of `BITS` bits, which converts to `u64`. -/
structure VarInt where
  bits : ℕ
  bits_pos : 0 < bits
  bits_le : bits ≤ 64

def VarInt.u8 : VarInt := ⟨8, by decide, by decide⟩

def VarInt.u32 : VarInt := ⟨32, by decide, by decide⟩

def VarInt.u64 : VarInt := ⟨64, by decide, by decide⟩

/-- `usize`: `size_of::<usize>() * 8` bits, on a target whose pointers are `size` bytes. -/
def VarInt.usize (size : ℕ) (h : 0 < size ∧ size ≤ 8) : VarInt := ⟨size * 8, by omega, by omega⟩

/-- `VARINT_CONTINUATION_MASK`. -/
def varintContinuationMask : UInt8 := 0x80

/-- `!VARINT_CONTINUATION_MASK`: the seven bits of a group. -/
def payloadMask : UInt8 := ~~~varintContinuationMask

/-! ## The writer -/

/-- `write_varint` of a value converted to `u64`: its low seven bits, with the continuation
    bit when bits are left, then the bits left. -/
def writeVarint (varint : ℕ) : List UInt8 :=
  let b := UInt8.ofNat (varint &&& payloadMask.toNat)
  let varint' := varint >>> 7
  if varint' ≠ 0 then (b ||| varintContinuationMask) :: writeVarint varint' else [b]
termination_by varint
decreasing_by
  rw [Nat.shiftRight_eq_div_pow] at *
  omega

/-- `varint_len`: `u64::BITS - leading_zeros()` is the value's bit length, `Nat.size`. -/
def varintLen (varint : ℕ) : ℕ := (varint.size - 1) / 7 + 1

/-! ## The reader -/

/-- The checks of `read_varint` on the byte `b` read at `bits` bits: `none` when it passes,
    or what the code ends with. -/
def checkByte (U : VarInt) (bits : ℕ) (b : UInt8) : Option IoError :=
  if bits ≠ 0 ∧ b = 0 then some (.other "non-canonical varint") else
  if bits + 7 < U.bits then none else
  -- `U::BITS - bits` is a `usize` and `1 << _` a `u8`: both panic when they overflow
  if U.bits < bits ∨ 8 ≤ U.bits - bits then some .panic else
  if 2 ^ (U.bits - bits) ≤ b.toNat then some (.other "varint overflow") else none

/-- `res += u64::from(b & !VARINT_CONTINUATION_MASK) << bits`: the shift of a `u64` panics at
    64 bits or more and drops the bits past 64; the sum panics when it overflows. -/
def accumulate (res bits : ℕ) (b : UInt8) : Option ℕ :=
  if 64 ≤ bits then none else
  let sum := res + ((b &&& payloadMask).toNat <<< bits) % 2 ^ 64
  if 2 ^ 64 ≤ sum then none else some sum

/-- The loop of `read_varint`, at `bits` bits read with `res` accumulated, over the bytes left. -/
def readVarintLoop (U : VarInt) (bits res : ℕ) : List UInt8 → EStateM.Result IoError (List UInt8) ℕ
  | [] => .error .unexpectedEof []
  | b :: rest =>
    match checkByte U bits b with
    | some e => .error e rest
    | none =>
      match accumulate res bits b with
      | none => .error .panic rest
      | some res =>
        if b &&& varintContinuationMask = varintContinuationMask then readVarintLoop U (bits + 7) res rest
        else .ok res rest

/-- `read_varint::<U>`: the loop from no bits read, then `try_into` the type. -/
def readVarint (U : VarInt) : Reader ℕ := fun buf =>
  match readVarintLoop U 0 0 buf with
  | .ok res rest =>
    if res < 2 ^ U.bits then .ok res rest else .error (.other "VarInt does not fit into integer type") rest
  | .error e rest => .error e rest

/-! ## Bytes and groups -/

theorem toNat_and_payloadMask (b : UInt8) : (b &&& payloadMask).toNat = b.toNat % 128 := by
  rw [UInt8.toNat_and, show payloadMask.toNat = 2 ^ 7 - 1 from rfl, Nat.and_two_pow_sub_one_eq_mod]

theorem and_continuationMask_iff (b : UInt8) :
    b &&& varintContinuationMask = varintContinuationMask ↔ 128 ≤ b.toNat := by
  have h := (by decide +kernel : ∀ i : Fin 256, (i.val &&& 128 = 128) ↔ 128 ≤ i.val) ⟨b.toNat, b.toNat_lt⟩
  rw [← UInt8.toNat_inj, UInt8.toNat_and]
  exact h

theorem writeVarint_eq (v : ℕ) :
    writeVarint v = if v < 128 then [UInt8.ofNat v] else UInt8.ofNat (v % 128 + 128) :: writeVarint (v / 128) := by
  rw [writeVarint]
  have hlow : v &&& payloadMask.toNat = v % 128 := by
    rw [show payloadMask.toNat = 2 ^ 7 - 1 from rfl, Nat.and_two_pow_sub_one_eq_mod]
  simp only [hlow, Nat.shiftRight_eq_div_pow]
  by_cases hv : v < 128
  · rw [if_neg (by omega), if_pos hv, Nat.mod_eq_of_lt hv]
  · rw [if_pos (by omega), if_neg hv]
    congr 1
    -- the continuation bit is the eighth: it adds `128` to a group below it
    rw [← UInt8.toNat_inj, UInt8.toNat_or, UInt8.toNat_ofNat', UInt8.toNat_ofNat',
      show varintContinuationMask.toNat = 2 ^ 7 * 1 from rfl, Nat.or_comm,
      ← Nat.two_pow_add_eq_or_of_lt (by omega : v % 128 % 2 ^ 8 < 2 ^ 7)]
    omega

theorem writeVarint_of_lt {v : ℕ} (hv : v < 128) : writeVarint v = [UInt8.ofNat v] := by
  rw [writeVarint_eq, if_pos hv]

theorem writeVarint_of_le {v : ℕ} (hv : 128 ≤ v) :
    writeVarint v = UInt8.ofNat (v % 128 + 128) :: writeVarint (v / 128) := by
  rw [writeVarint_eq, if_neg (by omega)]

theorem size_div_128 {v : ℕ} (hv : 128 ≤ v) : (v / 128).size + 7 = v.size := by
  have hpos : 0 < (v / 128).size := Nat.size_pos.mpr (Nat.div_pos hv (by norm_num))
  have hlt : v / 128 < 2 ^ (v / 128).size := Nat.lt_size_self _
  have hle : 2 ^ ((v / 128).size - 1) ≤ v / 128 := Nat.lt_size.mp (by omega)
  have hpow : 2 ^ (v / 128).size = 2 ^ ((v / 128).size - 1) * 2 := by
    rw [← Nat.pow_succ]
    congr 1
    omega
  apply le_antisymm
  · apply Nat.lt_size.mpr
    rw [show (v / 128).size + 6 = (v / 128).size - 1 + 7 by omega, Nat.pow_add]
    norm_num
    omega
  · apply Nat.size_le.mpr
    rw [Nat.pow_add]
    norm_num
    omega

theorem length_writeVarint (v : ℕ) : (writeVarint v).length = varintLen v := by
  induction v using Nat.strongRecOn with
  | ind v ih =>
    by_cases hv : v < 128
    · have hsize : v.size ≤ 7 := Nat.size_le.mpr hv
      rw [writeVarint_of_lt hv, varintLen]
      simp only [List.length_singleton]
      omega
    · rw [writeVarint_of_le (by omega), List.length_cons, ih (v / 128) (by omega), varintLen, varintLen,
        ← size_div_128 (by omega : 128 ≤ v)]
      have : 0 < (v / 128).size := Nat.size_pos.mpr (Nat.div_pos (by omega) (by norm_num))
      omega

/-! ## The checks of one byte -/

section Checks

variable {U : VarInt} {bits res : ℕ} {b : UInt8}

theorem checkByte_none (h : checkByte U bits b = none) :
    (bits ≠ 0 → b ≠ 0) ∧ b.toNat % 128 * 2 ^ bits < 2 ^ U.bits ∧ (128 ≤ b.toNat → bits + 7 < U.bits) := by
  unfold checkByte at h
  split_ifs at h with hcanon hroom hpanic hover
  · refine ⟨fun hb => by simpa [hb] using hcanon, ?_, fun _ => hroom⟩
    calc b.toNat % 128 * 2 ^ bits < 128 * 2 ^ bits := Nat.mul_lt_mul_of_pos_right (Nat.mod_lt _ (by norm_num))
          (Nat.two_pow_pos _)
      _ = 2 ^ (bits + 7) := by rw [Nat.pow_add]; ring
      _ ≤ 2 ^ U.bits := Nat.pow_le_pow_right (by norm_num) (by omega)
  · have hfit : b.toNat < 2 ^ (U.bits - bits) := Nat.lt_of_not_le hover
    have h7 : 2 ^ (U.bits - bits) ≤ 2 ^ 7 := Nat.pow_le_pow_right (by norm_num) (by omega)
    refine ⟨fun hb => by simpa [hb] using hcanon, ?_, fun hb => by omega⟩
    calc b.toNat % 128 * 2 ^ bits ≤ b.toNat * 2 ^ bits := Nat.mul_le_mul_right _ (Nat.mod_le _ _)
      _ < 2 ^ (U.bits - bits) * 2 ^ bits := Nat.mul_lt_mul_of_pos_right hfit (Nat.two_pow_pos _)
      _ = 2 ^ U.bits := by rw [← Nat.pow_add, Nat.sub_add_cancel (by omega)]

theorem checkByte_ne_panic (hbits : bits < U.bits) : checkByte U bits b ≠ some .panic := by
  unfold checkByte
  split_ifs with hcanon hroom hpanic hover <;> first | omega | simp

theorem checkByte_eq_none (hcanon : bits ≠ 0 → b ≠ 0) (hfit : b.toNat * 2 ^ bits < 2 ^ U.bits) :
    checkByte U bits b = none := by
  have hbits : bits < U.bits := by
    by_cases hb : b = 0
    · have := U.bits_pos
      by_cases h0 : bits = 0
      · omega
      · exact absurd hb (hcanon h0)
    · have : 1 ≤ b.toNat := Nat.one_le_iff_ne_zero.mpr fun h => hb (UInt8.toNat_inj.mp h)
      have : 2 ^ bits < 2 ^ U.bits := by nlinarith [Nat.two_pow_pos bits]
      exact (Nat.pow_lt_pow_iff_right (by norm_num)).mp this
  have hover : b.toNat < 2 ^ (U.bits - bits) := by
    rw [← Nat.mul_lt_mul_right (Nat.two_pow_pos bits), ← Nat.pow_add, Nat.sub_add_cancel hbits.le]
    exact hfit
  unfold checkByte
  split_ifs with h1 h2 h3 h4
  · exact absurd h1.2 (hcanon h1.1)
  · rfl
  · omega
  · omega
  · rfl

theorem accumulate_eq (hbits : bits < 64) (hsum : res + b.toNat % 128 * 2 ^ bits < 2 ^ 64) :
    accumulate res bits b = some (res + b.toNat % 128 * 2 ^ bits) := by
  have hshift : (b &&& payloadMask).toNat <<< bits % 2 ^ 64 = b.toNat % 128 * 2 ^ bits := by
    rw [toNat_and_payloadMask, Nat.shiftLeft_eq, Nat.mod_eq_of_lt (by omega)]
  simp only [accumulate, hshift, if_neg (Nat.not_le.mpr hbits), if_neg (Nat.not_le.mpr hsum)]

theorem accumulate_some {res' : ℕ} (h : accumulate res bits b = some res') (hfit : b.toNat % 128 * 2 ^ bits < 2 ^ 64) :
    res' = res + b.toNat % 128 * 2 ^ bits := by
  simp only [accumulate, toNat_and_payloadMask, Nat.shiftLeft_eq, Nat.mod_eq_of_lt hfit] at h
  split_ifs at h
  exact (Option.some.inj h).symm

end Checks

theorem add_mul_pow_lt {res d bits n : ℕ} (hres : res < 2 ^ bits) (hbits : bits ≤ n) (h : d * 2 ^ bits < 2 ^ n) :
    res + d * 2 ^ bits < 2 ^ n := by
  have hpow : 2 ^ n = 2 ^ (n - bits) * 2 ^ bits := by rw [← Nat.pow_add, Nat.sub_add_cancel hbits]
  rw [hpow] at h ⊢
  have hd : d + 1 ≤ 2 ^ (n - bits) := Nat.lt_of_mul_lt_mul_right h
  calc res + d * 2 ^ bits < 2 ^ bits + d * 2 ^ bits := by omega
    _ = (d + 1) * 2 ^ bits := by ring
    _ ≤ 2 ^ (n - bits) * 2 ^ bits := Nat.mul_le_mul_right _ hd

/-! ## The loop -/

theorem readVarintLoop_writeVarint (U : VarInt) (rest : List UInt8) :
    ∀ (w bits res : ℕ), res < 2 ^ bits → (bits ≠ 0 → w ≠ 0) → res + 2 ^ bits * w < 2 ^ U.bits →
      readVarintLoop U bits res (writeVarint w ++ rest) = .ok (res + 2 ^ bits * w) rest := by
  intro w
  induction w using Nat.strongRecOn with
  | ind w ih =>
    intro bits res hres hcanon hfit
    have h64 : 2 ^ U.bits ≤ 2 ^ 64 := Nat.pow_le_pow_right (by norm_num) U.bits_le
    by_cases hw : w < 128
    · -- the last group: the byte is `w` itself
      have hb : (UInt8.ofNat w).toNat = w := by rw [UInt8.toNat_ofNat']; omega
      have hcheck : checkByte U bits (UInt8.ofNat w) = none := by
        refine checkByte_eq_none (fun h0 h => hcanon h0 ?_) ?_
        · rw [← hb, h]; rfl
        · rw [hb, Nat.mul_comm]; omega
      have hacc : accumulate res bits (UInt8.ofNat w) = some (res + 2 ^ bits * w) := by
        have hbits : bits < 64 := by
          by_contra h
          have : 2 ^ 64 ≤ 2 ^ bits := Nat.pow_le_pow_right (by norm_num) (by omega)
          have : 2 ^ bits ≤ 2 ^ bits * w := Nat.le_mul_of_pos_right _ (Nat.pos_of_ne_zero (hcanon (by omega)))
          omega
        rw [accumulate_eq hbits (by rw [hb, Nat.mod_eq_of_lt hw]; rw [Nat.mul_comm]; omega), hb,
          Nat.mod_eq_of_lt hw, Nat.mul_comm w]
      have hlast : ¬(UInt8.ofNat w &&& varintContinuationMask = varintContinuationMask) := by
        rw [and_continuationMask_iff, hb]; omega
      rw [writeVarint_of_lt hw, List.singleton_append]
      simp only [readVarintLoop, hcheck, hacc, if_neg hlast]
    · -- a group with the continuation bit, then the groups of `w / 128` at `bits + 7` bits
      have hb : (UInt8.ofNat (w % 128 + 128)).toNat = w % 128 + 128 := by rw [UInt8.toNat_ofNat']; omega
      have hpow : 2 ^ (bits + 7) = 2 ^ bits * 128 := by rw [Nat.pow_add]
      have hsplit : 2 ^ bits * w = w % 128 * 2 ^ bits + 2 ^ (bits + 7) * (w / 128) := by
        rw [hpow]
        nth_rewrite 1 [← Nat.mod_add_div w 128]
        ring
      have hroom : 2 ^ (bits + 7) ≤ 2 ^ U.bits := by
        have : 2 ^ (bits + 7) ≤ 2 ^ bits * w := by rw [hpow]; exact Nat.mul_le_mul_left _ (by omega)
        omega
      have hcheck : checkByte U bits (UInt8.ofNat (w % 128 + 128)) = none := by
        refine checkByte_eq_none (fun _ h => ?_) ?_
        · have := congrArg UInt8.toNat h
          rw [hb] at this
          exact absurd this (by simp)
        · rw [hb]
          have : bits + 8 ≤ U.bits := by
            have h' := (Nat.pow_le_pow_iff_right (by norm_num : 1 < 2)).mp hroom
            by_contra hlt
            have hU : U.bits = bits + 7 := by omega
            have : 2 ^ bits * w < 2 ^ bits * 128 := by rw [← hpow, ← hU]; omega
            have := Nat.lt_of_mul_lt_mul_left this
            omega
          calc (w % 128 + 128) * 2 ^ bits < 256 * 2 ^ bits := Nat.mul_lt_mul_of_pos_right (by omega) (Nat.two_pow_pos _)
            _ = 2 ^ (bits + 8) := by rw [Nat.pow_add]; ring
            _ ≤ 2 ^ U.bits := Nat.pow_le_pow_right (by norm_num) this
      have hacc : accumulate res bits (UInt8.ofNat (w % 128 + 128)) = some (res + w % 128 * 2 ^ bits) := by
        have hbits : bits < 64 := by
          by_contra h
          have : 2 ^ 71 ≤ 2 ^ (bits + 7) := Nat.pow_le_pow_right (by norm_num) (by omega)
          have : 2 ^ U.bits ≤ 2 ^ 64 := h64
          omega
        rw [accumulate_eq hbits (by rw [hb, Nat.add_mod_right, Nat.mod_mod]; omega), hb, Nat.add_mod_right, Nat.mod_mod]
      have hcont : UInt8.ofNat (w % 128 + 128) &&& varintContinuationMask = varintContinuationMask := by
        rw [and_continuationMask_iff, hb]; omega
      have hnext := ih (w / 128) (by omega) (bits + 7) (res + w % 128 * 2 ^ bits)
        (by rw [hpow]; have : w % 128 < 128 := Nat.mod_lt _ (by norm_num); nlinarith)
        (fun _ => by omega) (by rw [Nat.add_assoc, ← hsplit]; exact hfit)
      rw [writeVarint_of_le (by omega), List.cons_append]
      simp only [readVarintLoop, hcheck, hacc, if_pos hcont]
      rw [hnext, Nat.add_assoc, ← hsplit]

theorem readVarintLoop_ok (U : VarInt) :
    ∀ (s : List UInt8) (bits res v : ℕ) (rest : List UInt8), readVarintLoop U bits res s = .ok v rest →
      ∃ w, v = res + 2 ^ bits * w ∧ (bits ≠ 0 → w ≠ 0) ∧ writeVarint w ++ rest = s
  | [], _, _, _, _, h => by cases h
  | b :: s, bits, res, v, rest, h => by
    simp only [readVarintLoop] at h
    split at h
    · cases h
    rename_i hcheck
    obtain ⟨hcanon, hfit, hcont⟩ := checkByte_none hcheck
    have h64 : 2 ^ U.bits ≤ 2 ^ 64 := Nat.pow_le_pow_right (by norm_num) U.bits_le
    split at h
    · cases h
    rename_i res' hacc
    have hres' := accumulate_some hacc (by omega)
    have hbne : bits ≠ 0 → b.toNat ≠ 0 := fun h0 h => hcanon h0 (UInt8.toNat_inj.mp h)
    split at h
    · -- a continuation: the groups after it come from the rest
      rename_i hmask
      have hb := (and_continuationMask_iff b).mp hmask
      obtain ⟨w', hv, hw', hwrite⟩ := readVarintLoop_ok U s (bits + 7) res' v rest h
      have hw'0 : w' ≠ 0 := hw' (by omega)
      refine ⟨b.toNat % 128 + 128 * w', ?_, fun _ => by omega, ?_⟩
      · rw [hv, hres', Nat.pow_add]
        ring
      · rw [writeVarint_of_le (by omega), List.cons_append, Nat.add_mul_div_left _ _ (by norm_num),
          Nat.div_eq_of_lt (Nat.mod_lt _ (by norm_num)), Nat.zero_add, hwrite, Nat.add_mul_mod_self_left,
          Nat.mod_mod]
        congr 1
        have := b.toNat_lt
        rw [← UInt8.toNat_inj, UInt8.toNat_ofNat']
        omega
    · -- the last byte: the group is the byte
      rename_i hmask
      have hb : b.toNat < 128 := Nat.lt_of_not_le fun h' => hmask ((and_continuationMask_iff b).mpr h')
      cases h
      refine ⟨b.toNat, by rw [hres', Nat.mod_eq_of_lt hb, Nat.mul_comm], hbne, ?_⟩
      rw [writeVarint_of_lt hb, UInt8.ofNat_toNat]
      rfl

theorem readVarintLoop_ne_panic (U : VarInt) :
    ∀ (s : List UInt8) (bits res : ℕ), bits < U.bits → res < 2 ^ bits → ∀ rest,
      readVarintLoop U bits res s ≠ .error .panic rest
  | [], _, _, _, _, _ => by simp [readVarintLoop]
  | b :: s, bits, res, hbits, hres, rest => by
    simp only [readVarintLoop]
    split
    · rename_i e hcheck
      intro h
      cases h
      exact checkByte_ne_panic hbits hcheck
    rename_i hcheck
    obtain ⟨-, hfit, hcont⟩ := checkByte_none hcheck
    have h64 : 2 ^ U.bits ≤ 2 ^ 64 := Nat.pow_le_pow_right (by norm_num) U.bits_le
    have hsum := add_mul_pow_lt hres hbits.le hfit
    rw [accumulate_eq (by have := U.bits_le; omega) (by omega)]
    dsimp only
    split
    · rename_i hmask
      have hroom := hcont ((and_continuationMask_iff b).mp hmask)
      refine readVarintLoop_ne_panic U s (bits + 7) _ hroom ?_ rest
      calc res + b.toNat % 128 * 2 ^ bits < 2 ^ bits + 127 * 2 ^ bits := by
            have : b.toNat % 128 ≤ 127 := Nat.le_of_lt_succ (Nat.mod_lt _ (by norm_num))
            have := Nat.mul_le_mul_right (2 ^ bits) this
            omega
        _ = 2 ^ (bits + 7) := by rw [Nat.pow_add]; ring
    · simp

/-! ## `read_varint` -/

theorem readVarint_writeVarint (U : VarInt) {v : ℕ} (hv : v < 2 ^ U.bits) (rest : List UInt8) :
    readVarint U (writeVarint v ++ rest) = .ok v rest := by
  have hloop := readVarintLoop_writeVarint U rest v 0 0 (by norm_num) (fun h => absurd rfl h) (by simpa using hv)
  simp only [Nat.pow_zero, Nat.one_mul, Nat.zero_add] at hloop
  simp only [readVarint, hloop, if_pos hv]

theorem writeVarint_of_readVarint {U : VarInt} {s rest : List UInt8} {v : ℕ} (h : readVarint U s = .ok v rest) :
    writeVarint v ++ rest = s ∧ v < 2 ^ U.bits := by
  cases hloop : readVarintLoop U 0 0 s with
  | ok res rest' =>
    simp only [readVarint, hloop] at h
    split_ifs at h with hfit
    cases h
    obtain ⟨w, rfl, -, hwrite⟩ := readVarintLoop_ok U s 0 0 _ _ hloop
    simp only [Nat.pow_zero, Nat.one_mul, Nat.zero_add] at hwrite hfit ⊢
    exact ⟨hwrite, hfit⟩
  | error e rest' => simp [readVarint, hloop] at h

theorem readVarint_ne_panic (U : VarInt) (s rest : List UInt8) : readVarint U s ≠ .error .panic rest := by
  simp only [readVarint]
  split
  · split_ifs <;> simp
  · rename_i e rest' hloop
    intro h
    cases h
    exact readVarintLoop_ne_panic U s 0 0 U.bits_pos (by norm_num) rest hloop

/-- The codec of every integer type of at most 64 bits is canonical: every value is read back
    from its encoding in `varint_len` bytes, every encoding read is the one the writer writes
    for a value that fits, and reading never panics (so never shifts a `u64` past 63 bits). -/
theorem varint_codec_canonical (U : VarInt) :
    (∀ (v : ℕ) (rest : List UInt8), v < 2 ^ U.bits →
      readVarint U (writeVarint v ++ rest) = .ok v rest ∧ (writeVarint v).length = varintLen v) ∧
    (∀ (s rest : List UInt8) (v : ℕ), readVarint U s = .ok v rest → writeVarint v ++ rest = s ∧ v < 2 ^ U.bits) ∧
    (∀ s rest : List UInt8, readVarint U s ≠ .error .panic rest) :=
  ⟨fun v rest hv => ⟨readVarint_writeVarint U hv rest, length_writeVarint v⟩,
    fun _ _ _ h => writeVarint_of_readVarint h, readVarint_ne_panic U⟩

end Serai.Monero
