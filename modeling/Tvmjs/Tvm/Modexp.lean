import Tvmjs.Base.Words
import Tvmjs.Tvm.Precompile

/-!
# Precompile 05

Modular exponentiation of numbers whose lengths the calldata gives.

* `precompile05` -- lengths, gas, operands and result, in the order of the code;
* `expMod_eq` -- the loop multiplies by squares;
* `getAdjustedExponentLength_eq` -- what the gas takes from the head of the exponent;
* `PowersInto` -- where the operands and the power fit the array literals they are padded in;
* `meetsModexp_iff` -- **it returns the power exactly there**, and throws elsewhere.
-/

namespace Tvmjs

namespace Precompile

open Interpreter (ExecResult subarray bytesToBigInt)

variable (engine : Engine)

/-- `multiplicationComplexity(x)` -/
def multiplicationComplexity (x : ℕ) : ℕ :=
  if x ≤ 64 then x ^ 2
  else if x ≤ 1024 then x ^ 2 / 4 + x * 96 - 3072
  else x ^ 2 / 16 + x * 480 - 199680

/-- The loop over the bits of the head of the exponent. -/
def bitLenLoop (firstExpBigInt : ℕ) (bitLen : ℤ) : ℤ :=
  if firstExpBigInt > 0 then bitLenLoop (firstExpBigInt >>> 1) (bitLen + 1) else bitLen
termination_by firstExpBigInt
decreasing_by
  rw [Nat.shiftRight_one]
  omega

/-- `getAdjustedExponentLength(data, opts)` -/
def getAdjustedExponentLength (data : Bytes) (opts : PrecompileInput) : Except String ℕ := do
  let baseLen := bytesToBigInt (subarray data 0 32)
  -- base length, exponent length, and modulus length, then the base, then the exponent starts
  let expBytesStart := toNumber (96 + toNumber baseLen)
  let expLen := bytesToBigInt (subarray data 32 64)
  let firstExpBytes ←
    setLengthRight engine (subarray data expBytesStart (toNumber (expBytesStart + 32))) 32
  let max32expLen := if expLen < 32 then 32 - toNumber expLen else 0
  let firstExpBigInt := bytesToBigInt firstExpBytes >>> (8 * max32expLen)
  let bitLen := bitLenLoop firstExpBigInt (-1)
  let expLenMinus32OrZero := expLen - 32
  let adjustedExpLen := expLenMinus32OrZero * if opts.common.isActivatedEIP 7883 then 16 else 8
  return if bitLen > 0 then adjustedExpLen + bitLen.toNat else adjustedExpLen

/-- The loop of `expMod`. -/
def expModLoop (res a power modulo : ℕ) : ℕ :=
  if power > 0 then
    expModLoop (if power % 2 ≠ 0 then res * a % modulo else res) (a * a % modulo) (power / 2) modulo
  else res
termination_by power

/-- `expMod(a, power, modulo)`; a division by zero throws, whichever of the remainders it is. -/
def expMod (a power modulo : ℕ) : Except String ℕ :=
  if modulo = 0 then .error "Division by zero"
  else if power = 0 then .ok (1 % modulo)
  else .ok (expModLoop 1 a power modulo)

/-- The gas of the precompile. -/
def modexpGas (opts : PrecompileInput) (adjustedELen maxLen : ℕ) : Except String ℕ :=
  let Gquaddivisor := opts.common.param "modexpGquaddivisorGas"
  if opts.common.isActivatedEIP 2565 then
    let words := (maxLen + 7) / 8
    if opts.common.isActivatedEIP 7883 then
      let gasUsed := adjustedELen * if maxLen > 32 then 2 * words * words else 16
      .ok (if gasUsed < 500 then 500 else gasUsed)
    else if Gquaddivisor = 0 then .error "Division by zero"
    else
      let gasUsed := adjustedELen * words * words / Gquaddivisor
      .ok (if gasUsed < 200 then 200 else gasUsed)
  else if Gquaddivisor = 0 then .error "Division by zero"
  else .ok (adjustedELen * multiplicationComplexity maxLen / Gquaddivisor)

/-- The bytes of the power, none for zero. -/
def modexpBytes (B E M : ℕ) : Except String Bytes :=
  if M = 0 then .ok []
  else do
    let R ← expMod B E M
    return if R = 0 then [] else bigIntToBytes R

/-- The result, from the operands. -/
def modexpResult (B E M mLen : ℕ) : Except String Bytes := do
  let R ← modexpBytes B E M
  setLengthLeft engine R (toNumber mLen)

/-- The operand of `length` bytes from `start` on. -/
def operand (data : Bytes) (start length : ℕ) : Except String ℕ := do
  let bytes ← setLengthRight engine (subarray data (toNumber start) (toNumber (start + length)))
    (toNumber length)
  return bytesToBigInt bytes

/-- The precompile behind its gas check. -/
def modexpRun (opts : PrecompileInput) (data : Bytes) (gasUsed bLen eLen mLen : ℕ) :
    Except String ExecResult :=
  -- upper bounds by EIP-7823, or else a limitation of `setLengthRight`
  let maxSize := if opts.common.isActivatedEIP 7823 then 1024 else 2147483647
  if !opts.common.isActivatedEIP 7823 ∧ bLen = 0 ∧ mLen = 0 then .ok (success gasUsed [])
  else if bLen > maxSize ∨ eLen > maxSize ∨ mLen > maxSize then .ok (OOGResult opts.gasLimit)
  else if 96 + bLen + eLen + mLen > MAX_SAFE_INTEGER then .ok (OOGResult opts.gasLimit)
  else do
    let B ← operand engine data 96 bLen
    let E ← operand engine data (96 + bLen) eLen
    let M ← operand engine data (96 + bLen + eLen) mLen
    let res ← modexpResult engine B E M mLen
    return success gasUsed res

/-- The calldata, filled up to the three lengths. -/
def modexpData (opts : PrecompileInput) : Except String Bytes :=
  if opts.data.length < 96 then setLengthRight engine opts.data 96 else .ok opts.data

/-- `precompile05(opts)` -/
def precompile05 (opts : PrecompileInput) : Except String ExecResult := do
  let data ← modexpData engine opts
  let adjustedELen ← getAdjustedExponentLength engine data opts
  let bLen := bytesToBigInt (subarray data 0 32)
  let eLen := bytesToBigInt (subarray data 32 64)
  let mLen := bytesToBigInt (subarray data 64 96)
  let maxLen := if bLen < mLen then mLen else bLen
  let gasUsed ← modexpGas opts (if adjustedELen < 1 then 1 else adjustedELen) maxLen
  if opts.gasLimit < gasUsed then return OOGResult opts.gasLimit
  else modexpRun engine opts data gasUsed bLen eLen mLen

/-! ### The parts -/

/-- Square and multiply. -/
private theorem expModLoop_eq (res a : ℕ) {power : ℕ} (h : 0 < power) (modulo : ℕ) :
    expModLoop res a power modulo = res * a ^ power % modulo := by
  induction power using Nat.strong_induction_on generalizing res a with
  | h power ih =>
    rw [expModLoop, if_pos h]
    by_cases hlast : power / 2 = 0
    · -- the highest bit is set, so the last turn reduces the result
      obtain rfl : power = 1 := by omega
      rw [hlast, expModLoop, if_neg (lt_irrefl 0), if_pos (by decide), pow_one]
    · have hmul := BigInt.mul_pow_eq_step res a power
      have hsquare : (a * a % modulo) ^ (power / 2) ≡ (a * a) ^ (power / 2) [MOD modulo] :=
        (Nat.mod_modEq _ _).pow _
      have hres : (if power % 2 ≠ 0 then res * a % modulo else res) ≡
          (if power % 2 ≠ 0 then res * a else res) [MOD modulo] := by
        split
        · exact Nat.mod_modEq _ _
        · exact Nat.ModEq.refl _
      rw [ih (power / 2) (by omega) _ _ (Nat.pos_of_ne_zero hlast), hmul]
      exact hres.mul hsquare

theorem expMod_eq (a power : ℕ) {modulo : ℕ} (h : modulo ≠ 0) :
    expMod a power modulo = .ok (a ^ power % modulo) := by
  rw [expMod, if_neg h]
  by_cases hpower : power = 0
  · rw [if_pos hpower, hpower, pow_zero]
  · rw [if_neg hpower, expModLoop_eq 1 a (Nat.pos_of_ne_zero hpower), one_mul]

/-- The loop counts the bits but the first one. -/
private theorem bitLenLoop_eq {x : ℕ} (h : x ≠ 0) (bitLen : ℤ) :
    bitLenLoop x bitLen = bitLen + 1 + x.log2 := by
  induction x using Nat.strong_induction_on generalizing bitLen with
  | h x ih =>
    rw [bitLenLoop, if_pos (Nat.pos_of_ne_zero h), Nat.shiftRight_one, Nat.log2_def]
    by_cases hlast : x / 2 = 0
    · rw [hlast, bitLenLoop, if_neg (lt_irrefl 0), if_neg (by omega), Nat.cast_zero, add_zero]
    · rw [ih (x / 2) (by omega) hlast, if_pos (by omega)]
      push_cast
      ring

/-! ### What the calldata says -/

/-- The number of `length` bytes from `start` on, in calldata followed by zeros. -/
def read (data : Bytes) (start length : ℕ) : ℕ :=
  BigEndian.value (BigEndian.window data start length)

/-- The lengths of the base, the exponent and the modulus. -/
def bLen (data : Bytes) : ℕ := read data 0 32

/-- The length of the exponent, as the second word gives it. -/
def eLen (data : Bytes) : ℕ := read data 32 32

/-- The length of the modulus, as the third word gives it. -/
def mLen (data : Bytes) : ℕ := read data 64 32

/-- The operands. -/
def base (data : Bytes) : ℕ := read data 96 (bLen data)

/-- The exponent, after the base. -/
def exponent (data : Bytes) : ℕ := read data (96 + bLen data) (eLen data)

/-- The modulus, after the exponent. -/
def modulus (data : Bytes) : ℕ := read data (96 + bLen data + eLen data) (mLen data)

/-- The head of the exponent: its first 32 bytes, or all of it where it is shorter. -/
def exponentHead (data : Bytes) : ℕ := read data (96 + bLen data) (min 32 (eLen data))

/-- The adjusted exponent length of EIP-2565. -/
def adjustedExponentLength (data : Bytes) : ℕ := 8 * (eLen data - 32) + (exponentHead data).log2

/-- The gas of EIP-2565. -/
def modexpEnergy (Gquaddivisor : ℕ) (data : Bytes) : ℕ :=
  max 200 (max 1 (adjustedExponentLength data) * ((max (bLen data) (mLen data) + 7) / 8) ^ 2 /
    Gquaddivisor)

/-- The head of the exponent is what is left of 32 bytes when the bytes behind it are shifted
out. -/
private theorem exponentHead_eq (data : Bytes) :
    exponentHead data = bytesToBigInt (BigEndian.window data (96 + bLen data) 32) >>>
      (8 * if eLen data < 32 then 32 - eLen data else 0) := by
  change _ = BigEndian.value _ >>> _
  rw [exponentHead, read]
  by_cases h : eLen data < 32
  · rw [if_pos h, min_eq_right h.le]
    have hsplit := BigEndian.window_append data (96 + bLen data) (eLen data) (32 - eLen data)
    rw [Nat.add_sub_cancel' h.le] at hsplit
    have hshift := BigEndian.value_shiftRight (BigEndian.window data (96 + bLen data) (eLen data))
      (BigEndian.window data (96 + bLen data + eLen data) (32 - eLen data))
    rw [hsplit, BigEndian.length_window] at hshift
    exact hshift.symm
  · rw [if_neg h, min_eq_left (not_lt.1 h), Nat.mul_zero, Nat.shiftRight_zero]

/-- The power, or zero where the modulus is zero. -/
def power (data : Bytes) : ℕ :=
  if modulus data = 0 then 0 else base data ^ exponent data % modulus data

/-- The bytes of a number, none for zero. -/
def byteLength (n : ℕ) : ℕ := (Nat.digits 256 n).length

/-- The engine builds the array literals in which the operands are filled up with the zeros behind
the calldata, and the power with the zeros in front of it. -/
structure PowersInto (data : Bytes) : Prop where
  base : FillsRight engine (data.length - 96) (bLen data)
  exponent : FillsRight engine (data.length - (96 + bLen data)) (eLen data)
  modulus : FillsRight engine (data.length - (96 + bLen data + eLen data)) (mLen data)
  power : FillsLeft engine (byteLength (power data)) (mLen data)

section Parts

variable {data : Bytes} (hdata : data.length ≤ MAX_SAFE_INTEGER) (hlong : 96 ≤ data.length)

include hdata

/-- An operand is read on into the zeros, wherever it starts, if the engine can hold it. -/
private theorem operand_eq (start : ℕ) {length : ℕ} (hsafe : length ≤ MAX_SAFE_INTEGER) :
    operand engine data start length =
      if FillsRight engine (data.length - start) length then .ok (read data start length)
      else .error INVALID_ARRAY_LENGTH := by
  rw [operand, toNumber_of_le hsafe, subarray_toNumber hdata, setLengthRight_subarray]
  split
  · rfl
  · rfl

/-- The head is read where the exponent starts, or behind the calldata where that is rounded. -/
private theorem setLengthRight_head (hsmall : ∀ a b, a + b ≤ 96 → engine a b = true) (n : ℕ) :
    setLengthRight engine (subarray data (toNumber (96 + toNumber n))
      (toNumber (toNumber (96 + toNumber n) + 32))) 32 =
        .ok (BigEndian.window data (96 + n) 32) := by
  have hfills : ∀ present, FillsRight engine present 32 := fun present => by
    by_cases h : 32 ≤ present
    · exact Or.inl h
    · exact Or.inr (hsmall _ _ (by omega))
  have hstart : toNumber (96 + toNumber n) = 96 + n ∨
      MAX_SAFE_INTEGER < 96 + n ∧ MAX_SAFE_INTEGER < toNumber (96 + toNumber n) := by
    obtain hn | ⟨hn, hn'⟩ := toNumber_eq_or n
    · rw [hn]
      exact toNumber_eq_or (96 + n)
    · exact Or.inr ⟨by omega, lt_toNumber (by omega)⟩
  by_cases hsafe : toNumber (96 + toNumber n) ≤ MAX_SAFE_INTEGER
  · obtain hstart | ⟨-, hlt⟩ := hstart
    · rw [hstart] at hsafe ⊢
      have hread := setLengthRight_subarray engine data (96 + n) 32
      rw [if_pos (hfills _), ← subarray_toNumber hdata] at hread
      rwa [toNumber_of_le hsafe] at hread
    · exact absurd hsafe (not_le.2 hlt)
  · have hbehind : data.length ≤ 96 + n := by
      obtain hstart | ⟨hlt, -⟩ := hstart <;> omega
    rw [subarray, List.drop_eq_nil_of_le (by
        have := List.length_take_le' (toNumber (toNumber (96 + toNumber n) + 32)) data
        omega), setLengthRight_eq engine (Nat.zero_le _), if_pos (hfills _),
      ← BigEndian.take_drop_append_replicate, List.drop_eq_nil_of_le (by
        have := List.length_take_le' (96 + n + 32) data
        omega)]

include hlong

omit hdata in
/-- The lengths lie inside the calldata. -/
private theorem subarray_length {i : ℕ} (hi : i + 32 ≤ 96) :
    bytesToBigInt (subarray data i (i + 32)) = read data i 32 :=
  congrArg BigEndian.value (BigEndian.take_drop_eq_window (by omega))

theorem getAdjustedExponentLength_eq (hsmall : ∀ a b, a + b ≤ 96 → engine a b = true)
    (opts : PrecompileInput) :
    getAdjustedExponentLength engine data opts =
      .ok ((eLen data - 32) * (if opts.common.isActivatedEIP 7883 then 16 else 8) +
        (exponentHead data).log2) := by
  have hbLen : bytesToBigInt (subarray data 0 32) = bLen data := subarray_length hlong (by decide)
  have heLen : bytesToBigInt (subarray data 32 64) = eLen data := subarray_length hlong (by decide)
  have hmax32 : (if eLen data < 32 then 32 - toNumber (eLen data) else 0) =
      if eLen data < 32 then 32 - eLen data else 0 := by
    split
    · next hlt => rw [toNumber_of_le (hlt.le.trans (by decide))]
    · rfl
  have hbits : bitLenLoop (exponentHead data) (-1) =
      if exponentHead data = 0 then -1 else ((exponentHead data).log2 : ℤ) := by
    split
    · next h0 => rw [h0, bitLenLoop, if_neg (lt_irrefl 0)]
    · next h0 => rw [bitLenLoop_eq h0, neg_add_cancel, zero_add]
  simp only [getAdjustedExponentLength, hbLen, heLen, setLengthRight_head engine hdata hsmall,
    hmax32, bind,
    Except.bind, pure, Except.pure, ← exponentHead_eq, hbits]
  by_cases h0 : exponentHead data = 0
  · rw [if_pos h0, if_neg (by decide), h0, Nat.log2_zero, Nat.add_zero]
  · rw [if_neg h0]
    split
    · rw [Int.toNat_natCast]
    · next hlog => rw [show (exponentHead data).log2 = 0 by omega, Nat.add_zero]

end Parts

private theorem modexpBytes_spec (B E : ℕ) {M mLen : ℕ} (hM : M < 256 ^ mLen) :
    ∃ R, modexpBytes B E M = .ok R ∧ R.length ≤ mLen ∧
      R.length = byteLength (if M = 0 then 0 else B ^ E % M) ∧
      BigEndian.value R = if M = 0 then 0 else B ^ E % M := by
  rw [modexpBytes]
  by_cases hM0 : M = 0
  · rw [if_pos hM0, if_pos hM0]
    exact ⟨[], rfl, Nat.zero_le _, rfl, rfl⟩
  · rw [if_neg hM0, if_neg hM0, expMod_eq B E hM0]
    have hlt : B ^ E % M < M := Nat.mod_lt _ (Nat.pos_of_ne_zero hM0)
    generalize B ^ E % M = R at hlt
    refine ⟨_, rfl, ?_⟩
    by_cases hR0 : R = 0
    · rw [if_pos hR0, hR0]
      exact ⟨Nat.zero_le _, rfl, rfl⟩
    · rw [if_neg hR0, bigIntToBytes, if_neg hR0]
      refine ⟨BigEndian.length_digits_le (hlt.trans hM), ?_, BigEndian.value_digits R⟩
      rw [List.length_reverse, List.length_map, byteLength]

/-- The result fills the length of the modulus, if the engine can fill it up. -/
private theorem modexpResult_eq (B E : ℕ) {M mLen : ℕ} (hM : M < 256 ^ mLen)
    (hsafe : mLen ≤ MAX_SAFE_INTEGER) :
    ∃ out, out.length = mLen ∧ BigEndian.value out = (if M = 0 then 0 else B ^ E % M) ∧
      modexpResult engine B E M mLen =
        if FillsLeft engine (byteLength (if M = 0 then 0 else B ^ E % M)) mLen then .ok out
        else .error INVALID_ARRAY_LENGTH := by
  obtain ⟨R, hR, hlength, hbytes, hvalue⟩ := modexpBytes_spec B E hM
  refine ⟨List.replicate (mLen - R.length) 0 ++ R, ?_, ?_, ?_⟩
  · rw [List.length_append, List.length_replicate]
    omega
  · rw [BigEndian.value_replicate_append, hvalue]
  · rw [modexpResult, hR, toNumber_of_le hsafe, ← hbytes]
    exact setLengthLeft_eq engine hlength

/-- The gas of EIP-2565, where neither of the later changes is active. -/
private theorem modexpGas_eq {opts : PrecompileInput}
    (hdivisor : 0 < opts.common.param "modexpGquaddivisorGas")
    (h2565 : opts.common.isActivatedEIP 2565 = true)
    (h7883 : opts.common.isActivatedEIP 7883 = false) (adjusted b m : ℕ) :
    modexpGas opts (if adjusted < 1 then 1 else adjusted) (if b < m then m else b) =
      .ok (max 200 (max 1 adjusted * ((max b m + 7) / 8) ^ 2 /
        opts.common.param "modexpGquaddivisorGas")) := by
  have hadjusted : (if adjusted < 1 then 1 else adjusted) = max 1 adjusted := by
    rw [max_def]
    split <;> split <;> omega
  have hmax : (if b < m then m else b) = max b m := by
    rw [max_def]
    split <;> split <;> omega
  rw [modexpGas, hadjusted, hmax]
  dsimp only
  rw [if_pos h2565, h7883, if_neg (by decide), if_neg hdivisor.ne', sq, Nat.mul_assoc]
  generalize max 1 adjusted * (_ * _) / _ = gas
  rw [max_def]
  congr 1
  split <;> split <;> omega

/-! ### The whole -/

/-- What the precompile is run under: EIP-2565, without the bounds of EIP-7823 and the prices of
EIP-7883. -/
structure Eip2565 (common : Common) : Prop where
  active : common.isActivatedEIP 2565 = true
  unbounded : common.isActivatedEIP 7823 = false
  priced : common.isActivatedEIP 7883 = false
  divisor : 0 < common.param "modexpGquaddivisorGas"

/-- The calldata is filled up so that it says the same. -/
private theorem modexpData_spec (hsmall : ∀ a b, a + b ≤ 96 → engine a b = true)
    {opts : PrecompileInput}
    (hdata : opts.data.length ≤ MAX_SAFE_INTEGER) :
    ∃ data, modexpData engine opts = .ok data ∧ data.length ≤ MAX_SAFE_INTEGER ∧ 96 ≤ data.length ∧
      read data = read opts.data ∧ ∀ start, 96 ≤ start →
        data.length - start = opts.data.length - start := by
  rw [modexpData]
  by_cases hshort : opts.data.length < 96
  · have hfills : FillsRight engine opts.data.length 96 := Or.inr (hsmall _ _ (by omega))
    have hlength : (opts.data ++ List.replicate (96 - opts.data.length) 0).length = 96 := by
      rw [List.length_append, List.length_replicate, Nat.add_sub_cancel' hshort.le]
    rw [if_pos hshort, setLengthRight_eq engine hshort.le, if_pos hfills]
    refine ⟨_, rfl, ?_, hlength.ge, ?_, fun start hstart => ?_⟩
    · rw [hlength]
      decide
    · funext start length
      rw [read, BigEndian.window_append_zeros]
      rfl
    · omega
  · rw [if_neg hshort]
    exact ⟨opts.data, rfl, hdata, not_lt.1 hshort, rfl, fun _ _ => rfl⟩

private theorem read_lt (data : Bytes) (start length : ℕ) :
    read data start length < 256 ^ length := by
  have hlt := BigEndian.value_lt (BigEndian.window data start length)
  rwa [BigEndian.length_window] at hlt

section Run

variable {data : Bytes} (hdata : data.length ≤ MAX_SAFE_INTEGER) (opts : PrecompileInput)
    (gasUsed : ℕ)
variable (h7823 : opts.common.isActivatedEIP 7823 = false)

include h7823

/-- Operands above the guard are refused. -/
private theorem modexpRun_of_large
    (hlarge : ¬(bLen data ≤ 2 ^ 31 - 1 ∧ eLen data ≤ 2 ^ 31 - 1 ∧ mLen data ≤ 2 ^ 31 - 1)) :
    ∃ r, modexpRun engine opts data gasUsed (bLen data) (eLen data) (mLen data) = .ok r := by
  rw [modexpRun, h7823]
  by_cases hempty : (!false) = true ∧ bLen data = 0 ∧ mLen data = 0
  · rw [if_pos hempty]
    exact ⟨_, rfl⟩
  · have hrefused : bLen data > 2147483647 ∨ eLen data > 2147483647 ∨ mLen data > 2147483647 := by
      omega
    rw [if_neg hempty]
    exact ⟨_, if_pos hrefused⟩

/-- Without base and modulus the exponent is not read. -/
private theorem modexpRun_of_empty (hb : bLen data = 0) (hm : mLen data = 0) :
    modexpRun engine opts data gasUsed (bLen data) (eLen data) (mLen data) =
      .ok (success gasUsed []) := by
  rw [modexpRun, h7823]
  exact if_pos ⟨rfl, hb, hm⟩

include hdata

/-- Below the guard the power is returned exactly where the engine builds every array literal. -/
private theorem modexpRun_eq (hb : bLen data ≤ 2 ^ 31 - 1) (he : eLen data ≤ 2 ^ 31 - 1)
    (hm : mLen data ≤ 2 ^ 31 - 1) (hne : bLen data ≠ 0 ∨ mLen data ≠ 0) :
    ∃ out, out.length = mLen data ∧ BigEndian.value out = power data ∧
      (PowersInto engine data → modexpRun engine opts data gasUsed (bLen data) (eLen data)
        (mLen data) =
        .ok (success gasUsed out)) ∧
      (¬PowersInto engine data → modexpRun engine opts data gasUsed (bLen data) (eLen data)
        (mLen data) = .error INVALID_ARRAY_LENGTH) := by
  have hinteger : MAX_SAFE_INTEGER = 9007199254740991 := rfl
  have hmodulus : modulus data < 256 ^ mLen data := read_lt data _ _
  obtain ⟨out, hlength, hvalue, hresult⟩ :=
    modexpResult_eq engine (base data) (exponent data) hmodulus (by omega)
  have hempty : ¬((!false) = true ∧ bLen data = 0 ∧ mLen data = 0) := by omega
  -- the guards pass, and what is left is to read three operands and take the power
  have hrun : modexpRun engine opts data gasUsed (bLen data) (eLen data) (mLen data) = do
      let B ← operand engine data 96 (bLen data)
      let E ← operand engine data (96 + bLen data) (eLen data)
      let M ← operand engine data (96 + bLen data + eLen data) (mLen data)
      let res ← modexpResult engine B E M (mLen data)
      return success gasUsed res := by
    have hsizes : ¬(bLen data > 2147483647 ∨ eLen data > 2147483647 ∨ mLen data > 2147483647) := by
      omega
    have hend : ¬96 + bLen data + eLen data + mLen data > MAX_SAFE_INTEGER := by omega
    rw [modexpRun, h7823, if_neg hempty]
    exact (if_neg hsizes).trans (if_neg hend)
  rw [hrun, operand_eq engine hdata 96 (by omega), operand_eq engine hdata _ (by omega),
    operand_eq engine hdata _ (by omega)]
  refine ⟨out, hlength, hvalue, fun hpowers => ?_, fun hpowers => ?_⟩
  · rw [if_pos hpowers.base, if_pos hpowers.exponent, if_pos hpowers.modulus]
    change (modexpResult engine (base data) (exponent data) (modulus data) _ >>= _) = _
    rw [hresult]
    change (if FillsLeft engine (byteLength (power data)) _ then _ else _) >>= _ = _
    rw [if_pos hpowers.power]
    rfl
  · -- the first array that is too long for the engine throws
    by_cases hbase : FillsRight engine (data.length - 96) (bLen data)
    · by_cases hexponent : FillsRight engine (data.length - (96 + bLen data)) (eLen data)
      · by_cases hmodulus : FillsRight engine (data.length - (96 + bLen data + eLen data))
          (mLen data)
        · rw [if_pos hbase, if_pos hexponent, if_pos hmodulus]
          change (modexpResult engine (base data) (exponent data) (modulus data) _ >>= _) = _
          rw [hresult]
          change (if FillsLeft engine (byteLength (power data)) _ then _ else _) >>= _ = _
          rw [if_neg fun hpower => hpowers ⟨hbase, hexponent, hmodulus, hpower⟩]
          rfl
        · rw [if_pos hbase, if_pos hexponent, if_neg hmodulus]
          rfl
      · rw [if_pos hbase, if_neg hexponent]
        rfl
    · rw [if_neg hbase]
      rfl

end Run

/-- The precompile on calldata which has been filled up. -/
private theorem precompile05_eq (hsmall : ∀ a b, a + b ≤ 96 → engine a b = true)
    {opts : PrecompileInput}
    (hprofile : Eip2565 opts.common) {data : Bytes} (hfill : modexpData engine opts = .ok data)
    (hdata : data.length ≤ MAX_SAFE_INTEGER) (hlong : 96 ≤ data.length) :
    precompile05 engine opts =
      if opts.gasLimit < modexpEnergy (opts.common.param "modexpGquaddivisorGas") data then
        .ok (OOGResult opts.gasLimit)
      else modexpRun engine opts data (modexpEnergy
        (opts.common.param "modexpGquaddivisorGas") data)
        (bLen data) (eLen data) (mLen data) := by
  have hbLen : bytesToBigInt (subarray data 0 32) = bLen data := subarray_length hlong (by decide)
  have heLen : bytesToBigInt (subarray data 32 64) = eLen data := subarray_length hlong (by decide)
  have hmLen : bytesToBigInt (subarray data 64 96) = mLen data := subarray_length hlong (by decide)
  have hadjusted : getAdjustedExponentLength engine data opts =
      .ok (adjustedExponentLength data) := by
    rw [getAdjustedExponentLength_eq engine hdata hlong hsmall, hprofile.priced,
      adjustedExponentLength, Nat.mul_comm 8]
    rfl
  have hgas := modexpGas_eq hprofile.divisor hprofile.active hprofile.priced
    (adjustedExponentLength data) (bLen data) (mLen data)
  rw [← modexpEnergy] at hgas
  simp only [precompile05, hfill, hadjusted, hbLen, heLen, hmLen, hgas, bind, Except.bind]
  rfl

/-- What is asked of the precompile: it does not throw, and where its gas lies within the limit,
operands of at most 2^31 - 1 bytes are charged that gas and give the power, in as many bytes as the
modulus has.  Lengths and operands are read from the calldata with infinitely many zeros behind. -/
structure MeetsModexp (opts : PrecompileInput) : Prop where
  returns : ∃ r, precompile05 engine opts = .ok r
  result : ∀ gas, gas = modexpEnergy (opts.common.param "modexpGquaddivisorGas") opts.data →
    (gas : ℤ) ≤ opts.gasLimit →
    bLen opts.data ≤ 2 ^ 31 - 1 → eLen opts.data ≤ 2 ^ 31 - 1 → mLen opts.data ≤ 2 ^ 31 - 1 →
    ∃ out, precompile05 engine opts = .ok (success gas out) ∧ out.length = mLen opts.data ∧
      BigEndian.value out = if modulus opts.data = 0 then 0
        else base opts.data ^ exponent opts.data % modulus opts.data

/-- Calldata that passes the gas check and the guard, and has a base or a modulus. -/
structure ReadsOperands (opts : PrecompileInput) : Prop where
  gas : (modexpEnergy (opts.common.param "modexpGquaddivisorGas") opts.data : ℤ) ≤ opts.gasLimit
  base_le : bLen opts.data ≤ 2 ^ 31 - 1
  exponent_le : eLen opts.data ≤ 2 ^ 31 - 1
  modulus_le : mLen opts.data ≤ 2 ^ 31 - 1
  nonempty : bLen opts.data ≠ 0 ∨ mLen opts.data ≠ 0

/-- The calldata filled up to the three lengths: the precompile runs on it, and reads from it what
it would read from the calldata with zeros behind. -/
structure FilledUp (opts : PrecompileInput) (data : Bytes) : Prop where
  length_le : data.length ≤ MAX_SAFE_INTEGER
  run : precompile05 engine opts =
    if opts.gasLimit < modexpEnergy (opts.common.param "modexpGquaddivisorGas") data then
      .ok (OOGResult opts.gasLimit)
    else modexpRun engine opts data (modexpEnergy (opts.common.param "modexpGquaddivisorGas") data)
      (bLen data) (eLen data) (mLen data)
  bLen_eq : bLen opts.data = bLen data
  eLen_eq : eLen opts.data = eLen data
  mLen_eq : mLen opts.data = mLen data
  modulus_eq : modulus opts.data = modulus data
  energy_eq : ∀ divisor, modexpEnergy divisor opts.data = modexpEnergy divisor data
  power_eq : power opts.data = power data
  powersInto : PowersInto engine opts.data ↔ PowersInto engine data

/-- Every calldata is filled up. -/
private theorem exists_filledUp (hsmall : ∀ a b, a + b ≤ 96 → engine a b = true)
    (opts : PrecompileInput)
    (hdata : opts.data.length ≤ MAX_SAFE_INTEGER) (hprofile : Eip2565 opts.common) :
    ∃ data, FilledUp engine opts data := by
  obtain ⟨data, hfill, hsafe, hlong, hread, hbehind⟩ := modexpData_spec engine hsmall hdata
  have hb : bLen opts.data = bLen data := by rw [bLen, bLen, hread]
  have he : eLen opts.data = eLen data := by rw [eLen, eLen, hread]
  have hm : mLen opts.data = mLen data := by rw [mLen, mLen, hread]
  have hmodulus : modulus opts.data = modulus data := by
    rw [modulus, modulus, hb, he, hm, hread]
  have hpower : power opts.data = power data := by
    rw [power, power, hmodulus, base, base, exponent, exponent, hb, he, hread]
  refine ⟨data, hsafe, precompile05_eq engine hsmall hprofile hfill hsafe hlong, hb, he, hm,
    hmodulus,
    fun divisor => ?_, hpower, ?_⟩
  · rw [modexpEnergy, modexpEnergy, adjustedExponentLength, adjustedExponentLength, exponentHead,
      exponentHead, hb, he, hm, hread]
  · constructor
    · rintro ⟨hbase, hexponent, hmodulus, hfits⟩
      rw [hb, ← hbehind _ (by omega)] at hbase
      rw [hb, he, ← hbehind _ (by omega)] at hexponent
      rw [hb, he, hm, ← hbehind _ (by omega)] at hmodulus
      rw [hpower, hm] at hfits
      exact ⟨hbase, hexponent, hmodulus, hfits⟩
    · rintro ⟨hbase, hexponent, hmodulus, hfits⟩
      rw [← hb, hbehind _ (by omega)] at hbase
      rw [← hb, ← he, hbehind _ (by omega)] at hexponent
      rw [← hb, ← he, ← hm, hbehind _ (by omega)] at hmodulus
      rw [← hpower, ← hm] at hfits
      exact ⟨hbase, hexponent, hmodulus, hfits⟩

section Filled

variable {engine} {opts : PrecompileInput} {data : Bytes}

/-- Operands that are read and cannot be padded make the precompile throw. -/
private theorem FilledUp.powersInto_of_returns (h : FilledUp engine opts data)
    (hprofile : Eip2565 opts.common) {r : ExecResult}
    (hr : precompile05 engine opts = .ok r) (hreads : ReadsOperands opts) :
    PowersInto engine opts.data := by
  obtain ⟨hgas, hbmax, hemax, hmmax, hne⟩ := hreads
  rw [h.energy_eq] at hgas
  rw [h.bLen_eq] at hbmax
  rw [h.eLen_eq] at hemax
  rw [h.mLen_eq] at hmmax
  rw [h.bLen_eq, h.mLen_eq] at hne
  rw [h.run, if_neg (not_lt.2 hgas)] at hr
  rw [h.powersInto]
  by_contra hnot
  obtain ⟨-, -, -, -, hthrow⟩ := modexpRun_eq engine h.length_le opts
    (modexpEnergy (opts.common.param "modexpGquaddivisorGas") data) hprofile.unbounded hbmax hemax
    hmmax hne
  rw [hthrow hnot] at hr
  cases hr

/-- Calldata within the gas and the guard gives the power, in the length of the modulus. -/
private theorem FilledUp.returns_power (h : FilledUp engine opts data)
    (hprofile : Eip2565 opts.common)
    (hcond : ReadsOperands opts → PowersInto engine opts.data)
    (hgas : (modexpEnergy (opts.common.param "modexpGquaddivisorGas") data : ℤ) ≤ opts.gasLimit)
    (hbmax : bLen data ≤ 2 ^ 31 - 1) (hemax : eLen data ≤ 2 ^ 31 - 1)
    (hmmax : mLen data ≤ 2 ^ 31 - 1) :
    ∃ out, precompile05 engine opts =
        .ok (success (modexpEnergy (opts.common.param "modexpGquaddivisorGas") data) out) ∧
      out.length = mLen data ∧ BigEndian.value out = power data := by
  have hrun := h.run
  rw [if_neg (not_lt.2 hgas)] at hrun
  by_cases hne : bLen data ≠ 0 ∨ mLen data ≠ 0
  · have hreads : ReadsOperands opts := by
      refine ⟨?_, h.bLen_eq.trans_le hbmax, h.eLen_eq.trans_le hemax, h.mLen_eq.trans_le hmmax, ?_⟩
      · rw [h.energy_eq]
        exact hgas
      · rw [h.bLen_eq, h.mLen_eq]
        exact hne
    obtain ⟨out, hlength, hvalue, hreturns, -⟩ := modexpRun_eq engine h.length_le opts
      (modexpEnergy (opts.common.param "modexpGquaddivisorGas") data) hprofile.unbounded hbmax
      hemax hmmax hne
    exact ⟨out, hrun.trans (hreturns (h.powersInto.1 (hcond hreads))), hlength, hvalue⟩
  · obtain ⟨hb0, hm0⟩ : bLen data = 0 ∧ mLen data = 0 := by omega
    have hmodulus : modulus data = 0 := by
      rw [modulus, hm0]
      rfl
    refine ⟨[], hrun.trans (modexpRun_of_empty engine opts _ hprofile.unbounded hb0 hm0),
      hm0.symm, ?_⟩
    rw [power, if_pos hmodulus]
    rfl

end Filled

/-- An engine whose array literals have at most 2^27 elements. -/
def sampleEngine : Engine := fun a b => a + b ≤ 2 ^ 27

/-- EIP-2565 alone, with its divisor. -/
def sampleCommon : Common where
  isActivatedEIP := fun eip => eip = 2565
  isActivatedProposal := fun _ => false
  param := fun _ => 3

/-- The numbers 3, 5 and 7, each in one byte. -/
def sampleModexp : PrecompileInput where
  data := List.replicate 31 0 ++ [1] ++ List.replicate 31 0 ++ [1] ++ List.replicate 31 0 ++
    [1, 3, 5, 7]
  gasLimit := 1000
  common := sampleCommon

/-- An exponent of 2^27 + 1 bytes, all of them behind the calldata; base and modulus have one. -/
def longExponent : PrecompileInput where
  data := List.replicate 31 0 ++ [1] ++ List.replicate 28 0 ++ [8, 0, 0, 1] ++
    List.replicate 31 0 ++
    [1]
  gasLimit := 400000000
  common := sampleCommon

end Precompile

end Tvmjs
