import Tvmjs.Base.BigEndian
import Tvmjs.Tvm.Memory

/-!
# Precompiles

What the precompiled contracts share.

* `toNumber` -- the double a `bigint` is converted to;
* `setLengthRight`, `setLengthLeft` -- padding, which throws where the target is too small or the
  engine cannot build the array literal it spreads into;
* `PrecompileInput` -- what a precompile is called with.
-/

namespace Tvmjs

namespace Precompile

open Interpreter (ExecResult OUT_OF_GAS subarray bytesToBigInt)

/-! ### Numbers -/

/-- `Number.MAX_SAFE_INTEGER` -/
def MAX_SAFE_INTEGER : ℕ := 2 ^ 53 - 1

/-- `Number(n)`: the nearest double, of two the one with an even significand.  The result of an
addition of doubles is rounded in the same way. -/
def toNumber (n : ℕ) : ℕ :=
  let ulp := 2 ^ (n.log2 - 52)
  let significand := n / ulp
  let rest := n % ulp
  if 2 * rest > ulp ∨ (2 * rest = ulp ∧ significand % 2 = 1) then (significand + 1) * ulp
  else significand * ulp

theorem toNumber_of_le {n : ℕ} (h : n ≤ MAX_SAFE_INTEGER) : toNumber n = n := by
  have hlog : n.log2 - 52 = 0 := by
    by_cases h0 : n = 0
    · rw [h0]
      rfl
    · have hlt : n < 2 ^ 53 := Nat.lt_of_le_of_lt h (by decide)
      have := (Nat.log2_lt h0).2 hlt
      omega
  have hone : toNumber n = if 2 * (n % 1) > 1 ∨ (2 * (n % 1) = 1 ∧ n / 1 % 2 = 1)
      then (n / 1 + 1) * 1 else n / 1 * 1 := by
    rw [toNumber, hlog]
    rfl
  rw [hone, if_neg (by omega), Nat.div_one, Nat.mul_one]

/-- What is not safe stays so. -/
theorem lt_toNumber {n : ℕ} (h : MAX_SAFE_INTEGER < n) : MAX_SAFE_INTEGER < toNumber n := by
  have h0 : n ≠ 0 := by omega
  have hle : 2 ^ 53 ≤ n := h
  have hlog : 53 ≤ n.log2 := (Nat.le_log2 h0).2 hle
  have hulp : 0 < 2 ^ (n.log2 - 52) := by positivity
  have hsignificand : 2 ^ 52 ≤ n / 2 ^ (n.log2 - 52) := by
    rw [Nat.le_div_iff_mul_le hulp, ← pow_add, show 52 + (n.log2 - 52) = n.log2 by omega]
    exact (Nat.le_log2 h0).1 le_rfl
  have hdouble : 2 ^ 53 ≤ n / 2 ^ (n.log2 - 52) * 2 ^ (n.log2 - 52) := by
    calc 2 ^ 53 = 2 ^ 52 * 2 ^ 1 := by norm_num
      _ ≤ _ := Nat.mul_le_mul hsignificand (Nat.pow_le_pow_right (by decide) (by omega))
  have hlt : MAX_SAFE_INTEGER < n / 2 ^ (n.log2 - 52) * 2 ^ (n.log2 - 52) := hdouble
  rw [toNumber]
  split
  · rw [Nat.add_mul]
    omega
  · exact hlt

/-- What is rounded lies beyond the safe integers, before and after. -/
theorem toNumber_eq_or (n : ℕ) :
    toNumber n = n ∨ MAX_SAFE_INTEGER < n ∧ MAX_SAFE_INTEGER < toNumber n := by
  by_cases h : n ≤ MAX_SAFE_INTEGER
  · exact Or.inl (toNumber_of_le h)
  · exact Or.inr ⟨not_le.1 h, lt_toNumber (not_le.1 h)⟩

/-! ### Padding -/

/-- Whether the engine builds the array literal `[...a, ...b]`, by the lengths of `a` and `b`.  The
language leaves to the engine how long an array literal may get: V8 gives up between 10^8 and 2^27
elements. -/
abbrev Engine := ℕ → ℕ → Bool

/-- The `RangeError` of an array literal that is too long. -/
def INVALID_ARRAY_LENGTH : String := "Invalid array length"

/-- `new Uint8Array([...a, ...b])` -/
def spread (engine : Engine) (a b : Bytes) : Except String Bytes :=
  if engine a.length b.length then .ok (a ++ b) else .error INVALID_ARRAY_LENGTH

/-- The refusal of `setLength` without `allowTruncate`. -/
def exceedsTarget (msg : Bytes) (length : ℕ) : String :=
  "Input length " ++ toString msg.length ++ " exceeds target length " ++ toString length ++
    ". Use allowTruncate option to truncate."

/-- `setLengthRight(msg, length)` -/
def setLengthRight (engine : Engine) (msg : Bytes) (length : ℕ) : Except String Bytes :=
  if msg.length > length then .error (exceedsTarget msg length)
  else if msg.length < length then spread engine msg (List.replicate (length - msg.length) 0)
  else .ok msg

/-- `setLengthLeft(msg, length)` -/
def setLengthLeft (engine : Engine) (msg : Bytes) (length : ℕ) : Except String Bytes :=
  if msg.length > length then .error (exceedsTarget msg length)
  else if msg.length < length then spread engine (List.replicate (length - msg.length) 0) msg
  else .ok msg

/-- The engine can fill up `present` bytes to `length` on the right. -/
def FillsRight (engine : Engine) (present length : ℕ) : Prop :=
  length ≤ present ∨ engine present (length - present) = true

/-- The engine can fill up `present` bytes to `length` on the left. -/
def FillsLeft (engine : Engine) (present length : ℕ) : Prop :=
  length ≤ present ∨ engine (length - present) present = true

instance (engine : Engine) (present length : ℕ) : Decidable (FillsRight engine present length) :=
  inferInstanceAs (Decidable (_ ∨ _))

instance (engine : Engine) (present length : ℕ) : Decidable (FillsLeft engine present length) :=
  inferInstanceAs (Decidable (_ ∨ _))

section SetLength

variable (engine : Engine)

/-- Padding on the right, exactly where it throws. -/
theorem setLengthRight_eq {msg : Bytes} {length : ℕ} (h : msg.length ≤ length) :
    setLengthRight engine msg length =
      if FillsRight engine msg.length length then
        .ok (msg ++ List.replicate (length - msg.length) 0)
      else .error INVALID_ARRAY_LENGTH := by
  rw [setLengthRight, if_neg (not_lt.2 h)]
  by_cases hlt : msg.length < length
  · rw [if_pos hlt, spread, List.length_replicate]
    exact if_congr (by rw [FillsRight, or_iff_right (not_le.2 hlt)]) rfl rfl
  · have hfills : FillsRight engine msg.length length := Or.inl (not_lt.1 hlt)
    rw [if_neg hlt, if_pos hfills, Nat.sub_eq_zero_of_le (not_lt.1 hlt),
      List.replicate_zero, List.append_nil]

/-- Padding on the left, exactly where it throws. -/
theorem setLengthLeft_eq {msg : Bytes} {length : ℕ} (h : msg.length ≤ length) :
    setLengthLeft engine msg length =
      if FillsLeft engine msg.length length then
        .ok (List.replicate (length - msg.length) 0 ++ msg)
      else .error INVALID_ARRAY_LENGTH := by
  rw [setLengthLeft, if_neg (not_lt.2 h)]
  by_cases hlt : msg.length < length
  · rw [if_pos hlt, spread, List.length_replicate]
    exact if_congr (by rw [FillsLeft, or_iff_right (not_le.2 hlt)]) rfl rfl
  · have hfills : FillsLeft engine msg.length length := Or.inl (not_lt.1 hlt)
    rw [if_neg hlt, if_pos hfills, Nat.sub_eq_zero_of_le (not_lt.1 hlt),
      List.replicate_zero, List.nil_append]

/-- A range which is cut off where the bytes end is filled up with zeros. -/
theorem setLengthRight_subarray (data : Bytes) (start length : ℕ) :
    setLengthRight engine (subarray data start (start + length)) length =
      if FillsRight engine (data.length - start) length then
        .ok (BigEndian.window data start length)
      else .error INVALID_ARRAY_LENGTH := by
  have hlength : (subarray data start (start + length)).length =
    min length (data.length - start) := by
    rw [subarray, List.length_drop, List.length_take]
    omega
  have hfills : FillsRight engine (subarray data start (start + length)).length length ↔
      FillsRight engine (data.length - start) length := by
    rw [hlength, FillsRight, FillsRight]
    by_cases h : length ≤ data.length - start
    · exact iff_of_true (Or.inl (le_min le_rfl h)) (Or.inl h)
    · rw [min_eq_right (not_le.1 h).le]
  have hle : (subarray data start (start + length)).length ≤ length := by
    rw [hlength]
    exact min_le_left _ _
  rw [setLengthRight_eq engine hle, ← BigEndian.take_drop_append_replicate]
  exact if_congr hfills rfl rfl

end SetLength

/-- `bigIntToBytes(num)` -/
def bigIntToBytes (num : ℕ) : Bytes :=
  if num = 0 then [0] else ((Nat.digits 256 num).map UInt8.ofNat).reverse

/-- Ranges do not see the rounding of their ends: what is rounded lies behind the bytes. -/
theorem subarray_toNumber {data : Bytes} (hdata : data.length ≤ MAX_SAFE_INTEGER) (a b : ℕ) :
    subarray data (toNumber a) (toNumber b) = subarray data a b := by
  have htake : data.take (toNumber b) = data.take b := by
    by_cases hb : b ≤ MAX_SAFE_INTEGER
    · rw [toNumber_of_le hb]
    · have hlt := lt_toNumber (not_le.1 hb)
      rw [List.take_of_length_le (by omega), List.take_of_length_le (by omega)]
  rw [subarray, subarray, htake]
  by_cases ha : a ≤ MAX_SAFE_INTEGER
  · rw [toNumber_of_le ha]
  · have hlt := lt_toNumber (not_le.1 ha)
    have hshort := List.length_take_le' b data
    rw [List.drop_eq_nil_of_le (by omega), List.drop_eq_nil_of_le (by omega)]

/-! ### Inputs and results -/

/-- What a precompile asks `common`. -/
structure Common where
  isActivatedEIP : ℕ → Bool
  isActivatedProposal : ℕ → Bool
  param : String → ℕ

/-- `PrecompileInput` -/
structure PrecompileInput where
  data : Bytes
  gasLimit : ℤ
  common : Common

/-- `OOGResult(gasLimit)` -/
def OOGResult (gasLimit : ℤ) : ExecResult where
  executionGasUsed := gasLimit
  exceptionError := some OUT_OF_GAS
  returnValue := []
  createdAddress := none

/-- The result of a precompile which succeeds. -/
def success (gasUsed : ℕ) (returnValue : Bytes) : ExecResult where
  executionGasUsed := gasUsed
  exceptionError := none
  returnValue := returnValue
  createdAddress := none

@[simp] theorem success_returnValue (gasUsed : ℕ) (returnValue : Bytes) :
    (success gasUsed returnValue).returnValue = returnValue := rfl

@[simp] theorem success_executionGasUsed (gasUsed : ℕ) (returnValue : Bytes) :
    (success gasUsed returnValue).executionGasUsed = gasUsed := rfl

end Precompile

end Tvmjs
