import Tvmjs.Base.Words
import Tvmjs.Tvm.Interpreter
import Mathlib.Data.Int.ModEq

/-!
# Arithmetic and bit opcodes

The handlers of the opcodes `0x01` to `0x1e` compute on unbounded integers and cut their results by
hand.  On words -- integers from 0 up to `2^256` -- they push what the words mean as residues, as
two's complement numbers or as strings of bits.

* `BinaryOp.value`, `UnaryOp.value`, `TernaryOp.value` -- what the handlers push;
* `BinaryOp.meaning`, `UnaryOp.meaning`, `TernaryOp.meaning` -- the operations on words of 256 bits;
* `WordOp.handler_run` -- a handler replaces its operands by its value;
* `wordOps_correct` -- on words the value pushed is the meaning;
* `runHandlers_follows` -- so a run of such opcodes is a run on stacks of words, traps included;
* `ComputesWords.opHandler_run` -- in the interpreter such a handler touches the stack only.
-/

namespace Tvmjs

open BigInt

/-- A word of the machine. -/
abbrev Word := BitVec 256

namespace Arithmetic

/-! ### Big integers -/

/-- The number of words. -/
def TWO_POW256 : ℤ :=
  0x10000000000000000000000000000000000000000000000000000000000000000

/-- The largest word, all of whose bits are set. -/
def MAX_INTEGER_BIGINT : ℤ :=
  115792089237316195423570985008687907853269984665640564039457584007913129639935

/-- `2^96`, which `EXP` has ready. -/
def BIGINT_2EXP96 : ℤ := 79228162514264337593543950336

/-- `2^160`, which `EXP` has ready. -/
def BIGINT_2EXP160 : ℤ := 1461501637330902918203684832716283019655932542976

/-- `2^224`, which `EXP` has ready. -/
def BIGINT_2EXP224 : ℤ := 26959946667150639794667015087019630673637144422540572481103610249216

/-- `mod(a, b)`, on the truncated remainder. -/
def mod (a b : ℤ) : ℤ :=
  let r := a.tmod b
  if r < 0 then b + r else r

/-- `fromTwos(a)` -/
def fromTwos (a : ℤ) : ℤ := asIntN 256 a

/-- `toTwos(a)` -/
def toTwos (a : ℤ) : ℤ := asUintN 256 a

/-- The modulus of `exponentiation`. -/
def N : ℤ := 115792089237316195423570985008687907853269984665640564039457584007913129639936

/-- The loop of `exponentiation`. -/
def exponentiationLoop (t bas exp : ℤ) : ℤ :=
  if exp > 0 then
    exponentiationLoop (if exp.tmod 2 ≠ 0 then (t * bas).tmod N else t) ((bas * bas).tmod N)
      (exp.tdiv 2)
  else t
termination_by exp.toNat
decreasing_by
  rw [Int.tdiv_eq_ediv_of_nonneg (by omega)]
  omega

/-- `exponentiation(bas, exp)` -/
def exponentiation (bas exp : ℤ) : ℤ := exponentiationLoop 1 bas exp

/-- `x.toString(2)` -/
def toBinaryString (x : ℤ) : List Char :=
  if x < 0 then '-' :: Nat.toDigits 2 x.natAbs else Nat.toDigits 2 x.natAbs

/-- A comparison as a stack item. -/
def flag (p : Prop) [Decidable p] : ℤ := if p then 1 else 0

/-! ### The values pushed -/

/-- The sum, wrapped. -/
def ADD (a b : ℤ) : ℤ := mod (a + b) TWO_POW256

/-- The product, wrapped. -/
def MUL (a b : ℤ) : ℤ := mod (a * b) TWO_POW256

/-- The difference, wrapped; `mod` brings a negative one back. -/
def SUB (a b : ℤ) : ℤ := mod (a - b) TWO_POW256

/-- The quotient, 0 where the divisor is. -/
def DIV (a b : ℤ) : ℤ := if b = 0 then 0 else mod (a.tdiv b) TWO_POW256

/-- The quotient of the operands as two's complement numbers, rounded towards zero. -/
def SDIV (a b : ℤ) : ℤ := if b = 0 then 0 else toTwos ((fromTwos a).tdiv (fromTwos b))

/-- The remainder; the divisor itself where it is 0. -/
def MOD (a b : ℤ) : ℤ := if b = 0 then b else mod a b

/-- The remainder of the operands as two's complement numbers, with the dividend's sign. -/
def SMOD (a b : ℤ) : ℤ := toTwos (if b = 0 then b else (fromTwos a).tmod (fromTwos b))

/-- The sum modulo a third operand; the sum itself does not wrap. -/
def ADDMOD (a b c : ℤ) : ℤ := if c = 0 then 0 else mod (a + b) c

/-- The product modulo a third operand; the product itself does not wrap. -/
def MULMOD (a b c : ℤ) : ℤ := if c = 0 then 0 else mod (a * b) c

/-- Powers of two which occur often are not computed. -/
def EXP (base exponent : ℤ) : ℤ :=
  if base = 2 ∧ exponent = 96 then BIGINT_2EXP96
  else if base = 2 ∧ exponent = 160 then BIGINT_2EXP160
  else if base = 2 ∧ exponent = 224 then BIGINT_2EXP224
  else if exponent = 0 then 1
  else if base = 0 then base
  else exponentiation base exponent

/-- Extends the sign of the lowest `k + 1` bytes over the bytes above them. -/
def SIGNEXTEND (k val : ℤ) : ℤ :=
  if k < 31 then
    let signBit := k * 8 + 7
    let mask := (1 : ℤ) <<< signBit - 1
    if (val >>> signBit).land 1 ≠ 0 then val.lor (asUintN 256 mask.lnot) else val.land mask
  else val

/-- Whether the first operand is smaller. -/
def LT (a b : ℤ) : ℤ := flag (a < b)

/-- Whether the first operand is larger. -/
def GT (a b : ℤ) : ℤ := flag (a > b)

/-- Whether the first operand is smaller as a two's complement number. -/
def SLT (a b : ℤ) : ℤ := flag (fromTwos a < fromTwos b)

/-- Whether the first operand is larger as a two's complement number. -/
def SGT (a b : ℤ) : ℤ := flag (fromTwos a > fromTwos b)

/-- Whether the operands are the same. -/
def EQ (a b : ℤ) : ℤ := flag (a = b)

/-- Whether the operand is 0. -/
def ISZERO (a : ℤ) : ℤ := flag (a = 0)

/-- Bitwise and, on integers. -/
def AND (a b : ℤ) : ℤ := a.land b

/-- Bitwise or, on integers. -/
def OR (a b : ℤ) : ℤ := a.lor b

/-- Bitwise exclusive or, on integers. -/
def XOR (a b : ℤ) : ℤ := a.xor b

/-- The complement of the integer, which is negative, cut to a word. -/
def NOT (a : ℤ) : ℤ := asUintN 256 a.lnot

/-- The test lets position 32 through: its shift is to the left. -/
def BYTE (pos word : ℤ) : ℤ :=
  if pos > 32 then 0 else (word >>> ((31 - pos) * 8)).land 255

/-- Shifts to the left; a shift by more than 256 is not computed. -/
def SHL (a b : ℤ) : ℤ := if a > 256 then 0 else (b <<< a).land MAX_INTEGER_BIGINT

/-- Shifts to the right; a shift by more than 256 is not computed. -/
def SHR (a b : ℤ) : ℤ := if a > 256 then 0 else b >>> a

/-- Shifts to the right and fills up with the sign. -/
def SAR (a b : ℤ) : ℤ :=
  let isSigned := asIntN 256 b < 0
  if a > 256 then if isSigned then MAX_INTEGER_BIGINT else 0
  else
    let c := b >>> a
    if isSigned then
      let shiftedOutWidth := 255 - a
      c.lor ((MAX_INTEGER_BIGINT >>> shiftedOutWidth) <<< shiftedOutWidth)
    else c

/-- The number of leading zeros, from the length of the binary digits. -/
def CLZ (x : ℤ) : ℤ := if x = 0 then 256 else 256 - (toBinaryString x).length

/-! ### The opcodes and what they mean -/

/-- The opcodes with one operand. -/
inductive UnaryOp where
  | ISZERO | NOT | CLZ
deriving DecidableEq, Repr

/-- The opcodes with two operands. -/
inductive BinaryOp where
  | ADD | MUL | SUB | DIV | SDIV | MOD | SMOD | EXP | SIGNEXTEND | LT | GT | SLT | SGT | EQ
  | AND | OR | XOR | BYTE | SHL | SHR | SAR
deriving DecidableEq, Repr

/-- The opcodes with three operands. -/
inductive TernaryOp where
  | ADDMOD | MULMOD
deriving DecidableEq, Repr

/-- The value the handler pushes. -/
def UnaryOp.value : UnaryOp → ℤ → ℤ
  | ISZERO => Arithmetic.ISZERO
  | NOT => Arithmetic.NOT
  | CLZ => Arithmetic.CLZ

/-- The value the handler pushes. -/
def BinaryOp.value : BinaryOp → ℤ → ℤ → ℤ
  | ADD => Arithmetic.ADD
  | MUL => Arithmetic.MUL
  | SUB => Arithmetic.SUB
  | DIV => Arithmetic.DIV
  | SDIV => Arithmetic.SDIV
  | MOD => Arithmetic.MOD
  | SMOD => Arithmetic.SMOD
  | EXP => Arithmetic.EXP
  | SIGNEXTEND => Arithmetic.SIGNEXTEND
  | LT => Arithmetic.LT
  | GT => Arithmetic.GT
  | SLT => Arithmetic.SLT
  | SGT => Arithmetic.SGT
  | EQ => Arithmetic.EQ
  | AND => Arithmetic.AND
  | OR => Arithmetic.OR
  | XOR => Arithmetic.XOR
  | BYTE => Arithmetic.BYTE
  | SHL => Arithmetic.SHL
  | SHR => Arithmetic.SHR
  | SAR => Arithmetic.SAR

/-- The value the handler pushes. -/
def TernaryOp.value : TernaryOp → ℤ → ℤ → ℤ → ℤ
  | ADDMOD => Arithmetic.ADDMOD
  | MULMOD => Arithmetic.MULMOD

/-- The operation on words. -/
def UnaryOp.meaning : UnaryOp → Word → Word
  | ISZERO, a => if a = 0 then 1 else 0
  | NOT, a => ~~~a
  | CLZ, a => a.clz

/-- The operation on words: residues modulo `2^256`, two's complement numbers where the opcode is
signed, and strings of bits.  Dividing by zero gives zero. -/
def BinaryOp.meaning : BinaryOp → Word → Word → Word
  | ADD, a, b => a + b
  | MUL, a, b => a * b
  | SUB, a, b => a - b
  | DIV, a, b => if b = 0 then 0 else a / b
  | SDIV, a, b => if b = 0 then 0 else a.sdiv b
  | MOD, a, b => if b = 0 then 0 else a % b
  | SMOD, a, b => if b = 0 then 0 else a.srem b
  | EXP, a, e => BitVec.ofNat 256 (a.toNat ^ e.toNat)
  -- the lowest `k + 1` bytes, as a signed number
  | SIGNEXTEND, k, x => if k.toNat < 31 then (x.setWidth (k.toNat * 8 + 8)).signExtend 256 else x
  | LT, a, b => if a.ult b then 1 else 0
  | GT, a, b => if b.ult a then 1 else 0
  | SLT, a, b => if a.slt b then 1 else 0
  | SGT, a, b => if b.slt a then 1 else 0
  | EQ, a, b => if a = b then 1 else 0
  | AND, a, b => a &&& b
  | OR, a, b => a ||| b
  | XOR, a, b => a ^^^ b
  -- byte 0 is the most significant one
  | BYTE, i, x => if i.toNat < 32 then (x.extractLsb' ((31 - i.toNat) * 8) 8).setWidth 256 else 0
  | SHL, s, x => x <<< s.toNat
  | SHR, s, x => x >>> s.toNat
  | SAR, s, x => x.sshiftRight s.toNat

/-- The operation on words: the sum or product is not cut before it is divided. -/
def TernaryOp.meaning : TernaryOp → Word → Word → Word → Word
  | ADDMOD, a, b, n => if n = 0 then 0 else BitVec.ofNat 256 ((a.toNat + b.toNat) % n.toNat)
  | MULMOD, a, b, n => if n = 0 then 0 else BitVec.ofNat 256 ((a.toNat * b.toNat) % n.toNat)

/-! ### Cutting to a word -/

private theorem TWO_POW256_eq : TWO_POW256 = (2 ^ 256 : ℕ) := by decide

private theorem N_eq : N = (2 ^ 256 : ℕ) := by decide

private theorem MAX_INTEGER_BIGINT_eq : MAX_INTEGER_BIGINT = (2 ^ 256 - 1 : ℕ) := by decide

/-- On a positive modulus `mod` is the remainder from 0 up. -/
private theorem mod_eq_emod {b : ℤ} (a : ℤ) (hb : 0 < b) : mod a b = a % b := by
  have hlow := Int.lt_tmod_of_pos a hb
  have hhigh := Int.tmod_lt_of_pos a hb
  have hcong : a.tmod b % b = a % b := by rw [Int.tmod_def, Int.sub_mul_emod_self_left]
  rw [mod]
  split
  · rw [← hcong, ← Int.add_emod_left, Int.emod_eq_of_lt (by omega) (by omega)]
  · rw [← hcong, Int.emod_eq_of_lt (by omega) hhigh]

/-- `mod` by the number of words cuts to a word. -/
private theorem mod_TWO_POW256 (a : ℤ) : mod a TWO_POW256 = asUintN 256 a := by
  rw [mod_eq_emod a (by decide), TWO_POW256_eq, asUintN]

/-- Half the bits of the exponent are left after a turn. -/
private theorem exponentiationLoop_modEq (t bas : ℤ) (exp : ℕ) :
    exponentiationLoop t bas exp ≡ t * bas ^ exp [ZMOD N] := by
  induction exp using Nat.strong_induction_on generalizing t bas with
  | _ exp ih =>
    rw [exponentiationLoop]
    rcases Nat.eq_zero_or_pos exp with rfl | hpos
    · rw [if_neg (by simp), pow_zero, mul_one]
    · have hcut : ∀ a : ℤ, a.tmod N ≡ a [ZMOD N] := fun a => by
        rw [Int.ModEq, Int.tmod_def, Int.sub_mul_emod_self_left]
      have hodd : (exp : ℤ).tmod 2 ≠ 0 ↔ exp % 2 ≠ 0 := by
        rw [Int.tmod_eq_emod_of_nonneg (by omega)]
        omega
      have hhalf : (exp : ℤ).tdiv 2 = (exp / 2 : ℕ) := by
        rw [Int.tdiv_eq_ediv_of_nonneg (by omega)]
        norm_cast
      rw [if_pos (by exact_mod_cast hpos), hhalf, mul_pow_eq_step t bas exp]
      refine (ih (exp / 2) (by omega) _ _).trans (Int.ModEq.mul ?_ ((hcut _).pow _))
      by_cases h : exp % 2 ≠ 0
      · rw [if_pos (hodd.2 h), if_pos h]
        exact hcut _
      · rw [if_neg fun hn => h (hodd.1 hn), if_neg h]

/-- From a word on the loop stays among the words. -/
private theorem exponentiationLoop_range {t bas : ℤ} (exp : ℕ) (ht : 0 ≤ t ∧ t < N)
    (hbas : 0 ≤ bas) :
    0 ≤ exponentiationLoop t bas exp ∧ exponentiationLoop t bas exp < N := by
  induction exp using Nat.strong_induction_on generalizing t bas with
  | _ exp ih =>
    rw [exponentiationLoop]
    rcases Nat.eq_zero_or_pos exp with rfl | hpos
    · rwa [if_neg (by simp)]
    · have hhalf : (exp : ℤ).tdiv 2 = (exp / 2 : ℕ) := by
        rw [Int.tdiv_eq_ediv_of_nonneg (by omega)]
        norm_cast
      have hN : (0 : ℤ) < N := by decide
      rw [if_pos (by exact_mod_cast hpos), hhalf]
      refine ih (exp / 2) (by omega) ?_ (Int.tmod_nonneg _ (mul_nonneg hbas hbas))
      split
      · exact ⟨Int.tmod_nonneg _ (mul_nonneg ht.1 hbas), Int.tmod_lt_of_pos _ hN⟩
      · exact ht

/-- Square and multiply gives the power, cut to a word. -/
private theorem exponentiation_eq (bas : Word) (exp : ℕ) :
    exponentiation bas.toNat exp = (BitVec.ofNat 256 (bas.toNat ^ exp)).toNat := by
  have hbas : (0 : ℤ) ≤ bas.toNat := Int.natCast_nonneg _
  have hrange := exponentiationLoop_range exp (show 0 ≤ (1 : ℤ) ∧ 1 < N by decide) hbas
  have hmod := exponentiationLoop_modEq 1 bas.toNat exp
  rw [exponentiation, ← asUintN_natCast, asUintN, ← N_eq, Nat.cast_pow]
  rw [one_mul] at hmod
  rw [← hmod.eq, Int.emod_eq_of_lt hrange.1 hrange.2]

/-! ### Each value is the meaning -/

section Values

variable (a b c : Word)

/-- A comparison that agrees with a Boolean is that Boolean as a word. -/
private theorem flag_toNat {p : Prop} [Decidable p] {t : Bool} (h : p ↔ t = true) :
    flag p = ((if t = true then 1 else 0 : Word).toNat : ℤ) := by
  rw [flag, if_congr h rfl rfl]
  split <;> rfl

/-- An item is tested for zero as the word is. -/
private theorem ite_toNat_eq_zero {x y : ℤ} {v v' : Word} (hzero : b = 0 → x = v.toNat)
    (hpos : b ≠ 0 → y = v'.toNat) :
    (if (b.toNat : ℤ) = 0 then x else y) = ((if b = 0 then v else v').toNat : ℤ) := by
  by_cases h : b = 0
  · rw [if_pos (toNat_eq_zero.2 h), if_pos h, hzero h]
  · rw [if_neg fun hb => h (toNat_eq_zero.1 hb), if_neg h, hpos h]

/-- A word that is not zero is positive. -/
private theorem toNat_pos_of_ne {b : Word} (h : b ≠ 0) : (0 : ℤ) < b.toNat := by
  have hne : (b.toNat : ℤ) ≠ 0 := fun hb => h (toNat_eq_zero.1 hb)
  omega

/-- On words the sum is that of the residues. -/
private theorem ADD_toNat : ADD a.toNat b.toNat = (a + b).toNat := by
  rw [ADD, mod_TWO_POW256, ← Nat.cast_add, asUintN_natCast, BitVec.ofNat_add,
    BitVec.ofNat_toNat, BitVec.ofNat_toNat, BitVec.setWidth_eq, BitVec.setWidth_eq]

/-- On words the product is that of the residues. -/
private theorem MUL_toNat : MUL a.toNat b.toNat = (a * b).toNat := by
  rw [MUL, mod_TWO_POW256, ← Nat.cast_mul, asUintN_natCast, BitVec.ofNat_mul,
    BitVec.ofNat_toNat, BitVec.ofNat_toNat, BitVec.setWidth_eq, BitVec.setWidth_eq]

/-- A negative difference is wrapped. -/
private theorem SUB_toNat : SUB a.toNat b.toNat = (a - b).toNat := by
  have hlt := b.isLt
  have hwrap : ((2 ^ 256 - b.toNat + a.toNat : ℕ) : ℤ) = a.toNat - b.toNat + (2 ^ 256 : ℕ) := by
    omega
  rw [SUB, mod_TWO_POW256, asUintN, BitVec.toNat_sub, Int.natCast_emod, hwrap,
    Int.add_emod_right]

/-- On words the quotient is that without signs. -/
private theorem DIV_toNat : DIV a.toNat b.toNat = (if b = 0 then 0 else a / b).toNat := by
  refine ite_toNat_eq_zero b (fun _ => rfl) fun _ => ?_
  have hcut : ((a.toNat / b.toNat : ℕ) : ℤ) < TWO_POW256 := by
    have hle := Nat.div_le_self a.toNat b.toNat
    have hlt := a.isLt
    rw [TWO_POW256_eq]
    omega
  rw [Int.tdiv_eq_ediv_of_nonneg (Int.natCast_nonneg _), ← Int.natCast_ediv,
    mod_eq_emod _ (by decide), Int.emod_eq_of_lt (Int.natCast_nonneg _) hcut, BitVec.toNat_udiv]

/-- The least number by minus one wraps to itself. -/
private theorem SDIV_toNat : SDIV a.toNat b.toNat = (if b = 0 then 0 else a.sdiv b).toNat := by
  refine ite_toNat_eq_zero b (fun _ => rfl) fun _ => ?_
  rw [fromTwos, fromTwos, toTwos, asIntN_toNat, asIntN_toNat, asUintN_tdiv]

/-- On words the remainder is that without signs. -/
private theorem MOD_toNat : MOD a.toNat b.toNat = (if b = 0 then 0 else a % b).toNat := by
  refine ite_toNat_eq_zero b (fun h => by rw [h]) fun h => ?_
  rw [mod_eq_emod _ (toNat_pos_of_ne h), BitVec.toNat_umod, Int.natCast_emod]

/-- On words the remainder is that with signs. -/
private theorem SMOD_toNat : SMOD a.toNat b.toNat = (if b = 0 then 0 else a.srem b).toNat := by
  rw [Arithmetic.SMOD, apply_ite toTwos]
  refine ite_toNat_eq_zero b (fun h => by rw [h]; rfl) fun _ => ?_
  rw [fromTwos, fromTwos, toTwos, asIntN_toNat, asIntN_toNat, asUintN_tmod]

/-- A remainder of a word is a word. -/
private theorem emod_toNat (n : ℕ) {c : Word} (hc : c ≠ 0) :
    ((n : ℤ) % c.toNat) = (BitVec.ofNat 256 (n % c.toNat)).toNat := by
  have hpos := toNat_pos_of_ne hc
  have hlt : n % c.toNat < 2 ^ 256 :=
    (Nat.mod_lt n (by exact_mod_cast hpos)).trans c.isLt
  rw [BitVec.toNat_ofNat, Nat.mod_eq_of_lt hlt, Int.natCast_emod]

/-- The sum is reduced before it is cut to a word. -/
private theorem ADDMOD_toNat : ADDMOD a.toNat b.toNat c.toNat =
    (if c = 0 then 0 else BitVec.ofNat 256 ((a.toNat + b.toNat) % c.toNat)).toNat := by
  refine ite_toNat_eq_zero c (fun _ => rfl) fun h => ?_
  rw [mod_eq_emod _ (toNat_pos_of_ne h), ← Nat.cast_add, emod_toNat _ h]

/-- The product is reduced before it is cut to a word. -/
private theorem MULMOD_toNat : MULMOD a.toNat b.toNat c.toNat =
    (if c = 0 then 0 else BitVec.ofNat 256 ((a.toNat * b.toNat) % c.toNat)).toNat := by
  refine ite_toNat_eq_zero c (fun _ => rfl) fun h => ?_
  rw [mod_eq_emod _ (toNat_pos_of_ne h), ← Nat.cast_mul, emod_toNat _ h]

/-- The powers not computed are right, and so are the answers given at once. -/
private theorem EXP_toNat :
    EXP a.toNat b.toNat = (BitVec.ofNat 256 (a.toNat ^ b.toNat)).toNat := by
  have hpow : ∀ {k : ℕ} {v : ℤ}, (2 ^ k % 2 ^ 256 : ℕ) = v → (a.toNat : ℤ) = 2 ∧ (b.toNat : ℤ) = k →
      v = (BitVec.ofNat 256 (a.toNat ^ b.toNat)).toNat := by
    intro k v hv h
    rw [show a.toNat = 2 by omega, show b.toNat = k by omega, BitVec.toNat_ofNat, hv]
  rw [EXP]
  split_ifs with h96 h160 h224 hexp hbase
  · exact hpow (k := 96) (by decide) h96
  · exact hpow (k := 160) (by decide) h160
  · exact hpow (k := 224) (by decide) h224
  · rw [show b.toNat = 0 by omega, pow_zero]
    rfl
  · rw [show a.toNat = 0 by omega, zero_pow (by omega)]
    rfl
  · exact exponentiation_eq a b.toNat

/-- Bit `8 k + 7` is the sign of the lowest `k + 1` bytes. -/
private theorem SIGNEXTEND_toNat : SIGNEXTEND a.toNat b.toNat =
    (if a.toNat < 31 then (b.setWidth (a.toNat * 8 + 8)).signExtend 256 else b).toNat := by
  rw [SIGNEXTEND]
  by_cases hk : a.toNat < 31
  · rw [if_pos (by exact_mod_cast hk), if_pos hk]
    set s : ℕ := a.toNat * 8 + 7 with hs
    have hsign : (a.toNat : ℤ) * 8 + 7 = (s : ℤ) := by omega
    have hmask : (1 : ℤ) <<< (s : ℤ) - 1 = ((2 ^ s - 1 : ℕ) : ℤ) := by
      rw [Int.one_shiftLeft, Nat.cast_sub Nat.one_le_two_pow, Nat.cast_one]
    have hbit : ((b.toNat : ℤ) >>> (s : ℤ)).land 1 ≠ 0 ↔ b.getLsbD s = true := by
      rw [Int.shiftRight_natCast, BitVec.getLsbD, Nat.testBit]
      change ((b.toNat >>> s &&& 1 : ℕ) : ℤ) ≠ 0 ↔ _
      rw [Nat.cast_ne_zero, Nat.and_comm, bne_iff_ne]
    have hsplit : s + 1 = a.toNat * 8 + 8 := rfl
    simp only [hsign, hmask]
    rcases hset : b.getLsbD s with _ | _
    · rw [if_neg fun h => by simp [hbit.1 h] at hset, ← hsplit,
        ← and_mask_toNat (by omega) hset]
      rfl
    · have hnot : asUintN 256 ((2 ^ s - 1 : ℕ) : ℤ).lnot = ((2 ^ 256 - 2 ^ s : ℕ) : ℤ) := by
        have hlt : 2 ^ s - 1 < 2 ^ 256 :=
          (Nat.sub_lt Nat.one_le_two_pow Nat.one_pos).trans_le
            (Nat.pow_le_pow_right (by norm_num) (by omega))
        rw [asUintN_lnot hlt, Nat.sub_add_cancel Nat.one_le_two_pow]
      rw [if_pos (hbit.2 hset), ← hsplit, ← mask_or_toNat (by omega) hset, hnot]
      rfl
  · rw [if_neg (by exact_mod_cast hk), if_neg hk]

/-- On words the complement flips every bit. -/
private theorem NOT_toNat : NOT a.toNat = (~~~a).toNat := by
  rw [NOT, asUintN_lnot a.isLt, BitVec.toNat_not, Nat.sub_sub, Nat.add_comm]

/-- Position 32 is shifted out of the lowest byte, to the left. -/
private theorem BYTE_toNat : BYTE a.toNat b.toNat =
    (if a.toNat < 32 then (b.extractLsb' ((31 - a.toNat) * 8) 8).setWidth 256 else 0).toNat := by
  rw [BYTE]
  rcases Nat.lt_trichotomy a.toNat 32 with hlt | heq | hgt
  · have hshift : ((31 : ℤ) - a.toNat) * 8 = ((31 - a.toNat) * 8 : ℕ) := by omega
    rw [if_neg (by omega), if_pos hlt, hshift, Int.shiftRight_natCast,
      BitVec.toNat_setWidth_of_le (by decide), BitVec.extractLsb'_toNat,
      ← Nat.and_two_pow_sub_one_eq_mod]
    rfl
  · have hshift : ((31 : ℤ) - a.toNat) * 8 = -((8 : ℕ) : ℤ) := by omega
    have hlow : b.toNat <<< 8 &&& 255 = 0 := by
      rw [show 255 = 2 ^ 8 - 1 from rfl, Nat.and_two_pow_sub_one_eq_mod, Nat.shiftLeft_eq,
        Nat.mul_mod_left]
    rw [if_neg (by omega), if_neg (by omega), hshift, Int.shiftRight_neg,
      Int.shiftLeft_natCast]
    exact congrArg Nat.cast hlow
  · rw [if_pos (by omega), if_neg (by omega)]
    rfl

/-- On words a shift by the width or more leaves nothing. -/
private theorem SHL_toNat : SHL a.toNat b.toNat = (b <<< a.toNat).toNat := by
  rw [SHL]
  by_cases ha : a.toNat > 256
  · rw [if_pos (by omega), BitVec.shiftLeft_eq_zero (by omega)]
    rfl
  · rw [if_neg (by omega), Int.shiftLeft_natCast, MAX_INTEGER_BIGINT_eq, BitVec.toNat_shiftLeft,
      ← Nat.and_two_pow_sub_one_eq_mod]
    rfl

/-- On words a shift by the width or more leaves nothing. -/
private theorem SHR_toNat : SHR a.toNat b.toNat = (b >>> a.toNat).toNat := by
  rw [SHR]
  by_cases ha : a.toNat > 256
  · rw [if_pos (by omega), BitVec.ushiftRight_eq_zero (by omega)]
    rfl
  · rw [if_neg (by omega), Int.shiftRight_natCast, BitVec.toNat_ushiftRight]

/-- A word is negative where its highest bit is set. -/
private theorem isSigned_iff : asIntN 256 b.toNat < 0 ↔ b.msb = true := by
  rw [asIntN_toNat, BitVec.msb_eq_toInt, decide_eq_true_eq]

/-- Shifted by its width a negative word is all ones: the mask is shifted up and down again. -/
private theorem SAR_toNat : SAR a.toNat b.toNat = (b.sshiftRight a.toNat).toNat := by
  rw [SAR]
  simp only [isSigned_iff]
  rcases hmsb : b.msb with _ | _
  · by_cases ha : a.toNat > 256
    · have hzero : (b >>> a.toNat).toNat = 0 := by
        rw [BitVec.ushiftRight_eq_zero (by omega)]
        rfl
      rw [if_pos (by omega), if_neg (by simp), BitVec.toNat_sshiftRight_of_msb_false hmsb,
        ← BitVec.toNat_ushiftRight, hzero, Nat.cast_zero]
    · rw [if_neg (by omega), if_neg (by simp), Int.shiftRight_natCast, shiftRight_toNat _ hmsb]
  · rcases Nat.lt_trichotomy a.toNat 256 with hlt | heq | hgt
    · have hshift : (255 : ℤ) - a.toNat = ((255 - a.toNat : ℕ) : ℤ) := by omega
      rw [if_neg (by omega), if_pos rfl, hshift, MAX_INTEGER_BIGINT_eq, Int.shiftRight_natCast,
        Int.shiftRight_natCast, Int.shiftLeft_natCast, ← shiftRight_or_toNat hlt hmsb]
      rfl
    · have hshift : (255 : ℤ) - a.toNat = -((1 : ℕ) : ℤ) := by omega
      have hzero : b.toNat >>> a.toNat = 0 := by
        rw [heq, Nat.shiftRight_eq_div_pow, Nat.div_eq_of_lt b.isLt]
      rw [if_neg (by omega), if_pos rfl, hshift, toNat_sshiftRight_of_ge heq.ge hmsb,
        Int.shiftRight_natCast, hzero]
      decide
    · rw [if_pos (by omega), if_pos rfl, toNat_sshiftRight_of_ge hgt.le hmsb,
        MAX_INTEGER_BIGINT_eq]

/-- The digits of a word leave out its leading zeros. -/
private theorem CLZ_toNat : CLZ a.toNat = a.clz.toNat := by
  rw [CLZ]
  by_cases ha : a = 0
  · rw [if_pos (toNat_eq_zero.2 ha), BitVec.clz_eq_iff_eq_zero.2 ha]
    rfl
  · rw [if_neg fun h => ha (toNat_eq_zero.1 h), toNat_clz ha, toBinaryString,
      if_neg (by omega), Int.natAbs_natCast]
    rfl

/-- Numbers are compared with their signs. -/
private theorem SLT_toNat : SLT a.toNat b.toNat = (if a.slt b then 1 else 0 : Word).toNat := by
  rw [SLT, fromTwos, fromTwos, asIntN_toNat, asIntN_toNat]
  exact flag_toNat BitVec.slt_iff_toInt_lt.symm

/-- Each opcode of one operand pushes its meaning. -/
private theorem UnaryOp.value_toNat (op : UnaryOp) : op.value a.toNat = (op.meaning a).toNat := by
  cases op with
  | ISZERO =>
    rw [value, meaning, Arithmetic.ISZERO, flag]
    exact ite_toNat_eq_zero a (fun _ => rfl) fun _ => rfl
  | NOT => exact NOT_toNat a
  | CLZ => exact CLZ_toNat a

/-- Each opcode of two operands pushes its meaning. -/
private theorem BinaryOp.value_toNat (op : BinaryOp) :
    op.value a.toNat b.toNat = (op.meaning a b).toNat := by
  cases op with
  | ADD => exact ADD_toNat a b
  | MUL => exact MUL_toNat a b
  | SUB => exact SUB_toNat a b
  | DIV => exact DIV_toNat a b
  | SDIV => exact SDIV_toNat a b
  | MOD => exact MOD_toNat a b
  | SMOD => exact SMOD_toNat a b
  | EXP => exact EXP_toNat a b
  | SIGNEXTEND => exact SIGNEXTEND_toNat a b
  | LT => exact flag_toNat (by rw [BitVec.ult, decide_eq_true_eq, Nat.cast_lt])
  | GT => exact flag_toNat (by rw [BitVec.ult, decide_eq_true_eq, gt_iff_lt, Nat.cast_lt])
  | SLT => exact SLT_toNat a b
  | SGT => exact SLT_toNat b a
  | EQ =>
    refine (flag_toNat (t := decide (a = b)) ?_).trans ?_
    · rw [decide_eq_true_eq, Nat.cast_inj, BitVec.toNat_inj]
    · simp only [decide_eq_true_eq]
      rfl
  | AND => exact congrArg Nat.cast (BitVec.toNat_and a b).symm
  | OR => exact congrArg Nat.cast (BitVec.toNat_or a b).symm
  | XOR => exact congrArg Nat.cast (BitVec.toNat_xor a b).symm
  | BYTE => exact BYTE_toNat a b
  | SHL => exact SHL_toNat a b
  | SHR => exact SHR_toNat a b
  | SAR => exact SAR_toNat a b

/-- Each opcode of three operands pushes its meaning. -/
private theorem TernaryOp.value_toNat (op : TernaryOp) :
    op.value a.toNat b.toNat c.toNat = (op.meaning a b c).toNat := by
  cases op with
  | ADDMOD => exact ADDMOD_toNat a b c
  | MULMOD => exact MULMOD_toNat a b c

end Values

/-! ### Handlers -/

open Interpreter (Thrown trap MAX_HEIGHT STACK_OVERFLOW STACK_UNDERFLOW)

/-- Programs on the stack, topmost item first. -/
abbrev StackM (α : Type) := Prog (List ℤ) Thrown α

/-- `stack.push(value)` -/
def push (value : ℤ) : StackM Unit := do
  if (← Prog.gets List.length) ≥ MAX_HEIGHT then trap STACK_OVERFLOW
  else Prog.modify (value :: ·)

/-- `stack.popN(num)`: nothing is popped unless there are as many. -/
def popN (num : ℕ) : StackM (List ℤ) := do
  if (← Prog.gets List.length) < num then trap STACK_UNDERFLOW
  else do
    let items ← Prog.gets (List.take num)
    Prog.modify (List.drop num)
    pure items

/-- The opcodes `0x01` to `0x1e`. -/
inductive WordOp where
  | unary (op : UnaryOp)
  | binary (op : BinaryOp)
  | ternary (op : TernaryOp)
deriving DecidableEq, Repr

/-- How many items the opcode takes. -/
def WordOp.arity : WordOp → ℕ
  | unary _ => 1
  | binary _ => 2
  | ternary _ => 3

/-- The value pushed for the items popped. -/
def WordOp.value : WordOp → List ℤ → ℤ
  | unary op, [a] => op.value a
  | binary op, [a, b] => op.value a b
  | ternary op, [a, b, c] => op.value a b c
  | _, _ => 0

/-- The operation on words, given as many as it takes. -/
def WordOp.meaning : WordOp → List Word → Option Word
  | unary op, [a] => some (op.meaning a)
  | binary op, [a, b] => some (op.meaning a b)
  | ternary op, [a, b, c] => some (op.meaning a b c)
  | _, _ => none

/-- The handler of an opcode. -/
def WordOp.handler (op : WordOp) : StackM Unit := do
  let items ← popN op.arity
  push (op.value items)

/-- Words as stack items. -/
def items (stack : List Word) : List ℤ := stack.map fun word => (word.toNat : ℤ)

@[simp] theorem items_cons (word : Word) (stack : List Word) :
    items (word :: stack) = (word.toNat : ℤ) :: items stack := rfl

@[simp] theorem length_items (stack : List Word) : (items stack).length = stack.length :=
  List.length_map ..

private theorem items_append (stack rest : List Word) :
    items (stack ++ rest) = items stack ++ items rest :=
  List.map_append ..

/-- A stack item is a word. -/
def IsWord (item : ℤ) : Prop := 0 ≤ item ∧ item < (2 ^ 256 : ℕ)

/-- Words are in range. -/
private theorem isWord_toNat (word : Word) : IsWord word.toNat :=
  ⟨Int.natCast_nonneg _, by exact_mod_cast word.isLt⟩

/-- Items which are words are the items of words. -/
private theorem items_ofInt {stack : List ℤ} (h : ∀ item ∈ stack, IsWord item) :
    items (stack.map (BitVec.ofInt 256)) = stack := by
  rw [items, List.map_map]
  refine (List.map_congr_left fun item hitem => ?_).trans (List.map_id stack)
  obtain ⟨word, hword, hvalue⟩ := exists_word (h item hitem).1 (h item hitem).2
  rw [Function.comp_apply, hword, hvalue, id]

/-- On words the value pushed is the meaning. -/
private theorem WordOp.value_items {op : WordOp} {operands : List Word} {word : Word}
    (h : op.meaning operands = some word) : op.value (items operands) = word.toNat := by
  match op, operands, h with
  | unary op, [a], h =>
    rw [← Option.some.inj h]
    exact UnaryOp.value_toNat a op
  | binary op, [a, b], h =>
    rw [← Option.some.inj h]
    exact BinaryOp.value_toNat a b op
  | ternary op, [a, b, c], h =>
    rw [← Option.some.inj h]
    exact TernaryOp.value_toNat a b c op

/-- An opcode means something on as many words as it takes. -/
private theorem WordOp.exists_meaning {op : WordOp} {operands : List Word}
    (h : operands.length = op.arity) : ∃ word, op.meaning operands = some word := by
  match op, operands, h with
  | unary _, [_], _ => exact ⟨_, rfl⟩
  | binary _, [_, _], _ => exact ⟨_, rfl⟩
  | ternary _, [_, _, _], _ => exact ⟨_, rfl⟩

/-- Every opcode has an operand. -/
private theorem WordOp.arity_pos (op : WordOp) : 0 < op.arity := by
  rcases op with _ | _ | _ <;> exact Nat.succ_pos _

/-- A handler replaces its operands by one value: there is room, since it takes one at least. -/
theorem WordOp.handler_run (op : WordOp) {operands rest : List ℤ}
    (hlen : operands.length = op.arity) (hheight : (operands ++ rest).length ≤ MAX_HEIGHT) :
    op.handler.run (operands ++ rest) = (.ok (), op.value operands :: rest) := by
  have hpos := op.arity_pos
  rw [List.length_append] at hheight
  have hpop : (popN op.arity).run (operands ++ rest) = (.ok operands, rest) := by
    have henough : ¬ (operands ++ rest).length < op.arity := by
      rw [List.length_append]
      omega
    rw [popN, Prog.run_bind_of_ok (Prog.run_gets _ _), if_neg henough,
      Prog.run_bind_of_ok (Prog.run_gets _ _), Prog.run_bind_of_ok (Prog.run_modify _ _),
      Prog.run_pure, ← hlen, List.take_left', List.drop_left'] <;> rfl
  have hroom : ¬ rest.length ≥ MAX_HEIGHT := by omega
  rw [handler, Prog.run_bind_of_ok hpop, push, Prog.run_bind_of_ok (Prog.run_gets _ _),
    if_neg hroom, Prog.run_modify]

/-- With too few items a handler traps and leaves the stack alone. -/
private theorem WordOp.handler_underflow (op : WordOp) {stack : List ℤ}
    (h : stack.length < op.arity) :
    op.handler.run stack = (.error (.tvm STACK_UNDERFLOW), stack) := by
  have hpop : (popN op.arity).run stack = (.error (.tvm STACK_UNDERFLOW), stack) := by
    rw [popN, Prog.run_bind_of_ok (Prog.run_gets _ _), if_pos h]
    rfl
  rw [handler, Prog.run_bind_of_error hpop]

/-- **Arithmetic is that of words.**  On operands which are words every handler pushes the word the
opcode means. -/
theorem wordOps_correct (op : WordOp) {operands rest : List ℤ}
    (hlen : operands.length = op.arity) (hwords : ∀ x ∈ operands, 0 ≤ x ∧ x < 2 ^ 256)
    (hheight : (operands ++ rest).length ≤ MAX_HEIGHT) :
    ∃ value : ℤ, 0 ≤ value ∧ value < 2 ^ 256 ∧
      op.meaning (operands.map (BitVec.ofInt 256)) = some (BitVec.ofInt 256 value) ∧
      op.handler.run (operands ++ rest) = (.ok (), value :: rest) := by
  have hlen' : (operands.map (BitVec.ofInt 256)).length = op.arity := by
    rw [List.length_map, hlen]
  obtain ⟨word, hword⟩ := op.exists_meaning hlen'
  have hvalue := WordOp.value_items hword
  rw [items_ofInt fun x hx => by exact_mod_cast hwords x hx] at hvalue
  refine ⟨word.toNat, (isWord_toNat word).1, by exact_mod_cast (isWord_toNat word).2, ?_, ?_⟩
  · rw [hword, ofInt_toNat]
  · rw [op.handler_run hlen hheight, hvalue]

theorem wordOps_correct_sdiv : ∃ value : ℤ, 0 ≤ value ∧ value < 2 ^ 256 ∧
    (WordOp.binary .SDIV).meaning ([2 ^ 255, 2 ^ 256 - 1].map (BitVec.ofInt 256)) =
      some (BitVec.ofInt 256 value) ∧
    (WordOp.binary .SDIV).handler.run ([2 ^ 255, 2 ^ 256 - 1] ++ [7]) =
      (.ok (), value :: [7]) :=
  wordOps_correct (.binary .SDIV) rfl (by decide) (by decide)

/-! ### Runs -/

/-- An opcode on a stack of words. -/
def WordOp.step (op : WordOp) (stack : List Word) : Option (List Word) :=
  (op.meaning (stack.take op.arity)).map (· :: stack.drop op.arity)

/-- The handlers of a sequence of opcodes, one after the other. -/
def runHandlers : List WordOp → StackM Unit
  | [] => pure ()
  | op :: ops => do
    op.handler
    runHandlers ops

/-- The opcodes on a stack of words. -/
def steps : List WordOp → List Word → Option (List Word)
  | [], stack => some stack
  | op :: ops, stack => op.step stack >>= steps ops

/-- What a program on items does to words: it follows `after`, and traps where that has no value. -/
def Follows (x : StackM Unit) (stack : List Word) (after : Option (List Word)) : Prop :=
  match after with
  | some stack' => x.run (items stack) = (.ok (), items stack') ∧ stack'.length ≤ stack.length
  | none => ∃ stack', x.run (items stack) = (.error (.tvm STACK_UNDERFLOW), items stack')

/-- One opcode. -/
private theorem WordOp.handler_follows (op : WordOp) {stack : List Word}
    (h : stack.length ≤ MAX_HEIGHT) :
    Follows op.handler stack (op.step stack) := by
  rcases Nat.lt_or_ge stack.length op.arity with hfew | henough
  · have hnone : op.step stack = none := by
      rw [step, List.take_of_length_le hfew.le]
      match op, stack, hfew with
      | unary _, [], _ => rfl
      | binary _, [], _ => rfl
      | binary _, [_], _ => rfl
      | ternary _, [], _ => rfl
      | ternary _, [_], _ => rfl
      | ternary _, [_, _], _ => rfl
    rw [hnone]
    exact ⟨stack, op.handler_underflow (by rwa [length_items])⟩
  · have hlen : (stack.take op.arity).length = op.arity := List.length_take_of_le henough
    obtain ⟨word, hword⟩ := op.exists_meaning hlen
    have hsplit : items stack = items (stack.take op.arity) ++ items (stack.drop op.arity) := by
      rw [← items_append, List.take_append_drop]
    have hstep : op.step stack = some (word :: stack.drop op.arity) := by
      rw [step, hword, Option.map_some]
    rw [hstep]
    constructor
    · rw [hsplit, op.handler_run (by rw [length_items, hlen])
        (by rwa [← items_append, List.take_append_drop, length_items]), op.value_items hword]
      rfl
    · have hpos := op.arity_pos
      rw [List.length_cons, List.length_drop]
      omega

/-- **A run computes on words.**  Whatever the opcodes, the stack stays one of words, and it is the
one the operations on words lead to. -/
theorem runHandlers_follows (ops : List WordOp) {stack : List Word}
    (h : stack.length ≤ MAX_HEIGHT) : Follows (runHandlers ops) stack (steps ops stack) := by
  induction ops generalizing stack with
  | nil => exact ⟨rfl, le_rfl⟩
  | cons op ops ih =>
    have hop := op.handler_follows h
    rw [steps]
    rcases hstep : op.step stack with _ | stack'
    · rw [hstep] at hop
      obtain ⟨left, hrun⟩ := hop
      exact ⟨left, Prog.run_bind_of_error hrun⟩
    · rw [hstep] at hop
      obtain ⟨hrun, hle⟩ := hop
      have hrest := ih (hle.trans h)
      change Follows _ _ (steps ops stack')
      have hbind : (runHandlers (op :: ops)).run (items stack) =
          (runHandlers ops).run (items stack') := Prog.run_bind_of_ok hrun
      rcases hsteps : steps ops stack' with _ | stack''
      · rw [hsteps] at hrest
        obtain ⟨left, hleft⟩ := hrest
        exact ⟨left, hbind.trans hleft⟩
      · rw [hsteps] at hrest
        exact ⟨hbind.trans hrest.1, hrest.2.trans hle⟩

/-! ### In the machine -/

/-- The number of an opcode in the table of handlers. -/
def WordOp.code : WordOp → UInt8
  | binary .ADD => 0x01
  | binary .MUL => 0x02
  | binary .SUB => 0x03
  | binary .DIV => 0x04
  | binary .SDIV => 0x05
  | binary .MOD => 0x06
  | binary .SMOD => 0x07
  | ternary .ADDMOD => 0x08
  | ternary .MULMOD => 0x09
  | binary .EXP => 0x0a
  | binary .SIGNEXTEND => 0x0b
  | binary .LT => 0x10
  | binary .GT => 0x11
  | binary .SLT => 0x12
  | binary .SGT => 0x13
  | binary .EQ => 0x14
  | unary .ISZERO => 0x15
  | binary .AND => 0x16
  | binary .OR => 0x17
  | binary .XOR => 0x18
  | unary .NOT => 0x19
  | binary .BYTE => 0x1a
  | binary .SHL => 0x1b
  | binary .SHR => 0x1c
  | binary .SAR => 0x1d
  | unary .CLZ => 0x1e

open Interpreter (Machine MachineM OpcodeTable)

variable {σ : Type}

/-- A handler of items on the machine of the interpreter. -/
def onStack (x : StackM Unit) : MachineM σ Unit := fun m =>
  let (out, stack) := x.run (m.stack.map fun n : ℕ => (n : ℤ))
  (out, { m with stack := stack.map Int.toNat })

/-- The table has the handlers of this module. -/
def ComputesWords (table : OpcodeTable σ) : Prop :=
  ∀ op : WordOp, table.opHandler op.code = onStack op.handler

/-- In the interpreter the handler of such an opcode computes on words, and touches the stack
only. -/
theorem ComputesWords.opHandler_run {table : OpcodeTable σ} (h : ComputesWords table) (op : WordOp)
    {m : Machine σ} {stack stack' : List Word} (hm : m.stack = stack.map BitVec.toNat)
    (hheight : stack.length ≤ MAX_HEIGHT) (hstep : op.step stack = some stack') :
    (table.opHandler op.code).run m = (.ok (), { m with stack := stack'.map BitVec.toNat }) := by
  have hfollows := op.handler_follows hheight
  rw [hstep] at hfollows
  have hitems : m.stack.map (fun n : ℕ => (n : ℤ)) = items stack := by
    rw [hm, items, List.map_map]
    rfl
  have hback : (items stack').map Int.toNat = stack'.map BitVec.toNat := by
    rw [items, List.map_map]
    rfl
  rw [h op]
  change (let (out, stack) := op.handler.run (m.stack.map fun n : ℕ => (n : ℤ))
    (out, { m with stack := stack.map Int.toNat })) = _
  rw [hitems, hfollows.1, ← hback]

end Arithmetic

end Tvmjs
