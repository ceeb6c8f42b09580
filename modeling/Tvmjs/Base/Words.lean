import Mathlib.Algebra.Group.Even
import Mathlib.Data.Int.Bitwise
import Mathlib.Tactic.NormNum
import Mathlib.Tactic.Positivity

/-!
# Words among the integers

A machine which computes on unbounded integers stands in for one on words of `w` bits when every
word is represented by its unsigned value, and when the operations cut their results down to that
range.  The lemmas here say which integer operations come out as which operations on `BitVec w`.

* `BigInt.asUintN`, `BigInt.asIntN` -- the unsigned and the signed value of the low `w` bits;
* `BigInt.mask_or_toNat`, `BigInt.and_mask_toNat` -- sign extension by masks;
* `BigInt.shiftRight_or_toNat` -- the arithmetic shift as a logical one and a mask;
* `BigInt.toNat_clz` -- leading zeros by the number of binary digits;
* `BigInt.mul_pow_eq_step` -- the invariant of square and multiply.

Negative amounts shift the other way, as in `Int.shiftLeft_neg`.
-/

namespace Tvmjs

namespace BigInt

variable {w : ℕ}

/-- `BigInt.asUintN(w, x)` -/
def asUintN (w : ℕ) (x : ℤ) : ℤ := x % (2 ^ w : ℕ)

/-- `BigInt.asIntN(w, x)` -/
def asIntN (w : ℕ) (x : ℤ) : ℤ := x.bmod (2 ^ w)

/-! ### The two readings of a word -/

theorem asUintN_eq_toNat (x : ℤ) : asUintN w x = (BitVec.ofInt w x).toNat := by
  have hpos : (0 : ℤ) < (2 ^ w : ℕ) := by positivity
  rw [asUintN, BitVec.toNat_ofInt, Int.toNat_of_nonneg (Int.emod_nonneg x hpos.ne')]

/-- The signed value of a word is read off its unsigned one. -/
@[simp] theorem asIntN_toNat (x : BitVec w) : asIntN w x.toNat = x.toInt :=
  (BitVec.toInt_eq_toNat_bmod x).symm

/-- The unsigned value of a word is read off its signed one. -/
@[simp] theorem asUintN_toInt (x : BitVec w) : asUintN w x.toInt = x.toNat := by
  rw [asUintN_eq_toNat, BitVec.ofInt_toInt]

/-- Cutting to a signed value first changes nothing for the unsigned one. -/
theorem asUintN_bmod (x : ℤ) : asUintN w (x.bmod (2 ^ w)) = asUintN w x := by
  rw [asUintN, asUintN, Int.bmod_emod]

theorem asUintN_natCast (n : ℕ) : asUintN w n = (BitVec.ofNat w n).toNat := by
  rw [asUintN, BitVec.toNat_ofNat]
  exact_mod_cast rfl

/-- The complement of a word. -/
theorem asUintN_lnot {n : ℕ} (h : n < 2 ^ w) :
    asUintN w (n : ℤ).lnot = (2 ^ w - (n + 1) : ℕ) := by
  have hwrap : (n : ℤ).lnot = ((2 ^ w - (n + 1) : ℕ) : ℤ) - (2 ^ w : ℕ) := by
    change Int.negSucc n = _
    rw [Nat.cast_sub h]
    omega
  rw [hwrap, asUintN, Int.sub_emod_right]
  exact Int.emod_eq_of_lt (by omega) (by omega)

/-- An integer in the range of words is the unsigned value of one. -/
theorem exists_word {x : ℤ} (h : 0 ≤ x) (hlt : x < (2 ^ w : ℕ)) :
    ∃ word : BitVec w, BitVec.ofInt w x = word ∧ (word.toNat : ℤ) = x := by
  refine ⟨_, rfl, ?_⟩
  rw [← asUintN_eq_toNat, asUintN, Int.emod_eq_of_lt h hlt]

@[simp] theorem ofInt_toNat (x : BitVec w) : BitVec.ofInt w (x.toNat : ℤ) = x := by
  rw [BitVec.ofInt_natCast, BitVec.ofNat_toNat, BitVec.setWidth_eq]

/-- The unsigned value of a word is zero exactly when the word is. -/
theorem toNat_eq_zero {x : BitVec w} : (x.toNat : ℤ) = 0 ↔ x = 0#w := by
  rw [Nat.cast_eq_zero, ← BitVec.toNat_inj, BitVec.toNat_ofNat, Nat.zero_mod]

/-! ### Division -/

/-- Truncated division of the signed values, cut to a word. -/
theorem asUintN_tdiv (x y : BitVec w) :
    asUintN w (x.toInt.tdiv y.toInt) = (x.sdiv y).toNat := by
  rw [← asUintN_toInt, BitVec.toInt_sdiv, asUintN_bmod]

/-- The truncated remainder of the signed values, cut to a word. -/
theorem asUintN_tmod (x y : BitVec w) :
    asUintN w (x.toInt.tmod y.toInt) = (x.srem y).toNat := by
  rw [← asUintN_toInt, BitVec.toInt_srem]

/-! ### Masks -/

/-- Setting every bit from `s` on extends a set bit `s`. -/
theorem mask_or_toNat {x : BitVec w} {s : ℕ} (hs : s < w) (h : x.getLsbD s = true) :
    x.toNat ||| (2 ^ w - 2 ^ s) = ((x.setWidth (s + 1)).signExtend w).toNat := by
  have hmask : 2 ^ w - 2 ^ s = 2 ^ w - ((2 ^ s - 1) + 1) := by
    rw [Nat.sub_add_cancel Nat.one_le_two_pow]
  have hlt : 2 ^ s - 1 < 2 ^ w :=
    lt_of_lt_of_le (Nat.sub_lt Nat.one_le_two_pow Nat.one_pos)
      (Nat.pow_le_pow_right (by norm_num) hs.le)
  refine Nat.eq_of_testBit_eq fun i => ?_
  have hright : ((x.setWidth (s + 1)).signExtend w).toNat.testBit i =
      (decide (i < w) && if i < s + 1 then x.getLsbD i else true) := by
    rw [BitVec.testBit_toNat, BitVec.getLsbD_signExtend, BitVec.getLsbD_setWidth,
      BitVec.msb_setWidth, Nat.add_sub_cancel, h]
    by_cases hi : i < s + 1 <;> simp [hi]
  rw [hright, Nat.testBit_or, hmask, Nat.testBit_two_pow_sub_succ hlt,
    Nat.testBit_two_pow_sub_one, BitVec.testBit_toNat]
  by_cases hw : i < w
  · rcases Nat.lt_trichotomy i s with hi | rfl | hi
    · simp [hw, hi, show i < s + 1 by omega]
    · simp [hw, h]
    · simp [hw, show ¬ i < s by omega, show ¬ i < s + 1 by omega]
  · simp [hw, BitVec.getLsbD_of_ge _ _ (Nat.le_of_not_lt hw)]

/-- Clearing every bit from `s` on extends a clear bit `s`. -/
theorem and_mask_toNat {x : BitVec w} {s : ℕ} (hs : s < w) (h : x.getLsbD s = false) :
    x.toNat &&& (2 ^ s - 1) = ((x.setWidth (s + 1)).signExtend w).toNat := by
  refine Nat.eq_of_testBit_eq fun i => ?_
  have hright : ((x.setWidth (s + 1)).signExtend w).toNat.testBit i =
      (decide (i < w) && if i < s + 1 then x.getLsbD i else false) := by
    rw [BitVec.testBit_toNat, BitVec.getLsbD_signExtend, BitVec.getLsbD_setWidth,
      BitVec.msb_setWidth, Nat.add_sub_cancel, h]
    by_cases hi : i < s + 1 <;> simp [hi]
  rw [hright, Nat.testBit_and, Nat.testBit_two_pow_sub_one, BitVec.testBit_toNat]
  rcases Nat.lt_trichotomy i s with hi | rfl | hi
  · simp [hi, show i < s + 1 by omega, show i < w by omega]
  · simp [h]
  · simp [show ¬ i < s by omega, show ¬ i < s + 1 by omega]

/-! ### Shifts -/

/-- A logical shift to the right of a negative word, with the bits shifted in set. -/
theorem shiftRight_or_toNat {x : BitVec w} {a : ℕ} (ha : a < w) (h : x.msb = true) :
    x.toNat >>> a ||| (2 ^ w - 1) >>> (w - 1 - a) <<< (w - 1 - a) = (x.sshiftRight a).toNat := by
  refine Nat.eq_of_testBit_eq fun i => ?_
  rw [BitVec.testBit_toNat, BitVec.getLsbD_sshiftRight, h, Nat.testBit_or,
    Nat.testBit_shiftRight, Nat.testBit_shiftLeft, Nat.testBit_shiftRight,
    Nat.testBit_two_pow_sub_one, BitVec.testBit_toNat]
  have htop : x.getLsbD (w - 1) = true := by rwa [← BitVec.msb_eq_getLsbD_last]
  by_cases hi : a + i < w
  · rcases Nat.lt_or_ge i (w - 1 - a) with hlow | hhigh
    · simp [hi, show ¬ w ≤ i by omega, show ¬ w - 1 - a ≤ i by omega]
    · have hlast : a + i = w - 1 := by omega
      simp [hlast, htop, hhigh, show ¬ w ≤ i by omega, show w - 1 < w by omega]
  · rw [BitVec.getLsbD_of_ge _ _ (Nat.le_of_not_lt hi)]
    by_cases hw : i < w
    · have hmask : w - 1 - a + (i - (w - 1 - a)) = i := by omega
      simp [hi, hw, show w - 1 - a ≤ i by omega, hmask]
    · simp [show w ≤ i by omega, show ¬ w - 1 - a + (i - (w - 1 - a)) < w by omega]

/-- A nonnegative word is shifted logically. -/
theorem shiftRight_toNat {x : BitVec w} (a : ℕ) (h : x.msb = false) :
    x.toNat >>> a = (x.sshiftRight a).toNat :=
  (BitVec.toNat_sshiftRight_of_msb_false h).symm

/-- Shifted by its width or more, a negative word has every bit set. -/
theorem toNat_sshiftRight_of_ge {x : BitVec w} {a : ℕ} (ha : w ≤ a) (h : x.msb = true) :
    (x.sshiftRight a).toNat = 2 ^ w - 1 := by
  refine Nat.eq_of_testBit_eq fun i => ?_
  rw [BitVec.testBit_toNat, BitVec.getLsbD_sshiftRight, h, Nat.testBit_two_pow_sub_one]
  by_cases hi : i < w
  · simp [hi, show ¬ a + i < w by omega]
  · simp [hi]

/-! ### Leading zeros -/

/-- The binary digits of a positive word and its leading zeros fill the width. -/
theorem toNat_clz {x : BitVec w} (hx : x ≠ 0#w) :
    (x.clz.toNat : ℤ) = w - (Nat.toDigits 2 x.toNat).length := by
  have hw : 0 < w := by
    rcases Nat.eq_zero_or_pos w with rfl | hw
    · exact absurd (BitVec.eq_nil x) (by simpa using hx)
    · exact hw
  have hlow := BitVec.two_pow_sub_clz_le_toNat_of_ne_zero hw hx
  have hhigh := BitVec.toNat_lt_two_pow_sub_clz (x := x)
  have hpos : 0 < x.toNat := Nat.pos_of_ne_zero
    fun h => hx (BitVec.eq_of_toNat_eq (by simpa using h))
  have hlt : x.clz.toNat < w := by
    by_contra hge
    rw [Nat.sub_eq_zero_of_le (Nat.le_of_not_lt hge), pow_zero] at hhigh
    omega
  have hle : (Nat.toDigits 2 x.toNat).length ≤ w - x.clz.toNat :=
    (Nat.length_toDigits_le_iff (by norm_num) (by omega)).2 hhigh
  have hge : w - x.clz.toNat ≤ (Nat.toDigits 2 x.toNat).length := by
    by_contra hshort
    rcases Nat.eq_zero_or_pos (w - 1 - x.clz.toNat) with hzero | hk
    · have hne := Nat.length_toDigits_pos (b := 2) (n := x.toNat)
      omega
    · have hsmall := (Nat.length_toDigits_le_iff (b := 2) (n := x.toNat) (by norm_num) hk).1
        (by omega)
      omega
  omega

/-! ### Square and multiply -/

/-- One turn of square and multiply: the product `t * b ^ e` stays what it is. -/
theorem mul_pow_eq_step {M : Type*} [CommMonoid M] (t b : M) (e : ℕ) :
    t * b ^ e = (if e % 2 ≠ 0 then t * b else t) * (b * b) ^ (e / 2) := by
  have hsplit : b ^ e = b ^ (e % 2) * (b * b) ^ (e / 2) := by
    rw [← sq, ← pow_mul, ← pow_add, Nat.mod_add_div]
  rcases Nat.mod_two_eq_zero_or_one e with h | h
  · rw [hsplit, h, pow_zero, one_mul, if_neg (by simp)]
  · rw [hsplit, h, pow_one, if_pos (by simp), mul_assoc]

end BigInt

end Tvmjs
