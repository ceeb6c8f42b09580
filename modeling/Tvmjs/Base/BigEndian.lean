import Mathlib.Data.List.GetD
import Mathlib.Data.Nat.Digits.Lemmas
import Mathlib.Tactic.Ring

/-!
# Big-endian numbers

* `value` -- the number a byte string spells, with the most significant byte first;
* `value_append`, `value_lt` -- the value is positional, and bounded by the length;
* `value_shiftRight` -- a shift by whole bytes drops bytes from the end;
* `window` -- a range of a byte string which is followed by infinitely many zeros.
-/

namespace Tvmjs

namespace BigEndian

/-- The number a byte string spells. -/
def value (bytes : List UInt8) : ℕ := bytes.foldl (fun n b => n * 256 + b.toNat) 0

theorem foldl_eq (bytes : List UInt8) (n : ℕ) :
    bytes.foldl (fun n b => n * 256 + b.toNat) n = n * 256 ^ bytes.length + value bytes := by
  induction bytes generalizing n with
  | nil => simp [value]
  | cons b bytes ih =>
    rw [value, List.foldl_cons, List.foldl_cons, ih, ih, List.length_cons]
    ring

@[simp] theorem value_nil : value [] = 0 := rfl

theorem value_append (a b : List UInt8) : value (a ++ b) = value a * 256 ^ b.length + value b := by
  rw [value, List.foldl_append, foldl_eq]
  rfl

theorem value_cons (x : UInt8) (b : List UInt8) :
    value (x :: b) = x.toNat * 256 ^ b.length + value b := by
  have h := value_append [x] b
  rwa [show value [x] = x.toNat from Nat.zero_add _] at h

theorem value_lt (b : List UInt8) : value b < 256 ^ b.length := by
  induction b with
  | nil => exact Nat.one_pos
  | cons x b ih =>
    have hx : x.toNat + 1 ≤ 256 := x.toNat_lt
    have hpow := Nat.mul_le_mul_right (256 ^ b.length) hx
    rw [value_cons, List.length_cons, pow_succ]
    linarith

@[simp] theorem value_replicate_zero (k : ℕ) : value (List.replicate k 0) = 0 := by
  induction k with
  | zero => rfl
  | succ k ih =>
    rw [List.replicate_succ, value_cons, ih, UInt8.toNat_zero]
    omega

/-- Zeros in front change nothing. -/
@[simp] theorem value_replicate_append (k : ℕ) (b : List UInt8) :
    value (List.replicate k 0 ++ b) = value b := by
  rw [value_append, value_replicate_zero, Nat.zero_mul, Nat.zero_add]

/-- A shift by whole bytes drops them. -/
theorem value_shiftRight (a b : List UInt8) : value (a ++ b) >>> (8 * b.length) = value a := by
  rw [value_append, Nat.shiftRight_eq_div_pow, pow_mul, show (2 : ℕ) ^ 8 = 256 from rfl]
  have hlt := value_lt b
  rw [Nat.mul_comm, Nat.mul_add_div (by positivity), Nat.div_eq_of_lt hlt, Nat.add_zero]

/-- The digits in base 256, the most significant first, spell the number. -/
theorem value_digits (n : ℕ) : value ((Nat.digits 256 n).map UInt8.ofNat).reverse = n := by
  induction n using Nat.strong_induction_on with
  | h n ih =>
    by_cases h0 : n = 0
    · subst h0
      rfl
    · have hlow : (UInt8.ofNat (n % 256)).toNat = n % 256 :=
        UInt8.toNat_ofNat_of_lt' (Nat.mod_lt _ (by decide))
      rw [Nat.digits_def' (by decide) (Nat.pos_of_ne_zero h0), List.map_cons, List.reverse_cons,
        value_append, ih (n / 256) (by omega)]
      change n / 256 * 256 ^ 1 + (0 * 256 + (UInt8.ofNat (n % 256)).toNat) = n
      omega

/-! ### Byte strings with zeros behind -/

/-- `length` bytes from `start` on, of a byte string which is followed by zeros. -/
def window (bytes : List UInt8) (start length : ℕ) : List UInt8 :=
  (List.range length).map fun i => bytes.getD (start + i) 0

@[simp] theorem length_window (bytes : List UInt8) (start length : ℕ) :
    (window bytes start length).length = length := by
  rw [window, List.length_map, List.length_range]

theorem window_append (bytes : List UInt8) (start m n : ℕ) :
    window bytes start m ++ window bytes (start + m) n = window bytes start (m + n) := by
  rw [window, window, window, List.range_add, List.map_append, List.map_map]
  congr 1
  exact List.map_congr_left fun i _ => by rw [Function.comp_apply, Nat.add_assoc]

/-- What lies inside, and zeros for the rest. -/
theorem take_drop_append_replicate (bytes : List UInt8) (start length : ℕ) :
    (bytes.take (start + length)).drop start ++
        List.replicate (length - ((bytes.take (start + length)).drop start).length) 0 =
      window bytes start length := by
  refine List.ext_getElem ?_ fun i hi hi' => ?_
  · rw [List.length_append, List.length_replicate, length_window, List.length_drop,
      List.length_take]
    omega
  · simp only [window, List.getElem_map, List.getElem_range, List.getElem_append]
    split
    · next h =>
      rw [List.getElem_drop, List.getElem_take, List.getD_eq_getElem _ _ (by
        rw [List.length_drop, List.length_take] at h
        omega)]
    · next h =>
      rw [length_window] at hi'
      rw [List.length_drop, List.length_take] at h
      rw [List.getElem_replicate, List.getD_eq_default _ _ (by omega)]

/-- Zeros behind a byte string do not show. -/
@[simp] theorem window_append_zeros (bytes : List UInt8) (k start length : ℕ) :
    window (bytes ++ List.replicate k 0) start length = window bytes start length := by
  refine List.map_congr_left fun i _ => ?_
  by_cases h : start + i < bytes.length
  · rw [List.getD_append _ _ _ _ h]
  · rw [List.getD_append_right _ _ _ _ (by omega), List.getD_eq_default bytes 0 (by omega),
      List.getD_eq_getElem?_getD, List.getElem?_getD_replicate_default_eq]

/-- Where a range lies inside, there are no zeros to add. -/
theorem take_drop_eq_window {bytes : List UInt8} {start length : ℕ}
    (h : start + length ≤ bytes.length) :
    (bytes.take (start + length)).drop start = window bytes start length := by
  have hlength : ((bytes.take (start + length)).drop start).length = length := by
    rw [List.length_drop, List.length_take]
    omega
  rw [← take_drop_append_replicate, hlength, Nat.sub_self, List.replicate_zero, List.append_nil]

theorem length_digits_le {n k : ℕ} (h : n < 256 ^ k) :
    ((Nat.digits 256 n).map UInt8.ofNat).reverse.length ≤ k := by
  rw [List.length_reverse, List.length_map]
  exact (Nat.digits_length_le_iff (by decide) n).2 h

end BigEndian

end Tvmjs
