import Mathlib.Algebra.Order.Field.Basic
import Mathlib.Algebra.Order.Floor.Ring
import Mathlib.Tactic.FieldSimp
import Mathlib.Tactic.Linarith
import Mathlib.Tactic.Positivity
import Mathlib.Tactic.Ring

/-!
# Averages at fixed precision

An amount spent over a window of `W` slots is kept as an average per slot, counted in units of
`1 / P`: rounded up on the way in and down on the way back.  The average fades in proportion to the
part of the window which is left.

* `scaleUp`, `scaleDown` -- the two conversions;
* `scaleDown_scaleUp_add` -- where two roundings up weigh less than one unit, what was put in comes
  back;
* `le_scaleDown_add_scaleUp`, `scaleDown_add_scaleUp_le` -- an amount which joins an average shows
  up as itself or as one more;
* `fade` -- the average after some slots, which is antitone in the slots.
-/

namespace Tvmjs

namespace FixedPoint

variable {K : Type*} [Field K] [LinearOrder K] [IsStrictOrderedRing K] [FloorRing K]
variable (P W : K)

/-- The average an amount is kept as. -/
def scaleUp (n : ℤ) : ℤ := ⌈n * P / W⌉

/-- The amount an average stands for. -/
def scaleDown (average : ℤ) : ℤ := ⌊average * W / P⌋

/-- Rounding to the nearest integer, halves upwards. -/
def round (x : K) : ℤ := ⌊x + 1 / 2⌋

/-- The average after `d` slots. -/
def fade (average : ℤ) (d : ℤ) : ℤ :=
  if d > 0 then if (d : K) < W then round (average * (W - d) / W) else 0 else average

/-! ### Signs and order -/

@[simp] theorem scaleUp_zero : scaleUp P W 0 = 0 := by
  rw [scaleUp, Int.cast_zero, zero_mul, zero_div, Int.ceil_zero]

@[simp] theorem scaleDown_zero : scaleDown P W 0 = 0 := by
  rw [scaleDown, Int.cast_zero, zero_mul, zero_div, Int.floor_zero]

variable {P W}

theorem scaleUp_mono (hP : 0 ≤ P) (hW : 0 ≤ W) {m n : ℤ} (h : m ≤ n) :
    scaleUp P W m ≤ scaleUp P W n := by
  have hcast : (m : K) ≤ n := Int.cast_le.2 h
  exact Int.ceil_mono (div_le_div_of_nonneg_right (mul_le_mul_of_nonneg_right hcast hP) hW)

theorem scaleDown_mono (hP : 0 ≤ P) (hW : 0 ≤ W) {a b : ℤ} (h : a ≤ b) :
    scaleDown P W a ≤ scaleDown P W b := by
  have hcast : (a : K) ≤ b := Int.cast_le.2 h
  exact Int.floor_mono (div_le_div_of_nonneg_right (mul_le_mul_of_nonneg_right hcast hW) hP)

theorem scaleUp_nonneg (hP : 0 ≤ P) (hW : 0 ≤ W) {n : ℤ} (h : 0 ≤ n) : 0 ≤ scaleUp P W n := by
  simpa using scaleUp_mono hP hW h

theorem scaleDown_nonneg (hP : 0 ≤ P) (hW : 0 ≤ W) {a : ℤ} (h : 0 ≤ a) : 0 ≤ scaleDown P W a := by
  simpa using scaleDown_mono hP hW h

theorem round_mono {x y : K} (h : x ≤ y) : round x ≤ round y :=
  Int.floor_mono (by linarith)

theorem round_intCast (n : ℤ) : round (n : K) = n := by
  rw [round, Int.floor_eq_iff]
  constructor <;> linarith

/-! ### Joining an average -/

/-- What an average of `n` reads as lies within one rounding of `n`. -/
theorem scaleUp_bounds (hP : 0 < P) (hW : 0 < W) (n : ℤ) :
    (n : K) ≤ scaleUp P W n * W / P ∧ scaleUp P W n * W / P < n + W / P := by
  have hle := Int.le_ceil ((n : K) * P / W)
  have hlt := Int.ceil_lt_add_one ((n : K) * P / W)
  constructor
  · rw [le_div_iff₀ hP, ← div_le_iff₀ hW]
    exact hle
  · have hsplit : (n : K) + W / P = (n * P / W + 1) * W / P := by
      field_simp
    rw [hsplit]
    exact div_lt_div_of_pos_right (mul_lt_mul_of_pos_right hlt hW) hP

/-- Two amounts come back exactly when two roundings weigh less than one unit. -/
theorem scaleDown_scaleUp_add (hP : 0 < P) (hW : 0 < W) (hfine : 2 * W ≤ P) (m n : ℤ) :
    scaleDown P W (scaleUp P W m + scaleUp P W n) = m + n := by
  obtain ⟨hm, hm'⟩ := scaleUp_bounds hP hW m
  obtain ⟨hn, hn'⟩ := scaleUp_bounds hP hW n
  have hhalf : W / P ≤ 1 / 2 := by
    rw [div_le_div_iff₀ hP two_pos]
    linarith
  have hsum : ((scaleUp P W m + scaleUp P W n : ℤ) : K) * W / P =
      scaleUp P W m * W / P + scaleUp P W n * W / P := by
    push_cast
    ring
  rw [scaleDown, hsum, Int.floor_eq_iff]
  push_cast
  constructor <;> linarith

/-- An amount which joins an average adds itself at least. -/
theorem le_scaleDown_add_scaleUp (hP : 0 < P) (hW : 0 < W) (a n : ℤ) :
    scaleDown P W a + n ≤ scaleDown P W (a + scaleUp P W n) := by
  obtain ⟨hn, -⟩ := scaleUp_bounds hP hW n
  have hsum : ((a + scaleUp P W n : ℤ) : K) * W / P = a * W / P + scaleUp P W n * W / P := by
    push_cast
    ring
  rw [scaleDown, scaleDown, ← Int.floor_add_intCast, hsum]
  exact Int.floor_mono (by linarith)

/-- And it adds one more at most. -/
theorem scaleDown_add_scaleUp_le (hP : 0 < P) (hW : 0 < W) (hfine : W ≤ P) (a n : ℤ) :
    scaleDown P W (a + scaleUp P W n) ≤ scaleDown P W a + n + 1 := by
  obtain ⟨-, hn⟩ := scaleUp_bounds hP hW n
  have hone : W / P ≤ 1 := (div_le_one hP).2 hfine
  have hsum : ((a + scaleUp P W n : ℤ) : K) * W / P = a * W / P + scaleUp P W n * W / P := by
    push_cast
    ring
  have hup : scaleDown P W a + n + 1 = ⌊(a : K) * W / P + (n + 1 : ℤ)⌋ := by
    rw [Int.floor_add_intCast, scaleDown, add_assoc]
  rw [hup, scaleDown, hsum]
  refine Int.floor_mono ?_
  push_cast
  linarith

/-! ### Fading -/

omit [IsStrictOrderedRing K] in
/-- Nothing fades without a slot. -/
theorem fade_of_nonpos {a d : ℤ} (h : d ≤ 0) : fade W a d = a := if_neg (not_lt.2 h)

omit [IsStrictOrderedRing K] in
/-- After a whole window nothing is left. -/
theorem fade_of_ge {a d : ℤ} (hd : 0 < d) (h : W ≤ d) : fade W a d = 0 := by
  rw [fade, if_pos hd, if_neg (not_lt.2 h)]

theorem fade_mono (hW : 0 < W) {a b : ℤ} (h : a ≤ b) (d : ℤ) : fade W a d ≤ fade W b d := by
  have hcast : (a : K) ≤ b := Int.cast_le.2 h
  rw [fade, fade]
  split_ifs with hd hlt
  · refine round_mono (div_le_div_of_nonneg_right ?_ hW.le)
    exact mul_le_mul_of_nonneg_right hcast (sub_nonneg.2 hlt.le)
  · exact le_rfl
  · exact h

theorem fade_zero (d : ℤ) : fade W 0 d = 0 := by
  rw [fade]
  split_ifs
  · simpa using round_intCast (K := K) 0
  · rfl
  · rfl

theorem fade_nonneg (hW : 0 < W) {a : ℤ} (h : 0 ≤ a) (d : ℤ) : 0 ≤ fade W a d := by
  simpa [fade_zero] using fade_mono hW h d

/-- The longer the wait, the less is left. -/
theorem fade_antitone (hW : 0 < W) {a : ℤ} (ha : 0 ≤ a) {d e : ℤ} (h : d ≤ e) :
    fade W a e ≤ fade W a d := by
  have hcast : (d : K) ≤ e := Int.cast_le.2 h
  have hpos : (0 : K) ≤ a := by exact_mod_cast ha
  rcases le_or_gt W (e : K) with hover | hwithin
  · rcases le_or_gt e 0 with he | he
    · rw [fade_of_nonpos he, fade_of_nonpos (h.trans he)]
    · rw [fade_of_ge he hover]
      exact fade_nonneg hW ha d
  · have hfade : ∀ x : ℤ, 0 < x → (x : K) < W → fade W a x = round (a * (W - x) / W) := by
      intro x hx hlt
      rw [fade, if_pos hx, if_pos hlt]
    rcases le_or_gt e 0 with he | he
    · rw [fade_of_nonpos he, fade_of_nonpos (h.trans he)]
    · rcases le_or_gt d 0 with hd | hd
      · -- the first slot rounds, but never above the average itself
        have hshare : (a : K) * (W - e) / W ≤ a := by
          rw [div_le_iff₀ hW]
          exact mul_le_mul_of_nonneg_left (by linarith [Int.cast_pos (R := K).2 he]) hpos
        rw [fade_of_nonpos hd, hfade e he hwithin]
        exact (round_mono hshare).trans (round_intCast a).le
      · rw [hfade e he hwithin, hfade d hd (hcast.trans_lt hwithin)]
        refine round_mono (div_le_div_of_nonneg_right ?_ hW.le)
        exact mul_le_mul_of_nonneg_left (by linarith) hpos

end FixedPoint

end Tvmjs
