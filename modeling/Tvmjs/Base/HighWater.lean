import Mathlib.Order.Lattice
import Mathlib.Order.Monotone.Defs

/-!
# Paying for a high-water mark

A meter charges for the highest level reached so far.  A rise is charged the difference between the
cost of the new level and the highest cost paid, which the meter keeps; a level already reached is
free.

* `Meter.raise`, `Meter.charge` -- the meter after a rise, and what the rise is charged;
* `Meter.Settled` -- the highest cost paid is the cost of the level;
* `Meter.Settled.charge` -- charges telescope, whatever the order of the rises.
-/

namespace Tvmjs

/-- A level, and the highest cost paid for one. -/
@[ext] structure Meter (α : Type*) where
  level : α
  highest : ℕ

namespace Meter

variable {α : Type*} [LinearOrder α] (cost : α → ℕ) (m : Meter α) (l : α)

/-- The meter after a rise to `l`. -/
def raise : Meter α :=
  if l ≤ m.level then m
  else { level := l, highest := if cost l > m.highest then cost l else m.highest }

/-- What a rise to `l` is charged. -/
def charge : ℕ :=
  if l ≤ m.level then 0 else if cost l > m.highest then cost l - m.highest else cost l

/-- What has been paid is what the level costs. -/
def Settled : Prop := m.highest = cost m.level

@[simp] theorem raise_level : (m.raise cost l).level = max m.level l := by
  rw [raise]
  split
  · next h => exact (max_eq_left h).symm
  · next h => exact (max_eq_right (le_of_not_ge h)).symm

theorem le_raise_level : m.level ≤ (m.raise cost l).level := by
  rw [raise_level]
  exact le_max_left _ _

variable {cost m}

/-- A rise beyond the level costs more than was ever paid. -/
theorem Settled.lt_cost (hcost : StrictMono cost) (h : m.Settled cost) {l : α}
    (hl : ¬ l ≤ m.level) :
    cost l > m.highest := by
  rw [h]
  exact hcost (lt_of_not_ge hl)

theorem Settled.raise (hcost : StrictMono cost) (h : m.Settled cost) (l : α) :
    (m.raise cost l).Settled cost := by
  rw [Meter.raise]
  split
  · exact h
  · next hl => exact if_pos (h.lt_cost hcost hl)

/-- What was paid and the charge make up the cost of the level reached. -/
theorem Settled.charge (hcost : StrictMono cost) (h : m.Settled cost) (l : α) :
    cost m.level + m.charge cost l = cost (max m.level l) := by
  rw [Meter.charge]
  split
  · next hl => rw [max_eq_left hl, Nat.add_zero]
  · next hl =>
    have hlt := h.lt_cost hcost hl
    rw [if_pos hlt, max_eq_right (le_of_not_ge hl), ← h]
    exact Nat.add_sub_cancel' hlt.le

end Meter

end Tvmjs
