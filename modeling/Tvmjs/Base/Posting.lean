import Mathlib.Algebra.BigOperators.Group.Finset.Basic
import Mathlib.Algebra.BigOperators.Group.Finset.Piecewise
import Mathlib.Algebra.Order.BigOperators.Group.Finset
import Mathlib.Data.Fintype.Prod

/-!
# Postings on integer books

A book is a function from a finite type of accounts to integers.  A posting adds an amount to one
account; how it moves the sum of the book, and of every book computed from it account by account,
is all that double-entry arguments need.

* `post`, `sum_post` -- a posting moves the sum by its amount;
* `sum_of_eq_off` -- a book changed at one account moves its sum by the change there.
-/

namespace Tvmjs

variable {ι : Type*} [DecidableEq ι]

/-- The book with `amount` added at `i`. -/
def post (f : ι → ℤ) (i : ι) (amount : ℤ) : ι → ℤ := fun j => f j + if j = i then amount else 0

@[simp] theorem post_self (f : ι → ℤ) (i : ι) (amount : ℤ) : post f i amount i = f i + amount := by
  simp [post]

theorem post_of_ne (f : ι → ℤ) {i j : ι} (amount : ℤ) (h : j ≠ i) : post f i amount j = f j := by
  simp [post, h]

/-- A posting of nothing changes nothing. -/
@[simp] theorem post_zero (f : ι → ℤ) (i : ι) : post f i 0 = f := by
  funext j
  simp [post]

/-- Postings commute. -/
theorem post_comm (f : ι → ℤ) (i j : ι) (x y : ℤ) :
    post (post f i x) j y = post (post f j y) i x := by
  funext k
  simp only [post]
  omega

/-- A posting keeps a book non-negative when the account posted to stays so. -/
theorem post_nonneg {f : ι → ℤ} {i : ι} {amount : ℤ} (hf : ∀ j, 0 ≤ f j) (hi : 0 ≤ f i + amount)
    (j : ι) : 0 ≤ post f i amount j := by
  by_cases h : j = i
  · rw [h, post_self]
    exact hi
  · rw [post_of_ne f amount h]
    exact hf j

variable [Fintype ι]

/-- A posting moves the sum of a book by its amount. -/
@[simp] theorem sum_post (f : ι → ℤ) (i : ι) (amount : ℤ) :
    ∑ j, post f i amount j = ∑ j, f j + amount := by
  simp [post, Finset.sum_add_distrib]

omit [DecidableEq ι] in
/-- Two books that agree off one account have sums that differ by the difference there. -/
theorem sum_of_eq_off {f g : ι → ℤ} (i : ι) (h : ∀ j, j ≠ i → g j = f j) :
    ∑ j, g j = ∑ j, f j + (g i - f i) := by
  classical
  have hg : g = post f i (g i - f i) := by
    funext j
    by_cases hj : j = i
    · rw [hj, post_self]
      omega
    · rw [post_of_ne _ _ hj, h j hj]
  rw [hg, sum_post, ← hg]

omit [DecidableEq ι] in
/-- One account of a non-negative book holds at most the sum. -/
theorem le_sum_of_nonneg {f : ι → ℤ} (h : ∀ j, 0 ≤ f j) (i : ι) : f i ≤ ∑ j, f j :=
  Finset.single_le_sum (fun j _ => h j) (Finset.mem_univ i)

end Tvmjs
