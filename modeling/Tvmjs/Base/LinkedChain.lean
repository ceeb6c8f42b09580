import Mathlib.Data.Option.Basic
import Mathlib.Logic.Function.Basic
import Mathlib.Order.Basic

/-!
# Chains indexed by height

A chain holds one item at each height from a root up to its top, and neighbours are linked.  A
*descent* walks from an item down to the first height at which a chain already holds what the walk
has reached; writing the items it passed over the pruned chain gives the chain that ends in the item
it started from.

* `IsChain.prune`, `IsChain.extend` -- cutting a chain, and adding one item on top;
* `Descends.isChain` -- **the graft**: what a descent passed, written over the pruned chain;
* `Descends.overlay_ne` -- nothing the descent replaced was there before.
-/

namespace Tvmjs

universe u

variable {H : Type u}

/-- One item at each height up to `top`, from `root` on; `Link n p h` says that `h` may stand on
`p`, which is at height `n`. -/
structure IsChain (Link : ℕ → H → H → Prop) (c : ℕ → Option H) (root : H) (top : ℕ) : Prop where
  root : c 0 = some root
  isSome_iff : ∀ n, (c n).isSome ↔ n ≤ top
  linked : ∀ n p h, c n = some p → c (n + 1) = some h → Link n p h

/-- The part of a chain up to a height. -/
def prune (c : ℕ → Option H) (top : ℕ) : ℕ → Option H := fun n => if n ≤ top then c n else none

theorem prune_of_le {c : ℕ → Option H} {n top : ℕ} (h : n ≤ top) : prune c top n = c n := if_pos h

namespace IsChain

variable {Link Link' : ℕ → H → H → Prop} {c : ℕ → Option H} {root : H} {top : ℕ}

theorem mono (h : IsChain Link c root top)
    (hlink : ∀ n p h, c n = some p → c (n + 1) = some h → Link n p h → Link' n p h) :
    IsChain Link' c root top :=
  ⟨h.root, h.isSome_iff, fun n p x hp hx => hlink n p x hp hx (h.linked n p x hp hx)⟩

theorem le_top (h : IsChain Link c root top) {n : ℕ} {x : H} (hx : c n = some x) : n ≤ top :=
  (h.isSome_iff n).1 (by rw [hx]; rfl)

theorem exists_of_le (h : IsChain Link c root top) {n : ℕ} (hn : n ≤ top) : ∃ x, c n = some x :=
  Option.isSome_iff_exists.1 ((h.isSome_iff n).2 hn)

theorem eq_none_of_lt (h : IsChain Link c root top) {n : ℕ} (hn : top < n) : c n = none := by
  rcases hx : c n with _ | x
  · rfl
  · have := h.le_top hx
    omega

theorem prune (h : IsChain Link c root top) {m : ℕ} (hm : m ≤ top) :
    IsChain Link (prune c m) root m where
  root := by
    rw [prune_of_le (Nat.zero_le m)]
    exact h.root
  isSome_iff n := by
    unfold Tvmjs.prune
    split
    · rw [h.isSome_iff]
      omega
    · simp [*]
  linked n p x hp hx := by
    unfold Tvmjs.prune at hp hx
    split at hx
    · rw [if_pos (by omega)] at hp
      exact h.linked n p x hp hx
    · cases hx

/-- A linked item on top of a chain. -/
theorem extend (h : IsChain Link c root top) {p x : H} (hp : c top = some p)
    (hlink : Link top p x) :
    IsChain Link (Function.update c (top + 1) (some x)) root (top + 1) where
  root := by
    rw [Function.update_of_ne (Nat.succ_ne_zero top).symm]
    exact h.root
  isSome_iff n := by
    by_cases hn : n = top + 1
    · rw [hn, Function.update_self]
      simp
    · rw [Function.update_of_ne hn, h.isSome_iff]
      omega
  linked n p' x' hp' hx' := by
    by_cases hn : n = top
    · subst hn
      rw [Function.update_self] at hx'
      rw [Function.update_of_ne (Nat.succ_ne_self n).symm, hp] at hp'
      rw [← Option.some.inj hp', ← Option.some.inj hx']
      exact hlink
    · have hle : n + 1 ≠ top + 1 := by omega
      rw [Function.update_of_ne hle] at hx'
      have hlt := h.le_top hx'
      rw [Function.update_of_ne (by omega)] at hp'
      exact h.linked n p' x' hp' hx'

end IsChain

/-! ### Descents and grafts -/

/-- Writing items at their heights. -/
def overlay : List (H × ℕ) → (ℕ → Option H) → ℕ → Option H
  | [], c => c
  | (x, n) :: path, c => overlay path (Function.update c n (some x))

/-- Heights at which nothing is written keep what they hold. -/
theorem overlay_of_forall_ne {path : List (H × ℕ)} {k : ℕ} (h : ∀ l ∈ path, l.2 ≠ k)
    (c : ℕ → Option H) : overlay path c k = c k := by
  induction path generalizing c with
  | nil => rfl
  | cons l path ih =>
    rw [overlay, ih fun l' hl' => h l' (List.mem_cons_of_mem _ hl')]
    exact Function.update_of_ne (h l (List.mem_cons_self ..)).symm _ _

/-- From `x` at height `n` down to the height `fork`, at which `c` holds the item reached; at every
height passed on the way `c` holds something else or nothing. -/
inductive Descends (Link : ℕ → H → H → Prop) (c : ℕ → Option H) (fork : ℕ) :
    ℕ → H → List (H × ℕ) → Prop
  | common {x : H} (hx : c fork = some x) : Descends Link c fork fork x []
  | step {n : ℕ} {p x : H} {path : List (H × ℕ)} (hp : Descends Link c fork n p path)
      (hlink : Link n p x) (hne : c (n + 1) ≠ some x) :
      Descends Link c fork (n + 1) x ((x, n + 1) :: path)

namespace Descends

variable {Link : ℕ → H → H → Prop} {c : ℕ → Option H} {fork n : ℕ} {x : H}
  {path : List (H × ℕ)}

theorem fork_le (h : Descends Link c fork n x path) : fork ≤ n := by
  induction h with
  | common => exact Nat.le_refl _
  | step _ _ _ ih => omega

/-- Where a descent starts above the fork, the chain holds something else. -/
theorem ne_of_lt (h : Descends Link c fork n x path) (hlt : fork < n) : c n ≠ some x := by
  rcases h with _ | ⟨_, _, hne⟩
  · omega
  · exact hne

/-- Where a descent starts, either it passes the item or the chain holds it. -/
theorem mem_or_eq (h : Descends Link c fork n x path) : (x, n) ∈ path ∨ c n = some x := by
  rcases h with hx | ⟨_, _, _⟩
  · exact .inr hx
  · exact .inl (List.mem_cons_self ..)

/-- What a descent passed lies above the fork, and is linked to something below. -/
theorem exists_link (h : Descends Link c fork n x path) {l : H × ℕ} (hl : l ∈ path) :
    l.2 ≤ n ∧ ∃ m p, fork ≤ m ∧ l.2 = m + 1 ∧ Link m p l.1 := by
  induction h with
  | common => cases hl
  | @step n p x path hp hlink _ ih =>
    rcases List.mem_cons.1 hl with rfl | hl
    · exact ⟨Nat.le_refl _, n, p, hp.fork_le, rfl, hlink⟩
    · obtain ⟨hle, hrest⟩ := ih hl
      exact ⟨by omega, hrest⟩

/-- A descent writes only at the heights it passed. -/
theorem overlay_of_not_mem (h : Descends Link c fork n x path) (b : ℕ → Option H) {k : ℕ}
    (hk : k ≤ fork ∨ n < k) : overlay path b k = b k := by
  induction h generalizing b with
  | common => rfl
  | step hp _ _ ih =>
    have := hp.fork_le
    rw [overlay, ih _ (by omega), Function.update_of_ne (by omega)]

/-- Writes above the descent may be made after it. -/
theorem overlay_update (h : Descends Link c fork n x path) (b : ℕ → Option H) {k : ℕ}
    (hk : n < k) (o : Option H) :
    overlay path (Function.update b k o) = Function.update (overlay path b) k o := by
  induction h generalizing b with
  | common => rfl
  | step _ _ _ ih =>
    rw [overlay, overlay, Function.update_comm (by omega), ih _ (by omega)]

/-- **The graft.**  Written over the pruned chain, the items of a descent complete the shared part
to a chain up to the item the descent started from. -/
theorem isChain {root : H} {top : ℕ} (hc : IsChain Link c root top) (hfork : fork ≤ top)
    (h : Descends Link c fork n x path) :
    IsChain Link (overlay path (prune c n)) root n ∧ overlay path (prune c n) n = some x := by
  induction h with
  | common hx =>
    refine ⟨hc.prune hfork, ?_⟩
    rw [overlay, prune_of_le (Nat.le_refl _)]
    exact hx
  | @step n p x path hp hlink _ ih =>
    obtain ⟨hchain, htop⟩ := ih
    -- pruning one height later makes no difference, for that height is written anyway
    have hprune : Function.update (prune c (n + 1)) (n + 1) (some x) =
        Function.update (prune c n) (n + 1) (some x) := by
      funext k
      by_cases hk : k = n + 1
      · rw [hk, Function.update_self, Function.update_self]
      · rw [Function.update_of_ne hk, Function.update_of_ne hk, prune, prune]
        split <;> split <;> first | rfl | omega
    rw [overlay, hprune, hp.overlay_update _ (Nat.lt_succ_self n)]
    exact ⟨hchain.extend htop hlink, Function.update_self ..⟩

/-- At a height it passed, a descent writes something that the chain did not hold there. -/
theorem overlay_ne (h : Descends Link c fork n x path) (b : ℕ → Option H) {k : ℕ}
    (hlow : fork < k) (hhigh : k ≤ n) : overlay path b k ≠ c k := by
  induction h generalizing b with
  | common => omega
  | @step n p x path hp _ hne ih =>
    rw [overlay]
    by_cases hk : k = n + 1
    · rw [hk, hp.overlay_of_not_mem _ (.inr (Nat.lt_succ_self n)), Function.update_self]
      exact hne.symm
    · exact ih _ (by omega)

end Descends

end Tvmjs
