import Mathlib.Data.List.Basic
import Mathlib.Logic.Function.Iterate

/-!
# Trees built level by level

Neighbours of a level are joined into the nodes of the level above, and an odd last node is promoted
unchanged.  The shape of the tree depends on the length of its lowest level only.

* `parents`, `pairs` -- the level above, and the pairs joined for it;
* `length_iterate_parents_le_one` -- as many rounds as there are nodes leave at most one;
* `forall_joined` -- what holds of the lowest level and of every node joined holds of all pairs;
* `parents_inj`, `iterate_parents_inj` -- where no two of the pairs joined collide, a level is known
  by any level above it.
-/

namespace Tvmjs

namespace PairedLevels

variable {α : Type*} (node : α → α → α)

/-- The level above. -/
def parents : List α → List α
  | left :: right :: level => node left right :: parents level
  | level => level

/-- The pairs which are joined for the level above. -/
def pairs : List α → List (α × α)
  | left :: right :: level => (left, right) :: pairs level
  | _ => []

/-- The pairs which are joined in `n` rounds. -/
def joined : ℕ → List α → List (α × α)
  | 0, _ => []
  | n + 1, level => pairs level ++ joined n (parents node level)

theorem length_parents (level : List α) :
    (parents node level).length = (level.length + 1) / 2 := by
  induction level using parents.induct with
  | case1 left right level ih =>
    rw [parents, List.length_cons, ih, List.length_cons, List.length_cons]
    omega
  | case2 level hlevel =>
    have hshort : level.length ≤ 1 := by
      rcases level with _ | ⟨left, _ | ⟨right, level⟩⟩
      · exact Nat.zero_le _
      · exact Nat.le_refl 1
      · exact absurd rfl (hlevel left right level)
    rw [parents]
    · omega
    · exact hlevel

/-- `n` rounds on at most `n + 1` nodes leave at most one node. -/
theorem length_iterate_parents_le_one {n : ℕ} {level : List α} (h : level.length ≤ n + 1) :
    ((parents node)^[n] level).length ≤ 1 := by
  induction n generalizing level with
  | zero => exact h
  | succ n ih =>
    refine ih ?_
    rw [length_parents]
    omega

/-- The lengths of the levels depend on the length of the lowest one only. -/
theorem length_iterate_parents_congr (n : ℕ) {xs ys : List α} (h : xs.length = ys.length) :
    ((parents node)^[n] xs).length = ((parents node)^[n] ys).length := by
  induction n generalizing xs ys with
  | zero => exact h
  | succ n ih =>
    refine ih ?_
    rw [length_parents, length_parents, h]

/-- A level of at most one node stays as it is. -/
theorem parents_of_length_le_one {level : List α} (h : level.length ≤ 1) :
    parents node level = level := by
  rcases level with _ | ⟨left, _ | ⟨right, level⟩⟩
  · rfl
  · rfl
  · rw [List.length_cons, List.length_cons] at h
    omega

/-- Nothing is joined once there is no pair. -/
theorem joined_of_length_le_one (n : ℕ) {level : List α} (h : level.length ≤ 1) :
    joined node n level = [] := by
  induction n with
  | zero => rfl
  | succ n ih =>
    rw [joined, parents_of_length_le_one node h, ih, List.append_nil]
    rcases level with _ | ⟨left, _ | ⟨right, level⟩⟩
    · rfl
    · rfl
    · rw [List.length_cons, List.length_cons] at h
      omega

/-! ### What holds of all nodes -/

section Forall

variable {node} {P : α → Prop} (hnode : ∀ left right, P (node left right))

theorem forall_pairs {level : List α} (h : ∀ a ∈ level, P a) :
    ∀ p ∈ pairs level, P p.1 ∧ P p.2 := by
  induction level using parents.induct with
  | case1 left right level ih =>
    intro p hp
    obtain rfl | hp := List.mem_cons.1 hp
    · exact ⟨h left (by simp), h right (by simp)⟩
    · exact ih (fun a ha => h a (by simp [ha])) p hp
  | case2 level hlevel =>
    intro p hp
    rw [pairs] at hp
    · exact absurd hp List.not_mem_nil
    · exact hlevel

include hnode

theorem forall_parents {level : List α} (h : ∀ a ∈ level, P a) : ∀ a ∈ parents node level, P a := by
  induction level using parents.induct with
  | case1 left right level ih =>
    intro a ha
    obtain rfl | ha := List.mem_cons.1 ha
    · exact hnode left right
    · exact ih (fun a ha => h a (by simp [ha])) a ha
  | case2 level hlevel =>
    intro a ha
    rw [parents] at ha
    · exact h a ha
    · exact hlevel

theorem forall_joined (n : ℕ) {level : List α} (h : ∀ a ∈ level, P a) :
    ∀ p ∈ joined node n level, P p.1 ∧ P p.2 := by
  induction n generalizing level with
  | zero => exact fun p hp => absurd hp List.not_mem_nil
  | succ n ih =>
    intro p hp
    obtain hp | hp := List.mem_append.1 hp
    · exact forall_pairs h p hp
    · exact ih (forall_parents hnode h) p hp

end Forall

/-! ### What a level commits to -/

variable {node}

/-- Equal parents come from equal levels. -/
theorem parents_inj {xs ys : List α} (hlength : xs.length = ys.length)
    (hnode : ∀ p ∈ pairs xs, ∀ q ∈ pairs ys, node p.1 p.2 = node q.1 q.2 → p = q)
    (h : parents node xs = parents node ys) : xs = ys := by
  induction xs using parents.induct generalizing ys with
  | case1 left right xs ih =>
    obtain _ | ⟨left', _ | ⟨right', ys⟩⟩ := ys
    · exact absurd hlength (by simp)
    · exact absurd hlength (by simp)
    · rw [parents, parents, List.cons.injEq] at h
      have hpair := hnode (left, right) List.mem_cons_self (left', right') List.mem_cons_self h.1
      have hrest := ih (by simpa using hlength)
        (fun p hp q hq => hnode p (List.mem_cons_of_mem _ hp) q (List.mem_cons_of_mem _ hq)) h.2
      rw [Prod.mk.injEq] at hpair
      rw [hpair.1, hpair.2, hrest]
  | case2 xs hxs =>
    have hshort : xs.length ≤ 1 := by
      rcases xs with _ | ⟨left, _ | ⟨right, level⟩⟩
      · exact Nat.zero_le _
      · exact Nat.le_refl 1
      · exact absurd rfl (hxs left right level)
    rwa [parents_of_length_le_one node hshort,
      parents_of_length_le_one node (hlength ▸ hshort)] at h

/-- Equal levels, however high, come from equal levels of one length. -/
theorem iterate_parents_inj {n : ℕ} {xs ys : List α} (hlength : xs.length = ys.length)
    (hnode : ∀ p ∈ joined node n xs, ∀ q ∈ joined node n ys,
      node p.1 p.2 = node q.1 q.2 → p = q)
    (h : (parents node)^[n] xs = (parents node)^[n] ys) : xs = ys := by
  induction n generalizing xs ys with
  | zero => exact h
  | succ n ih =>
    have hparents : parents node xs = parents node ys := by
      refine ih ?_ (fun p hp q hq => hnode p (List.mem_append_right _ hp) q
        (List.mem_append_right _ hq)) h
      rw [length_parents, length_parents, hlength]
    exact parents_inj hlength (fun p hp q hq => hnode p (List.mem_append_left _ hp) q
      (List.mem_append_left _ hq)) hparents

end PairedLevels

end Tvmjs
