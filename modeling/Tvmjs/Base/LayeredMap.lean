import Mathlib.Data.List.Basic
import Mathlib.Logic.Function.Basic

/-!
# Maps under layers of writes

Two readings of a store with checkpoints.

* `LayeredMap` -- a base map under layers of writes, the newest first.  A lookup takes the value of
  the topmost layer that mentions the key, a commit merges the newest layer into what is below it,
  a revert drops it;
* `MapStack` -- a map and the maps it was at the open checkpoints;
* `LayeredMap.toStack` -- the maps that the levels of a layered map show.  Every operation acts on
  them as on a stack of maps (`toStack_checkpoint`, `toStack_commit`, `toStack_revert`,
  `toStack_write`), and a layer that repeats what is below it does not show (`toStack_repeat`).
-/

namespace Tvmjs

variable {κ ν : Type*}

/-- A map and the maps it was at the open checkpoints, the newest first. -/
structure MapStack (κ ν : Type*) where
  /-- The map as it is now. -/
  current : κ → Option ν
  /-- The maps at the checkpoints. -/
  saved : List (κ → Option ν)

namespace MapStack

/-- Keep a copy of the current map. -/
def checkpoint (s : MapStack κ ν) : MapStack κ ν := ⟨s.current, s.current :: s.saved⟩

/-- Forget the newest copy. -/
def commit (s : MapStack κ ν) : MapStack κ ν := ⟨s.current, s.saved.tail⟩

/-- Go back to the newest copy. -/
def revert (s : MapStack κ ν) : MapStack κ ν :=
  match s.saved with
  | [] => s
  | m :: ms => ⟨m, ms⟩

/-- Write a value, or remove the key. -/
def write [DecidableEq κ] (s : MapStack κ ν) (k : κ) (v : Option ν) : MapStack κ ν :=
  { s with current := Function.update s.current k v }

end MapStack

/-- A map under layers of writes, the newest first.  A layer maps a key it does not mention to
`none` and one it deletes to `some none`. -/
structure LayeredMap (κ ν : Type*) where
  /-- The layers above the base. -/
  layers : List (κ → Option (Option ν))
  /-- The map below. -/
  base : κ → Option ν

namespace LayeredMap

/-- What the topmost layer that mentions the key says about it. -/
def mention : List (κ → Option (Option ν)) → κ → Option (Option ν)
  | [], _ => none
  | l :: ls, k => (l k).or (mention ls k)

/-- The value of a key: that of the topmost layer that mentions it, else that of the base. -/
def get (s : LayeredMap κ ν) (k : κ) : Option ν := (mention s.layers k).getD (s.base k)

/-- Open a new layer. -/
def checkpoint (s : LayeredMap κ ν) : LayeredMap κ ν := ⟨(fun _ => none) :: s.layers, s.base⟩

/-- Merge the newest layer into what is below it. -/
def commit (s : LayeredMap κ ν) : LayeredMap κ ν :=
  match s.layers with
  | [] => s
  | [l] => ⟨[], fun k => (l k).getD (s.base k)⟩
  | l :: l' :: ls => ⟨(fun k => (l k).or (l' k)) :: ls, s.base⟩

/-- Drop the newest layer. -/
def revert (s : LayeredMap κ ν) : LayeredMap κ ν := ⟨s.layers.tail, s.base⟩

/-- Write a value, or remove the key, in the newest layer. -/
def write [DecidableEq κ] (s : LayeredMap κ ν) (k : κ) (v : Option ν) : LayeredMap κ ν :=
  match s.layers with
  | [] => ⟨[], Function.update s.base k v⟩
  | l :: ls => ⟨Function.update l k (some v) :: ls, s.base⟩

/-- Write one entry after the other. -/
def writes [DecidableEq κ] (s : LayeredMap κ ν) (l : List (κ × Option ν)) : LayeredMap κ ν :=
  l.foldl (fun s e => s.write e.1 e.2) s

/-- Without layers the writes reach the base. -/
theorem writes_of_nil [DecidableEq κ] {s : LayeredMap κ ν} (hs : s.layers = [])
    (l : List (κ × Option ν)) :
    s.writes l = ⟨[], l.foldl (fun m e => Function.update m e.1 e.2) s.base⟩ := by
  obtain ⟨ls, b⟩ := s
  obtain rfl : ls = [] := hs
  rw [writes]
  induction l generalizing b with
  | nil => rfl
  | cons e l ih => exact ih (Function.update b e.1 e.2)

/-- Writing the entries of a map, each key once, lays the map over another one. -/
theorem foldl_update [DecidableEq κ] {l : List (κ × Option ν)} (hl : (l.map Prod.fst).Nodup)
    (m : κ → Option ν) (k : κ) :
    l.foldl (fun m e => Function.update m e.1 e.2) m k =
      ((l.find? fun e => e.1 = k).map Prod.snd).getD (m k) := by
  induction l generalizing m with
  | nil => rfl
  | cons e l ih =>
    rw [List.map_cons, List.nodup_cons] at hl
    rw [List.foldl_cons, ih hl.2, List.find?_cons]
    by_cases hk : e.1 = k
    · have hnone : (l.find? fun e => e.1 = k) = none := by
        rw [List.find?_eq_none]
        intro e' he' h
        refine hl.1 ?_
        rw [hk, ← of_decide_eq_true h]
        exact List.mem_map_of_mem he'
      rw [hnone, decide_eq_true hk, ← hk, Function.update_self]
      rfl
    · rw [Function.update_of_ne fun h => hk h.symm, decide_eq_false hk]

/-! ### The maps at the levels -/

/-- The maps below each layer. -/
def below : List (κ → Option (Option ν)) → (κ → Option ν) → List (κ → Option ν)
  | [], _ => []
  | _ :: ls, b => get ⟨ls, b⟩ :: below ls b

/-- The map that is seen and those seen below each layer. -/
def toStack (s : LayeredMap κ ν) : MapStack κ ν := ⟨s.get, below s.layers s.base⟩

/-- Without layers the base is read. -/
@[simp] theorem get_nil (b : κ → Option ν) : get ⟨[], b⟩ = b := rfl

/-- The innermost layer is read first. -/
@[simp] theorem get_cons (l : κ → Option (Option ν)) (ls : List (κ → Option (Option ν)))
    (b : κ → Option ν) (k : κ) : get ⟨l :: ls, b⟩ k = (l k).getD (get ⟨ls, b⟩ k) := by
  rw [get, get, mention]
  cases l k <;> rfl

/-- One map for each layer. -/
theorem length_below (ls : List (κ → Option (Option ν))) (b : κ → Option ν) :
    (below ls b).length = ls.length := by
  induction ls with
  | nil => rfl
  | cons l ls ih => rw [below, List.length_cons, List.length_cons, ih]

theorem toStack_checkpoint (s : LayeredMap κ ν) : s.checkpoint.toStack = s.toStack.checkpoint := rfl

/-- Merging the innermost layer into the one below keeps the current map. -/
theorem toStack_commit (s : LayeredMap κ ν) : s.commit.toStack = s.toStack.commit := by
  obtain ⟨layers, b⟩ := s
  match layers with
  | [] => rfl
  | [l] =>
    rw [commit, toStack, toStack, MapStack.commit, MapStack.mk.injEq]
    exact ⟨funext fun k => (get_cons l [] b k).symm, rfl⟩
  | l :: l' :: ls =>
    rw [commit, toStack, toStack, MapStack.commit, MapStack.mk.injEq]
    refine ⟨funext fun k => ?_, rfl⟩
    change get _ k = get ⟨l :: l' :: ls, b⟩ k
    rw [get_cons, get_cons, get_cons]
    cases l k <;> rfl

/-- Dropping the innermost layer leaves the map below. -/
theorem toStack_revert (s : LayeredMap κ ν) : s.revert.toStack = s.toStack.revert := by
  obtain ⟨layers, b⟩ := s
  cases layers <;> rfl

/-- A write changes the current map and no map below. -/
theorem toStack_write [DecidableEq κ] (s : LayeredMap κ ν) (k : κ) (v : Option ν) :
    (s.write k v).toStack = s.toStack.write k v := by
  obtain ⟨layers, b⟩ := s
  match layers with
  | [] => rfl
  | l :: ls =>
    rw [write, toStack, toStack, MapStack.write, MapStack.mk.injEq]
    refine ⟨funext fun k' => ?_, rfl⟩
    change get _ k' = Function.update (get ⟨l :: ls, b⟩) k v k'
    by_cases hk : k' = k
    · subst hk
      rw [get_cons, Function.update_self, Function.update_self, Option.getD_some]
    · rw [get_cons, Function.update_of_ne hk, Function.update_of_ne hk, get_cons]

/-- A layer that repeats what is seen anyway does not show. -/
theorem toStack_repeat [DecidableEq κ] (l : κ → Option (Option ν))
    (ls : List (κ → Option (Option ν))) (b : κ → Option ν) (k : κ) :
    toStack ⟨Function.update l k (some (get ⟨l :: ls, b⟩ k)) :: ls, b⟩ = toStack ⟨l :: ls, b⟩ := by
  have h := toStack_write ⟨l :: ls, b⟩ k (get ⟨l :: ls, b⟩ k)
  rw [write] at h
  rw [h, MapStack.write, toStack, MapStack.mk.injEq]
  exact ⟨Function.update_eq_self k _, rfl⟩

/-! ### Layered maps that show the same -/

/-- A write reaches the base where there are no layers. -/
theorem base_write [DecidableEq κ] (s : LayeredMap κ ν) (k : κ) (v : Option ν) :
    (s.write k v).base = if s.layers.length = 0 then Function.update s.base k v else s.base := by
  obtain ⟨ls, b⟩ := s
  cases ls <;> rfl

/-- The last commit writes the base. -/
theorem base_commit (s : LayeredMap κ ν) :
    s.commit.base = if s.layers.length = 1 then s.get else s.base := by
  obtain ⟨ls, b⟩ := s
  match ls with
  | [] => rfl
  | [l] => exact funext fun k => (get_cons l [] b k).symm
  | l :: l' :: ls => rfl

@[simp] theorem length_write [DecidableEq κ] (s : LayeredMap κ ν) (k : κ) (v : Option ν) :
    (s.write k v).layers.length = s.layers.length := by
  obtain ⟨ls, b⟩ := s
  cases ls <;> rfl

@[simp] theorem length_writes [DecidableEq κ] (l : List (κ × Option ν)) (s : LayeredMap κ ν) :
    (s.writes l).layers.length = s.layers.length := by
  induction l generalizing s with
  | nil => rfl
  | cons e l ih => exact (ih (s.write e.1 e.2)).trans (length_write s e.1 e.2)

@[simp] theorem length_commit (s : LayeredMap κ ν) :
    s.commit.layers.length = s.layers.length - 1 := by
  obtain ⟨ls, b⟩ := s
  match ls with
  | [] => rfl
  | [l] => rfl
  | l :: l' :: ls => rfl

/-- Two layered maps over one base that show the same map at every level. -/
structure Same (s t : LayeredMap κ ν) : Prop where
  stack : s.toStack = t.toStack
  base : s.base = t.base

namespace Same

variable {s t : LayeredMap κ ν}

/-- Maps that are the same read the same. -/
theorem get_eq (h : Same s t) : s.get = t.get := congrArg MapStack.current h.stack

/-- Maps that are the same have as many layers. -/
theorem length_eq (h : Same s t) : s.layers.length = t.layers.length := by
  have hsaved := congrArg (List.length ∘ MapStack.saved) h.stack
  simpa only [Function.comp_apply, toStack, length_below] using hsaved

theorem checkpoint (h : Same s t) : Same s.checkpoint t.checkpoint :=
  ⟨by rw [toStack_checkpoint, toStack_checkpoint, h.stack], h.base⟩

theorem commit (h : Same s t) : Same s.commit t.commit := by
  refine ⟨by rw [toStack_commit, toStack_commit, h.stack], ?_⟩
  rw [base_commit, base_commit, h.length_eq, h.get_eq, h.base]

theorem revert (h : Same s t) : Same s.revert t.revert :=
  ⟨by rw [toStack_revert, toStack_revert, h.stack], h.base⟩

theorem write [DecidableEq κ] (h : Same s t) (k : κ) (v : Option ν) :
    Same (s.write k v) (t.write k v) := by
  refine ⟨by rw [toStack_write, toStack_write, h.stack], ?_⟩
  rw [base_write, base_write, h.length_eq, h.base]

/-- Maps that are the same stay so under the same writes. -/
theorem writes [DecidableEq κ] (l : List (κ × Option ν)) (h : Same s t) :
    Same (s.writes l) (t.writes l) := by
  induction l generalizing s t with
  | nil => exact h
  | cons e l ih => exact ih (h.write e.1 e.2)

/-- Noting in the newest layer what is seen anyway. -/
theorem note [DecidableEq κ] (h : Same s t) (hs : s.layers ≠ []) (k : κ) :
    Same (s.write k (s.get k)) t := by
  obtain ⟨ls, b⟩ := s
  obtain ⟨l, ls, rfl⟩ := List.exists_cons_of_ne_nil hs
  exact ⟨(toStack_repeat l ls b k).trans h.stack, h.base⟩

end Same

end LayeredMap

end Tvmjs
