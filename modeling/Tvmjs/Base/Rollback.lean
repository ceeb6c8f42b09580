import Mathlib.Data.List.Basic

/-!
# Snapshots and undo logs

Two ways of going back to the state of a checkpoint.

* `Snapshots` -- a state and its copies at the open checkpoints, which is what going back means;
* `rollBack` -- a log of changes, the newest first, undone one by one;
* `RollsBack` -- a log cut into one segment for each open checkpoint: undoing the newest segment
  gives the newest copy, undoing the next segment after it the copy below, and so on.  Opening a
  checkpoint, committing it, reverting it and recording a change all keep this
  (`RollsBack.checkpoint`, `RollsBack.commit`, `RollsBack.revert`, `RollsBack.record`).
-/

namespace Tvmjs

variable {σ ε : Type*}

/-- A state and the copies of it made at the open checkpoints, the newest first. -/
@[ext] structure Snapshots (σ : Type*) where
  /-- The state as it is now. -/
  current : σ
  /-- The copies. -/
  saved : List σ

namespace Snapshots

/-- Keep a copy of the current state. -/
def checkpoint (s : Snapshots σ) : Snapshots σ := ⟨s.current, s.current :: s.saved⟩

/-- Forget the newest copy. -/
def commit (s : Snapshots σ) : Snapshots σ := ⟨s.current, s.saved.tail⟩

/-- Go back to the newest copy. -/
def revert (s : Snapshots σ) : Snapshots σ :=
  match s.saved with
  | [] => s
  | copy :: saved => ⟨copy, saved⟩

/-- Change the current state. -/
def update (f : σ → σ) (s : Snapshots σ) : Snapshots σ := ⟨f s.current, s.saved⟩

end Snapshots

/-- Undo the changes of a log, the newest first. -/
def rollBack (undo : ε → σ → σ) (log : List ε) (s : σ) : σ := log.foldl (fun s e => undo e s) s

section RollBack

variable {undo : ε → σ → σ}

@[simp] theorem rollBack_nil (s : σ) : rollBack undo [] s = s := rfl

@[simp] theorem rollBack_cons (e : ε) (log : List ε) (s : σ) :
    rollBack undo (e :: log) s = rollBack undo log (undo e s) := rfl

theorem rollBack_append (log log' : List ε) (s : σ) :
    rollBack undo (log ++ log') s = rollBack undo log' (rollBack undo log s) := List.foldl_append ..

end RollBack

/-- The segments of a log, undone one after the other, give the copies. -/
inductive RollsBack (undo : ε → σ → σ) : List (List ε) → σ → List σ → Prop
  | nil (s : σ) : RollsBack undo [] s []
  | cons {seg : List ε} {segs : List (List ε)} {s copy : σ} {saved : List σ}
      (h : rollBack undo seg s = copy) (hs : RollsBack undo segs copy saved) :
      RollsBack undo (seg :: segs) s (copy :: saved)

namespace RollsBack

variable {undo : ε → σ → σ} {seg seg' : List ε} {segs : List (List ε)} {s s' copy : σ}
  {saved : List σ}

theorem length_eq (h : RollsBack undo segs s saved) : segs.length = saved.length := by
  induction h with
  | nil => rfl
  | cons _ _ ih => exact congrArg (· + 1) ih

/-- A new checkpoint starts a segment. -/
theorem checkpoint (h : RollsBack undo segs s saved) : RollsBack undo ([] :: segs) s (s :: saved) :=
  .cons rfl h

/-- A commit joins the newest segment to the one below. -/
theorem commit (h : RollsBack undo (seg :: seg' :: segs) s (copy :: saved)) :
    RollsBack undo ((seg ++ seg') :: segs) s saved := by
  obtain ⟨_⟩ | ⟨hseg, hrest⟩ := h
  obtain ⟨_⟩ | ⟨hseg', hrest'⟩ := hrest
  refine .cons ?_ hrest'
  rw [rollBack_append, hseg, hseg']

/-- A revert undoes the newest segment, which gives the newest copy. -/
theorem revert (h : RollsBack undo (seg :: segs) s (copy :: saved)) :
    rollBack undo seg s = copy ∧ RollsBack undo segs copy saved := by
  obtain ⟨_⟩ | ⟨hseg, hrest⟩ := h
  exact ⟨hseg, hrest⟩

/-- A change is recorded in the newest segment. -/
theorem record (h : RollsBack undo (seg :: segs) s saved) {e : ε} (he : undo e s' = s) :
    RollsBack undo ((e :: seg) :: segs) s' saved := by
  obtain ⟨_⟩ | ⟨hseg, hrest⟩ := h
  refine .cons ?_ hrest
  rw [rollBack_cons, he, hseg]

/-- The newest record may be replaced by one that undoes more. -/
theorem amend {e e' : ε} (h : RollsBack undo ((e :: seg) :: segs) s saved)
    (he : undo e' s' = undo e s) : RollsBack undo ((e' :: seg) :: segs) s' saved := by
  obtain ⟨_⟩ | ⟨hseg, hrest⟩ := h
  refine .cons ?_ hrest
  rw [rollBack_cons, he, ← rollBack_cons, hseg]

/-- Segments without changes: all copies are the state itself. -/
theorem of_empty (h : ∀ copy ∈ saved, copy = s) :
    RollsBack undo (saved.map fun _ => []) s saved := by
  induction saved with
  | nil => exact .nil s
  | cons copy saved ih =>
    obtain rfl := h copy List.mem_cons_self
    exact .cons rfl (ih fun c hc => h c (List.mem_cons_of_mem _ hc))

theorem eq_of_empty (h : RollsBack undo segs s saved) (hsegs : ∀ seg ∈ segs, seg = []) :
    ∀ copy ∈ saved, copy = s := by
  induction h with
  | nil => exact nofun
  | cons hseg hrest ih =>
    obtain rfl := hsegs _ List.mem_cons_self
    obtain rfl := hseg
    intro copy hcopy
    rcases List.mem_cons.1 hcopy with rfl | hcopy
    · rfl
    · exact ih (fun seg hseg => hsegs seg (List.mem_cons_of_mem _ hseg)) copy hcopy

end RollsBack

end Tvmjs
