import Tvmjs.Base.InsertionMap

/-!
# Undo logs of insertion-ordered maps

A write to an `InsertionMap` is logged as the pair of the key and its value before the write.
Replaying the log newest first restores every **value**, whatever was written.  It need not
restore the **order**: an entry which was removed comes back at the end.

* `InsertionMap.get_undoAll` -- every lookup is restored;
* `InsertionMap.keys_undoAll` -- the order after the replay: the entries that were never removed,
  then the removed ones, the last one removed first;
* `InsertionMap.undoAll_eq_iff` -- **the exact condition**: the map is restored with its order if
  and only if entries were removed from the end only, counting the entries of the starting map
  that had not been removed before (`LastFirst`).
-/

namespace Tvmjs

namespace InsertionMap

variable {κ α : Type*}

/-- One write to a map. -/
inductive Write (κ α : Type*) where
  /-- The key now holds the value. -/
  | set (k : κ) (v : α)
  /-- The key is removed. -/
  | delete (k : κ)

namespace Write

/-- The key a write is about. -/
def key : Write κ α → κ
  | set k _ => k
  | delete k => k

/-- The value the key holds after the write. -/
def value : Write κ α → Option α
  | set _ v => some v
  | delete _ => none

end Write

/-- The entries of `o` which the writes never remove. -/
def survivors [DecidableEq κ] (o : List κ) : List (Write κ α) → List κ
  | [] => o
  | .set _ _ :: ws => survivors o ws
  | .delete k :: ws => survivors (o.filter fun k' => k' ≠ k) ws

/-- The entries of `o` which the writes remove, in the order of their first removal. -/
def removed [DecidableEq κ] (o : List κ) : List (Write κ α) → List κ
  | [] => []
  | .set _ _ :: ws => removed o ws
  | .delete k :: ws =>
    if k ∈ o then k :: removed (o.filter fun k' => k' ≠ k) ws else removed o ws

/-- Whenever the writes remove an entry of `o` that is still in place, it is the last one of
those still in place. -/
def LastFirst [DecidableEq κ] (o : List κ) : List (Write κ α) → Prop
  | [] => True
  | .set _ _ :: ws => LastFirst o ws
  | .delete k :: ws => (k ∈ o → o.getLast? = some k) ∧ LastFirst (o.filter fun k' => k' ≠ k) ws

variable [DecidableEq κ]

instance decidableLastFirst (o : List κ) (ws : List (Write κ α)) : Decidable (LastFirst o ws) :=
  match ws with
  | [] => inferInstanceAs (Decidable True)
  | .set _ _ :: ws => decidableLastFirst o ws
  | .delete k :: ws =>
    have := decidableLastFirst (o.filter fun k' => k' ≠ k) ws
    inferInstanceAs (Decidable ((k ∈ o → o.getLast? = some k) ∧ _))

/-- Perform one write. -/
def write (m : InsertionMap κ α) (w : Write κ α) : InsertionMap κ α := m.put w.key w.value

/-- Perform the writes in order. -/
def writeAll (m : InsertionMap κ α) : List (Write κ α) → InsertionMap κ α
  | [] => m
  | w :: ws => (m.write w).writeAll ws

/-- The log of the writes, newest record first: each key with its value before the write. -/
def log (m : InsertionMap κ α) : List (Write κ α) → List (κ × Option α)
  | [] => []
  | w :: ws => (m.write w).log ws ++ [(w.key, m.get w.key)]

/-- Replay a log, newest record first. -/
def undoAll (m : InsertionMap κ α) : List (κ × Option α) → InsertionMap κ α
  | [] => m
  | r :: rs => (m.put r.1 r.2).undoAll rs

theorem undoAll_append (m : InsertionMap κ α) (l l' : List (κ × Option α)) :
    m.undoAll (l ++ l') = (m.undoAll l).undoAll l' := by
  induction l generalizing m with
  | nil => rfl
  | cons r l ih => exact ih (m.put r.1 r.2)

theorem get_write (m : InsertionMap κ α) (w : Write κ α) (k : κ) :
    (m.write w).get k = if k = w.key then w.value else m.get k := get_put m w.key k w.value

/-! ### Lookups depend on lookups only -/

section Congr

variable {m m' : InsertionMap κ α}

theorem get_put_congr (h : ∀ k, m.get k = m'.get k) (k : κ) (o : Option α) (k' : κ) :
    (m.put k o).get k' = (m'.put k o).get k' := by
  rw [get_put, get_put, h]

theorem get_writeAll_congr (h : ∀ k, m.get k = m'.get k) (ws : List (Write κ α)) (k : κ) :
    (m.writeAll ws).get k = (m'.writeAll ws).get k := by
  induction ws generalizing m m' with
  | nil => exact h k
  | cons w ws ih => exact ih (get_put_congr h w.key w.value)

theorem log_congr (h : ∀ k, m.get k = m'.get k) (ws : List (Write κ α)) : m.log ws = m'.log ws := by
  induction ws generalizing m m' with
  | nil => rfl
  | cons w ws ih =>
    have hw : (m.write w).log ws = (m'.write w).log ws := ih (get_put_congr h w.key w.value)
    rw [log, log, h, hw]

theorem get_undoAll_congr (h : ∀ k, m.get k = m'.get k) (rs : List (κ × Option α)) (k : κ) :
    (m.undoAll rs).get k = (m'.undoAll rs).get k := by
  induction rs generalizing m m' with
  | nil => exact h k
  | cons r rs ih => exact ih (get_put_congr h r.1 r.2)

end Congr

theorem writeAll_append (m : InsertionMap κ α) (ws ws' : List (Write κ α)) :
    m.writeAll (ws ++ ws') = (m.writeAll ws).writeAll ws' := by
  induction ws generalizing m with
  | nil => rfl
  | cons w ws ih => exact ih _

theorem log_append (m : InsertionMap κ α) (ws ws' : List (Write κ α)) :
    m.log (ws ++ ws') = (m.writeAll ws).log ws' ++ m.log ws := by
  induction ws generalizing m with
  | nil => exact (List.append_nil _).symm
  | cons w ws ih =>
    simp only [List.cons_append, log, ih, List.append_assoc]
    rfl

/-! ### Replaying a log -/

/-- **Values are always restored.** -/
theorem get_undoAll (m : InsertionMap κ α) (ws : List (Write κ α)) (k : κ) :
    ((m.writeAll ws).undoAll (m.log ws)).get k = m.get k := by
  induction ws generalizing m with
  | nil => rfl
  | cons w ws ih =>
    simp only [writeAll, log, undoAll_append, undoAll, get_put, ih, get_write]
    split
    · rename_i hk
      rw [hk]
    · rfl

/-! ### The order after a replay -/

private theorem filter_ne_of_not_mem {k : κ} {o : List κ} (h : k ∉ o) :
    o.filter (fun k' => k' ≠ k) = o := by
  rw [List.filter_eq_self]
  intro k' hk'
  simp only [ne_eq, decide_not, Bool.not_eq_true', decide_eq_false_iff_not]
  rintro rfl
  exact h hk'

/-- Forgetting a key at the start forgets it among the survivors and the removed. -/
private theorem survivors_removed_filter (p : κ → Bool) (o : List κ) (ws : List (Write κ α)) :
    survivors (o.filter p) ws = (survivors o ws).filter p ∧
      removed (o.filter p) ws = (removed o ws).filter p := by
  induction ws generalizing o with
  | nil => exact ⟨rfl, rfl⟩
  | cons w ws ih =>
    cases w with
    | set k v => exact ih o
    | delete k =>
      have hcomm : (o.filter p).filter (fun k' => k' ≠ k) =
          (o.filter fun k' => k' ≠ k).filter p := by
        rw [List.filter_filter, List.filter_filter]
        exact List.filter_congr fun x _ => Bool.and_comm _ _
      obtain ⟨hs, hr⟩ := ih (o.filter fun k' => k' ≠ k)
      obtain ⟨-, hr'⟩ := ih o
      constructor
      · simp only [survivors, hcomm, hs]
      · simp only [removed, hcomm, hr, hr', List.mem_filter]
        by_cases hk : k ∈ o
        · by_cases hp : p k
          · simp only [hk, hp, and_self, if_true, List.filter_cons_of_pos]
          · -- a removed key outside `p` leaves no trace on either side
            have hnot : (o.filter fun k' => k' ≠ k).filter p = o.filter p := by
              rw [List.filter_filter]
              refine List.filter_congr fun x _ => ?_
              by_cases hx : x = k
              · subst hx
                simp [hp]
              · simp [hx]
            simp only [hk, hp, and_false, Bool.false_eq_true, if_false, if_true,
              not_false_eq_true, List.filter_cons_of_neg]
            rw [← hr', ← hr, hnot]
        · simp only [hk, false_and, if_false]

/-- **The order after a replay**: first the entries that were never removed, then the removed
ones, the last one removed first. -/
theorem keys_undoAll (m : InsertionMap κ α) (ws : List (Write κ α)) :
    ((m.writeAll ws).undoAll (m.log ws)).keys =
      survivors m.keys ws ++ (removed m.keys ws).reverse := by
  induction ws generalizing m with
  | nil => simp [writeAll, log, undoAll, survivors, removed]
  | cons w ws ih =>
    have hget := get_undoAll (m.write w) ws
    simp only [writeAll, log, undoAll_append, undoAll]
    -- `X` is the map after replaying everything but the record of `w`
    generalize hX : ((m.write w).writeAll ws).undoAll ((m.write w).log ws) = X at hget ⊢
    have hkeys : X.keys = survivors (m.write w).keys ws ++
        (removed (m.write w).keys ws).reverse := hX ▸ ih (m.write w)
    cases w with
    | set k v =>
      change (X.put k (m.get k)).keys = survivors m.keys ws ++ (removed m.keys ws).reverse
      have hXk : k ∈ X.keys := by
        rw [← get_isSome_iff, hget k, get_write]
        simp [Write.key, Write.value]
      cases hm : m.get k with
      | some b =>
        have hmk : (m.write (.set k v)).keys = m.keys :=
          keys_set_of_mem v (mem_keys_of_get hm)
        rw [hmk] at hkeys
        exact (keys_set_of_mem b hXk).trans hkeys
      | none =>
        have hmk : (m.write (.set k v)).keys = m.keys ++ [k] :=
          keys_set_of_not_mem v (get_eq_none_iff.1 hm)
        have hf : (m.keys ++ [k]).filter (fun k' => k' ≠ k) = m.keys := by
          simp only [List.filter_append, filter_ne_of_not_mem (get_eq_none_iff.1 hm)]
          simp
        obtain ⟨hs, hr⟩ := survivors_removed_filter (fun k' => k' ≠ k) (m.keys ++ [k]) ws
        rw [hf] at hs hr
        rw [hmk] at hkeys
        change (X.delete k).keys = _
        rw [keys_delete, hkeys, List.filter_append, List.filter_reverse, hs, hr]
    | delete k =>
      have hmk : (m.write (.delete k)).keys = m.keys.filter fun k' => k' ≠ k := keys_delete m k
      have hXk : k ∉ X.keys := by
        rw [← get_eq_none_iff, hget k, get_write]
        simp [Write.key, Write.value]
      rw [hmk] at hkeys
      change (X.put k (m.get k)).keys = _
      simp only [survivors, removed]
      cases hm : m.get k with
      | some b =>
        rw [if_pos (mem_keys_of_get hm), List.reverse_cons, ← List.append_assoc, ← hkeys]
        exact keys_set_of_not_mem b hXk
      | none =>
        have hnot := get_eq_none_iff.1 hm
        rw [filter_ne_of_not_mem hnot] at hkeys ⊢
        rw [if_neg hnot, ← hkeys]
        change (X.delete k).keys = X.keys
        rw [delete_of_not_mem hXk]

private theorem filter_ne_concat {k : κ} {l : List κ} (h : (l ++ [k]).Nodup) :
    (l ++ [k]).filter (fun k' => k' ≠ k) = l := by
  have hk : k ∉ l := by
    intro hk
    have := (List.nodup_append.1 h).2.2 k hk k (List.mem_singleton_self k)
    exact this rfl
  simp only [List.filter_append, filter_ne_of_not_mem hk]
  simp

/-- Survivors followed by the removed entries, last removed first, read as the starting order
exactly when the removals went from the end. -/
theorem survivors_append_removed_iff {o : List κ} (ho : o.Nodup) (ws : List (Write κ α)) :
    survivors o ws ++ (removed o ws).reverse = o ↔ LastFirst o ws := by
  induction ws generalizing o with
  | nil => simp [survivors, removed, LastFirst]
  | cons w ws ih =>
    cases w with
    | set k v => exact ih ho
    | delete k =>
      have ho' : (o.filter fun k' => k' ≠ k).Nodup := ho.filter _
      simp only [survivors, removed, LastFirst]
      by_cases hk : k ∈ o
      · simp only [hk, if_true, forall_const, List.reverse_cons, ← List.append_assoc]
        constructor
        · intro h
          have hlast : o.getLast? = some k := by
            rw [← h]
            exact List.getLast?_concat
          obtain ⟨l, hl⟩ := List.getLast?_eq_some_iff.1 hlast
          have hfo : o.filter (fun k' => k' ≠ k) = l := by
            rw [hl]
            exact filter_ne_concat (hl ▸ ho)
          refine ⟨hlast, (ih ho').1 ?_⟩
          rw [hfo] at h ⊢
          have h' := h.trans hl
          exact List.append_cancel_right h'
        · rintro ⟨hlast, hrest⟩
          obtain ⟨l, hl⟩ := List.getLast?_eq_some_iff.1 hlast
          have hfo : o.filter (fun k' => k' ≠ k) = l := by
            rw [hl]
            exact filter_ne_concat (hl ▸ ho)
          rw [(ih ho').2 hrest, hfo, ← hl]
      · rw [filter_ne_of_not_mem hk]
        simp only [hk, if_false, false_implies, true_and]
        exact ih ho

/-- **The exact condition for an undo log to restore a map with its order.** -/
theorem undoAll_eq_iff (m : InsertionMap κ α) (ws : List (Write κ α)) :
    (m.writeAll ws).undoAll (m.log ws) = m ↔ LastFirst m.keys ws := by
  rw [← survivors_append_removed_iff m.nodup_keys, ← keys_undoAll]
  constructor
  · intro h
    rw [h]
  · intro h
    exact ext_keys_get h (get_undoAll m ws)

end InsertionMap

end Tvmjs
