import Mathlib.Data.List.Nodup
import Mathlib.Data.List.Basic

/-!
# Maps that remember their insertion order

An `InsertionMap κ α` is a finite map together with the order in which its keys were first
inserted.  Writing a key which is present changes the value **in place**; writing a key which is
absent appends it; deleting a key and writing it again therefore moves it to the end.

* `InsertionMap.get_set`, `InsertionMap.get_delete` -- the map laws;
* `InsertionMap.keys_set`, `InsertionMap.keys_delete` -- the order laws;
* `InsertionMap.ext_keys_get` -- a map is determined by its key order and its lookups.
-/

namespace Tvmjs

/-- A finite map whose entries stand in insertion order, each key once. -/
structure InsertionMap (κ α : Type*) where
  /-- The entries, oldest first. -/
  entries : List (κ × α)
  /-- No key stands twice. -/
  nodup : (entries.map Prod.fst).Nodup

namespace InsertionMap

variable {κ α : Type*}

/-- The empty map. -/
def empty : InsertionMap κ α := ⟨[], List.nodup_nil⟩

instance : Inhabited (InsertionMap κ α) := ⟨empty⟩

/-- The keys in iteration order. -/
def keys (m : InsertionMap κ α) : List κ := m.entries.map Prod.fst

/-- The values in iteration order. -/
def values (m : InsertionMap κ α) : List α := m.entries.map Prod.snd

theorem nodup_keys (m : InsertionMap κ α) : m.keys.Nodup := m.nodup

variable [DecidableEq κ]

/-- The value held under `k`, if any. -/
def get (m : InsertionMap κ α) (k : κ) : Option α :=
  (m.entries.find? fun e => e.1 = k).map Prod.snd

/-- Whether `k` is present. -/
def has (m : InsertionMap κ α) (k : κ) : Bool := (m.get k).isSome

/-- The entries with the value of `k` replaced in place. -/
private def overwrite (k : κ) (v : α) (l : List (κ × α)) : List (κ × α) :=
  l.map fun e => if e.1 = k then (k, v) else e

/-- Overwriting keeps the keys in place. -/
private theorem map_fst_overwrite (k : κ) (v : α) (l : List (κ × α)) :
    (overwrite k v l).map Prod.fst = l.map Prod.fst := by
  simp only [overwrite, List.map_map]
  refine List.map_congr_left fun e _ => ?_
  by_cases h : e.1 = k <;> simp [h]

/-- Write `v` under `k`: in place when `k` is present, at the end when it is not. -/
def set (m : InsertionMap κ α) (k : κ) (v : α) : InsertionMap κ α :=
  if h : k ∈ m.keys then
    ⟨overwrite k v m.entries, by rw [map_fst_overwrite]; exact m.nodup⟩
  else
    ⟨m.entries ++ [(k, v)], by
      rw [List.map_append, List.map_singleton]
      exact List.nodup_append.2 ⟨m.nodup, List.nodup_singleton k, by
        intro a ha b hb
        rw [List.mem_singleton.1 hb]
        rintro rfl
        exact h ha⟩⟩

/-- Remove `k`; nothing happens when it is absent. -/
def delete (m : InsertionMap κ α) (k : κ) : InsertionMap κ α :=
  ⟨m.entries.filter fun e => e.1 ≠ k, m.nodup.sublist (List.filter_sublist.map _)⟩

/-- Write or remove: the way back to a lookup `v`. -/
def put (m : InsertionMap κ α) (k : κ) : Option α → InsertionMap κ α
  | some v => m.set k v
  | none => m.delete k

/-! ### Lookups -/

@[simp] theorem get_empty (k : κ) : (empty : InsertionMap κ α).get k = none := rfl

/-- A lookup succeeds exactly on the keys. -/
theorem get_isSome_iff {m : InsertionMap κ α} {k : κ} : (m.get k).isSome ↔ k ∈ m.keys := by
  simp only [get, keys, Option.isSome_map, List.find?_isSome, decide_eq_true_eq, List.mem_map]

/-- A key is not found where it is not among the keys. -/
theorem get_eq_none_iff {m : InsertionMap κ α} {k : κ} : m.get k = none ↔ k ∉ m.keys := by
  rw [← get_isSome_iff, Option.not_isSome_iff_eq_none]

/-- A key that is found is among the keys. -/
theorem mem_keys_of_get {m : InsertionMap κ α} {k : κ} {v : α} (h : m.get k = some v) :
    k ∈ m.keys :=
  get_isSome_iff.1 (by rw [h]; rfl)

/-- Overwriting changes one entry. -/
private theorem find?_overwrite (k : κ) (v : α) (l : List (κ × α)) (k' : κ) :
    ((overwrite k v l).find? fun e => e.1 = k').map Prod.snd =
      if k' = k ∧ k ∈ l.map Prod.fst then some v
      else (l.find? fun e => e.1 = k').map Prod.snd := by
  induction l with
  | nil => simp [overwrite]
  | cons e l ih =>
    simp only [overwrite, List.map_cons, List.find?_cons, List.mem_cons] at ih ⊢
    by_cases he : e.1 = k
    · by_cases hk : k' = k
      · simp [he, hk]
      · have hk' : ¬ k = k' := fun h => hk h.symm
        simp only [he, if_true, hk', decide_false, ih, hk, false_and, if_false]
    · by_cases hek : e.1 = k'
      · subst hek
        simp [he]
      · have hke : ¬ k = e.1 := fun h => he h.symm
        simp only [he, if_false, hek, decide_false, ih, hke, false_or]

/-- A key that was set is found, the others stay. -/
theorem get_set (m : InsertionMap κ α) (k k' : κ) (v : α) :
    (m.set k v).get k' = if k' = k then some v else m.get k' := by
  unfold set
  split
  · rename_i h
    have hl := find?_overwrite k v m.entries k'
    simp only [get]
    rw [hl]
    by_cases hk : k' = k
    · simp only [hk, true_and, if_true]
      exact if_pos h
    · simp [hk]
  · rename_i h
    simp only [get, List.find?_append]
    by_cases hk : k' = k
    · subst hk
      have hnone : m.get k' = none := get_eq_none_iff.2 h
      simp only [get, Option.map_eq_none_iff] at hnone
      simp [hnone]
    · have hk' : ¬ k = k' := fun h => hk h.symm
      simp [hk, hk']

@[simp] theorem get_set_self (m : InsertionMap κ α) (k : κ) (v : α) :
    (m.set k v).get k = some v := by
  rw [get_set, if_pos rfl]

theorem get_set_of_ne (m : InsertionMap κ α) {k k' : κ} (v : α) (h : k' ≠ k) :
    (m.set k v).get k' = m.get k' := by
  rw [get_set, if_neg h]

/-- A key that was deleted is not found, the others stay. -/
theorem get_delete (m : InsertionMap κ α) (k k' : κ) :
    (m.delete k).get k' = if k' = k then none else m.get k' := by
  simp only [get, delete, List.find?_filter]
  by_cases hk : k' = k
  · subst hk
    rw [if_pos rfl, Option.map_eq_none_iff, List.find?_eq_none]
    intro e _
    by_cases he : e.1 = k' <;> simp [he]
  · rw [if_neg hk]
    congr 2
    funext e
    by_cases he : e.1 = k'
    · simp [he, hk]
    · simp [he]

/-- A key is set or deleted. -/
theorem get_put (m : InsertionMap κ α) (k k' : κ) (o : Option α) :
    (m.put k o).get k' = if k' = k then o else m.get k' := by
  cases o with
  | none => exact get_delete m k k'
  | some v => exact get_set m k k' v

/-- An entry is what a lookup of its key finds. -/
theorem get_of_mem {m : InsertionMap κ α} {e : κ × α} (h : e ∈ m.entries) :
    m.get e.1 = some e.2 := by
  obtain ⟨l₁, l₂, hsplit⟩ := List.append_of_mem h
  have hnodup := m.nodup
  rw [hsplit, List.map_append, List.map_cons, List.nodup_append] at hnodup
  have hbefore : (l₁.find? fun e' => e'.1 = e.1) = none := by
    refine List.find?_eq_none.2 fun e' he' heq => ?_
    exact hnodup.2.2 e'.1 (List.mem_map_of_mem he') e.1 List.mem_cons_self (of_decide_eq_true heq)
  simp [get, hsplit, List.find?_append, hbefore]

theorem get_eq_lookup (m : InsertionMap κ α) (k : κ) : m.get k = m.entries.lookup k := by
  rw [get]
  induction m.entries with
  | nil => rfl
  | cons e l ih =>
    rw [List.find?_cons, List.lookup_cons]
    by_cases hk : e.1 = k
    · simp [hk]
    · simp only [hk, decide_false, ih, beq_false_of_ne fun h : k = e.1 => hk h.symm]

/-- Writing all entries of a map over another one. -/
theorem get_foldl_entries (m m' : InsertionMap κ α) (k : κ) :
    (m.entries.foldl (fun m e => m.set e.1 e.2) m').get k = (m.get k).or (m'.get k) := by
  obtain ⟨l, hnodup⟩ := m
  rw [get_eq_lookup ⟨l, hnodup⟩]
  change (l.foldl (fun m e => m.set e.1 e.2) m').get k = (l.lookup k).or (m'.get k)
  induction l generalizing m' with
  | nil => rfl
  | cons e l ih =>
    rw [List.map_cons, List.nodup_cons] at hnodup
    rw [List.foldl_cons, ih _ hnodup.2, get_set, List.lookup_cons]
    by_cases hk : k = e.1
    · have hnone : l.lookup k = none := by
        rw [List.lookup_eq_none_iff]
        intro e' he'
        refine bne_iff_ne.2 fun h => hnodup.1 ?_
        rw [← hk, h]
        exact List.mem_map_of_mem he'
      rw [hnone, if_pos hk, hk, beq_self_eq_true]
      rfl
    · rw [if_neg hk, beq_false_of_ne hk]

/-! ### Iteration order -/

/-- An overwritten key keeps its place; a new key goes to the end. -/
theorem keys_set (m : InsertionMap κ α) (k : κ) (v : α) :
    (m.set k v).keys = if k ∈ m.keys then m.keys else m.keys ++ [k] := by
  unfold set
  split
  · rename_i h
    exact map_fst_overwrite k v m.entries
  · rename_i h
    simp [keys]

/-- Setting a key that is there keeps the order. -/
theorem keys_set_of_mem {m : InsertionMap κ α} {k : κ} (v : α) (h : k ∈ m.keys) :
    (m.set k v).keys = m.keys := by
  rw [keys_set, if_pos h]

/-- Setting a new key puts it at the end. -/
theorem keys_set_of_not_mem {m : InsertionMap κ α} {k : κ} (v : α) (h : k ∉ m.keys) :
    (m.set k v).keys = m.keys ++ [k] := by
  rw [keys_set, if_neg h]

theorem entries_set_of_not_mem {m : InsertionMap κ α} {k : κ} (v : α) (h : k ∉ m.keys) :
    (m.set k v).entries = m.entries ++ [(k, v)] := by rw [set, dif_neg h]

/-- So it does with its value. -/
theorem values_set_of_not_mem {m : InsertionMap κ α} {k : κ} (v : α) (h : k ∉ m.keys) :
    (m.set k v).values = m.values ++ [v] := by
  rw [set, dif_neg h, values, values, List.map_append, List.map_singleton]

/-- Deleting keeps the order of the others. -/
theorem keys_delete (m : InsertionMap κ α) (k : κ) :
    (m.delete k).keys = m.keys.filter fun k' => k' ≠ k := by
  simp only [keys, delete, List.filter_map]
  rfl

/-- A map is determined by its key order and its lookups. -/
theorem ext_keys_get {m m' : InsertionMap κ α} (hk : m.keys = m'.keys)
    (hg : ∀ k, m.get k = m'.get k) : m = m' := by
  obtain ⟨l, hl⟩ := m
  obtain ⟨l', hl'⟩ := m'
  congr 1
  simp only [keys, get] at hk hg
  induction l generalizing l' with
  | nil =>
    cases l' with
    | nil => rfl
    | cons e' l' => simp at hk
  | cons e l ih =>
    cases l' with
    | nil => simp at hk
    | cons e' l' =>
      simp only [List.map_cons, List.cons.injEq] at hk
      obtain ⟨hfst, hrest⟩ := hk
      have hsnd : e.2 = e'.2 := by
        have h := hg e.1
        simpa [hfst] using h
      have htail : l = l' := by
        refine ih (List.nodup_cons.1 hl).2 l' (List.nodup_cons.1 hl').2 hrest fun k => ?_
        have h := hg k
        simp only [List.find?_cons] at h
        by_cases hek : e.1 = k
        · have hnot : k ∉ l.map Prod.fst := hek ▸ (List.nodup_cons.1 hl).1
          have hnone : l.find? (fun e => e.1 = k) = none := by
            rw [List.find?_eq_none]
            intro x hx
            simp only [decide_eq_true_eq]
            rintro rfl
            exact hnot (List.mem_map_of_mem hx)
          have hnone' : l'.find? (fun e => e.1 = k) = none := by
            rw [List.find?_eq_none]
            intro x hx
            simp only [decide_eq_true_eq]
            rintro rfl
            exact hnot (hrest ▸ List.mem_map_of_mem hx)
          rw [hnone, hnone']
        · have hek' : ¬ e'.1 = k := hfst ▸ hek
          simpa [hek, hek'] using h
      rw [htail, Prod.ext hfst hsnd]

/-- Deleting an absent key changes nothing. -/
theorem delete_of_not_mem {m : InsertionMap κ α} {k : κ} (h : k ∉ m.keys) :
    m.delete k = m := by
  refine ext_keys_get ?_ fun k' => ?_
  · rw [keys_delete, List.filter_eq_self]
    intro k' hk'
    simp only [ne_eq, decide_not, Bool.not_eq_true', decide_eq_false_iff_not]
    rintro rfl
    exact h hk'
  · rw [get_delete]
    split
    · rename_i hk
      rw [hk, get_eq_none_iff.2 h]
    · rfl

/-- Deleting a key right after it was added changes nothing. -/
theorem delete_set_of_not_mem {m : InsertionMap κ α} {k : κ} (v : α) (h : k ∉ m.keys) :
    (m.set k v).delete k = m := by
  refine ext_keys_get ?_ fun k' => ?_
  · have hfilter : m.keys.filter (fun k' => k' ≠ k) = m.keys := by
      rw [← keys_delete, delete_of_not_mem h]
    rw [keys_delete, keys_set_of_not_mem v h, List.filter_append, hfilter]
    simp
  · rw [get_delete, get_set]
    split
    · rename_i hk
      rw [hk, get_eq_none_iff.2 h]
    · rfl

/-- Writing back the value a key held before it was overwritten changes nothing. -/
theorem set_set_of_get {m : InsertionMap κ α} {k : κ} {v : α} (v' : α) (h : m.get k = some v) :
    (m.set k v').set k v = m := by
  have hk := mem_keys_of_get h
  have hkeys : (m.set k v').keys = m.keys := keys_set_of_mem v' hk
  refine ext_keys_get ?_ fun k' => ?_
  · rw [keys_set_of_mem v (hkeys ▸ hk), hkeys]
  · rw [get_set, get_set]
    split
    · rename_i hk'
      rw [hk', h]
    · rfl

/-! ### Lists under keys -/

/-- One more entry of the list under a key. -/
def push (m : InsertionMap κ (List α)) (k : κ) (a : α) : InsertionMap κ (List α) :=
  match m.get k with
  | none => m.set k [a]
  | some stated => m.set k (stated ++ [a])

/-- An element is added at the end of a list. -/
theorem get_push (m : InsertionMap κ (List α)) (k k' : κ) (a : α) :
    (m.push k a).get k' = if k' = k then some ((m.get k).getD [] ++ [a]) else m.get k' := by
  rw [push]
  cases h : m.get k with
  | none =>
    dsimp only
    rw [get_set]
    rfl
  | some stated =>
    dsimp only
    rw [get_set]
    rfl

/-- What a loop that files its items leaves under a key. -/
theorem getD_foldl_push {β : Type*} (key : β → κ) (item : β → α) (l : List β)
    (m : InsertionMap κ (List α)) (k : κ) :
    ((l.foldl (fun m b => m.push (key b) (item b)) m).get k).getD [] =
      (m.get k).getD [] ++ (l.filter fun b => key b = k).map item := by
  induction l generalizing m with
  | nil => exact (List.append_nil _).symm
  | cons b l ih =>
    rw [List.foldl_cons, ih, get_push, List.filter_cons]
    by_cases hb : key b = k
    · rw [if_pos hb.symm, decide_eq_true hb, if_pos rfl, Option.getD_some, List.map_cons,
        List.append_assoc, hb]
      rfl
    · rw [if_neg (Ne.symm hb), decide_eq_false hb, if_neg Bool.false_ne_true]

end InsertionMap

end Tvmjs
