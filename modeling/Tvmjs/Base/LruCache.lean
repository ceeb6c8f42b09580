import Mathlib.Data.List.Nodup
import Mathlib.Data.List.Basic

/-!
# Caches that drop the least recently used entry

A cache that holds at most `max` entries and, to take one more, drops the one that was written or
read the longest ago.

* `LRUCache` -- the operations;
* `LRUCache.Lawful` -- their documented behaviour, in terms of the keys from the most to the least
  recently used one;
* `LRUCache.ofList` -- a cache that keeps its entries in a list, in that order.
-/

namespace Tvmjs

/-- The operations of a cache with a bounded number of entries. -/
structure LRUCache (κ ν : Type) where
  /-- The states of a cache. -/
  Carrier : Type
  /-- An empty cache for so many entries. -/
  new : ℕ → Carrier
  /-- Read an entry, which becomes the most recently used one. -/
  get : Carrier → κ → Option ν × Carrier
  /-- Write an entry, which becomes the most recently used one. -/
  set : Carrier → κ → ν → Carrier
  /-- Remove an entry. -/
  delete : Carrier → κ → Carrier
  /-- How many entries the cache may hold. -/
  max : Carrier → ℕ
  /-- The keys, from the most to the least recently used one. -/
  keys : Carrier → List κ
  /-- Read an entry and leave the order as it is. -/
  peek : Carrier → κ → Option ν

namespace LRUCache

variable {κ ν : Type} [DecidableEq κ]

/-- The documented behaviour of a cache of recently used entries. -/
structure Lawful (lru : LRUCache κ ν) : Prop where
  nodup : ∀ c, (lru.keys c).Nodup
  peek_isSome : ∀ c k, (lru.peek c k).isSome ↔ k ∈ lru.keys c
  max_new : ∀ n, lru.max (lru.new n) = n
  keys_new : ∀ n, lru.keys (lru.new n) = []
  get_fst : ∀ c k, (lru.get c k).1 = lru.peek c k
  max_get : ∀ c k, lru.max (lru.get c k).2 = lru.max c
  keys_get : ∀ c k, lru.keys (lru.get c k).2 =
    if k ∈ lru.keys c then k :: (lru.keys c).erase k else lru.keys c
  peek_get : ∀ c k, lru.peek (lru.get c k).2 = lru.peek c
  max_set : ∀ c k v, lru.max (lru.set c k v) = lru.max c
  keys_set : ∀ c k v, lru.keys (lru.set c k v) = (k :: (lru.keys c).erase k).take (lru.max c)
  peek_set : ∀ c k v k', k' ∈ lru.keys (lru.set c k v) →
    lru.peek (lru.set c k v) k' = if k' = k then some v else lru.peek c k'
  max_delete : ∀ c k, lru.max (lru.delete c k) = lru.max c
  keys_delete : ∀ c k, lru.keys (lru.delete c k) = (lru.keys c).erase k
  peek_delete : ∀ c k k', lru.peek (lru.delete c k) k' = if k' = k then none else lru.peek c k'

namespace Lawful

variable {lru : LRUCache κ ν} (h : lru.Lawful)

include h

theorem peek_new (n : ℕ) (k : κ) : lru.peek (lru.new n) k = none := by
  rw [← Option.not_isSome_iff_eq_none, h.peek_isSome, h.keys_new]
  exact List.not_mem_nil

/-- What is held after a write is what was written or what was held before. -/
theorem peek_set_eq {c : lru.Carrier} {k k' : κ} {v v' : ν}
    (hv : lru.peek (lru.set c k v) k' = some v') :
    (k' = k ∧ v' = v) ∨ (k' ≠ k ∧ lru.peek c k' = some v') := by
  have hmem := (h.peek_isSome _ k').1 (by rw [hv]; rfl)
  rw [h.peek_set c k v k' hmem] at hv
  by_cases hk : k' = k
  · rw [if_pos hk, Option.some.injEq] at hv
    exact .inl ⟨hk, hv.symm⟩
  · rw [if_neg hk] at hv
    exact .inr ⟨hk, hv⟩

end Lawful

/-! ### A cache in a list -/

/-- The entries of a cache that keeps them in a list. -/
structure ListCache (κ ν : Type) where
  /-- How many entries may be held. -/
  max : ℕ
  /-- The entries, from the most to the least recently used one. -/
  entries : List (κ × ν)
  /-- No key stands twice. -/
  nodup : (entries.map Prod.fst).Nodup

namespace ListCache

/-- The entries without those of one key. -/
def erase (l : List (κ × ν)) (k : κ) : List (κ × ν) := l.filter fun e => e.1 ≠ k

theorem map_erase (l : List (κ × ν)) (k : κ) (hl : (l.map Prod.fst).Nodup) :
    (erase l k).map Prod.fst = (l.map Prod.fst).erase k := by
  rw [hl.erase_eq_filter, List.filter_map, erase]
  refine congrArg _ (List.filter_congr fun e _ => ?_)
  by_cases hk : e.1 = k <;> simp [hk]

theorem lookup_erase (l : List (κ × ν)) (k k' : κ) :
    (erase l k).lookup k' = if k' = k then none else l.lookup k' := by
  induction l with
  | nil => simp [erase]
  | cons e l ih =>
    rw [erase] at ih ⊢
    by_cases hk : e.1 = k
    · rw [List.filter_cons_of_neg (by simpa using hk), ih, List.lookup_cons]
      by_cases hk' : k' = k
      · rw [if_pos hk', if_pos hk']
      · rw [if_neg hk', if_neg hk', beq_false_of_ne fun h => hk' (h.trans hk)]
    · rw [List.filter_cons_of_pos (by simpa using hk), List.lookup_cons, ih, List.lookup_cons]
      by_cases hk' : k' = e.1
      · subst hk'
        simp only [beq_self_eq_true, if_neg hk]
      · rw [beq_false_of_ne hk']

theorem lookup_isSome (l : List (κ × ν)) (k : κ) : (l.lookup k).isSome ↔ k ∈ l.map Prod.fst := by
  induction l with
  | nil => simp
  | cons e l ih =>
    rw [List.lookup_cons, List.map_cons, List.mem_cons, ← ih]
    by_cases hk : k = e.1
    · simp [hk]
    · simp [beq_false_of_ne hk, hk]

/-- Cutting a list off changes no entry that stays. -/
theorem lookup_take (l : List (κ × ν)) (n : ℕ) (k : κ) (hk : k ∈ (l.take n).map Prod.fst) :
    (l.take n).lookup k = l.lookup k := by
  have hsplit := List.take_append_drop n l
  obtain ⟨v, hv⟩ := Option.isSome_iff_exists.1 ((lookup_isSome _ k).2 hk)
  conv_rhs => rw [← hsplit]
  generalize l.take n = a at *
  generalize l.drop n = b at *
  clear hk hsplit
  induction a with
  | nil => cases hv
  | cons e a ih =>
    rw [List.cons_append, List.lookup_cons, List.lookup_cons]
    rw [List.lookup_cons] at hv
    cases hb : k == e.1 with
    | true => rfl
    | false =>
      rw [hb] at hv
      exact ih hv

/-- Read an entry and put it in front. -/
def get (c : ListCache κ ν) (k : κ) : Option ν × ListCache κ ν :=
  match h : c.entries.lookup k with
  | none => (none, c)
  | some v => (some v, ⟨c.max, (k, v) :: erase c.entries k, by
      rw [List.map_cons, map_erase _ _ c.nodup]
      exact List.nodup_cons.2 ⟨c.nodup.not_mem_erase, c.nodup.erase k⟩⟩)

/-- Write an entry in front and cut the last one off when there are too many. -/
def set (c : ListCache κ ν) (k : κ) (v : ν) : ListCache κ ν :=
  ⟨c.max, ((k, v) :: erase c.entries k).take c.max, by
    rw [List.map_take, List.map_cons, map_erase _ _ c.nodup]
    exact (List.nodup_cons.2 ⟨c.nodup.not_mem_erase, c.nodup.erase k⟩).take⟩

/-- Removes a key. -/
def delete (c : ListCache κ ν) (k : κ) : ListCache κ ν :=
  ⟨c.max, erase c.entries k, by
    rw [map_erase _ _ c.nodup]
    exact c.nodup.erase k⟩

end ListCache

/-- The cache that keeps its entries in a list. -/
def ofList (κ ν : Type) [DecidableEq κ] : LRUCache κ ν where
  Carrier := ListCache κ ν
  new n := ⟨n, [], List.nodup_nil⟩
  get := ListCache.get
  set := ListCache.set
  delete := ListCache.delete
  max c := c.max
  keys c := c.entries.map Prod.fst
  peek c k := c.entries.lookup k

theorem lawful_ofList : (ofList κ ν).Lawful where
  nodup c := c.nodup
  peek_isSome c k := ListCache.lookup_isSome c.entries k
  max_new _ := rfl
  keys_new _ := rfl
  get_fst c k := by
    change (ListCache.get c k).1 = c.entries.lookup k
    unfold ListCache.get
    split <;> simp [*]
  max_get c k := by
    change (ListCache.get c k).2.max = c.max
    unfold ListCache.get
    split <;> rfl
  keys_get c k := by
    change (ListCache.get c k).2.entries.map Prod.fst = if k ∈ c.entries.map Prod.fst then
      k :: (c.entries.map Prod.fst).erase k else c.entries.map Prod.fst
    have hmem := ListCache.lookup_isSome c.entries k
    unfold ListCache.get
    split
    · rename_i h
      rw [h] at hmem
      rw [if_neg fun hk => by cases hmem.2 hk]
    · rename_i v h
      rw [h] at hmem
      rw [if_pos (hmem.1 rfl), List.map_cons, ListCache.map_erase _ _ c.nodup]
  peek_get c k := by
    change (fun k' => (ListCache.get c k).2.entries.lookup k') = fun k' => c.entries.lookup k'
    funext k'
    unfold ListCache.get
    split
    · rfl
    · rename_i v h
      rw [List.lookup_cons, ListCache.lookup_erase]
      by_cases hk : k' = k
      · rw [hk, beq_self_eq_true, h]
      · rw [beq_false_of_ne hk, if_neg hk]
  max_set _ _ _ := rfl
  keys_set c k v := by
    change (((k, v) :: ListCache.erase c.entries k).take c.max).map Prod.fst = _
    rw [List.map_take, List.map_cons, ListCache.map_erase _ _ c.nodup]
    rfl
  peek_set c k v k' hk' := by
    change (((k, v) :: ListCache.erase c.entries k).take c.max).lookup k' = _
    rw [ListCache.lookup_take _ _ _ hk', List.lookup_cons, ListCache.lookup_erase]
    by_cases hk : k' = k
    · subst hk
      simp only [beq_self_eq_true, if_true]
    · rw [beq_false_of_ne hk, if_neg hk, if_neg hk]
      rfl
  max_delete _ _ := rfl
  keys_delete c k := ListCache.map_erase c.entries k c.nodup
  peek_delete c k k' := ListCache.lookup_erase c.entries k k'

end LRUCache

end Tvmjs
