import Tvmjs.Base.LruCache
import Mathlib.Logic.Function.Basic

/-!
# Reading a table through a cache

A cache stands in front of a table.  A read that misses the cache is answered by the table and then
remembered; what is written to the table is written to the cache or dropped from it.  As long as the
cache holds nothing but what the table holds, no read shows that there is a cache.

* `LRUCache.Agrees` -- what is cached is what the table holds;
* `LRUCache.readThrough` -- a read;
* `Lawful.readThrough_fst` -- **a read answers as the table does**;
* `Lawful.agrees_new`, `agrees_readThrough`, `agrees_set`, `agrees_delete` -- what keeps a cache in
  agreement with its table.
-/

namespace Tvmjs

namespace LRUCache

variable {κ ν : Type}

/-- Whatever the cache holds is what the table holds. -/
def Agrees (lru : LRUCache κ ν) (c : lru.Carrier) (table : κ → Option ν) : Prop :=
  ∀ k v, lru.peek c k = some v → table k = some v

/-- Read a key from the cache, and on a miss from the table; what the table has is remembered. -/
def readThrough (lru : LRUCache κ ν) (c : lru.Carrier) (table : κ → Option ν) (k : κ) :
    Option ν × lru.Carrier :=
  match lru.get c k with
  | (some v, c) => (some v, c)
  | (none, c) =>
    match table k with
    | some v => (some v, lru.set c k v)
    | none => (none, c)

namespace Lawful

variable [DecidableEq κ] {lru : LRUCache κ ν} (hlru : lru.Lawful) {c : lru.Carrier}
  {table table' : κ → Option ν}

include hlru

/-- An empty cache agrees with every table. -/
theorem agrees_new (n : ℕ) (table : κ → Option ν) : lru.Agrees (lru.new n) table := by
  intro k v hv
  rw [hlru.peek_new] at hv
  cases hv

/-- A write to the table goes to the cache as well. -/
theorem agrees_set (h : lru.Agrees c table) {k : κ} {v : ν}
    (htable : ∀ k', table' k' = if k' = k then some v else table k') :
    lru.Agrees (lru.set c k v) table' := by
  intro k' v' hv'
  rw [htable]
  rcases hlru.peek_set_eq hv' with ⟨rfl, rfl⟩ | ⟨hne, hold⟩
  · exact if_pos rfl
  · rw [if_neg hne]
    exact h k' v' hold

/-- What leaves the table leaves the cache. -/
theorem agrees_delete (h : lru.Agrees c table) {k : κ}
    (htable : ∀ k', table' k' = if k' = k then none else table k') :
    lru.Agrees (lru.delete c k) table' := by
  intro k' v' hv'
  rw [hlru.peek_delete] at hv'
  rw [htable]
  split at hv'
  · cases hv'
  · rw [if_neg ‹_›]
    exact h k' v' hv'

/-- Reading moves a key to the front, and changes nothing that is held. -/
theorem agrees_get (h : lru.Agrees c table) (k : κ) : lru.Agrees (lru.get c k).2 table := by
  intro k' v' hv'
  rw [hlru.peek_get] at hv'
  exact h k' v' hv'

/-- A read answers as the table does. -/
theorem readThrough_fst (h : lru.Agrees c table) (k : κ) :
    (lru.readThrough c table k).1 = table k := by
  have hget := hlru.get_fst c k
  unfold readThrough
  rcases hcase : lru.get c k with ⟨_ | v, c'⟩
  · cases table k with
    | none => rfl
    | some v => rfl
  · rw [hcase] at hget
    exact (h k v hget.symm).symm

/-- A read keeps the cache in agreement. -/
theorem agrees_readThrough (h : lru.Agrees c table) (k : κ) :
    lru.Agrees (lru.readThrough c table k).2 table := by
  have hstays := hlru.agrees_get h k
  unfold readThrough
  rcases hcase : lru.get c k with ⟨_ | v, c'⟩
  · rw [hcase] at hstays
    cases htable : table k with
    | none => exact hstays
    | some v =>
      -- what is remembered is what the table holds
      refine hlru.agrees_set hstays fun k' => ?_
      split
      · next heq => rw [heq, htable]
      · rfl
  · rw [hcase] at hstays
    exact hstays

end Lawful

end LRUCache

end Tvmjs
