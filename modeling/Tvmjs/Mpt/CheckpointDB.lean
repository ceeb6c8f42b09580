import Mathlib.Data.List.Basic
import Mathlib.Data.Set.Function
import Tvmjs.Util.Account

/-!
# The checkpointed database

A key-value database under a stack of checkpoints.  Reads go through the checkpoints to the
database below and, during a checkpoint, leave what they found there in the newest one.

* `CheckpointDB.Reads` -- one database is another one after some reads; it holds the same values
  (`Reads.view`) and no other strings (`Reads.contents`);
* `CheckpointDB.view_batch` -- what a batch of puts changes.
-/

namespace Tvmjs

/-- The writes made to a map, the newest first; a deletion writes no value. -/
abbrev Entries := List (Bytes × Option Bytes)

/-- A checkpoint: the root at its start and what was written since. -/
structure Checkpoint where
  /-- Root of the trie at the moment of the checkpoint. -/
  root : Bytes
  /-- What was written or read since. -/
  keyValueMap : Entries

/-- A database with checkpoints, the newest first. -/
structure CheckpointDB where
  /-- The open checkpoints, the newest first. -/
  checkpoints : List Checkpoint
  /-- The database on disk. -/
  db : Entries

/-- One operation of a batch. -/
inductive BatchDBOp where
  | put (key value : Bytes)
  | del (key : Bytes)

namespace BatchDBOp

/-- The entry an operation writes. -/
def entry : BatchDBOp → Bytes × Option Bytes
  | put key value => (key, some value)
  | del key => (key, none)

end BatchDBOp

namespace CheckpointDB

/-- A database without checkpoints. -/
def ofEntries (db : Entries) : CheckpointDB := ⟨[], db⟩

/-- Whether a checkpoint is open. -/
def hasCheckpoints (d : CheckpointDB) : Bool := !d.checkpoints.isEmpty

/-- Adds a new checkpoint to the stack. -/
def checkpoint (root : Bytes) (d : CheckpointDB) : CheckpointDB :=
  { d with checkpoints := ⟨root, []⟩ :: d.checkpoints }

/-- Commits the latest checkpoint: its entries are written over those below. -/
def commit (d : CheckpointDB) : CheckpointDB :=
  match d.checkpoints with
  | [] => d
  | [c] => { checkpoints := [], db := c.keyValueMap ++ d.db }
  | c :: c' :: cs =>
    { d with checkpoints := { c' with keyValueMap := c.keyValueMap ++ c'.keyValueMap } :: cs }

/-- Reverts the latest checkpoint and returns the root at its start. -/
def revert (d : CheckpointDB) : Option Bytes × CheckpointDB :=
  match d.checkpoints with
  | [] => (none, d)
  | c :: cs => (some c.root, { d with checkpoints := cs })

/-- What the checkpoints say about a key. -/
def diff (d : CheckpointDB) (key : Bytes) : Option (Option Bytes) :=
  (d.checkpoints.flatMap Checkpoint.keyValueMap).lookup key

/-- Read a key.  A value found on disk, or its absence, is noted in the newest checkpoint. -/
def get (d : CheckpointDB) (key : Bytes) : Option Bytes × CheckpointDB :=
  match d.diff key with
  | some value => (value, d)
  | none =>
    let value := (d.db.lookup key).join
    match d.checkpoints with
    | [] => (value, d)
    | c :: cs =>
      (value, { d with
        checkpoints := { c with keyValueMap := (key, value) :: c.keyValueMap } :: cs })

/-- Write one entry. -/
def write (d : CheckpointDB) (e : Bytes × Option Bytes) : CheckpointDB :=
  match d.checkpoints with
  | [] => { d with db := e :: d.db }
  | c :: cs => { d with checkpoints := { c with keyValueMap := e :: c.keyValueMap } :: cs }

/-- Stores a value, in the innermost checkpoint or on disk. -/
def put (d : CheckpointDB) (key value : Bytes) : CheckpointDB := d.write (key, some value)

/-- Removes a key, in the innermost checkpoint or on disk. -/
def del (d : CheckpointDB) (key : Bytes) : CheckpointDB := d.write (key, none)

/-- Perform the operations in order. -/
def batch (d : CheckpointDB) : List BatchDBOp → CheckpointDB
  | [] => d
  | op :: opStack => (d.write op.entry).batch opStack

/-! ### What a database holds -/

/-- Everything written to the database, the newest first. -/
def entries (d : CheckpointDB) : Entries :=
  d.checkpoints.flatMap Checkpoint.keyValueMap ++ d.db

/-- The value of a key. -/
def view (d : CheckpointDB) (key : Bytes) : Option Bytes := (d.entries.lookup key).join

/-- The strings stored under any key at any time. -/
def contents (d : CheckpointDB) : Set Bytes := {v | ∃ key, (key, some v) ∈ d.entries}

theorem lookup_append {α β : Type*} [BEq α] [LawfulBEq α] (l l' : List (α × β)) (k : α) :
    (l ++ l').lookup k = (l.lookup k).or (l'.lookup k) := by
  induction l with
  | nil => rfl
  | cons e l ih =>
    obtain ⟨k', v⟩ := e
    rw [List.cons_append, List.lookup_cons, List.lookup_cons]
    split <;> simp [ih]

theorem get_fst (d : CheckpointDB) (key : Bytes) : (d.get key).1 = d.view key := by
  have hview : d.view key = ((d.diff key).or (d.db.lookup key)).join := by
    rw [view, entries, lookup_append]
    rfl
  rw [hview, get]
  split
  · rename_i value h
    rw [h]
    rfl
  · rename_i h
    rw [h]
    split <;> rfl

/-! ### Reads -/

/-- `d'` is `d` after some reads. -/
inductive Reads (d : CheckpointDB) : CheckpointDB → Prop
  | refl : Reads d d
  | get {d' : CheckpointDB} (h : Reads d d') (key : Bytes) : Reads d (d'.get key).2

theorem Reads.trans {d d' d'' : CheckpointDB} (h : Reads d d') (h' : Reads d' d'') :
    Reads d d'' := by
  induction h' with
  | refl => exact h
  | get _ key ih => exact ih.get key

/-- A read either changes nothing or notes a value that was there. -/
private theorem get_snd (d : CheckpointDB) (key : Bytes) :
    (d.get key).2 = d ∨ ((d.get key).2.entries = (key, d.view key) :: d.entries ∧
      d.diff key = none) := by
  rw [← get_fst, get]
  split
  · exact .inl rfl
  · rename_i h
    split
    · exact .inl rfl
    · rename_i c cs hcs
      refine .inr ⟨?_, h⟩
      simp [entries, hcs]

private theorem view_get (d : CheckpointDB) (key k : Bytes) : (d.get key).2.view k = d.view k := by
  rcases get_snd d key with h | ⟨h, -⟩
  · rw [h]
  · rw [view, h, List.lookup_cons]
    split
    · rename_i heq
      rw [eq_of_beq heq]
      rfl
    · rfl

theorem mem_of_view {d : CheckpointDB} {key v : Bytes} (h : d.view key = some v) :
    (key, some v) ∈ d.entries := by
  rw [view, Option.join_eq_some_iff, List.lookup_eq_some_iff] at h
  obtain ⟨l₁, l₂, hl, -⟩ := h
  rw [hl]
  simp

theorem Reads.view {d d' : CheckpointDB} (h : Reads d d') (k : Bytes) : d'.view k = d.view k := by
  induction h with
  | refl => rfl
  | get _ key ih => rw [view_get, ih]

/-- Reads add no entry that was not there. -/
theorem Reads.mem_entries {d d' : CheckpointDB} (h : Reads d d') {key v : Bytes} :
    (key, some v) ∈ d'.entries ↔ (key, some v) ∈ d.entries := by
  induction h with
  | refl => rfl
  | @get d'' _ k ih =>
    rw [← ih]
    rcases get_snd d'' k with h | ⟨h, -⟩
    · rw [h]
    · rw [h, List.mem_cons, Prod.mk.injEq, or_iff_right_iff_imp]
      rintro ⟨rfl, hv⟩
      exact mem_of_view hv.symm

theorem Reads.contents {d d' : CheckpointDB} (h : Reads d d') : d'.contents = d.contents := by
  ext v
  exact exists_congr fun key => h.mem_entries

/-! ### Writes -/

@[simp] theorem entries_write (d : CheckpointDB) (e : Bytes × Option Bytes) :
    (d.write e).entries = e :: d.entries := by
  rw [write]
  split
  · rename_i h
    simp [entries, h]
  · rename_i h
    simp [entries, h]

private theorem view_write (d : CheckpointDB) (e : Bytes × Option Bytes) (k : Bytes) :
    (d.write e).view k = if k = e.1 then e.2 else d.view k := by
  obtain ⟨k', v⟩ := e
  rw [view, entries_write, List.lookup_cons]
  by_cases h : k = k'
  · rw [if_pos h, h, beq_self_eq_true]
    rfl
  · rw [if_neg h, beq_false_of_ne h]
    rfl

theorem mem_entries_batch {d : CheckpointDB} {opStack : List BatchDBOp}
    {e : Bytes × Option Bytes} :
    e ∈ (d.batch opStack).entries ↔ e ∈ opStack.map BatchDBOp.entry ∨ e ∈ d.entries := by
  induction opStack generalizing d with
  | nil => simp [batch]
  | cons op opStack ih =>
    rw [batch, ih, entries_write, List.map_cons, List.mem_cons, List.mem_cons]
    tauto

/-! ### Content addressing -/

section Addressed

variable {hash : Bytes → Bytes}

/-- Every string is stored under its hash, after some prefix. -/
def Addressed (hash : Bytes → Bytes) (d : CheckpointDB) : Prop :=
  ∀ key v, (key, some v) ∈ d.entries → ∃ p, key = p ++ hash v

/-- Store strings under their hashes. -/
def putOps (hash : Bytes → Bytes) (keyPrefix : Bytes) (vs : List Bytes) : List BatchDBOp :=
  vs.map fun v => .put (keyPrefix ++ hash v) v

/-- Delete what is stored under the hashes of some strings. -/
def delOps (hash : Bytes → Bytes) (keyPrefix : Bytes) (vs : List Bytes) : List BatchDBOp :=
  vs.map fun v => .del (keyPrefix ++ hash v)

theorem Addressed.reads {d d' : CheckpointDB} (h : Addressed hash d) (hr : Reads d d') :
    Addressed hash d' := fun key v hv => h key v (hr.mem_entries.1 hv)

theorem Addressed.batch {d : CheckpointDB} (h : Addressed hash d) (keyPrefix : Bytes)
    (vs : List Bytes) : Addressed hash (d.batch (putOps hash keyPrefix vs)) := by
  intro key v hv
  rcases mem_entries_batch.1 hv with hv | hv
  · simp only [putOps, List.map_map, List.mem_map, Function.comp, BatchDBOp.entry,
      Prod.mk.injEq, Option.some.injEq] at hv
    obtain ⟨w, -, rfl, rfl⟩ := hv
    exact ⟨keyPrefix, rfl⟩
  · exact h key v hv

variable (hash) in
theorem contents_batch (d : CheckpointDB) (keyPrefix : Bytes) (vs : List Bytes) :
    (d.batch (putOps hash keyPrefix vs)).contents = {v | v ∈ vs} ∪ d.contents := by
  ext v
  constructor
  · rintro ⟨key, hkey⟩
    rcases mem_entries_batch.1 hkey with hv | hv
    · simp only [putOps, List.map_map, List.mem_map, Function.comp, BatchDBOp.entry,
        Prod.mk.injEq, Option.some.injEq] at hv
      obtain ⟨w, hw, -, rfl⟩ := hv
      exact .inl hw
    · exact .inr ⟨key, hv⟩
  · rintro (hv | ⟨key, hkey⟩)
    · refine ⟨keyPrefix ++ hash v, mem_entries_batch.2 (.inl ?_)⟩
      simp only [putOps, List.map_map, List.mem_map, Function.comp, BatchDBOp.entry]
      exact ⟨v, hv, rfl⟩
    · exact ⟨key, mem_entries_batch.2 (.inr hkey)⟩

theorem batch_append (d : CheckpointDB) (ops ops' : List BatchDBOp) :
    d.batch (ops ++ ops') = (d.batch ops).batch ops' := by
  induction ops generalizing d with
  | nil => rfl
  | cons op ops ih => exact ih _

/-- What a deletion leaves. -/
private theorem view_delOps (d : CheckpointDB) (keyPrefix : Bytes) (vs : List Bytes) (key : Bytes) :
    (d.batch (delOps hash keyPrefix vs)).view key =
      if ∃ v ∈ vs, key = keyPrefix ++ hash v then none else d.view key := by
  induction vs generalizing d with
  | nil => simp [delOps, CheckpointDB.batch]
  | cons w vs ih =>
    rw [delOps, List.map_cons, CheckpointDB.batch]
    refine (ih _).trans ?_
    rw [view_write]
    by_cases hw : key = keyPrefix ++ hash w
    · simp [BatchDBOp.entry, hw]
    · simp [BatchDBOp.entry, hw]

theorem Addressed.delOps {d : CheckpointDB} (h : Addressed hash d) (keyPrefix : Bytes)
    (vs : List Bytes) : Addressed hash (d.batch (delOps hash keyPrefix vs)) := by
  intro key v hv
  rcases mem_entries_batch.1 hv with hv | hv
  · simp [CheckpointDB.delOps, BatchDBOp.entry] at hv
  · exact h key v hv

theorem contents_delOps (d : CheckpointDB) (keyPrefix : Bytes) (vs : List Bytes) :
    (d.batch (delOps hash keyPrefix vs)).contents = d.contents := by
  ext v
  constructor
  · rintro ⟨key, hkey⟩
    rcases mem_entries_batch.1 hkey with hv | hv
    · simp [delOps, BatchDBOp.entry] at hv
    · exact ⟨key, hv⟩
  · rintro ⟨key, hkey⟩
    exact ⟨key, mem_entries_batch.2 (.inr hkey)⟩

/-- Keys under two prefixes: equal keys have equal prefixes and hashes. -/
theorem key_inj (hlen : ∀ v, (hash v).length = 32) {p p' v v' : Bytes}
    (h : p ++ hash v = p' ++ hash v') : p = p' ∧ hash v = hash v' :=
  List.append_inj' h ((hlen v).trans (hlen v').symm)

/-- **What a lookup under a hash returns is the string hashed.** -/
theorem Addressed.eq_of_view {d : CheckpointDB} {S : Set Bytes} (h : Addressed hash d)
    (hlen : ∀ v, (hash v).length = 32) (hS : Set.InjOn hash S) (hd : d.contents ⊆ S)
    {p v v' : Bytes} (hv : v ∈ S) (hview : d.view (p ++ hash v) = some v') : v' = v := by
  have hmem := mem_of_view hview
  obtain ⟨p', hp'⟩ := h _ _ hmem
  exact (hS hv (hd ⟨_, hmem⟩) (key_inj hlen hp').2).symm

/-- **Stored strings stay stored and are joined by the new ones.** -/
theorem view_batch {S : Set Bytes} (hlen : ∀ v, (hash v).length = 32) (hS : Set.InjOn hash S)
    {keyPrefix : Bytes} {vs : List Bytes} (hvs : ∀ v ∈ vs, v ∈ S) {d : CheckpointDB}
    {p v : Bytes} (hv : v ∈ S) (h : d.view (p ++ hash v) = some v ∨ p = keyPrefix ∧ v ∈ vs) :
    (d.batch (putOps hash keyPrefix vs)).view (p ++ hash v) = some v := by
  induction vs generalizing d with
  | nil =>
    rcases h with h | ⟨-, h⟩
    · exact h
    · cases h
  | cons w vs ih =>
    have hw : w ∈ S := hvs w List.mem_cons_self
    refine ih (fun u hu => hvs u (List.mem_cons_of_mem w hu)) ?_
    rw [view_write]
    change (if p ++ hash v = keyPrefix ++ hash w then some w else d.view (p ++ hash v)) = _ ∨ _
    split
    · rename_i hkey
      rw [hS hv hw (key_inj hlen hkey).2]
      exact .inl rfl
    · rename_i hkey
      rcases h with h | ⟨hp, h⟩
      · exact .inl h
      · rcases List.mem_cons.1 h with rfl | h
        · exact absurd (hp ▸ rfl) hkey
        · exact .inr ⟨hp, h⟩

/-- A string that is not among the new ones is stored as it was. -/
theorem view_batch_of_not_mem {S : Set Bytes} (hlen : ∀ v, (hash v).length = 32)
    (hS : Set.InjOn hash S) {keyPrefix : Bytes} {vs : List Bytes} (hvs : ∀ v ∈ vs, v ∈ S)
    {d : CheckpointDB} {p v : Bytes} (hv : v ∈ S) (h : v ∉ vs) :
    (d.batch (putOps hash keyPrefix vs)).view (p ++ hash v) = d.view (p ++ hash v) := by
  induction vs generalizing d with
  | nil => rfl
  | cons w vs ih =>
    have hw : w ∈ S := hvs w List.mem_cons_self
    have hne : p ++ hash v ≠ keyPrefix ++ hash w := fun hkey =>
      h (hS hv hw (key_inj hlen hkey).2 ▸ List.mem_cons_self)
    rw [putOps, List.map_cons, CheckpointDB.batch]
    refine (ih (fun u hu => hvs u (List.mem_cons_of_mem w hu))
      (fun hmem => h (List.mem_cons_of_mem w hmem))).trans ?_
    rw [view_write]
    exact if_neg hne

/-- What is in the database after a deletion. -/
theorem view_delOps_iff (d : CheckpointDB) (keyPrefix : Bytes) (vs : List Bytes) {key v : Bytes} :
    (d.batch (delOps hash keyPrefix vs)).view key = some v ↔
      (∀ e ∈ vs, key ≠ keyPrefix ++ hash e) ∧ d.view key = some v := by
  rw [view_delOps]
  split
  · rename_i h
    obtain ⟨e, he, hkey⟩ := h
    simp only [reduceCtorEq, false_iff, not_and]
    exact fun hne => absurd hkey (hne e he)
  · rename_i h
    rw [iff_and_self]
    exact fun _ e he hkey => h ⟨e, he, hkey⟩

/-- What is in the database after some strings are stored. -/
theorem view_putOps {S : Set Bytes} (hlen : ∀ v, (hash v).length = 32) (hS : Set.InjOn hash S)
    {vs : List Bytes} (hvs : ∀ v ∈ vs, v ∈ S) (d : CheckpointDB) (keyPrefix : Bytes)
    {key v : Bytes} : (d.batch (putOps hash keyPrefix vs)).view key = some v ↔
      v ∈ vs ∧ key = keyPrefix ++ hash v ∨
        (∀ e ∈ vs, key ≠ keyPrefix ++ hash e) ∧ d.view key = some v := by
  by_cases hkey : ∃ e ∈ vs, key = keyPrefix ++ hash e
  · obtain ⟨e, he, rfl⟩ := hkey
    rw [view_batch hlen hS hvs (hvs e he) (.inr ⟨rfl, he⟩), Option.some_inj]
    constructor
    · rintro rfl
      exact .inl ⟨he, rfl⟩
    · rintro (⟨hv, hkey⟩ | ⟨hne, -⟩)
      · exact hS (hvs e he) (hvs v hv) (key_inj hlen hkey).2
      · exact absurd rfl (hne e he)
  · have hsame : (d.batch (putOps hash keyPrefix vs)).view key = d.view key := by
      clear hvs
      induction vs generalizing d with
      | nil => rfl
      | cons w vs ih =>
        rw [putOps, List.map_cons, CheckpointDB.batch]
        refine (ih _ fun ⟨e, he, h⟩ => hkey ⟨e, List.mem_cons_of_mem w he, h⟩).trans ?_
        rw [view_write]
        exact if_neg fun h => hkey ⟨w, List.mem_cons_self, h⟩
    rw [hsame]
    constructor
    · exact fun h => .inr ⟨fun e he h' => hkey ⟨e, he, h'⟩, h⟩
    · rintro (⟨hv, h⟩ | ⟨-, h⟩)
      · exact absurd ⟨v, hv, h⟩ hkey
      · exact h

end Addressed

end CheckpointDB

end Tvmjs
