import Tvmjs.Base.InsertionMap
import Tvmjs.Base.Rollback
import Tvmjs.Util.Account
import Mathlib.Logic.Function.Basic

/-!
# Transient storage

`TransientStorage` keeps one map, a journal of the previous values and the lengths the journal had
at the open checkpoints.  The reference keeps copies of the whole map (`Snapshots`).

* `Represents` -- what ties the two: the journal, cut at the indices, rolls the values back from
  copy to copy, and undoing all of it leaves nothing;
* `Represents.step` -- every accepted operation keeps this, a `clear` under the condition that all
  open indices are zero;
* `transientStorage_refines` -- hence all reads of a run agree with the reference as long as every
  `clear` meets that condition; one `clear` that does not can be followed by reads that differ.
-/

namespace Tvmjs

/-- One recorded change: the slot and the value it had before. -/
structure TransientStorageModification where
  addr : Address
  key : Bytes
  prevValue : Bytes
deriving DecidableEq, Repr

/-- Values by contract and slot which last for one transaction, with what undoes them. -/
structure TransientStorage where
  /-- The current values, keyed by contract address and then slot. -/
  storage : InsertionMap Address (InsertionMap Bytes Bytes)
  /-- Each change to storage, the newest last. -/
  changeJournal : List TransientStorageModification
  /-- The length of the journal at the beginning of each call, the innermost first. -/
  indices : List ℕ

namespace TransientStorage

/-- `new Uint8Array(32)`. -/
def zero32 : Bytes := List.replicate 32 0

/-- `new TransientStorage()`: the outermost call begins with an empty journal. -/
def create : TransientStorage := ⟨.empty, [], [0]⟩

/-- The value of a slot, 32 zero bytes where there is none. -/
def get (t : TransientStorage) (addr : Address) (key : Bytes) : Bytes :=
  match t.storage.get addr with
  | none => zero32
  | some map => (map.get key).getD zero32

/-- Writes a slot and notes the value it had.  The key must be 32 bytes and the value no longer. -/
def put (t : TransientStorage) (addr : Address) (key value : Bytes) :
    Except String TransientStorage :=
  if key.length ≠ 32 then .error "Transient storage key must be 32 bytes long"
  else if value.length > 32 then
    .error "Transient storage value cannot be longer than 32 bytes"
  else
    let map := (t.storage.get addr).getD .empty
    .ok { t with
      storage := t.storage.set addr (map.set key value)
      changeJournal := t.changeJournal ++ [⟨addr, key, (map.get key).getD zero32⟩] }

/-- Keeps the changes of the innermost call. -/
def commit (t : TransientStorage) : Except String TransientStorage :=
  match t.indices with
  | [] => .error "Nothing to commit"
  | _ :: indices => .ok { t with indices }

/-- Begins a call. -/
def checkpoint (t : TransientStorage) : TransientStorage :=
  { t with indices := t.changeJournal.length :: t.indices }

/-- Write back the previous values, the newest change first. -/
def restore (storage : InsertionMap Address (InsertionMap Bytes Bytes)) :
    List TransientStorageModification →
      Except String (InsertionMap Address (InsertionMap Bytes Bytes))
  | [] => .ok storage
  | m :: ms =>
    match storage.get m.addr with
    | none => .error "Cannot read properties of undefined (reading 'set')"
    | some map => restore (storage.set m.addr (map.set m.key m.prevValue)) ms

/-- Undoes the changes of the innermost call, the newest first. -/
def revert (t : TransientStorage) : Except String TransientStorage :=
  match t.indices with
  | [] => .error "Nothing to revert"
  | lastCheckpoint :: indices => do
    let storage ← restore t.storage (t.changeJournal.drop lastCheckpoint).reverse
    return { storage, changeJournal := t.changeJournal.take lastCheckpoint, indices }

/-- Empties the map and the journal; the lengths noted for the calls stay. -/
def clear (t : TransientStorage) : TransientStorage :=
  { t with storage := .empty, changeJournal := [] }

end TransientStorage

/-- The operations on transient storage. -/
inductive TransientOp where
  | get (addr : Address) (key : Bytes)
  | put (addr : Address) (key value : Bytes)
  | checkpoint
  | commit
  | revert
  | clear
deriving DecidableEq, Repr

/-- A map of all slots. -/
abbrev TransientMap := Address → Bytes → Bytes

namespace TransientMap

/-- Every slot is zero. -/
def empty : TransientMap := fun _ _ => TransientStorage.zero32

/-- Writes one slot. -/
def set (m : TransientMap) (addr : Address) (key value : Bytes) : TransientMap :=
  Function.update m addr (Function.update (m addr) key value)

end TransientMap

namespace TransientStorage

/-- One operation of the code. -/
def step (t : TransientStorage) : TransientOp → Except String TransientStorage
  | .get _ _ => .ok t
  | .put addr key value => t.put addr key value
  | .checkpoint => .ok t.checkpoint
  | .commit => t.commit
  | .revert => t.revert
  | .clear => .ok t.clear

/-- Operations one after the other; the first that throws ends the run. -/
def run (t : TransientStorage) : List TransientOp → Except String TransientStorage
  | [] => .ok t
  | op :: ops => do run (← t.step op) ops

/-- One operation of the reference, which copies the whole map at a checkpoint. -/
def referenceStep (s : Snapshots TransientMap) : TransientOp → Snapshots TransientMap
  | .get _ _ => s
  | .put addr key value => s.update fun m => m.set addr key value
  | .checkpoint => s.checkpoint
  | .commit => s.commit
  | .revert => s.revert
  | .clear => s.update fun _ => .empty

/-- The reference starts as the code does, within one checkpoint. -/
def reference (ops : List TransientOp) : Snapshots TransientMap :=
  ops.foldl referenceStep ⟨.empty, [.empty]⟩

/-- Every `clear` meets open indices that are all zero. -/
def ClearsAtZero (t : TransientStorage) : List TransientOp → Prop
  | [] => True
  | op :: ops => (op = .clear → ∀ n ∈ t.indices, n = 0) ∧
    match t.step op with
    | .ok t' => ClearsAtZero t' ops
    | .error _ => True

/-! ### The journal as an undo log -/

/-- Take one change back. -/
def undo (m : TransientStorageModification) (map : TransientMap) : TransientMap :=
  map.set m.addr m.key m.prevValue

/-- The indices a journal has when it is cut into segments. -/
def marks (rest : List TransientStorageModification) :
    List (List TransientStorageModification) → List ℕ
  | [] => []
  | _ :: segs => (segs.flatten ++ rest).length :: marks rest segs

/-- The code is at the reference: the same values, the copies are what the segments of the journal
roll back to, and undoing the whole journal leaves nothing. -/
structure Represents (t : TransientStorage) (s : Snapshots TransientMap) : Prop where
  current : t.get = s.current
  log : ∃ segs rest, t.changeJournal.reverse = segs.flatten ++ rest ∧ t.indices = marks rest segs ∧
    RollsBack undo segs s.current s.saved
  bottom : rollBack undo t.changeJournal.reverse s.current = .empty
  held : ∀ m ∈ t.changeJournal, (t.storage.get m.addr).isSome

end TransientStorage

namespace TransientMap

private theorem set_apply (m : TransientMap) (addr addr' : Address) (key key' value : Bytes) :
    m.set addr key value addr' key' = if addr' = addr ∧ key' = key then value
      else m addr' key' := by
  rw [set, Function.update_apply]
  by_cases haddr : addr' = addr
  · subst haddr
    rw [if_pos rfl, Function.update_apply]
    by_cases hkey : key' = key
    · rw [if_pos hkey, if_pos ⟨rfl, hkey⟩]
    · rw [if_neg hkey, if_neg fun h => hkey h.2]
  · rw [if_neg haddr, if_neg fun h => haddr h.1]

/-- Writing back the value a slot had. -/
private theorem set_set (m : TransientMap) (addr : Address) (key value : Bytes) :
    (m.set addr key value).set addr key (m addr key) = m := by
  funext addr' key'
  rw [set_apply, set_apply]
  split
  · rename_i h
    rw [h.1, h.2]
  · rfl

end TransientMap

namespace TransientStorage

variable {t t' : TransientStorage} {s : Snapshots TransientMap}

/-- What the slots read after one map was replaced. -/
theorem get_set (t : TransientStorage) (addr : Address) (key value : Bytes) :
    get { t with storage :=
      t.storage.set addr (((t.storage.get addr).getD .empty).set key value) } =
      TransientMap.set t.get addr key value := by
  funext addr' key'
  rw [TransientMap.set_apply, get]
  change (match (t.storage.set addr _).get addr' with | none => _ | some map => _) = _
  rw [InsertionMap.get_set]
  by_cases haddr : addr' = addr
  · subst haddr
    rw [if_pos rfl]
    change ((InsertionMap.set _ key value).get key').getD zero32 = _
    rw [InsertionMap.get_set]
    by_cases hkey : key' = key
    · rw [if_pos hkey, if_pos ⟨rfl, hkey⟩]
      rfl
    · rw [if_neg hkey, if_neg fun h => hkey h.2, get]
      cases t.storage.get addr' <;> rfl
  · rw [if_neg haddr, if_neg fun h => haddr h.1]
    rfl

/-- A put records what it overwrites. -/
theorem Represents.put (h : Represents t s) {addr : Address} {key value : Bytes}
    (hput : t.put addr key value = .ok t') :
    Represents t' (s.update fun m => m.set addr key value) := by
  unfold TransientStorage.put at hput
  split at hput
  · cases hput
  split at hput
  · cases hput
  cases hput
  obtain ⟨segs, rest, hjournal, hindices, hrolls⟩ := h.log
  have hprev : (((t.storage.get addr).getD .empty).get key).getD zero32 = s.current addr key := by
    rw [← h.current, get]
    cases t.storage.get addr <;> rfl
  have hundo : undo ⟨addr, key, s.current addr key⟩ (s.current.set addr key value) = s.current :=
    TransientMap.set_set ..
  refine ⟨?_, ?_, ?_, ?_⟩
  · rw [Snapshots.update, ← h.current]
    exact get_set t addr key value
  · change ∃ segs' rest', (t.changeJournal ++ _).reverse = _ ∧ t.indices = _ ∧ _
    rw [List.reverse_append, hprev, hjournal]
    rcases segs with _ | ⟨seg, segs⟩
    · refine ⟨[], ⟨addr, key, s.current addr key⟩ :: rest, rfl, hindices, ?_⟩
      have hsaved : s.saved = [] := List.length_eq_zero_iff.1 hrolls.length_eq.symm
      change RollsBack undo [] _ s.saved
      rw [hsaved]
      exact .nil _
    · exact ⟨(⟨addr, key, s.current addr key⟩ :: seg) :: segs, rest, rfl, hindices,
        hrolls.record hundo⟩
  · change rollBack undo (t.changeJournal ++ _).reverse (s.current.set addr key value) = _
    rw [List.reverse_append, hprev, ← h.bottom]
    exact congrArg (rollBack undo t.changeJournal.reverse) hundo
  · intro m hm
    change ((t.storage.set addr _).get m.addr).isSome
    rw [InsertionMap.get_set]
    split
    · rfl
    · rename_i hne
      rcases List.mem_append.1 hm with hm | hm
      · exact h.held m hm
      · rw [List.mem_singleton.1 hm] at hne
        exact absurd rfl hne

theorem Represents.checkpoint (h : Represents t s) : Represents t.checkpoint s.checkpoint := by
  obtain ⟨segs, rest, hjournal, hindices, hrolls⟩ := h.log
  refine ⟨h.current, ⟨[] :: segs, rest, hjournal, ?_, hrolls.checkpoint⟩, h.bottom, h.held⟩
  rw [marks, ← hindices, ← hjournal, List.length_reverse]
  rfl

theorem Represents.commit (h : Represents t s) (hcommit : t.commit = .ok t') :
    Represents t' s.commit := by
  obtain ⟨current, saved⟩ := s
  obtain ⟨segs, rest, hjournal, hindices, hrolls⟩ := h.log
  change RollsBack undo segs current saved at hrolls
  rw [TransientStorage.commit, hindices] at hcommit
  cases hrolls with
  | nil => cases hcommit
  | @cons seg segs _ copy saved hseg hrest =>
    cases hcommit
    cases hrest with
    | nil =>
      refine ⟨h.current, ⟨[], seg ++ rest, ?_, rfl, .nil _⟩, h.bottom, h.held⟩
      simpa using hjournal
    | @cons seg' segs _ copy' saved hseg' hrest =>
      refine ⟨h.current, ⟨(seg ++ seg') :: segs, rest, ?_, rfl, ?_⟩, h.bottom, h.held⟩
      · simpa using hjournal
      · exact (RollsBack.cons hseg (.cons hseg' hrest)).commit

/-- Writing back previous values rolls the values back. -/
private theorem restore_ok {ms : List TransientStorageModification}
    {storage : InsertionMap Address (InsertionMap Bytes Bytes)}
    (hheld : ∀ m ∈ ms, (storage.get m.addr).isSome) :
    ∃ storage', restore storage ms = .ok storage' ∧
      (∀ addr, (storage.get addr).isSome → (storage'.get addr).isSome) ∧
      ∀ journal indices, get ⟨storage', journal, indices⟩ =
        rollBack undo ms (get ⟨storage, journal, indices⟩) := by
  induction ms generalizing storage with
  | nil => exact ⟨storage, rfl, fun _ h => h, fun _ _ => rfl⟩
  | cons m ms ih =>
    obtain ⟨map, hmap⟩ := Option.isSome_iff_exists.1 (hheld m List.mem_cons_self)
    have hkeep : ∀ addr, (storage.get addr).isSome →
        ((storage.set m.addr (map.set m.key m.prevValue)).get addr).isSome := by
      intro addr haddr
      rw [InsertionMap.get_set]
      split
      · rfl
      · exact haddr
    obtain ⟨storage', hrestore, hsome, hget⟩ :=
      ih fun m' hm' => hkeep _ (hheld m' (List.mem_cons_of_mem _ hm'))
    refine ⟨storage', ?_, fun addr haddr => hsome addr (hkeep addr haddr), ?_⟩
    · rw [restore, hmap]
      exact hrestore
    · intro journal indices
      have hset := get_set ⟨storage, journal, indices⟩ m.addr m.key m.prevValue
      dsimp only at hset
      rw [hmap, Option.getD_some] at hset
      rw [hget, hset]
      rfl

/-- A revert rolls the newest segment back. -/
theorem Represents.revert (h : Represents t s) (hrevert : t.revert = .ok t') :
    Represents t' s.revert := by
  obtain ⟨current, saved⟩ := s
  obtain ⟨segs, rest, hjournal, hindices, hrolls⟩ := h.log
  change RollsBack undo segs current saved at hrolls
  rw [TransientStorage.revert, hindices] at hrevert
  cases hrolls with
  | nil => cases hrevert
  | @cons seg segs _ copy saved hseg hrest =>
    have hsplit : t.changeJournal = (segs.flatten ++ rest).reverse ++ seg.reverse := by
      rw [← List.reverse_append, ← List.append_assoc, ← List.reverse_inj, List.reverse_reverse]
      simpa using hjournal
    have hlength : (segs.flatten ++ rest).length = (segs.flatten ++ rest).reverse.length :=
      List.length_reverse.symm
    have hdrop : (t.changeJournal.drop (segs.flatten ++ rest).length).reverse = seg := by
      rw [hsplit, hlength, List.drop_left, List.reverse_reverse]
    have htake : t.changeJournal.take (segs.flatten ++ rest).length =
        (segs.flatten ++ rest).reverse := by
      rw [hsplit, hlength, List.take_left]
    have hmem : ∀ m ∈ seg, m ∈ t.changeJournal := by
      intro m hm
      rw [hsplit]
      exact List.mem_append_right _ (List.mem_reverse.2 hm)
    obtain ⟨storage', hrestore, hsome, hget⟩ := restore_ok fun m hm => h.held m (hmem m hm)
    rw [marks] at hrevert
    change (restore t.storage (t.changeJournal.drop (segs.flatten ++ rest).length).reverse >>= _) =
      _ at hrevert
    rw [hdrop, hrestore, htake] at hrevert
    cases hrevert
    have hcopy : rollBack undo seg t.get = copy := by
      rw [h.current]
      exact hseg
    refine ⟨?_, ⟨segs, rest, List.reverse_reverse _, rfl, hrest⟩, ?_, ?_⟩
    · exact (hget _ _).trans hcopy
    · change rollBack undo (segs.flatten ++ rest).reverse.reverse copy = _
      have hbottom := h.bottom
      rw [hsplit, List.reverse_append, List.reverse_reverse, rollBack_append] at hbottom
      rw [← hcopy, h.current]
      exact hbottom
    · intro m hm
      refine hsome _ (h.held m ?_)
      rw [hsplit]
      exact List.mem_append_left _ hm

/-! ### Clearing -/

private theorem marks_of_empty {segs : List (List TransientStorageModification)}
    (h : ∀ seg ∈ segs, seg = []) : marks [] segs = List.replicate segs.length 0 := by
  induction segs with
  | nil => rfl
  | cons seg segs ih =>
    have hrest : ∀ seg ∈ segs, seg = [] := fun seg hseg => h seg (List.mem_cons_of_mem _ hseg)
    have hflat : segs.flatten = [] := List.flatten_eq_nil_iff.2 hrest
    rw [marks, ih hrest, hflat]
    rfl

private theorem length_marks (rest : List TransientStorageModification)
    (segs : List (List TransientStorageModification)) : (marks rest segs).length = segs.length := by
  induction segs with
  | nil => rfl
  | cons seg segs ih => exact congrArg (· + 1) ih

/-- If no change was recorded before a checkpoint that is open, the copies are all empty. -/
private theorem Represents.saved_empty (h : Represents t s) (hzero : ∀ n ∈ t.indices, n = 0) :
    ∀ copy ∈ s.saved, copy = .empty := by
  obtain ⟨current, saved⟩ := s
  obtain ⟨segs, rest, hjournal, hindices, hrolls⟩ := h.log
  change RollsBack undo segs current saved at hrolls
  cases hrolls with
  | nil => exact nofun
  | @cons seg segs _ copy saved hseg hrest =>
    have hbelow : (segs.flatten ++ rest).length = 0 :=
      hzero _ (hindices ▸ List.mem_cons_self)
    obtain ⟨hflat, rfl⟩ := List.append_eq_nil_iff.1 (List.length_eq_zero_iff.1 hbelow)
    have hcopy : copy = .empty := by
      have hbottom := h.bottom
      rw [hjournal, List.flatten_cons, hflat, List.append_nil, List.append_nil] at hbottom
      exact hseg.symm.trans hbottom
    have hsame := hrest.eq_of_empty (List.flatten_eq_nil_iff.1 hflat)
    intro c hc
    rcases List.mem_cons.1 hc with rfl | hc
    · exact hcopy
    · exact (hsame c hc).trans hcopy

theorem Represents.clear (h : Represents t s) (hzero : ∀ n ∈ t.indices, n = 0) :
    Represents t.clear (s.update fun _ => .empty) := by
  obtain ⟨segs, rest, hjournal, hindices, hrolls⟩ := h.log
  refine ⟨rfl, ⟨s.saved.map fun _ => [], [], ?_, ?_, .of_empty (h.saved_empty hzero)⟩, rfl, nofun⟩
  · simp [TransientStorage.clear]
  · rw [marks_of_empty (by simp)]
    refine List.eq_replicate_iff.2 ⟨?_, hzero⟩
    change t.indices.length = _
    rw [hindices, length_marks, hrolls.length_eq, List.length_map]

/-! ### Runs -/

theorem represents_create : Represents create ⟨.empty, [.empty]⟩ :=
  ⟨rfl, ⟨[[]], [], rfl, rfl, .cons rfl (.nil _)⟩, rfl, nofun⟩

theorem Represents.step (h : Represents t s) {op : TransientOp} (hstep : t.step op = .ok t')
    (hclear : op = .clear → ∀ n ∈ t.indices, n = 0) : Represents t' (referenceStep s op) := by
  cases op with
  | get addr key =>
    cases hstep
    exact h
  | put addr key value => exact h.put hstep
  | checkpoint =>
    cases hstep
    exact h.checkpoint
  | commit => exact h.commit hstep
  | revert => exact h.revert hstep
  | clear =>
    cases hstep
    exact h.clear (hclear rfl)

theorem Represents.run (h : Represents t s) {ops : List TransientOp} (hrun : t.run ops = .ok t')
    (hclear : ClearsAtZero t ops) : Represents t' (ops.foldl referenceStep s) := by
  induction ops generalizing t s with
  | nil =>
    cases hrun
    exact h
  | cons op ops ih =>
    rcases hstep : t.step op with e | u
    · rw [TransientStorage.run, hstep] at hrun
      cases hrun
    · rw [TransientStorage.run, hstep] at hrun
      rw [ClearsAtZero, hstep] at hclear
      exact ih (h.step hstep hclear.1) hrun hclear.2

/-- Without a `clear` nothing is asked of a run. -/
private theorem clearsAtZero_of_not_mem {ops : List TransientOp} (h : .clear ∉ ops) :
    ClearsAtZero t ops := by
  induction ops generalizing t with
  | nil => trivial
  | cons op ops ih =>
    rw [List.mem_cons, not_or] at h
    refine ⟨fun hop => absurd hop.symm h.1, ?_⟩
    split
    · exact ih h.2
    · trivial

/-! ### A clear within a checkpoint -/

/-- A change that follows a `clear` is not undone by a revert to an index that is not zero. -/
private theorem exists_differing (hjournal : t.changeJournal = [])
    (hlength : s.saved.length = t.indices.length) {n : ℕ} (hn : n ∈ t.indices) (hpos : n ≠ 0) :
    ∃ rest t' addr key, TransientOp.clear ∉ rest ∧ t.run rest = .ok t' ∧
      t'.get addr key ≠ (rest.foldl referenceStep s).current addr key := by
  obtain ⟨current, saved⟩ := s
  obtain ⟨storage, changeJournal, indices⟩ := t
  obtain rfl : changeJournal = [] := hjournal
  change saved.length = indices.length at hlength
  induction indices generalizing current saved with
  | nil => cases hn
  | cons m indices ih =>
    obtain ⟨copy, saved, rfl⟩ : ∃ copy saved', saved = copy :: saved' :=
      List.exists_cons_of_length_eq_add_one hlength
    by_cases hm : m = 0
    · -- the checkpoint is committed, and the next one is looked at
      have hn' : n ∈ indices := (List.mem_cons.1 hn).resolve_left fun h => hpos (h.trans hm)
      obtain ⟨rest, t', addr, key, hrest, hrun, hne⟩ :=
        ih current saved hn' (Nat.succ.inj hlength)
      exact ⟨.commit :: rest, t', addr, key, by simpa using hrest, hrun, hne⟩
    · obtain ⟨m, rfl⟩ := Nat.exists_eq_succ_of_ne_zero hm
      -- a value the copy does not have
      obtain ⟨value, hvalue, hne⟩ : ∃ value : Bytes, value.length ≤ 32 ∧ value ≠ copy 0 zero32 := by
        by_cases hcopy : copy 0 zero32 = []
        · exact ⟨[1], by decide, by rw [hcopy]; exact List.cons_ne_nil _ _⟩
        · exact ⟨[], by decide, fun h => hcopy h.symm⟩
      obtain ⟨storage', change, hput, hread⟩ : ∃ storage' change,
          TransientStorage.put ⟨storage, [], (m + 1) :: indices⟩ 0 zero32 value =
            .ok ⟨storage', [change], (m + 1) :: indices⟩ ∧
          get ⟨storage', [change], indices⟩ 0 zero32 = value := by
        refine ⟨storage.set 0 (((storage.get 0).getD .empty).set zero32 value),
          ⟨0, zero32, (((storage.get 0).getD .empty).get zero32).getD zero32⟩, ?_, ?_⟩
        · rw [TransientStorage.put, if_neg (by decide), if_neg (not_lt_of_ge hvalue)]
          rfl
        · have hget := get_set ⟨storage, [], indices⟩ 0 zero32 value
          have hslot := congrFun (congrFun hget 0) zero32
          rw [TransientMap.set_apply, if_pos ⟨rfl, rfl⟩] at hslot
          exact hslot
      have hrevert : TransientStorage.revert ⟨storage', [change], (m + 1) :: indices⟩ =
          .ok ⟨storage', [change], indices⟩ := by
        simp only [TransientStorage.revert, List.drop_succ_cons, List.drop_nil,
          List.take_succ_cons, List.take_nil]
        rfl
      refine ⟨[.put 0 zero32 value, .revert], ⟨storage', [change], indices⟩, 0, zero32, by simp,
        ?_, ?_⟩
      · rw [TransientStorage.run, TransientStorage.step, hput]
        change (TransientStorage.revert ⟨storage', [change], (m + 1) :: indices⟩ >>= fun u =>
          u.run []) = _
        rw [hrevert]
        rfl
      · rw [hread]
        exact hne

/-- **Transient storage refines a stack of maps** as long as every `clear` meets open indices that
are all zero, and that is exactly when nothing can go wrong after it. -/
theorem transientStorage_refines {ops : List TransientOp} (hrun : create.run ops = .ok t)
    (hclear : ClearsAtZero create ops) :
    (∀ addr key, t.get addr key = (reference ops).current addr key) ∧
      ((∀ rest t', .clear ∉ rest → t.run (.clear :: rest) = .ok t' →
          ∀ addr key, t'.get addr key = (reference (ops ++ .clear :: rest)).current addr key) ↔
        ∀ n ∈ t.indices, n = 0) := by
  have h := represents_create.run hrun hclear
  have happend : ∀ rest, reference (ops ++ .clear :: rest) =
      rest.foldl referenceStep ((reference ops).update fun _ => .empty) := by
    intro rest
    rw [reference, List.foldl_append]
    rfl
  refine ⟨fun addr key => congrFun (congrFun h.current addr) key, ?_, ?_⟩
  · intro hafter n hn
    by_contra hpos
    obtain ⟨segs, rest, -, hindices, hrolls⟩ := h.log
    have hlength : (reference ops).saved.length = t.indices.length := by
      rw [hindices, length_marks, hrolls.length_eq]
      rfl
    obtain ⟨rest, t', addr, key, hrest, hrun', hne⟩ :=
      exists_differing (t := t.clear) (s := (reference ops).update fun _ => .empty) rfl hlength hn
        hpos
    refine hne ?_
    rw [← happend]
    exact hafter rest t' hrest hrun' addr key
  · intro hzero rest t' hrest hrun' addr key
    have h' := (h.clear hzero).run hrun' (clearsAtZero_of_not_mem hrest)
    rw [happend]
    exact congrFun (congrFun h'.current addr) key

/-- A write before a checkpoint, then a `clear` within it. -/
def clearedInside : List TransientOp :=
  [.put 0 zero32 [1], .checkpoint, .clear, .put 0 zero32 [2], .revert]

theorem clearedInside_differs :
    ¬ ∀ ops t, create.run ops = .ok t → ∀ addr key,
      t.get addr key = (reference ops).current addr key := by
  intro h
  have hread := h clearedInside _ rfl 0 zero32
  exact absurd hread (by decide)

/-- A `clear` with no checkpoint open any more, then a change that is reverted. -/
def clearedOutside : List TransientOp :=
  [.put 0 zero32 [1], .commit, .clear, .checkpoint, .put 0 zero32 [2], .revert]

theorem transientStorage_refines_clearedOutside : ∃ t, create.run clearedOutside = .ok t ∧
    (∀ addr key, t.get addr key = (reference clearedOutside).current addr key) ∧
      ((∀ rest t', .clear ∉ rest → t.run (.clear :: rest) = .ok t' → ∀ addr key,
          t'.get addr key = (reference (clearedOutside ++ .clear :: rest)).current addr key) ↔
        ∀ n ∈ t.indices, n = 0) := by
  have hclear : ClearsAtZero create clearedOutside := by
    refine ⟨nofun, nofun, fun _ => ?_, nofun, nofun, nofun, trivial⟩
    exact fun n hn => absurd hn List.not_mem_nil
  exact ⟨_, rfl, transientStorage_refines rfl hclear⟩

end TransientStorage

end Tvmjs
