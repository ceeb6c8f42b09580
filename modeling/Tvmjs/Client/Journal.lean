import Tvmjs.Client.Writes

/-!
# What the journal knows

`Tracked s s'` relates the state before a piece of work to the state after it: which table writes
were made and kept, which journal records stand for them, and what replaying those records does.
Every primitive of the node is tracked, `transact` included, so every program built from them is.

* `RemovedLastFirst`, `SameTokenIds` -- the two conditions on the steps of a run under which
  unwinding restores everything;
* `Via.unwind` -- a call which throws counts as no writes at all, under the first one;
* `Quiet` -- tracked work which writes neither blocks nor receipts.
-/

namespace Tvmjs

/-! ### Replaying the journal, part by part -/

/-- What a journal record does to the registers. -/
def Undo.onRegisters : Undo → Registers → Registers
  | .restore .., g => g
  | .storageSlots .., g => g
  | .totalWeights net energy tronPower, g =>
    { g with
      totalNetWeightTrx := net
      totalEnergyWeightTrx := energy
      totalTronPowerWeightTrx := tronPower }
  | .maintenanceInProgress prior, g => { g with maintenanceInProgress := prior }
  | .dropBlock number, g => { g with blocks := g.blocks.drop number }
  | .dropAsset id ownerKey, g => { g with assets := g.assets.drop id ownerKey }
  | .assignAsset id before, g => { g with assets := g.assets.assign id before }
  | .popGenerated, g => { g with generatedAccounts := g.generatedAccounts.dropLast }

/-- What some journal records do to the registers, newest first. -/
def undoRegisters : List Undo → Registers → Registers
  | [], g => g
  | u :: us, g => undoRegisters us (u.onRegisters g)

/-- The journal records about one table, as a log of that table. -/
def recordsOf (t : Table) : List Undo → List (t.Key × Option t.Val)
  | [] => []
  | .restore u key before :: us =>
    if h : u = t then (h ▸ (key, before) : t.Key × Option t.Val) :: recordsOf t us
    else recordsOf t us
  | _ :: us => recordsOf t us

/-- The writes to one table. -/
def writesTo (t : Table) : List TableWrite → List (InsertionMap.Write t.Key t.Val)
  | [] => []
  | w :: ws => if h : w.table = t then h ▸ w.write :: writesTo t ws else writesTo t ws

private theorem undoRegisters_append (us vs : List Undo) (g : Registers) :
    undoRegisters (us ++ vs) g = undoRegisters vs (undoRegisters us g) := by
  induction us generalizing g with
  | nil => rfl
  | cons u us ih => exact ih _

private theorem recordsOf_append (t : Table) (us vs : List Undo) :
    recordsOf t (us ++ vs) = recordsOf t us ++ recordsOf t vs := by
  induction us with
  | nil => rfl
  | cons u us ih =>
    cases u with
    | restore u key before =>
      simp only [List.cons_append, recordsOf]
      split
      · rw [ih, List.cons_append]
      · exact ih
    | _ => exact ih

private theorem writesTo_append (t : Table) (ws ws' : List TableWrite) :
    writesTo t (ws ++ ws') = writesTo t ws ++ writesTo t ws' := by
  induction ws with
  | nil => rfl
  | cons w ws ih =>
    simp only [List.cons_append, writesTo]
    split
    · rw [ih, List.cons_append]
    · exact ih

private theorem undoAll_registers (us : List Undo) (c : Chain) :
    (undoAll us c).registers = undoRegisters us c.registers := by
  induction us generalizing c with
  | nil => rfl
  | cons u us ih =>
    rw [undoAll, undoRegisters, ih]
    cases u <;> rfl

theorem undoAll_stateManager (us : List Undo) (c : Chain) :
    (undoAll us c).stateManager = c.stateManager := by
  induction us generalizing c with
  | nil => rfl
  | cons u us ih =>
    rw [undoAll, ih]
    cases u <;> rfl

/-- The records about a table act on it as a log of it. -/
theorem undoAll_table (us : List Undo) (c : Chain) (t : Table) :
    (undoAll us c).table t = (c.table t).undoAll (recordsOf t us) := by
  induction us generalizing c with
  | nil => rfl
  | cons u us ih =>
    rw [undoAll, ih]
    cases u with
    | restore u key before =>
      by_cases h : u = t
      · subst h
        simp only [Undo.apply, Chain.setTable_table_self, recordsOf, dite_true]
        rfl
      · simp only [Undo.apply, Chain.setTable_table_of_ne c _ (Ne.symm h), recordsOf, h, dite_false]
    | _ => rfl

/-! ### Tracked work -/

/-- Whenever the call removed an entry it had found, that entry was the last one of those it had
found and not yet removed. -/
def RemovedLastFirst (call : Chain × List TableWrite) : Prop :=
  ∀ t, InsertionMap.LastFirst (call.1.table t).keys (writesTo t call.2)

/-- The call left the registry of token ids as it was. -/
def SameTokenIds (before after : StateManager) : Prop :=
  ∀ id, after.tokenIdExists id = before.tokenIdExists id

/-- What tracked work did: the table writes and journal records that stand, the calls that threw,
and the calls into the state manager. -/
structure Via (s s' : NodeState) (ws : List TableWrite) (us : List Undo)
    (threw : List (Chain × List TableWrite)) (cs : List (StateManager × StateManager)) :
    Prop where
  journal : s'.journal = s.journal.map (us ++ ·)
  writes : s'.trace.writes = s.trace.writes ++ ws
  unwound : s'.trace.unwound = s.trace.unwound ++ threw
  calls : s'.trace.calls = s.trace.calls ++ cs
  registers : undoRegisters us s'.chain.registers = s.chain.registers
  records : ∀ t, recordsOf t us = (s.chain.table t).log (writesTo t ws)
  lookups : ∀ t key,
    (s'.chain.table t).get key = ((s.chain.table t).writeAll (writesTo t ws)).get key
  tables : (∀ call ∈ threw, RemovedLastFirst call) → ∀ t,
    s'.chain.table t = (s.chain.table t).writeAll (writesTo t ws)
  tokenIds : (∀ call ∈ cs, SameTokenIds call.1 call.2) →
    SameTokenIds s.chain.stateManager s'.chain.stateManager

/-- The work between two states is tracked. -/
def Tracked (s s' : NodeState) : Prop := ∃ ws us threw cs, Via s s' ws us threw cs

theorem SameTokenIds.refl (w : StateManager) : SameTokenIds w w := fun _ => rfl

theorem SameTokenIds.trans {w w' w'' : StateManager} (h : SameTokenIds w w')
    (h' : SameTokenIds w' w'') : SameTokenIds w w'' := fun id => (h' id).trans (h id)

/-- No work at all is tracked. -/
theorem Via.refl (s : NodeState) : Via s s [] [] [] [] where
  journal := by cases s.journal <;> rfl
  writes := (List.append_nil _).symm
  unwound := (List.append_nil _).symm
  calls := (List.append_nil _).symm
  registers := rfl
  records _ := rfl
  lookups _ _ := rfl
  tables _ _ := rfl
  tokenIds _ := .refl _

/-- Work after work is tracked: the later records come first in the journal. -/
theorem Via.trans {s s' s'' : NodeState} {ws ws' : List TableWrite} {us us' : List Undo}
    {threw threw' : List (Chain × List TableWrite)}
    {cs cs' : List (StateManager × StateManager)} (h : Via s s' ws us threw cs)
    (h' : Via s' s'' ws' us' threw' cs') :
    Via s s'' (ws ++ ws') (us' ++ us) (threw ++ threw') (cs ++ cs') where
  journal := by
    rw [h'.journal, h.journal]
    cases s.journal <;> simp
  writes := by rw [h'.writes, h.writes, List.append_assoc]
  unwound := by rw [h'.unwound, h.unwound, List.append_assoc]
  calls := by rw [h'.calls, h.calls, List.append_assoc]
  registers := by rw [undoRegisters_append, h'.registers, h.registers]
  records t := by
    rw [recordsOf_append, writesTo_append, InsertionMap.log_append, h'.records, h.records,
      InsertionMap.log_congr (h.lookups t)]
  lookups t key := by
    rw [writesTo_append, InsertionMap.writeAll_append, h'.lookups,
      InsertionMap.get_writeAll_congr (h.lookups t)]
  tables hthrew t := by
    have htable := h.tables (fun c hc => hthrew c (List.mem_append_left _ hc)) t
    have htable' := h'.tables (fun c hc => hthrew c (List.mem_append_right _ hc)) t
    rw [writesTo_append, InsertionMap.writeAll_append, htable', htable]
  tokenIds hcs :=
    (h.tokenIds fun c hc => hcs c (List.mem_append_left _ hc)).trans
      (h'.tokenIds fun c hc => hcs c (List.mem_append_right _ hc))

instance : Std.Refl Tracked := ⟨fun s => ⟨[], [], [], [], Via.refl s⟩⟩

instance : IsTrans NodeState Tracked :=
  ⟨fun _ _ _ ⟨_, _, _, _, h⟩ ⟨_, _, _, _, h'⟩ => ⟨_, _, _, _, h.trans h'⟩⟩

/-! ### Quiet work -/

/-- The committed history is the same: the blocks and every receipt. -/
structure Chain.SameHistory (c c' : Chain) : Prop where
  blocks : c'.registers.blocks = c.registers.blocks
  receipts : ∀ txid, (c'.table .txs).get txid = (c.table .txs).get txid

theorem Chain.SameHistory.refl (c : Chain) : c.SameHistory c := ⟨rfl, fun _ => rfl⟩

theorem Chain.SameHistory.trans {c c' c'' : Chain} (h : c.SameHistory c')
    (h' : c'.SameHistory c'') : c.SameHistory c'' :=
  ⟨h'.blocks.trans h.blocks, fun txid => (h'.receipts txid).trans (h.receipts txid)⟩

/-- Tracked work which leaves the committed history alone. -/
def Quiet (s s' : NodeState) : Prop := Tracked s s' ∧ s.chain.SameHistory s'.chain

instance : Std.Refl Quiet := ⟨fun s => ⟨refl_of Tracked s, .refl _⟩⟩

instance : IsTrans NodeState Quiet :=
  ⟨fun _ _ _ h h' => ⟨trans_of Tracked h.1 h'.1, h.2.trans h'.2⟩⟩

theorem Prog.Rel.tracked {α : Type} {x : NodeM α} (h : Prog.Rel Quiet x) : Prog.Rel Tracked x :=
  h.mono fun _ _ => And.left

/-! ### The primitives -/

section Primitives

variable {α β : Type} {env : NodeEnv} {R : NodeState → NodeState → Prop}

open Prog

theorem rel_read [Std.Refl R] {f : Chain → α} : Rel R (read f) := .gets _

/-- After a reading the work may depend on what was read. -/
theorem rel_read_bind {f : Chain → α} {k : α → NodeM β}
    (h : ∀ s, R s ((k (f s.chain)).run s).2) : Rel R (read f >>= k) := h

theorem tracked_writeTable {t : Table} {w : InsertionMap.Write t.Key t.Val} :
    Rel Tracked (writeTable t w) := by
  intro s
  refine ⟨[⟨t, w⟩], [.restore t w.key ((s.chain.table t).get w.key)], [], [], ?_⟩
  have htable : ∀ u, (s.chain.setTable t ((s.chain.table t).write w)).table u =
      (s.chain.table u).writeAll (writesTo u [⟨t, w⟩]) := by
    intro u
    by_cases h : t = u
    · subst h
      simp only [writesTo, dite_true]
      exact Chain.setTable_table_self ..
    · simp only [writesTo, h, dite_false]
      exact Chain.setTable_table_of_ne _ _ (Ne.symm h)
  refine ⟨?_, rfl, (List.append_nil _).symm, (List.append_nil _).symm, rfl, fun u => ?_,
    fun u key => ?_, fun _ => htable, fun _ => .refl _⟩
  · change s.journal.map _ = _
    cases s.journal <;> rfl
  · by_cases h : t = u
    · subst h
      simp only [writesTo, recordsOf, dite_true]
      rfl
    · simp only [writesTo, recordsOf, h, dite_false]
      rfl
  · rw [← htable]
    rfl

/-- A write to any table but the receipts is quiet. -/
theorem rel_writeTable {t : Table} {w : InsertionMap.Write t.Key t.Val}
    (h : t ≠ .txs) : Rel Quiet (writeTable t w) :=
  fun s => ⟨tracked_writeTable s, rfl, fun _ => by
    change ((s.chain.setTable t _).table .txs).get _ = _
    rw [Chain.setTable_table_of_ne _ _ h.symm]⟩

/-- A record of the registers together with the change it takes back. -/
theorem tracked_record {u : Undo} {f : Registers → Registers} {k : Unit → NodeM β} {s : NodeState}
    (hu : ∀ t, recordsOf t [u] = [])
    (h : u.onRegisters (f s.chain.registers) = s.chain.registers)
    (hk : ∀ x, Rel Tracked (k x)) :
    Tracked s ((recordUndo u >>= fun _ => setRegisters f >>= k).run s).2 := by
  have hpair : Tracked s ((recordUndo u >>= fun _ => setRegisters f).run s).2 := by
    refine ⟨[], [u], [], [], ?_⟩
    refine ⟨?_, (List.append_nil _).symm, (List.append_nil _).symm, (List.append_nil _).symm, h,
      hu, fun _ _ => rfl, fun _ _ => rfl, fun _ => .refl _⟩
    change s.journal.map _ = _
    cases s.journal <;> rfl
  exact trans_of Tracked hpair (hk () _)

/-- The same for a change which leaves the blocks alone. -/
theorem quiet_record {u : Undo} {f : Registers → Registers} {k : Unit → NodeM β} {s : NodeState}
    (hu : ∀ t, recordsOf t [u] = [])
    (h : u.onRegisters (f s.chain.registers) = s.chain.registers)
    (hblocks : (f s.chain.registers).blocks = s.chain.registers.blocks)
    (hk : ∀ x, Rel Quiet (k x)) :
    Quiet s ((recordUndo u >>= fun _ => setRegisters f >>= k).run s).2 := by
  refine ⟨tracked_record hu h fun x => (hk x).tracked, ?_⟩
  have hset : s.chain.SameHistory { s.chain with registers := f s.chain.registers } :=
    ⟨hblocks, fun _ => rfl⟩
  exact hset.trans (hk () ((recordUndo u >>= fun _ => setRegisters f).run s).2).2

theorem rel_callState {f : StateManager.Call α} : Rel Quiet (callState env f) := by
  intro s
  have hvia (after : StateManager) :
      Quiet s { s with
        chain := { s.chain with stateManager := after }
        trace := { s.trace with calls := s.trace.calls ++ [(s.chain.stateManager, after)] } } := by
    have h := Via.refl s
    exact ⟨⟨[], [], [], [(s.chain.stateManager, after)], h.journal, h.writes, h.unwound, rfl,
      h.registers, h.records, h.lookups, h.tables, fun hcs => hcs _ (List.mem_singleton_self _)⟩,
      rfl, fun _ => rfl⟩
  simp only [Prog.run, callState]
  split
  · exact hvia _
  · exact hvia _

theorem rel_runTransaction {params : WriteParams} {gasLimit : ℤ} :
    Rel Quiet (runTransaction env params gasLimit) := by
  intro s
  have h := Via.refl s
  exact ⟨⟨[], [], [], [(s.chain.stateManager, _)], h.journal, h.writes, h.unwound, rfl,
    h.registers, h.records, h.lookups, h.tables, fun hcs => hcs _ (List.mem_singleton_self _)⟩,
    rfl, fun _ => rfl⟩

/-- A change of the burned amount and the written slots alone needs no record. -/
theorem rel_modifyUntouched (burned : Chain → ℤ)
    (slots : Chain → InsertionMap Address (InsertionMap Bytes Bytes)) :
    Rel Quiet (modify fun s => { s with chain := { s.chain with
      burnedSun := burned s.chain, storageSlots := slots s.chain } } : NodeM PUnit) := by
  intro s
  have h := Via.refl s
  exact ⟨⟨[], [], [], [], h.journal, h.writes, h.unwound, h.calls, h.registers, h.records,
    h.lookups, h.tables, h.tokenIds⟩, rfl, fun _ => rfl⟩

/-- The record of an account's written slots concerns nothing else. -/
theorem rel_recordSlots {a : Address} {before : InsertionMap Bytes Bytes} :
    Rel Quiet (recordUndo (.storageSlots a before)) := by
  intro s
  refine ⟨⟨[], [.storageSlots a before], [], [], ?_, (List.append_nil _).symm,
    (List.append_nil _).symm, (List.append_nil _).symm, rfl, fun _ => rfl, fun _ _ => rfl,
    fun _ _ => rfl, fun _ => .refl _⟩, rfl, fun _ => rfl⟩
  change s.journal.map _ = _
  cases s.journal <;> rfl

end Primitives

/-! ### `transact` -/

section Transact

variable {α : Type} {s t : NodeState} {ws : List TableWrite} {us : List Undo}
  {threw : List (Chain × List TableWrite)} {cs : List (StateManager × StateManager)}

/-- A call runs its work with an open journal, then commits or unwinds. -/
theorem run_transact (x : NodeM α) (s : NodeState) :
    (transact x).run s = match x.run s.enter with
      | (.ok a, t) => (.ok a, NodeState.commit s t)
      | (.error e, t) => (.error e, NodeState.unwind s t) := by
  change (x.finish (NodeState.commit s) (NodeState.unwind s)).run s.enter = _
  rw [Prog.run_finish]
  rcases x.run s.enter with ⟨_ | _, _⟩ <;> rfl

/-- The journal at the end of the work: its own records in front of the earlier ones. -/
private theorem Via.journal_enter (h : Via s.enter t ws us threw cs) :
    t.journal.getD [] = us ++ s.journal.getD [] := by
  rw [h.journal]
  rfl

/-- The part of the chain an unwinding leaves to the journal. -/
theorem unwind_chain (h : Via s.enter t ws us threw cs) :
    (NodeState.unwind s t).chain =
      { undoAll us { t.chain with stateManager :=
          { t.chain.stateManager with trie := s.chain.stateManager.trie } } with
        burnedSun := s.chain.burnedSun } := by
  have htake : ((us ++ s.journal.getD []).take
      ((us ++ s.journal.getD []).length - (s.journal.getD []).length)) = us := by
    rw [List.length_append, Nat.add_sub_cancel, List.take_left]
  simp only [NodeState.unwind, h.journal_enter, htake]

/-- A call that returns hands its writes and its records on. -/
theorem Via.commit (h : Via s.enter t ws us threw cs) :
    Via s (NodeState.commit s t) ws us threw cs where
  journal := by
    simp only [NodeState.commit, h.journal_enter]
    cases s.journal <;> rfl
  writes := h.writes
  unwound := h.unwound
  calls := h.calls
  registers := h.registers
  records := h.records
  lookups := h.lookups
  tables := h.tables
  tokenIds := h.tokenIds

/-- A call that throws is no writes at all, as long as it removed entries from the end only. -/
theorem Via.unwind (h : Via s.enter t ws us threw cs) :
    Via s (NodeState.unwind s t) [] [] (threw ++ [(s.chain, ws)]) cs where
  journal := by
    simp only [NodeState.unwind, h.journal_enter, List.length_append, Nat.add_sub_cancel,
      List.drop_left]
    cases s.journal <;> rfl
  writes := (List.append_nil _).symm
  unwound := by
    have hdrop : t.trace.writes.drop s.trace.writes.length = ws := by
      rw [h.writes]
      exact List.drop_left
    simp only [NodeState.unwind, hdrop, h.unwound, List.append_assoc]
    rfl
  calls := h.calls
  registers := by
    rw [unwind_chain h]
    exact (undoAll_registers us _).trans h.registers
  records _ := rfl
  lookups u key := by
    rw [unwind_chain h]
    change ((undoAll us _).table u).get key = _
    rw [undoAll_table, h.records u]
    exact (InsertionMap.get_undoAll_congr (h.lookups u) _ key).trans
      (InsertionMap.get_undoAll _ _ key)
  tables hthrew u := by
    have htable := h.tables (fun c hc => hthrew c (List.mem_append_left _ hc)) u
    have hlast := hthrew (s.chain, ws) (List.mem_append_right _ (List.mem_singleton_self _)) u
    rw [unwind_chain h]
    change (undoAll us _).table u = _
    rw [undoAll_table, h.records u]
    change (t.chain.table u).undoAll _ = _
    rw [htable]
    exact (InsertionMap.undoAll_eq_iff _ _).2 hlast
  tokenIds hcs id := by
    rw [unwind_chain h]
    change (undoAll us _).stateManager.tokenIdExists id = _
    rw [undoAll_stateManager]
    exact h.tokenIds hcs id

theorem tracked_transact {x : NodeM α} (hx : Prog.Rel Tracked x) :
    Prog.Rel Tracked (transact x) := by
  intro s
  obtain ⟨ws, us, threw, cs, h⟩ := hx s.enter
  rw [run_transact]
  rcases hrun : x.run s.enter with ⟨e | a, t⟩
  · rw [hrun] at h
    exact ⟨_, _, _, _, h.unwind⟩
  · rw [hrun] at h
    exact ⟨_, _, _, _, h.commit⟩

/-- A call that throws leaves the committed history as it found it. -/
theorem Via.sameHistory_unwind (h : Via s.enter t ws us threw cs) :
    s.chain.SameHistory (NodeState.unwind s t).chain :=
  ⟨congrArg Registers.blocks h.unwind.registers, h.unwind.lookups .txs⟩

theorem rel_transact {x : NodeM α} (hx : Prog.Rel Quiet x) : Prog.Rel Quiet (transact x) := by
  intro s
  refine ⟨tracked_transact hx.tracked s, ?_⟩
  obtain ⟨⟨ws, us, threw, cs, h⟩, hsame⟩ := hx s.enter
  rw [run_transact]
  rcases hrun : x.run s.enter with ⟨e | a, t⟩
  · rw [hrun] at h
    exact h.sameHistory_unwind
  · rw [hrun] at hsame
    exact hsame

end Transact

end Tvmjs
