import Tvmjs.Client.Mining
import Tvmjs.Client.Returns

/-!
# What the production of a block does

A production that throws leaves blocks, receipts, queue and the offset of the clock as they were;
one that returns leaves the committed history alone or appends a single block to it, which accounts
for every candidate that was not rejected.

* `BlockStore.Linked` -- contiguous heights, parent links and ordered timestamps;
* `produceBlock_throws`, `produceBlock_returns` -- the two outcomes of a production.
-/

namespace Tvmjs

/-! ### Linked block stores -/

namespace BlockStore

/-- The block at the head, if any. -/
def headBlock (b : BlockStore) : Option BlockRecord := b.byNumber.get b.headNumber

/-- Heights run from zero to the head without a gap, every block names its predecessor's id and is
not older than it, and every block is found under its own id. -/
structure Linked (b : BlockStore) : Prop where
  head_ge : -1 ≤ b.headNumber
  contiguous : ∀ n, (b.byNumber.get n).isSome ↔ 0 ≤ n ∧ n ≤ b.headNumber
  numbered : ∀ n r, b.byNumber.get n = some r → r.number = n
  found : ∀ n r, b.byNumber.get n = some r → r.blockID.number = n ∧ b.byId.get r.blockID = some r
  genesis : ∀ r, b.byNumber.get 0 = some r → r.parentBlockID = GENESIS_PARENT_ID
  parent : ∀ n p r, b.byNumber.get n = some p → b.byNumber.get (n + 1) = some r →
    r.parentBlockID = p.blockID ∧ p.timestampMs ≤ r.timestampMs

variable {b : BlockStore} {hash : Bytes} {timestampMs : ℤ} {txs : List TronTxRecord}

/-- The record `put` stores. -/
def nextRecord (b : BlockStore) (hash : Bytes) (timestampMs : ℤ) (txs : List TronTxRecord) :
    BlockRecord :=
  ⟨b.headNumber + 1, toBlockID (b.headNumber + 1) hash, b.parentBlockID, timestampMs, txs⟩

@[simp] theorem put_headNumber : (b.put hash timestampMs txs).headNumber = b.headNumber + 1 := rfl

theorem put_byNumber : (b.put hash timestampMs txs).byNumber =
    b.byNumber.set (b.headNumber + 1) (b.nextRecord hash timestampMs txs) := rfl

private theorem put_byId : (b.put hash timestampMs txs).byId =
    b.byId.set (toBlockID (b.headNumber + 1) hash) (b.nextRecord hash timestampMs txs) := rfl

/-- The block that was put is the head. -/
theorem headBlock_put :
    (b.put hash timestampMs txs).headBlock = some (b.nextRecord hash timestampMs txs) := by
  rw [headBlock, put_byNumber]
  exact InsertionMap.get_set_self ..

/-- The number after the head is free. -/
private theorem next_not_mem (b : BlockStore) : b.headNumber + 1 ∉ b.byNumber.keys := fun h => by
  have := b.le_head _ h
  omega

/-- What a height of the longer store holds: the new block, or what it held before. -/
theorem get_put {n : ℤ} {r : BlockRecord}
    (h : (b.put hash timestampMs txs).byNumber.get n = some r) :
    n = b.headNumber + 1 ∧ r = b.nextRecord hash timestampMs txs ∨
      n ≠ b.headNumber + 1 ∧ b.byNumber.get n = some r := by
  rw [put_byNumber, InsertionMap.get_set] at h
  split at h
  · exact .inl ⟨‹_›, (Option.some.inj h).symm⟩
  · exact .inr ⟨‹_›, h⟩

/-- The block found under an id stays found: the new id carries a height of its own. -/
private theorem found_put (h : b.Linked) {n : ℤ} {r : BlockRecord}
    (hr : b.byNumber.get n = some r) :
    (b.put hash timestampMs txs).byId.get r.blockID = some r := by
  have hne : r.blockID ≠ toBlockID (b.headNumber + 1) hash := by
    intro heq
    have hnumber := (h.found n r hr).1
    have hle := b.le_head n (InsertionMap.mem_keys_of_get hr)
    rw [heq] at hnumber
    have : b.headNumber + 1 = n := hnumber
    omega
  rw [put_byId, InsertionMap.get_set_of_ne _ _ hne]
  exact (h.found n r hr).2

/-- A block that is not older than the head keeps the store linked. -/
theorem Linked.put (h : b.Linked)
    (hts : ∀ p, b.headBlock = some p → p.timestampMs ≤ timestampMs) :
    (b.put hash timestampMs txs).Linked where
  head_ge := by
    have := h.head_ge
    rw [put_headNumber]
    omega
  contiguous n := by
    have hhead := h.head_ge
    rw [put_byNumber, InsertionMap.get_set, put_headNumber]
    split
    · simp only [Option.isSome_some, true_iff]
      omega
    · rw [h.contiguous]
      omega
  numbered n r hr := by
    obtain ⟨rfl, rfl⟩ | ⟨-, hr⟩ := get_put hr
    · rfl
    · exact h.numbered n r hr
  found n r hr := by
    obtain ⟨rfl, rfl⟩ | ⟨-, hr⟩ := get_put hr
    · exact ⟨rfl, InsertionMap.get_set_self ..⟩
    · exact ⟨(h.found n r hr).1, found_put h hr⟩
  genesis r hr := by
    obtain ⟨hzero, rfl⟩ | ⟨-, hr⟩ := get_put hr
    · have hnone : b.byNumber.get b.headNumber = none := by
        refine Option.eq_none_iff_forall_not_mem.2 fun p hp => ?_
        have := (h.contiguous _).1 (Option.isSome_iff_exists.2 ⟨p, hp⟩)
        omega
      change b.parentBlockID = _
      rw [parentBlockID, hnone]
      rfl
    · exact h.genesis r hr
  parent n p r hp hr := by
    obtain ⟨rfl, -⟩ | ⟨hne, hp⟩ := get_put hp
    · -- nothing stands above the new block
      obtain ⟨habove, -⟩ | ⟨-, hr⟩ := get_put hr
      · omega
      · have hle := b.le_head _ (InsertionMap.mem_keys_of_get hr)
        omega
    · obtain ⟨hn, rfl⟩ | ⟨-, hr⟩ := get_put hr
      · have hhead : b.byNumber.get b.headNumber = some p := by
          rw [← hp]
          congr 1
          omega
        refine ⟨?_, hts p hhead⟩
        change b.parentBlockID = _
        rw [parentBlockID, hhead]
        rfl
      · exact h.parent n p r hp hr

/-- The store before genesis is linked. -/
theorem linked_empty : ({} : BlockStore).Linked where
  head_ge := le_rfl
  contiguous n := by
    change false = true ↔ 0 ≤ n ∧ n ≤ -1
    simp only [Bool.false_eq_true, false_iff]
    omega
  numbered n r hr := by cases hr
  found n r hr := by cases hr
  genesis r hr := by cases hr
  parent n p r hp hr := by cases hp

/-- The ids of the transactions of all blocks, in order. -/
def txids (b : BlockStore) : List String :=
  b.byNumber.values.flatMap fun r => r.txs.map TronTxRecord.txid

/-- A block adds its transactions at the end. -/
theorem txids_put :
    (b.put hash timestampMs txs).txids = b.txids ++ txs.map TronTxRecord.txid := by
  rw [txids, put_byNumber, InsertionMap.values_set_of_not_mem _ b.next_not_mem,
    List.flatMap_append, List.flatMap_singleton]
  rfl

end BlockStore

/-! ### What the programs of the node do to the committed history -/

/-- One block more, stamped `timestampMs`, whose transactions are indexed. -/
structure Chain.Appends (c c' : Chain) (timestampMs : ℤ) (txids : List String) : Prop where
  blocks : ∃ hash txs, txs.map TronTxRecord.txid = txids ∧
    c'.registers.blocks = c.registers.blocks.put hash timestampMs txs
  receipts : ∀ txid, ((c'.table .txs).get txid).isSome ↔
    ((c.table .txs).get txid).isSome ∨ txid ∈ txids

/-- The id of an executed transaction. -/
def Executed.txid (tx : Executed) : String := tx.record.txid

namespace Returns

variable {α : Type} {c : Chain}

/-- Quiet work leaves the committed history alone. -/
private theorem of_quiet {x : NodeM α} {Q : α → Chain → Prop} (hx : Prog.Rel Quiet x)
    (h : ∀ a c', c.SameHistory c' → Q a c') : Returns x Q c := by
  rintro s a s' rfl hrun
  have hsame := (hx s).2
  rw [hrun] at hsame
  exact h a _ hsame

/-- The head block is read; without one the method throws. -/
theorem head {Q : BlockRecord → Chain → Prop}
    (h : ∀ r, c.registers.blocks.headBlock = some r → Q r c) : Returns Tvmjs.head Q c :=
  bind (read (orTypeError h))

/-- Sealing appends one block and changes nothing else of the history. -/
theorem sealBlock {env : NodeEnv} {txs : List TronTxRecord} {Q : Unit → Chain → Prop}
    (h : ∀ hash c', c'.registers.blocks = c.registers.blocks.put hash env.currentTimeMs txs →
      (∀ txid, (c'.table .txs).get txid = (c.table .txs).get txid) → Q () c') :
    Returns (Tvmjs.sealBlock env txs) Q c := by
  refine bind (read ?_)
  refine bind (recordUndo (bind (setRegisters ?_)))
  refine bind (callState_ok (f := fun w => (w.trie, w)) ?_)
  refine bind (read ?_)
  refine bind (recordUndo (bind (setRegisters ?_)))
  exact of_quiet rel_accrueBlockReward fun _ c' hsame => h _ c' hsame.blocks hsame.receipts

/-- Storing the executed transactions indexes them. -/
theorem storeExecuted {block : BlockRecord} (executed : List Executed) :
    Returns (Tvmjs.storeExecuted block executed) (fun _ c' =>
      c'.registers.blocks = c.registers.blocks ∧
        ∀ txid, ((c'.table .txs).get txid).isSome ↔
          ((c.table .txs).get txid).isSome ∨ txid ∈ executed.map Executed.txid) c := by
  induction executed generalizing c with
  | nil => exact pure ⟨rfl, by simp⟩
  | cons tx executed ih =>
    refine bind fun s _ s' hs hrun => ?_
    rw [Prog.run_ofExcept] at hrun
    obtain rfl : s' = s := (congrArg Prod.snd hrun).symm
    rw [hs]
    refine bind (writeTable (ih.mono fun _ c' h => ⟨h.1, fun txid => ?_⟩))
    rw [h.2, Chain.setTable_table_self]
    change ((((c.table .txs).set tx.record.txid _).get txid).isSome = true ∨ _) ↔ _
    rw [InsertionMap.get_set, List.map_cons, List.mem_cons, Executed.txid]
    split
    · simp [*]
    · simp [*]

end Returns

/-! ### Candidates -/

theorem rel_head : Prog.Rel Quiet head := .bind rel_read fun _ => rel_orTypeError

/-- An attempt is rolled back where it fails. -/
private theorem rel_attempt {env : NodeEnv} {skipRejected : Bool} {tx : PendingTransaction} :
    Prog.Rel Quiet (attempt env skipRejected tx) :=
  .tryCatch (.bind (rel_transact (tx.quiet env)) fun _ => .pure _) fun _ =>
    .ite (.pure _) (.throw _)

/-- Transaction by transaction nothing is stored. -/
private theorem rel_packTransactions {env : NodeEnv} {skipRejected : Bool}
    (txs : List PendingTransaction) :
    Prog.Rel Quiet (packTransactions env skipRejected txs) := by
  induction txs with
  | nil => exact .pure _
  | cons tx txs ih =>
    refine .bind rel_attempt fun outcome => .bind ih fun _ => ?_
    cases outcome with
    | none => exact .pure _
    | some executed => exact .pure _

/-- What was executed is stored with the block. -/
private theorem tracked_storeExecuted {block : BlockRecord} (executed : List Executed) :
    Prog.Rel Tracked (storeExecuted block executed) := by
  induction executed with
  | nil => exact .pure _
  | cons tx executed ih =>
    exact .bind (fun s => refl_of Tracked s) fun _ => .bind tracked_writeTable fun _ => ih

/-- An executed candidate keeps its id; one that yields nothing was rejected and skipped. -/
private theorem attempt_returns {env : NodeEnv} {skipRejected : Bool} {tx : PendingTransaction}
    {s s' : NodeState} {outcome : Option Executed}
    (h : (attempt env skipRejected tx).run s = (.ok outcome, s')) :
    (∀ executed, outcome = some executed → executed.txid = tx.txid) ∧
      (outcome = none → skipRejected = true) := by
  rw [attempt, Prog.run_tryCatch, Prog.run_bind, run_transact] at h
  rcases hrun : (tx.execute env).run s.enter with ⟨e | executed, t⟩
  · simp only [hrun] at h
    split at h
    · rename_i hskip
      cases h
      exact ⟨fun executed h => absurd h.symm (Option.some_ne_none executed),
        fun _ => (Bool.and_eq_true_iff.1 hskip).1⟩
    · cases h
  · simp only [hrun] at h
    cases h
    refine ⟨fun _ h => ?_, fun h => absurd h (Option.some_ne_none executed)⟩
    cases h
    exact tx.names _ _ _ _ hrun

/-- Every candidate is executed or rejected, and none is rejected unless that is allowed. -/
private theorem packTransactions_returns {env : NodeEnv} {skipRejected : Bool}
    {txs : List PendingTransaction} {s s' : NodeState} {executed : List Executed}
    {rejected : List String}
    (h : (packTransactions env skipRejected txs).run s = (.ok (executed, rejected), s')) :
    (executed.map Executed.txid ++ rejected).Perm (txs.map PendingTransaction.txid) ∧
      (skipRejected = false → rejected = []) := by
  induction txs generalizing s s' executed rejected with
  | nil =>
    cases h
    exact ⟨.refl _, fun _ => rfl⟩
  | cons tx txs ih =>
    obtain ⟨outcome, t, hattempt, h⟩ := Prog.run_bind_ok.1 h
    obtain ⟨⟨executed', rejected'⟩, t', hrest, h⟩ := Prog.run_bind_ok.1 h
    obtain ⟨hnames, hskip⟩ := attempt_returns hattempt
    obtain ⟨hperm, hnone⟩ := ih hrest
    cases outcome with
    | none =>
      cases h
      refine ⟨List.perm_middle.trans (hperm.cons _), fun hfalse => ?_⟩
      rw [hskip rfl] at hfalse
      cases hfalse
    | some first =>
      cases h
      rw [List.map_cons, List.map_cons, hnames first rfl]
      exact ⟨hperm.cons _, hnone⟩

/-! ### Tracked work on the mining node -/

/-- Tracked work on the node beneath. -/
def TrackedBeneath (m m' : MiningState) : Prop := Tracked m.node m'.node

instance : Std.Refl TrackedBeneath := ⟨fun m => refl_of Tracked m.node⟩

instance : IsTrans MiningState TrackedBeneath := ⟨fun _ _ _ h h' => trans_of Tracked h h'⟩

/-- Only the node, its pending state and the count of clock readings may have changed. -/
structure MiningState.Aside (m m' : MiningState) : Prop where
  pending : m'.pendingTransactions = m.pendingTransactions
  admitted : m'.admitted = m.admitted
  dropped : m'.dropped = m.dropped
  blockTime : m'.blockTimeSeconds = m.blockTimeSeconds
  offsetMs : m'.offsetMs = m.offsetMs
  readings : m.readings ≤ m'.readings

open MiningState (Aside)

instance : Std.Refl Aside := ⟨fun _ => ⟨rfl, rfl, rfl, rfl, rfl, le_rfl⟩⟩

instance : IsTrans MiningState Aside :=
  ⟨fun _ _ _ h h' => ⟨h'.pending.trans h.pending, h'.admitted.trans h.admitted,
    h'.dropped.trans h.dropped, h'.blockTime.trans h.blockTime, h'.offsetMs.trans h.offsetMs,
    h.readings.trans h'.readings⟩⟩

/-- Only the source of the clock was read. -/
structure MiningState.Ticks (m m' : MiningState) : Prop where
  aside : m.Aside m'
  node : m'.node = m.node

open MiningState (Ticks)

instance : Std.Refl Ticks := ⟨fun m => ⟨refl_of Aside m, rfl⟩⟩

instance : IsTrans MiningState Ticks :=
  ⟨fun _ _ _ h h' => ⟨trans_of Aside h.aside h'.aside, h'.node.trans h.node⟩⟩

/-- No candidate was committed, and the clock was read at most. -/
structure MiningState.Idle (m m' : MiningState) : Prop where
  aside : m.Aside m'
  history : m.node.chain.SameHistory m'.node.chain

open MiningState (Idle)

instance : Std.Refl Idle := ⟨fun m => ⟨refl_of Aside m, .refl _⟩⟩

instance : IsTrans MiningState Idle :=
  ⟨fun _ _ _ h h' => ⟨trans_of Aside h.aside h'.aside, h.history.trans h'.history⟩⟩

/-- A node that stays as it is stays quiet. -/
theorem MiningState.Ticks.idle {m m' : MiningState} (h : m.Ticks m') : m.Idle m' :=
  ⟨h.aside, by rw [h.node]; exact .refl _⟩

section Rules

variable {α : Type} {env : MiningEnv} {m m' : MiningState}

open Prog

/-- A check of a parameter changes nothing. -/
theorem rel_requireInteger {R : MiningState → MiningState → Prop} [Std.Refl R] {value : ℤ}
    {label : String} {lo hi : ℤ} : Rel R (requireInteger value label lo hi) :=
  .ite (.throw _) (.pure _)

/-- Reading the clock moves its readings only. -/
theorem rel_nowMs : Rel Ticks (nowMs env) :=
  .bind (.gets _) fun _ => .bind
    (.modify fun _ => ⟨⟨rfl, rfl, rfl, rfl, rfl, Nat.le_succ _⟩, rfl⟩) fun _ =>
    .bind rel_requireInteger fun _ => .bind (.gets _) fun _ => .bind rel_requireInteger fun _ =>
      .pure _

/-- The next offset is computed, not set. -/
private theorem rel_nextOffset {ms : ℤ} : Rel Ticks (nextOffset env ms) :=
  .bind rel_requireInteger fun _ => .bind rel_nowMs fun _ => .bind rel_requireInteger fun _ =>
    .bind (.gets _) fun _ => .bind rel_requireInteger fun _ => .pure _

/-- A parameter that passes lies in its range. -/
theorem requireInteger_returns {value : ℤ} {label : String} {lo hi : ℤ}
    (h : (requireInteger value label lo hi).run m = (.ok (), m')) :
    m' = m ∧ lo ≤ value ∧ value ≤ hi := by
  unfold requireInteger at h
  split at h
  · cases h
  · cases h
    exact ⟨rfl, by omega⟩

/-- A reading is the source's next value, moved by the offset. -/
theorem nowMs_returns {now : ℤ} (h : (nowMs env).run m = (.ok now, m')) :
    now = env.source m.readings + m.offsetMs ∧ 0 ≤ now ∧
      m' = { m with readings := m.readings + 1 } := by
  obtain ⟨_, _, hsource, hafter⟩ := run_bind_ok.1 h
  cases hsource
  obtain ⟨_, _, hcount, hcheck⟩ := run_bind_ok.1 hafter
  cases hcount
  obtain ⟨_, _, hfirst, hmoved⟩ := run_bind_ok.1 hcheck
  obtain ⟨rfl, -⟩ := requireInteger_returns hfirst
  obtain ⟨_, _, hnow, hlast⟩ := run_bind_ok.1 hmoved
  cases hnow
  obtain ⟨_, _, hsecond, hdone⟩ := run_bind_ok.1 hlast
  obtain ⟨rfl, hnonneg, -⟩ := requireInteger_returns hsecond
  cases hdone
  exact ⟨rfl, hnonneg, rfl⟩

/-- The next offset is the old one and what was asked for. -/
private theorem nextOffset_returns {ms offsetMs : ℤ}
    (h : (nextOffset env ms).run m = (.ok offsetMs, m')) : offsetMs = m.offsetMs + ms ∧ 0 ≤ ms := by
  obtain ⟨_, _, hms, hafter⟩ := run_bind_ok.1 h
  obtain ⟨rfl, hnonneg, -⟩ := requireInteger_returns hms
  obtain ⟨now, _, hnow, hread⟩ := run_bind_ok.1 hafter
  obtain ⟨-, -, rfl⟩ := nowMs_returns hnow
  obtain ⟨_, _, htime, hchecked⟩ := run_bind_ok.1 hread
  obtain ⟨rfl, -⟩ := requireInteger_returns htime
  obtain ⟨_, _, hoffset, hlast⟩ := run_bind_ok.1 hchecked
  cases hoffset
  obtain ⟨_, _, -, hdone⟩ := run_bind_ok.1 hlast
  cases hdone
  exact ⟨rfl, hnonneg⟩

/-- An advance that returns moves the offset and nothing else. -/
theorem advanceMs_returns {ms : ℤ} (h : (advanceMs env ms).run m = (.ok (), m')) :
    0 ≤ ms ∧ Ticks { m with offsetMs := m.offsetMs + ms } m' := by
  obtain ⟨offsetMs, t, hnext, h⟩ := run_bind_ok.1 h
  obtain ⟨rfl, hnonneg⟩ := nextOffset_returns hnext
  have hticks : m.Ticks ((nextOffset env ms).run m).2 := rel_nextOffset m
  rw [hnext] at hticks
  cases h
  exact ⟨hnonneg, ⟨hticks.aside.pending, hticks.aside.admitted, hticks.aside.dropped,
    hticks.aside.blockTime, rfl, hticks.aside.readings⟩, hticks.node⟩

/-- An advance that throws has read the clock at most. -/
theorem advanceMs_throws {ms : ℤ} {e : NodeError}
    (h : (advanceMs env ms).run m = (.error e, m')) : m.Ticks m' := by
  have hticks : m.Ticks ((nextOffset env ms).run m).2 := rel_nextOffset m
  obtain h | ⟨_, _, -, h⟩ := run_bind_error.1 h
  · rw [h] at hticks
    exact hticks
  · cases h

/-- Having followed a block, the clock is not behind it at the reading it took. -/
private theorem followBlock_returns {timestampMs : ℤ}
    (h : (followBlock env timestampMs).run m = (.ok (), m')) :
    ∃ d, 0 ≤ d ∧ Ticks { m with offsetMs := m.offsetMs + d } m' ∧ m.readings < m'.readings ∧
      timestampMs ≤ env.source m.readings + m'.offsetMs := by
  obtain ⟨now, _, hnow, h⟩ := run_bind_ok.1 h
  obtain ⟨hreading, -, rfl⟩ := nowMs_returns hnow
  split at h
  · obtain ⟨hnonneg, hticks⟩ := advanceMs_returns h
    have hoffset : m'.offsetMs = m.offsetMs + (timestampMs - now) := hticks.aside.offsetMs
    have hread : m.readings + 1 ≤ m'.readings := hticks.aside.readings
    refine ⟨timestampMs - now, hnonneg, ⟨⟨hticks.aside.pending, hticks.aside.admitted,
      hticks.aside.dropped, hticks.aside.blockTime, hoffset, ?_⟩, hticks.node⟩, ?_, ?_⟩
    · change m.readings ≤ _
      omega
    · omega
    · omega
  · cases h
    refine ⟨0, le_rfl, ⟨⟨rfl, rfl, rfl, rfl, (add_zero _).symm, Nat.le_succ _⟩, rfl⟩,
      Nat.lt_succ_self _, ?_⟩
    change _ ≤ env.source m.readings + m.offsetMs
    omega

/-- A clock that cannot follow the block stays as it is. -/
private theorem followBlock_throws {timestampMs : ℤ} {e : NodeError}
    (h : (followBlock env timestampMs).run m = (.error e, m')) : m.Ticks m' := by
  have hticks : m.Ticks ((nowMs env).run m).2 := rel_nowMs m
  obtain h | ⟨now, t, hnow, h⟩ := run_bind_error.1 h
  · rw [h] at hticks
    exact hticks
  · rw [hnow] at hticks
    split at h
    · exact trans_of Ticks hticks (advanceMs_throws h)
    · cases h

/-- Advancing the clock stores nothing. -/
private theorem rel_advanceMs {ms : ℤ} : Rel TrackedBeneath (advanceMs env ms) :=
  .bind (rel_nextOffset.mono fun m _ h => by
    rw [TrackedBeneath, h.node]
    exact refl_of Tracked m.node) fun _ => .modify fun m => refl_of Tracked m.node

private theorem tracked_nowMs : Rel TrackedBeneath (nowMs env) :=
  rel_nowMs.mono fun m _ h => by
    rw [TrackedBeneath, h.node]
    exact refl_of Tracked m.node

/-- A method of the node is tracked beneath the miner. -/
theorem rel_onNode {x : NodeM α} (hx : Rel Tracked x) : Rel TrackedBeneath (onNode x) :=
  fun m => hx m.node

/-- A method of the node leaves queue and clock alone. -/
theorem aside_onNode {x : NodeM α} : Rel Aside (onNode x) :=
  fun _ => ⟨rfl, rfl, rfl, rfl, rfl, le_rfl⟩

/-- A quiet method of the node leaves the miner idle. -/
theorem idle_onNode {x : NodeM α} (hx : Rel Quiet x) : Rel Idle (onNode x) :=
  fun m => ⟨aside_onNode m, (hx m.node).2⟩

/-- A method that returned ran on the node. -/
theorem onNode_returns {x : NodeM α} {a : α} (h : (onNode x).run m = (.ok a, m')) :
    x.run m.node = (.ok a, m'.node) := by
  have hresult : (x.run m.node).1 = .ok a := congrArg Prod.fst h
  have hnode : (x.run m.node).2 = m'.node := congrArg (fun r => r.2.node) h
  exact Prod.ext hresult hnode

/-- Sealing is tracked. -/
private theorem rel_sealPending {nodeEnv : NodeEnv} {txs : List TronTxRecord} :
    Rel TrackedBeneath (sealPending nodeEnv txs) := fun m => tracked_sealBlock m.node

/-- Sealing leaves queue and clock alone. -/
theorem aside_sealPending {nodeEnv : NodeEnv} {txs : List TronTxRecord} :
    Rel Aside (sealPending nodeEnv txs) := fun _ => ⟨rfl, rfl, rfl, rfl, rfl, le_rfl⟩

/-- Sealing appends one block and changes nothing else of the history. -/
theorem sealPending_returns {nodeEnv : NodeEnv} {txs : List TronTxRecord}
    (h : (sealPending nodeEnv txs).run m = (.ok (), m')) :
    (∃ hash, m'.node.chain.registers.blocks =
        m.node.chain.registers.blocks.put hash nodeEnv.currentTimeMs txs) ∧
      ∀ txid, (m'.node.chain.table .txs).get txid = (m.node.chain.table .txs).get txid := by
  have hresult : ((sealBlock nodeEnv txs).run m.node).1 = .ok () := congrArg Prod.fst h
  have hnode : ((sealBlock nodeEnv txs).run m.node).2 = m'.node :=
    congrArg (fun r => r.2.node) h
  have hsealed : Returns (sealBlock nodeEnv txs) (fun _ c' => (∃ hash, c'.registers.blocks =
        m.node.chain.registers.blocks.put hash nodeEnv.currentTimeMs txs) ∧
      ∀ txid, (c'.table .txs).get txid = (m.node.chain.table .txs).get txid) m.node.chain :=
    Returns.sealBlock fun hash c' hput hreceipts => ⟨⟨hash, hput⟩, hreceipts⟩
  exact hsealed m.node () m'.node rfl (Prod.ext hresult hnode)

/-- Sealing what was executed is tracked. -/
private theorem rel_sealExecuted {nodeEnv : NodeEnv} {executed : List Executed} :
    Rel TrackedBeneath (sealExecuted nodeEnv executed) :=
  .bind (rel_onNode rel_read) fun _ => .bind rel_sealPending fun _ =>
    .bind (rel_onNode rel_head.tracked) fun _ =>
      .bind (rel_onNode (tracked_storeExecuted executed)) fun _ => .pure _

/-- And it leaves queue and clock alone. -/
private theorem aside_sealExecuted {nodeEnv : NodeEnv} {executed : List Executed} :
    Rel Aside (sealExecuted nodeEnv executed) :=
  .bind aside_onNode fun _ => .bind aside_sealPending fun _ => .bind aside_onNode fun _ =>
    .bind aside_onNode fun _ => .pure _

/-- The executed transactions end up in the one block that is appended. -/
private theorem sealExecuted_returns {nodeEnv : NodeEnv} {executed : List Executed}
    {block : BlockRecord}
    (h : (sealExecuted nodeEnv executed).run m = (.ok block, m')) :
    m.node.chain.Appends m'.node.chain nodeEnv.currentTimeMs (executed.map Executed.txid) := by
  obtain ⟨number, t, hnumber, hsealing⟩ := run_bind_ok.1 h
  cases hnumber
  obtain ⟨_, t₁, hsealed, hrest⟩ := run_bind_ok.1 hsealing
  obtain ⟨⟨hash, hput⟩, hsame⟩ := sealPending_returns hsealed
  obtain ⟨_, t₂, hhead, hstoring⟩ := run_bind_ok.1 hrest
  have hkept := (rel_head t₁.node).2
  rw [onNode_returns hhead] at hkept
  obtain ⟨_, t₃, hstored, hdone⟩ := run_bind_ok.1 hstoring
  cases hdone
  obtain ⟨hblocks, hreceipts⟩ := Returns.storeExecuted executed _ _ _ rfl (onNode_returns hstored)
  refine ⟨⟨hash, _, ?_, hblocks.trans (hkept.blocks.trans hput)⟩, fun txid => ?_⟩
  · rw [List.map_map]
    rfl
  · rw [hreceipts, hkept.receipts, hsame]
    exact Iff.rfl

/-- What fails is rolled back, which is tracked as well. -/
private theorem rel_transactMining {x : MiningM α} (hx : Rel TrackedBeneath x) :
    Rel TrackedBeneath (transactMining x) := by
  intro m
  obtain ⟨ws, us, threw, cs, h⟩ := hx { m with node := m.node.enter }
  simp only [Prog.run, transactMining]
  rcases hrun : x { m with node := m.node.enter } with ⟨e | a, m'⟩
  · rw [Prog.run, hrun] at h
    exact ⟨_, _, _, _, Via.unwind h⟩
  · rw [Prog.run, hrun] at h
    exact ⟨_, _, _, _, Via.commit h⟩

/-- A `transact` that throws: its work threw, and the committed history is back. -/
theorem transactMining_throws {x : MiningM α} (hx : Rel TrackedBeneath x) {e : NodeError}
    (h : (transactMining x).run m = (.error e, m')) :
    m.node.chain.SameHistory m'.node.chain ∧
      ∃ t, x.run { m with node := m.node.enter } = (.error e, t) ∧
        m' = { t with node := NodeState.unwind m.node t.node } := by
  obtain ⟨ws, us, threw, cs, hvia⟩ := hx { m with node := m.node.enter }
  simp only [Prog.run, transactMining] at h
  rcases hrun : x { m with node := m.node.enter } with ⟨e' | a, t⟩
  · rw [Prog.run, hrun] at hvia
    rw [hrun] at h
    cases h
    exact ⟨hvia.sameHistory_unwind, t, hrun, rfl⟩
  · rw [hrun] at h
    cases h

/-- A `transact` that returns keeps what its work did, but for the pending state. -/
theorem transactMining_returns {x : MiningM α} {a : α}
    (h : (transactMining x).run m = (.ok a, m')) :
    ∃ t node pendingState, x.run { m with node := m.node.enter } = (.ok a, t) ∧
      t.node.chain = node.chain ∧ m' = { t with node, pendingState } := by
  simp only [Prog.run, transactMining] at h
  rcases hrun : x { m with node := m.node.enter } with ⟨e' | a', t⟩
  · rw [hrun] at h
    cases h
  · rw [hrun] at h
    cases h
    exact ⟨t, NodeState.commit m.node t.node, _, hrun, rfl, rfl⟩

end Rules

/-! ### One production -/

/-- The clock is not behind `timestampMs` at one of the readings taken between two states. -/
def CaughtUp (env : MiningEnv) (m m' : MiningState) (timestampMs : ℤ) : Prop :=
  ∃ reading, m.readings ≤ reading ∧ reading < m'.readings ∧
    timestampMs ≤ env.source reading + m'.offsetMs

/-- What one production did to the chain and the clock: either nothing was executed and no block
was wanted, or one block with everything that was executed was appended, which the clock has caught
up with. -/
inductive Production (env : MiningEnv) (m m' : MiningState) (earliestMs : ℤ) :
    List String → Prop
  | none (hsame : m.node.chain.SameHistory m'.node.chain) (hoffset : m'.offsetMs = m.offsetMs) :
      Production env m m' earliestMs []
  | block {timestampMs : ℤ} {executed : List String} (hstamp : earliestMs ≤ timestampMs)
      (happends : m.node.chain.Appends m'.node.chain timestampMs executed)
      (hclock : CaughtUp env m m' timestampMs) (hoffset : m.offsetMs ≤ m'.offsetMs) :
      Production env m m' earliestMs executed

section Production

open Prog

variable {env : MiningEnv} {m m' : MiningState} {txs : List PendingTransaction}
  {skipRejected allowEmpty : Bool} {timestampMs : ℤ}

/-- The clock follows the block beside the node. -/
private theorem rel_followBlock : Rel TrackedBeneath (followBlock env timestampMs) :=
  .bind tracked_nowMs fun _ => .ite rel_advanceMs (.pure _)

/-- A candidate is tracked up to where it is sealed. -/
private theorem rel_candidateBlock :
    Rel TrackedBeneath (candidateBlock env txs skipRejected allowEmpty timestampMs) :=
  .bind (rel_onNode (rel_packTransactions txs).tracked) fun ⟨_, _⟩ =>
    .ite (.bind (rel_onNode rel_head.tracked) fun _ => .pure _)
      (.bind rel_sealExecuted fun _ => .bind rel_followBlock fun _ => .pure _)

/-- A candidate that fails leaves queue and clock alone. -/
private theorem candidateBlock_throws {e : NodeError}
    (h : (candidateBlock env txs skipRejected allowEmpty timestampMs).run m = (.error e, m')) :
    m.Aside m' := by
  have hpack : Rel Aside (onNode (packTransactions (env.node.at timestampMs) skipRejected txs)) :=
    aside_onNode
  have hpacked := hpack m
  obtain h | ⟨⟨executed, rejected⟩, t, hrun, hrest⟩ := run_bind_error.1 h
  · rw [h] at hpacked
    exact hpacked
  rw [hrun] at hpacked
  refine trans_of Aside hpacked ?_
  dsimp only at hrest
  split at hrest
  · have hquiet : Rel Aside (onNode head >>= fun block => pure (block, rejected)) :=
      .bind aside_onNode fun _ => .pure _
    have hhead := hquiet t
    rw [hrest] at hhead
    exact hhead
  · -- the clock comes last, and moves only when nothing throws after it
    have hsealing : t.Aside ((sealExecuted (env.node.at timestampMs) executed).run t).2 :=
      aside_sealExecuted t
    obtain hsealed | ⟨block, t₁, hsealed, hrest⟩ := run_bind_error.1 hrest
    · rw [hsealed] at hsealing
      exact hsealing
    rw [hsealed] at hsealing
    refine trans_of Aside hsealing ?_
    obtain hfollow | ⟨_, t₂, -, hdone⟩ := run_bind_error.1 hrest
    · exact (followBlock_throws hfollow).aside
    · cases hdone

/-- A candidate that returns has executed or rejected each of its transactions. -/
private theorem candidateBlock_returns {block : BlockRecord} {rejected : List String}
    {earliestMs : ℤ}
    (hstamp : earliestMs ≤ timestampMs)
    (h : (candidateBlock env txs skipRejected allowEmpty timestampMs).run m =
      (.ok (block, rejected), m')) :
    ∃ executed, (executed ++ rejected).Perm (txs.map PendingTransaction.txid) ∧
      (skipRejected = false → rejected = []) ∧ Production env m m' earliestMs executed ∧
      Aside { m with offsetMs := m'.offsetMs } m' := by
  obtain ⟨⟨executed, rejected⟩, t, hpack, hrest⟩ := run_bind_ok.1 h
  have hpacked : Quiet m.node
      ((packTransactions (env.node.at timestampMs) skipRejected txs).run m.node).2 :=
    rel_packTransactions txs m.node
  rw [onNode_returns hpack] at hpacked
  obtain ⟨hperm, hskip⟩ := packTransactions_returns (onNode_returns hpack)
  have haside := aside_onNode (x := packTransactions (env.node.at timestampMs) skipRejected txs) m
  rw [hpack] at haside
  refine ⟨executed.map Executed.txid, ?_⟩
  dsimp only at hrest
  -- Without a transaction there may be no block, and then only the node has read its head.
  split at hrest
  · rename_i hempty
    obtain ⟨_, t₁, hhead, hdone⟩ := run_bind_ok.1 hrest
    have hkept := rel_head t.node
    rw [onNode_returns hhead] at hkept
    have hsame := aside_onNode (x := head) t
    rw [hhead] at hsame
    have hall := trans_of Aside haside hsame
    cases hdone
    have hnone : executed = [] := List.isEmpty_iff.1 (Bool.and_eq_true_iff.1 hempty).2
    subst hnone
    exact ⟨hperm, hskip, .none (hpacked.2.trans hkept.2) hall.offsetMs,
      hall.pending, hall.admitted, hall.dropped, hall.blockTime, rfl, hall.readings⟩
  · obtain ⟨_, t₁, hsealed, hfollow⟩ := run_bind_ok.1 hrest
    -- the block is sealed, and the clock follows its timestamp
    have happends := sealExecuted_returns hsealed
    have hsealing : t.Aside ((sealExecuted (env.node.at timestampMs) executed).run t).2 :=
      aside_sealExecuted t
    rw [hsealed] at hsealing
    obtain ⟨_, t₂, hclock, hdone⟩ := run_bind_ok.1 hfollow
    obtain ⟨d, hd, hticks, hread, hcaught⟩ := followBlock_returns hclock
    cases hdone
    have hbefore := trans_of Aside haside hsealing
    have hoffset : m'.offsetMs = t₁.offsetMs + d := hticks.aside.offsetMs
    have hstart : t₁.offsetMs = m.offsetMs := hbefore.offsetMs
    have hcount : m.readings ≤ t₁.readings := hbefore.readings
    refine ⟨hperm, hskip, .block hstamp ?_ ⟨t₁.readings, hcount, hread, hcaught⟩ (by omega),
      hticks.aside.pending.trans hbefore.pending, hticks.aside.admitted.trans hbefore.admitted,
      hticks.aside.dropped.trans hbefore.dropped, hticks.aside.blockTime.trans hbefore.blockTime,
      rfl, hcount.trans hread.le⟩
    rw [hticks.node]
    obtain ⟨⟨hash, records, hids, hblocks⟩, hreceipts⟩ := happends
    refine ⟨⟨hash, records, hids, ?_⟩, fun txid => ?_⟩
    · exact hblocks.trans (by rw [hpacked.2.blocks]; rfl)
    · exact (hreceipts txid).trans (by rw [hpacked.2.receipts])

/-- A production between two states is one between states with the same history and clock. -/
theorem Production.congr {m₁ m₂ : MiningState} {earliestMs : ℤ} {executed : List String}
    (h : Production env m₁ m₂ earliestMs executed)
    (hsame : m.node.chain.SameHistory m₁.node.chain) (hoffset : m₁.offsetMs = m.offsetMs)
    (hread : m.readings ≤ m₁.readings) (hchain : m₂.node.chain = m'.node.chain)
    (hoffset' : m'.offsetMs = m₂.offsetMs) (hread' : m'.readings = m₂.readings) :
    Production env m m' earliestMs executed := by
  cases h with
  | none hkept hstill =>
    refine .none ?_ (by rw [hoffset', hstill, hoffset])
    rw [← hchain]
    exact hsame.trans hkept
  | block hstamp happends hclock hmoved =>
    obtain ⟨⟨hash, records, hids, hblocks⟩, hreceipts⟩ := happends
    obtain ⟨reading, hfirst, hlast, hcaught⟩ := hclock
    refine .block hstamp ⟨⟨hash, records, hids, ?_⟩, fun txid => ?_⟩
      ⟨reading, hread.trans hfirst, by omega, by omega⟩ (by omega)
    · rw [← hchain, hblocks, hsame.blocks]
    · rw [← hchain, hreceipts, hsame.receipts]

variable {intervalSeconds : ℤ}

/-- Producing a block is tracked. -/
theorem rel_produceBlock :
    Rel TrackedBeneath (produceBlock env txs skipRejected allowEmpty intervalSeconds) :=
  .bind (.bind (rel_onNode rel_head.tracked) fun _ => .bind tracked_nowMs fun _ =>
    .bind rel_requireInteger fun _ => .pure _) fun _ =>
    .bind (rel_transactMining rel_candidateBlock) fun ⟨_, _⟩ =>
      .bind (.modify fun m => refl_of Tracked m.node) fun _ => .pure _

/-- The next timestamp is read from the clock and the head. -/
private theorem idle_nextTimestamp : Rel Idle (nextTimestamp env intervalSeconds) :=
  .bind (idle_onNode rel_head) fun _ => .bind (rel_nowMs.mono fun _ _ => Ticks.idle) fun _ =>
    .bind rel_requireInteger fun _ => .pure _

/-- The next block is stamped at least one interval after the head. -/
private theorem nextTimestamp_returns (h : (nextTimestamp env intervalSeconds).run m =
    (.ok timestampMs, m')) :
    ∃ parent, m.node.chain.registers.blocks.headBlock = some parent ∧
      parent.timestampMs + intervalSeconds * 1000 ≤ timestampMs := by
  obtain ⟨parent, t, hhead, hrest⟩ := run_bind_ok.1 h
  have hparent : Returns head (fun r _ => m.node.chain.registers.blocks.headBlock = some r)
      m.node.chain := Returns.head fun _ hr => hr
  refine ⟨parent, hparent _ _ _ rfl (onNode_returns hhead), ?_⟩
  obtain ⟨now, _, -, hchecked⟩ := run_bind_ok.1 hrest
  obtain ⟨_, _, -, hdone⟩ := run_bind_ok.1 hchecked
  cases hdone
  exact le_max_right _ _

/-- A production that throws leaves the history, the queue and the offset of the clock alone. -/
theorem produceBlock_throws {e : NodeError}
    (h : (produceBlock env txs skipRejected allowEmpty intervalSeconds).run m = (.error e, m')) :
    m.Idle m' := by
  have hbefore : m.Idle ((nextTimestamp env intervalSeconds).run m).2 := idle_nextTimestamp m
  obtain h | ⟨timestampMs, t, hstamp, hrest⟩ := run_bind_error.1 h
  · rw [h] at hbefore
    exact hbefore
  rw [hstamp] at hbefore
  refine trans_of Idle hbefore ?_
  obtain h | ⟨⟨block, rejected⟩, t₁, -, hdone⟩ := run_bind_error.1 hrest
  · obtain ⟨hsame, t₁, hcandidate, rfl⟩ := transactMining_throws rel_candidateBlock h
    have hinside := candidateBlock_throws hcandidate
    exact ⟨⟨hinside.pending, hinside.admitted, hinside.dropped, hinside.blockTime,
      hinside.offsetMs, hinside.readings⟩, hsame⟩
  · cases hdone

/-- What a production that returns does to the queue, the chain and the clock. -/
structure Produced (env : MiningEnv) (txs : List PendingTransaction) (skipRejected : Bool)
    (intervalSeconds : ℤ) (m m' : MiningState) (parent : BlockRecord)
    (executed rejected : List String) : Prop where
  head : m.node.chain.registers.blocks.headBlock = some parent
  candidates : (executed ++ rejected).Perm (txs.map PendingTransaction.txid)
  skipped : skipRejected = false → rejected = []
  production : Production env m m' (parent.timestampMs + intervalSeconds * 1000) executed
  pending : m'.pendingTransactions = dequeue m.pendingTransactions txs
  admitted : m'.admitted = m.admitted
  dropped : m'.dropped = m.dropped ++ rejected
  blockTime : m'.blockTimeSeconds = m.blockTimeSeconds
  readings : m.readings ≤ m'.readings

/-- What a block that was produced did to the chain, the queue and the clock. -/
theorem produceBlock_returns {block : BlockRecord}
    (h : (produceBlock env txs skipRejected allowEmpty intervalSeconds).run m = (.ok block, m')) :
    ∃ parent executed rejected,
      Produced env txs skipRejected intervalSeconds m m' parent executed rejected := by
  have hbefore : m.Idle ((nextTimestamp env intervalSeconds).run m).2 := idle_nextTimestamp m
  obtain ⟨timestampMs, t, hstamp, hrest⟩ := run_bind_ok.1 h
  rw [hstamp] at hbefore
  obtain ⟨parent, hparent, hle⟩ := nextTimestamp_returns hstamp
  obtain ⟨⟨_, rejected⟩, t₁, htransact, hdone⟩ := run_bind_ok.1 hrest
  obtain ⟨t₂, node, pendingState, hcandidate, hchain, rfl⟩ := transactMining_returns htransact
  obtain ⟨executed, hperm, hskip, hproduction, hinside⟩ := candidateBlock_returns hle hcandidate
  cases hdone
  have hqueue : t₂.pendingTransactions = m.pendingTransactions :=
    hinside.pending.trans hbefore.aside.pending
  have hdropped : t₂.dropped = m.dropped := hinside.dropped.trans hbefore.aside.dropped
  refine ⟨parent, executed, rejected, hparent, hperm, hskip, hproduction.congr hbefore.history
    hbefore.aside.offsetMs hbefore.aside.readings hchain rfl rfl, ?_,
    hinside.admitted.trans hbefore.aside.admitted, ?_,
    hinside.blockTime.trans hbefore.aside.blockTime,
    hbefore.aside.readings.trans hinside.readings⟩
  · rw [← hqueue]
  · rw [← hdropped]

end Production

end Tvmjs
