import Tvmjs.Client.Production

/-!
# The chain and the queue over all runs

Every call is made of productions, of quiet work on the node and of moves of the clock, and each of
these keeps the invariant of the mining node.

* `MiningState.Sound` -- the invariant of all runs;
* `reachable_chain` -- the chain and its clock in every reachable state;
* `reachable_queue` -- no submission is lost, and none is committed twice.
-/

namespace Tvmjs

open MiningState (Aside Idle)

/-! ### The queue -/

private theorem dequeue_cons (pending : InsertionMap String PendingTransaction)
    (tx : PendingTransaction)
    (txs : List PendingTransaction) :
    dequeue pending (tx :: txs) = dequeue (pending.delete tx.txid) txs := rfl

/-- What was taken from the queue is gone, the rest stays. -/
private theorem get_dequeue (pending : InsertionMap String PendingTransaction)
    (txs : List PendingTransaction) (txid : String) :
    (dequeue pending txs).get txid =
      if txid ∈ txs.map PendingTransaction.txid then none else pending.get txid := by
  induction txs generalizing pending with
  | nil => simp [dequeue]
  | cons tx txs ih =>
    rw [dequeue_cons, ih, InsertionMap.get_delete, List.map_cons]
    split
    · simp [*]
    · split <;> simp [*]

/-- A queue without some of its entries, and these entries, are the queue. -/
private theorem perm_dequeue {pending : InsertionMap String PendingTransaction}
    {txs : List PendingTransaction} (hnodup : (txs.map PendingTransaction.txid).Nodup)
    (hmem : ∀ tx ∈ txs, tx.txid ∈ pending.keys) :
    pending.keys.Perm (txs.map PendingTransaction.txid ++ (dequeue pending txs).keys) := by
  have hkeys (txid : String) : txid ∈ (dequeue pending txs).keys ↔
      txid ∉ txs.map PendingTransaction.txid ∧ txid ∈ pending.keys := by
    rw [← InsertionMap.get_isSome_iff, ← InsertionMap.get_isSome_iff, get_dequeue]
    split <;> simp [*]
  refine (List.perm_ext_iff_of_nodup pending.nodup_keys ?_).2 fun txid => ?_
  · refine List.nodup_append.2 ⟨hnodup, InsertionMap.nodup_keys _, fun a ha b hb hab => ?_⟩
    exact ((hkeys b).1 hb).1 (hab ▸ ha)
  · rw [List.mem_append, hkeys]
    constructor
    · intro h
      by_cases hin : txid ∈ txs.map PendingTransaction.txid
      · exact .inl hin
      · exact .inr ⟨hin, h⟩
    · rintro (h | h)
      · obtain ⟨tx, htx, rfl⟩ := List.mem_map.1 h
        exact hmem tx htx
      · exact h.2

/-! ### The invariant -/

/-- The ids of the transactions in the blocks. -/
def MiningState.committedIds (m : MiningState) : List String := m.node.chain.registers.blocks.txids

/-- The ids that wait for a block. -/
def MiningState.pendingIds (m : MiningState) : List String := m.pendingTransactions.keys

/-- The clock is not behind the head block: at one of its readings so far it was not, the offset
being what it is now. -/
def MiningState.ClockAtHead (env : MiningEnv) (m : MiningState) : Prop :=
  ∀ block, m.node.chain.registers.blocks.headBlock = some block →
    ∃ reading < m.readings, block.timestampMs ≤ env.source reading + m.offsetMs

/-- Every submission that was admitted waits, stands in a block or was dropped, and none is counted
twice; the receipts are those of the blocks. -/
structure MiningState.Settled (m : MiningState) : Prop where
  accounts : m.admitted.Perm (m.pendingIds ++ m.committedIds ++ m.dropped)
  once : (m.pendingIds ++ m.committedIds).Nodup
  receipts : ∀ txid, ((m.node.chain.table .txs).get txid).isSome ↔ txid ∈ m.committedIds

/-- The invariant of the mining node. -/
structure MiningState.Sound (env : MiningEnv) (m : MiningState) : Prop where
  linked : m.node.chain.registers.blocks.Linked
  created : 0 ≤ m.node.chain.registers.blocks.headNumber
  clock : m.ClockAtHead env
  blockTime : 0 ≤ m.blockTimeSeconds
  keyed : ∀ txid tx, m.pendingTransactions.get txid = some tx → tx.txid = txid
  settled : m.Settled

open MiningState (Sound Settled)

section Sound

variable {env : MiningEnv} {m m' : MiningState}

/-- A clock that moves on stays at or after the head. -/
theorem MiningState.ClockAtHead.of_le (h : m.ClockAtHead env)
    (hblocks : m'.node.chain.registers.blocks = m.node.chain.registers.blocks)
    (hoffset : m.offsetMs ≤ m'.offsetMs) (hread : m.readings ≤ m'.readings) :
    m'.ClockAtHead env := by
  intro block hblock
  rw [hblocks] at hblock
  obtain ⟨reading, hlt, hle⟩ := h block hblock
  exact ⟨reading, by omega, by omega⟩

/-- The accounts of the queue depend on the history and the lists of ids only. -/
private theorem MiningState.Settled.of_same (h : m.Settled)
    (hsame : m.node.chain.SameHistory m'.node.chain)
    (hpending : m'.pendingTransactions = m.pendingTransactions)
    (hadmitted : m'.admitted = m.admitted) (hdropped : m'.dropped = m.dropped) : m'.Settled := by
  have hcommitted : m'.committedIds = m.committedIds := congrArg BlockStore.txids hsame.blocks
  have hpendingIds : m'.pendingIds = m.pendingIds := congrArg InsertionMap.keys hpending
  refine ⟨?_, ?_, fun txid => ?_⟩
  · rw [hadmitted, hdropped, hcommitted, hpendingIds]
    exact h.accounts
  · rw [hcommitted, hpendingIds]
    exact h.once
  · rw [hsame.receipts, hcommitted]
    exact h.receipts txid

/-- The invariant speaks of the history, the queue, the clock and the mode alone. -/
private theorem MiningState.Sound.of_same (h : m.Sound env)
    (hsame : m.node.chain.SameHistory m'.node.chain)
    (hpending : m'.pendingTransactions = m.pendingTransactions)
    (hadmitted : m'.admitted = m.admitted) (hdropped : m'.dropped = m.dropped)
    (hclock : m'.ClockAtHead env) (hblockTime : 0 ≤ m'.blockTimeSeconds) : m'.Sound env where
  linked := by
    rw [hsame.blocks]
    exact h.linked
  created := by
    rw [hsame.blocks]
    exact h.created
  clock := hclock
  blockTime := hblockTime
  keyed := by
    rw [hpending]
    exact h.keyed
  settled := h.settled.of_same hsame hpending hadmitted hdropped

/-- Idle steps keep the invariant. -/
theorem MiningState.Sound.idle (h : m.Sound env) (hidle : m.Idle m') : m'.Sound env :=
  h.of_same hidle.history hidle.aside.pending hidle.aside.admitted hidle.aside.dropped
    (h.clock.of_le hidle.history.blocks hidle.aside.offsetMs.ge hidle.aside.readings)
    (hidle.aside.blockTime ▸ h.blockTime)

/-! ### Productions keep it -/

variable {txs : List PendingTransaction} {skipRejected allowEmpty : Bool} {intervalSeconds : ℤ}
  {parent : BlockRecord} {executed rejected : List String}

/-- The chain and the clock after a production. -/
theorem Produced.chain (h : m.Sound env) (hinterval : 0 ≤ intervalSeconds)
    (hp : Produced env txs skipRejected intervalSeconds m m' parent executed rejected) :
    m'.node.chain.registers.blocks.Linked ∧ 0 ≤ m'.node.chain.registers.blocks.headNumber ∧
      m'.ClockAtHead env := by
  rcases hp.production with ⟨hsame, hoffset⟩ | ⟨hstamp, ⟨⟨hash, records, -, hblocks⟩, -⟩,
    ⟨reading, -, hlast, hcaught⟩, -⟩
  · rw [hsame.blocks]
    exact ⟨h.linked, h.created, h.clock.of_le hsame.blocks hoffset.ge hp.readings⟩
  · refine ⟨?_, ?_, ?_⟩
    · rw [hblocks]
      refine h.linked.put fun p hp' => ?_
      obtain rfl : parent = p := Option.some.inj (hp.head.symm.trans hp')
      omega
    · rw [hblocks, BlockStore.put_headNumber]
      have := h.created
      omega
    · intro block hblock
      rw [hblocks, BlockStore.headBlock_put] at hblock
      obtain rfl := Option.some.inj hblock
      exact ⟨reading, hlast, hcaught⟩

/-- The blocks and receipts after a production: its executed transactions were added. -/
theorem Produced.committed
    (hp : Produced env txs skipRejected intervalSeconds m m' parent executed rejected) :
    m'.committedIds = m.committedIds ++ executed ∧
      ∀ txid, ((m'.node.chain.table .txs).get txid).isSome ↔
        ((m.node.chain.table .txs).get txid).isSome ∨ txid ∈ executed := by
  rcases hp.production with ⟨hsame, -⟩ | ⟨-, ⟨⟨hash, records, hids, hblocks⟩, hreceipts⟩, -, -⟩
  · refine ⟨?_, fun txid => ?_⟩
    · rw [List.append_nil]
      exact congrArg BlockStore.txids hsame.blocks
    · rw [hsame.receipts]
      simp
  · refine ⟨?_, hreceipts⟩
    rw [MiningState.committedIds, hblocks, BlockStore.txids_put, hids]
    rfl

/-- **The accounts after a production** of `fresh` new candidates and of pending ones.  Both
conditions count occurrences: what leaves the queue is executed or rejected. -/
theorem Produced.settled (h : m.Settled) {fresh : List String}
    (hp : Produced env txs skipRejected intervalSeconds m m' parent executed rejected)
    (hqueue : (fresh ++ m.pendingIds).Perm (txs.map PendingTransaction.txid ++ m'.pendingIds))
    (hfresh : (fresh ++ (m.pendingIds ++ m.committedIds)).Nodup) :
    Settled { m' with admitted := m'.admitted ++ fresh } := by
  obtain ⟨hcommitted, hreceipts⟩ := hp.committed
  have hqueueCount := List.perm_iff_count.1 hqueue
  have hcandidates := List.perm_iff_count.1 hp.candidates
  simp only [List.count_append] at hqueueCount hcandidates
  refine ⟨List.perm_iff_count.2 fun txid => ?_, List.nodup_iff_count_le_one.2 fun txid => ?_,
    fun txid => ?_⟩
  · have haccounts := List.perm_iff_count.1 h.accounts txid
    have hq := hqueueCount txid
    have hc := hcandidates txid
    change List.count txid (m'.admitted ++ fresh) =
      List.count txid (m'.pendingIds ++ m'.committedIds ++ m'.dropped)
    rw [hcommitted, hp.admitted, hp.dropped]
    simp only [List.count_append] at haccounts ⊢
    omega
  · have honce := List.nodup_iff_count_le_one.1 hfresh txid
    have hq := hqueueCount txid
    have hc := hcandidates txid
    change List.count txid (m'.pendingIds ++ m'.committedIds) ≤ 1
    rw [hcommitted]
    simp only [List.count_append] at honce ⊢
    omega
  · change ((m'.node.chain.table .txs).get txid).isSome ↔ txid ∈ m'.committedIds
    rw [hreceipts, hcommitted, h.receipts, List.mem_append]

/-- A production of `fresh` new candidates and of pending ones keeps the invariant, once the new
ones are noted as admitted. -/
theorem Produced.sound (h : m.Sound env) (hinterval : 0 ≤ intervalSeconds) {fresh : List String}
    (hp : Produced env txs skipRejected intervalSeconds m m' parent executed rejected)
    (hqueue : (fresh ++ m.pendingIds).Perm (txs.map PendingTransaction.txid ++ m'.pendingIds))
    (hfresh : (fresh ++ (m.pendingIds ++ m.committedIds)).Nodup) :
    Sound env { m' with admitted := m'.admitted ++ fresh } where
  linked := (hp.chain h hinterval).1
  created := (hp.chain h hinterval).2.1
  clock := (hp.chain h hinterval).2.2
  blockTime := by
    change 0 ≤ m'.blockTimeSeconds
    rw [hp.blockTime]
    exact h.blockTime
  keyed txid tx htx := by
    change m'.pendingTransactions.get txid = some tx at htx
    rw [hp.pending, get_dequeue] at htx
    split at htx
    · cases htx
    · exact h.keyed txid tx htx
  settled := hp.settled h.settled hqueue hfresh

/-- The invariant is kept, and no id appears in the queue or in the blocks that was in neither. -/
def Keeps (env : MiningEnv) (m m' : MiningState) : Prop :=
  m.Sound env → m'.Sound env ∧
    ∀ txid ∈ m'.pendingIds ++ m'.committedIds, txid ∈ m.pendingIds ++ m.committedIds

instance : Std.Refl (Keeps env) := ⟨fun _ h => ⟨h, fun _ => id⟩⟩

instance : IsTrans MiningState (Keeps env) :=
  ⟨fun _ _ _ h h' hs => ⟨(h' (h hs).1).1, fun txid hid => (h hs).2 txid ((h' (h hs).1).2 txid hid)⟩⟩

/-- An idle miner keeps its invariant. -/
theorem MiningState.Idle.keeps (hidle : m.Idle m') : Keeps env m m' := fun h => by
  have hcommitted : m'.committedIds = m.committedIds :=
    congrArg BlockStore.txids hidle.history.blocks
  have hpending : m'.pendingIds = m.pendingIds := congrArg InsertionMap.keys hidle.aside.pending
  exact ⟨h.idle hidle, fun txid hid => by rwa [hcommitted, hpending] at hid⟩

/-- Pending candidates of a queue: entries of it, each named once. -/
structure FromQueue (m : MiningState) (txs : List PendingTransaction) : Prop where
  waits : ∀ tx ∈ txs, m.pendingTransactions.get tx.txid = some tx
  nodup : (txs.map PendingTransaction.txid).Nodup

/-- The queue is what is taken and what is left. -/
private theorem FromQueue.perm (hq : FromQueue m txs) :
    m.pendingIds.Perm (txs.map PendingTransaction.txid ++
      (dequeue m.pendingTransactions txs).keys) :=
  perm_dequeue hq.nodup fun tx htx => InsertionMap.mem_keys_of_get (hq.waits tx htx)

/-- A production of pending candidates keeps the invariant, whether it returns or throws. -/
private theorem produceBlock_keeps (hinterval : 0 ≤ intervalSeconds) (hq : FromQueue m txs) :
    Keeps env m ((produceBlock env txs skipRejected allowEmpty intervalSeconds).run m).2 := by
  rcases hrun : (produceBlock env txs skipRejected allowEmpty intervalSeconds).run m
    with ⟨e | block, m'⟩
  · exact (produceBlock_throws hrun).keeps
  intro h
  obtain ⟨parent, executed, rejected, hp⟩ := produceBlock_returns hrun
  have hpendingIds : m'.pendingIds = (dequeue m.pendingTransactions txs).keys :=
    congrArg InsertionMap.keys hp.pending
  have hqueue : ([] ++ m.pendingIds).Perm (txs.map PendingTransaction.txid ++ m'.pendingIds) := by
    rw [hpendingIds]
    exact hq.perm
  have hsound := hp.sound h hinterval hqueue h.settled.once
  refine ⟨?_, fun txid hid => ?_⟩
  · rw [List.append_nil] at hsound
    exact hsound
  · rw [hp.committed.1, hpendingIds] at hid
    have hleft := hq.perm.mem_iff (a := txid)
    have hcandidates := hp.candidates.mem_iff (a := txid)
    simp only [List.mem_append] at hid hleft hcandidates ⊢
    tauto

end Sound

/-! ### Calls keep it -/

section Calls

open Prog

variable {env : MiningEnv} {m m' : MiningState}

private theorem Keeps.of_idle {α : Type} {x : MiningM α} (hx : Rel Idle x) : Rel (Keeps env) x :=
  hx.mono fun _ _ => Idle.keeps

/-- The candidates of the next block wait in the queue. -/
private theorem fromQueue_values (h : m.Sound env) : FromQueue m m.pendingTransactions.values := by
  have hkeys : m.pendingTransactions.values.map PendingTransaction.txid =
    m.pendingTransactions.keys := by
    rw [InsertionMap.values, List.map_map, InsertionMap.keys]
    exact List.map_congr_left fun e he => h.keyed e.1 e.2 (InsertionMap.get_of_mem he)
  refine ⟨fun tx htx => ?_, by rw [hkeys]; exact InsertionMap.nodup_keys _⟩
  obtain ⟨e, he, rfl⟩ := List.mem_map.1 htx
  have hget := InsertionMap.get_of_mem he
  rw [h.keyed _ _ hget]
  exact hget

/-- The first few of what is taken from the queue. -/
theorem FromQueue.take {txs : List PendingTransaction} (hq : FromQueue m txs) (n : ℕ) :
    FromQueue m (txs.take n) where
  waits tx htx := hq.waits tx (List.mem_of_mem_take htx)
  nodup := by
    rw [List.map_take]
    exact hq.nodup.sublist (List.take_sublist _ _)

/-- The candidates of a block wait in the queue. -/
private theorem fromQueue_candidates (h : m.Sound env) : FromQueue m m.candidates := by
  unfold MiningState.candidates
  split
  · exact (fromQueue_values h).take 1
  · exact fromQueue_values h

/-- Block by block the invariant is kept. -/
private theorem keeps_mineBlocks (n : ℕ) (record : BlockRecord) :
    Rel (Keeps env) (mineBlocks env n record) := by
  induction n generalizing record with
  | zero => exact .pure _
  | succ n ih =>
    intro m h
    have hproduced : Keeps env m
        ((produceBlock env m.candidates true true m.blockTimeSeconds).run m).2 :=
      produceBlock_keeps h.blockTime (fromQueue_candidates h)
    exact Rel.bind_at hproduced (fun record => ih record) h

/-- So it is for a request to mine. -/
private theorem keeps_mine (count : ℤ) : Rel (Keeps env) (mine env count) :=
  .bind rel_requireInteger fun _ => .bind (.of_idle (idle_onNode rel_head)) fun _ =>
    keeps_mineBlocks _ _

/-- What is left of the queue after its first candidate was taken. -/
theorem FromQueue.tail {tx : PendingTransaction} {txs : List PendingTransaction}
    (hq : FromQueue m (tx :: txs))
    (hpending : m'.pendingTransactions = dequeue m.pendingTransactions [tx]) :
    FromQueue m' txs where
  waits tx' htx' := by
    have hne : tx'.txid ≠ tx.txid := fun heq =>
      (List.nodup_cons.1 hq.nodup).1 (heq ▸ List.mem_map_of_mem htx')
    rw [hpending, get_dequeue, if_neg (by simpa using hne)]
    exact hq.waits tx' (List.mem_cons_of_mem _ htx')
  nodup := (List.nodup_cons.1 hq.nodup).2

/-- The drain keeps the invariant as it goes: what it has not reached still waits. -/
private theorem keeps_mineEach {txs : List PendingTransaction} (hq : FromQueue m txs) :
    Keeps env m ((mineEach env txs).run m).2 := by
  induction txs generalizing m with
  | nil => exact refl_of (Keeps env) m
  | cons tx txs ih =>
    have hfirst : FromQueue m [tx] := ⟨fun tx' htx' => hq.waits tx' (by
      rw [List.mem_singleton.1 htx']
      exact List.mem_cons_self), List.nodup_singleton _⟩
    have hproduced : Keeps env m ((produceBlock env [tx] true false 0).run m).2 :=
      produceBlock_keeps le_rfl hfirst
    rw [mineEach, run_bind]
    rcases hrun : (produceBlock env [tx] true false 0).run m with ⟨e | block, m'⟩
    · rw [hrun] at hproduced
      exact hproduced
    · rw [hrun] at hproduced
      obtain ⟨_, _, _, hp⟩ := produceBlock_returns hrun
      exact trans_of (Keeps env) hproduced (ih (hq.tail hp.pending))

/-- So it is where each transaction gets a block. -/
private theorem keeps_minePendingIndividually : Rel (Keeps env) (minePendingIndividually env) :=
  fun _ h => keeps_mineEach (fromQueue_values h) h

/-! ### Submissions -/

/-- The snapshot for previews is beside the invariant. -/
private theorem idle_modifyPendingState (p : Option NodeState) :
    Rel Idle (modify fun m => { m with pendingState := p } : MiningM PUnit) :=
  .modify fun _ => ⟨⟨rfl, rfl, rfl, rfl, rfl, le_rfl⟩, .refl _⟩

/-- A preview is computed on a copy and rolled back. -/
private theorem idle_getPendingState : Rel Idle (getPendingState env) := by
  refine .bind (.gets _) fun m => ?_
  split
  · exact .pure _
  · refine .bind (idle_onNode rel_callState) fun _ =>
      .bind (idle_onNode rel_headTimestampMs) fun _ => ?_
    dsimp only
    split
    · exact .throw _
    · exact .bind (idle_modifyPendingState _) fun _ => .pure _

/-- A transaction that is previewed leaves no trace. -/
private theorem idle_executePending {T : Type} {tx : PendingTransaction}
    {preview : NodeEnv → NodeM T} :
    Rel Idle (executePending env tx preview) :=
  .bind idle_getPendingState fun _ => .bind (idle_onNode rel_headTimestampMs) fun _ =>
    .bind (idle_modifyPendingState _) fun _ s => refl_of Idle s

/-- An admitted transaction whose id is new joins the queue. -/
private theorem MiningState.Sound.enqueue (h : m.Sound env) {tx : PendingTransaction}
    (hnew : tx.txid ∉ m.pendingIds ++ m.committedIds) :
    MiningState.Sound env { m with
      pendingTransactions := m.pendingTransactions.set tx.txid tx
      admitted := m.admitted ++ [tx.txid] } where
  linked := h.linked
  created := h.created
  clock := h.clock
  blockTime := h.blockTime
  keyed txid tx' hget := by
    change (m.pendingTransactions.set tx.txid tx).get txid = some tx' at hget
    rw [InsertionMap.get_set] at hget
    split at hget
    · rw [← Option.some.inj hget]
      exact ‹txid = tx.txid›.symm
    · exact h.keyed txid tx' hget
  settled := by
    have hkeys : (m.pendingTransactions.set tx.txid tx).keys = m.pendingIds ++ [tx.txid] :=
      InsertionMap.keys_set_of_not_mem _ fun hmem => hnew (List.mem_append_left _ hmem)
    have hqueue : (m.pendingIds ++ [tx.txid] ++ m.committedIds).Perm
        (tx.txid :: (m.pendingIds ++ m.committedIds)) := by
      rw [List.append_assoc]
      exact List.perm_middle
    refine ⟨?_, ?_, h.settled.receipts⟩
    · change (m.admitted ++ [tx.txid]).Perm
        ((m.pendingTransactions.set tx.txid tx).keys ++ m.committedIds ++ m.dropped)
      rw [hkeys]
      refine List.perm_append_comm.trans ?_
      exact ((h.settled.accounts.cons _).trans (hqueue.symm.append_right m.dropped))
    · change ((m.pendingTransactions.set tx.txid tx).keys ++ m.committedIds).Nodup
      rw [hkeys, hqueue.nodup_iff, List.nodup_cons]
      exact ⟨hnew, h.settled.once⟩

/-- A new transaction which is mined at once. -/
private theorem sound_mineNew (h : m.Sound env) {tx : PendingTransaction} {intervalSeconds : ℤ}
    (hinterval : 0 ≤ intervalSeconds) (hnew : tx.txid ∉ m.pendingIds ++ m.committedIds) {T : Type}
    (reply : T) : MiningState.Sound env ((do
      let _ ← produceBlock env [tx] false true intervalSeconds
      modify fun m => { m with admitted := m.admitted ++ [tx.txid] }
      pure reply : MiningM T).run m).2 := by
  rw [run_bind]
  rcases hrun : (produceBlock env [tx] false true intervalSeconds).run m with ⟨e | block, m'⟩
  · exact h.idle (produceBlock_throws hrun)
  obtain ⟨parent, executed, rejected, hp⟩ := produceBlock_returns hrun
  have hpending : (dequeue m.pendingTransactions [tx]) = m.pendingTransactions :=
    InsertionMap.delete_of_not_mem fun hmem => hnew (List.mem_append_left _ hmem)
  have hpendingIds : m'.pendingIds = m.pendingIds :=
    congrArg InsertionMap.keys (hp.pending.trans hpending)
  refine hp.sound h hinterval ?_ ?_
  · rw [hpendingIds]
    exact .refl _
  · exact List.nodup_cons.2 ⟨hnew, h.settled.once⟩

/-- A sound state in which a transaction is new. -/
structure Ready (env : MiningEnv) (tx : PendingTransaction) (m : MiningState) : Prop where
  sound : m.Sound env
  new : tx.txid ∉ m.pendingIds ++ m.committedIds

/-- Work that keeps the invariant may come before the transaction is taken up. -/
private theorem Ready.sound_bind {tx : PendingTransaction} (hready : Ready env tx m) {α β : Type}
    {x : MiningM α} {f : α → MiningM β} (hx : Rel (Keeps env) x)
    (hf : ∀ a m', Ready env tx m' → MiningState.Sound env ((f a).run m').2) :
    MiningState.Sound env ((x >>= f).run m).2 := by
  have hkept := hx m hready.sound
  rw [run_bind]
  rcases hrun : x.run m with ⟨e | a, m'⟩
  · rw [hrun] at hkept
    exact hkept.1
  · rw [hrun] at hkept
    exact hf a m' ⟨hkept.1, fun hmem => hready.new (hkept.2 _ hmem)⟩

/-- A transaction that is submitted waits in the queue, or is mined at once. -/
private theorem sound_submitTransaction (h : m.Sound env) {T : Type} (tx : PendingTransaction)
    {preview : NodeEnv → NodeM T} (hpreview : ∀ env, Rel Quiet (preview env)) :
    MiningState.Sound env ((submitTransaction env tx preview).run m).2 := by
  change MiningState.Sound env (Prog.run (ite _ _ _) m).2
  split
  · exact h
  rename_i hdup
  have hready : Ready env tx m := by
    refine ⟨h, fun hmem => hdup ?_⟩
    rcases List.mem_append.1 hmem with hpending | hcommitted
    · simp [InsertionMap.has, InsertionMap.get_isSome_iff.2 hpending]
    · simp [InsertionMap.has, (h.settled.receipts _).2 hcommitted]
  split
  · refine hready.sound_bind (.of_idle idle_executePending) fun reply m' hready' => ?_
    exact hready'.sound.enqueue hready'.new
  · refine hready.sound_bind keeps_minePendingIndividually fun _ _ hready => ?_
    refine hready.sound_bind (.of_idle (rel_nowMs.mono fun _ _ => MiningState.Ticks.idle))
      fun now _ hready => ?_
    refine hready.sound_bind (.of_idle (idle_onNode (hpreview _))) fun reply m' hready => ?_
    exact sound_mineNew hready.sound hready.sound.blockTime hready.new reply

/-! ### Time control -/

/-- A block that fails leaves the miner idle. -/
private theorem mine_one_throws {e : NodeError} (h : (mine env 1).run m = (.error e, m')) :
    m.Idle m' := by
  have hcheck : Rel Idle (requireInteger 1 "blocks" 1 MAX_MINE_BLOCKS) := rel_requireInteger
  have hchecked := hcheck m
  obtain h | ⟨_, t, hrun, hrest⟩ := run_bind_error.1 h
  · rw [h] at hchecked
    exact hchecked
  rw [hrun] at hchecked
  refine trans_of Idle hchecked ?_
  have hhead := idle_onNode rel_head t
  obtain h | ⟨record, t₁, hrun₁, hrest⟩ := run_bind_error.1 hrest
  · rw [h] at hhead
    exact hhead
  rw [hrun₁] at hhead
  refine trans_of Idle hhead ?_
  have hlast : (produceBlock env t₁.candidates true true t₁.blockTimeSeconds >>=
      mineBlocks env 0).run t₁ = (.error e, m') := hrest
  obtain h | ⟨_, _, -, hdone⟩ := run_bind_error.1 hlast
  · exact produceBlock_throws h
  · cases hdone

/-- The clock may stand anywhere from where it stood, as long as no block was committed since. -/
private theorem MiningState.Sound.setOffset (h : m.Sound env) {moved offsetMs : ℤ}
    (hidle : Idle { m with offsetMs := moved } m') (hle : m.offsetMs ≤ offsetMs) :
    MiningState.Sound env { m' with offsetMs } :=
  h.of_same hidle.history hidle.aside.pending hidle.aside.admitted hidle.aside.dropped
    (h.clock.of_le hidle.history.blocks hle hidle.aside.readings)
    (hidle.aside.blockTime.trans_ge h.blockTime)

/-- Where the inner calls of a time increase leave the node when one of them throws. -/
private theorem increaseTime_inner_throws {ms : ℤ} {e : NodeError}
    (h : (do
      advanceMs env ms
      mine env 1 : MiningM BlockRecord).run m = (.error e, m')) :
    ∃ moved, m.offsetMs ≤ moved ∧ Idle { m with offsetMs := moved } m' := by
  obtain h | ⟨_, t, hadvance, hmine⟩ := run_bind_error.1 h
  · exact ⟨m.offsetMs, le_rfl, (advanceMs_throws h).idle⟩
  · obtain ⟨hnonneg, hticks⟩ := advanceMs_returns hadvance
    exact ⟨m.offsetMs + ms, by omega, trans_of Idle hticks.idle (mine_one_throws hmine)⟩

/-- Time only moves forward. -/
private theorem sound_increaseTime (h : m.Sound env) (seconds : ℤ) :
    MiningState.Sound env ((increaseTime env seconds).run m).2 := by
  rw [increaseTime, run_bind]
  rcases hcheck : (requireInteger seconds "seconds" 0 MAX_SAFE_INTEGER).run m with ⟨e | _, t⟩
  · have hticks : Rel Idle (requireInteger seconds "seconds" 0 MAX_SAFE_INTEGER) :=
      rel_requireInteger
    have hidle := hticks m
    rw [hcheck] at hidle
    exact h.idle hidle
  obtain ⟨rfl, -⟩ := requireInteger_returns hcheck
  change MiningState.Sound env (Prog.run (tryCatch _ _) t).2
  rw [run_tryCatch]
  rcases hinner : (do
      advanceMs env (seconds * 1000)
      mine env 1 : MiningM BlockRecord).run t with ⟨e | record, t₁⟩
  · obtain ⟨moved, hle, hidle⟩ := increaseTime_inner_throws hinner
    dsimp only
    rw [run_bind]
    rcases hrestore : (restore t.offsetMs).run t₁ with ⟨e' | _, t₂⟩
    · obtain hfault | ⟨_, _, -, hdone⟩ := run_bind_error.1 hrestore
      · have hstill : Rel Eq
            (requireInteger t.offsetMs "clock offset" 0 MAX_SAFE_INTEGER) := rel_requireInteger
        have heq := hstill t₁
        rw [hfault] at heq
        obtain rfl : t₁ = t₂ := heq
        have hsound := h.setOffset hidle (hidle.aside.offsetMs.ge.trans' hle)
        exact hsound
      · cases hdone
    · obtain ⟨_, _, hcheck', hdone⟩ := run_bind_ok.1 hrestore
      obtain ⟨rfl, -⟩ := requireInteger_returns hcheck'
      cases hdone
      exact h.setOffset hidle le_rfl
  · obtain ⟨_, t₂, hadvance, hmine⟩ := run_bind_ok.1 hinner
    obtain ⟨hnonneg, hticks⟩ := advanceMs_returns hadvance
    have hsound := h.setOffset hticks.idle (hticks.aside.offsetMs.ge.trans' (by
      change t.offsetMs ≤ t.offsetMs + _
      omega))
    have hkept := keeps_mine 1 t₂ hsound
    rw [hmine] at hkept
    exact hkept.1

/-- Reporting changes the error, not the state. -/
private theorem rel_reporting {R : MiningState → MiningState → Prop} {α ε : Type}
    {report : MiningState → NodeError → ε} {x : MiningM α} (hx : Rel R x) :
    Rel R (reporting report x) := by
  intro m
  have hrun : R m (x m).2 := hx m
  simp only [Prog.run, reporting]
  generalize x m = r at hrun ⊢
  rcases r with ⟨_ | _, _⟩
  · exact hrun
  · exact hrun

/-- The mode of mining is beside the invariant. -/
private theorem MiningState.Sound.setMode (h : m.Sound env) {seconds : ℤ} (hseconds : 0 ≤ seconds)
    (blockTimer : Option ℕ) (timers : ℕ) :
    MiningState.Sound env { m with blockTimer, timers, blockTimeSeconds := seconds } :=
  h.of_same (.refl _) rfl rfl rfl h.clock hseconds

/-- Changing the mode keeps the invariant. -/
private theorem keeps_setMode {seconds : ℤ} (hseconds : 0 ≤ seconds)
    (blockTimer : MiningState → Option ℕ)
    (timers : MiningState → ℕ) :
    Rel (Keeps env) (modify fun m => { m with
      blockTimer := blockTimer m, timers := timers m, blockTimeSeconds := seconds } :
      Prog MiningState BlockTimeError PUnit) :=
  .modify fun _ h => ⟨h.setMode hseconds _ _, fun _ => id⟩

/-- So does a new block time. -/
private theorem keeps_setBlockTime (seconds : ℤ) : Rel (Keeps env) (setBlockTime env seconds) := by
  intro m h
  rw [setBlockTime, run_bind]
  have hcheck : Rel (Keeps env) (reporting (fun _ => BlockTimeError.refused)
      (requireInteger seconds "block time" 0 MAX_BLOCK_TIME_SECONDS)) :=
    rel_reporting rel_requireInteger
  have hchecked := hcheck m h
  rcases hrun : (reporting (fun _ => BlockTimeError.refused)
      (requireInteger seconds "block time" 0 MAX_BLOCK_TIME_SECONDS)).run m with ⟨e | _, t⟩
  · rw [hrun] at hchecked
    exact hchecked
  have hseconds : 0 ≤ seconds := by
    by_contra hneg
    have hfault : (reporting (fun _ => BlockTimeError.refused)
        (requireInteger seconds "block time" 0 MAX_BLOCK_TIME_SECONDS)).run m =
        (.ok (), t) := hrun
    simp only [Prog.run, reporting, requireInteger] at hfault
    rw [if_pos (.inl (not_le.1 hneg))] at hfault
    cases hfault
  rw [hrun] at hchecked
  have hmode : Rel (Keeps env) (if seconds = 0 then do
        let pendingIds ← gets fun m => m.pendingTransactions.keys
        reporting (blockTimeChangeError pendingIds) (minePendingIndividually env)
        modify fun m => { m with blockTimer := none, blockTimeSeconds := 0 }
      else
        modify fun m =>
          { m with
            blockTimer := some m.timers
            timers := m.timers + 1
            blockTimeSeconds := seconds }) :=
    .ite (.bind (.gets _) fun _ => .bind (rel_reporting keeps_minePendingIndividually) fun _ =>
        keeps_setMode le_rfl (fun _ => none) MiningState.timers)
      (keeps_setMode hseconds (fun m => some m.timers) fun m => m.timers + 1)
  exact trans_of (Keeps env) (fun _ => hchecked) (hmode t) h

/-! ### Other writes -/

/-- Quiet work in a transaction leaves the miner idle. -/
private theorem idle_transactMining {T : Type} {work : NodeM T} (hquiet : Rel Quiet work) :
    Rel Idle (transactMining (onNode work)) := by
  intro m
  have hinside := idle_onNode hquiet { m with node := m.node.enter }
  rcases hrun : (transactMining (onNode work)).run m with ⟨e | a, m'⟩
  · obtain ⟨hsame, t, hthrown, rfl⟩ := transactMining_throws (rel_onNode hquiet.tracked) hrun
    rw [hthrown] at hinside
    exact ⟨⟨hinside.aside.pending, hinside.aside.admitted, hinside.aside.dropped,
      hinside.aside.blockTime, hinside.aside.offsetMs, hinside.aside.readings⟩, hsame⟩
  · obtain ⟨t, node, pendingState, hreturned, hchain, rfl⟩ := transactMining_returns hrun
    rw [hreturned] at hinside
    refine ⟨⟨hinside.aside.pending, hinside.aside.admitted, hinside.aside.dropped,
      hinside.aside.blockTime, hinside.aside.offsetMs, hinside.aside.readings⟩, ?_⟩
    change m.node.chain.SameHistory node.chain
    rw [← hchain]
    exact hinside.history

/-- A block is tracked beneath the miner. -/
private theorem rel_mine_one : Rel TrackedBeneath (mine env 1) := by
  refine .bind rel_requireInteger fun _ => .bind (rel_onNode rel_head.tracked) fun record => ?_
  intro m
  change TrackedBeneath m ((produceBlock env m.candidates true true m.blockTimeSeconds >>=
    mineBlocks env 0).run m).2
  exact Rel.bind_at (rel_produceBlock m) fun _ => .pure _

/-- A write with its block: what fails anywhere in it is undone, and the queue with it. -/
private theorem sound_writeAndMine (h : m.Sound env) {T : Type} {work : NodeM T}
    (hquiet : Rel Quiet work) :
    MiningState.Sound env ((transactMining (do
      let _ ← onNode work
      mine env 1)).run m).2 := by
  have hwork := idle_onNode hquiet { m with node := m.node.enter }
  rcases hrun : (transactMining (do
      let _ ← onNode work
      mine env 1)).run m with ⟨e | record, m'⟩
  · obtain ⟨hsame, t, hthrown, rfl⟩ := transactMining_throws
      (.bind (rel_onNode hquiet.tracked) fun _ => rel_mine_one) hrun
    have hbeside : Aside { m with node := m.node.enter } t := by
      obtain hfault | ⟨_, t₁, hworked, hmine⟩ := run_bind_error.1 hthrown
      · rw [hfault] at hwork
        exact hwork.aside
      · rw [hworked] at hwork
        exact trans_of Aside hwork.aside (mine_one_throws hmine).aside
    exact h.idle ⟨⟨hbeside.pending, hbeside.admitted, hbeside.dropped, hbeside.blockTime,
      hbeside.offsetMs, hbeside.readings⟩, hsame⟩
  · obtain ⟨t, node, pendingState, hreturned, hchain, rfl⟩ := transactMining_returns hrun
    obtain ⟨_, t₁, hworked, hmine⟩ := run_bind_ok.1 hreturned
    rw [hworked] at hwork
    have hentered : MiningState.Sound env { m with node := m.node.enter } :=
      h.of_same (.refl _) rfl rfl rfl h.clock h.blockTime
    have hmined := (keeps_mine 1 t₁ (hentered.idle hwork)).1
    rw [hmine] at hmined
    have hsame : t.node.chain.SameHistory node.chain := by
      rw [hchain]
      exact .refl _
    have hclock : MiningState.ClockAtHead env { t with node, pendingState } :=
      hmined.clock.of_le hsame.blocks le_rfl le_rfl
    exact hmined.of_same hsame rfl rfl rfl hclock hmined.blockTime

/-- A timer that fires mines a block, unless it is an old one. -/
private theorem keeps_tick (timer : ℕ) : Rel (Keeps env) (tick env timer) :=
  .bind (.gets _) fun _ => .ite (.bind (keeps_mine 1) fun _ => .pure _) (.pure _)

/-- Every call keeps the invariant. -/
theorem MiningCall.sound (h : m.Sound env) (c : MiningCall) : (c.run env m).Sound env := by
  cases c with
  | submit tx preview hquiet => exact sound_submitTransaction h tx hquiet
  | mine count => exact (keeps_mine count m h).1
  | increaseTime seconds => exact sound_increaseTime h seconds
  | setBlockTime seconds => exact (keeps_setBlockTime seconds m h).1
  | tick timer => exact (keeps_tick timer m h).1
  | write work hquiet => exact h.idle (idle_transactMining hquiet m)
  | writeAndMine work hquiet => exact sound_writeAndMine h hquiet

/-! ### Runs -/

/-- A created node: genesis, the first block at the clock's time, and nothing else. -/
private theorem create_sound {genesisHash : Bytes} (hblank : m.Blank)
    (hrun : (create env genesisHash).run m = (.ok (), m')) : m'.Sound env := by
  obtain ⟨_, t, hgenesis, hrest⟩ := run_bind_ok.1 hrun
  obtain ⟨now, t₁, hnow, hseal⟩ := run_bind_ok.1 hrest
  have hset : m.Aside ((onNode (setRegisters fun g =>
    { g with blocks := g.blocks.put genesisHash 0 [] })).run m).2 := aside_onNode m
  rw [hgenesis] at hset
  have hticks : t.Ticks ((nowMs env).run t).2 := rel_nowMs t
  rw [hnow] at hticks
  have hsealing : t₁.Aside ((sealPending (env.node.at now) []).run t₁).2 := aside_sealPending t₁
  rw [hseal] at hsealing
  have haside := trans_of Aside (trans_of Aside hset hticks.aside) hsealing
  have hnode : _ = t.node := congrArg Prod.snd (onNode_returns hgenesis)
  obtain ⟨⟨hash, hblocks⟩, hreceipts⟩ := sealPending_returns hseal
  rw [hticks.node] at hblocks hreceipts
  -- the store holds genesis and the first block, and nothing else
  have hput : m'.node.chain.registers.blocks =
      (BlockStore.put {} genesisHash 0 []).put hash now [] := by
    rw [hblocks, ← hnode, ← hblank.blocks]
    rfl
  obtain ⟨hreading, hnonneg, hcount⟩ := nowMs_returns hnow
  have hempty : m'.committedIds = [] := by
    rw [MiningState.committedIds, hput, BlockStore.txids_put, BlockStore.txids_put]
    rfl
  have hqueue : m'.pendingTransactions.entries = [] := by
    rw [haside.pending]
    exact hblank.pending
  have hwaiting : m'.pendingIds = [] := by
    rw [MiningState.pendingIds, InsertionMap.keys, hqueue]
    rfl
  -- the chain, its head, the clock, the block time, the queue and its accounts
  refine ⟨?_, ?_, fun block hblock => ?_, ?_, fun txid tx htx => ?_, ⟨?_, ?_, fun txid => ?_⟩⟩
  · rw [hput]
    refine (BlockStore.linked_empty.put fun p hp => by cases hp).put fun p hp => ?_
    rw [BlockStore.headBlock_put] at hp
    rw [← Option.some.inj hp]
    exact hnonneg
  · rw [hput]
    exact Int.zero_le_ofNat 1
  · rw [hput, BlockStore.headBlock_put] at hblock
    rw [← Option.some.inj hblock]
    have hreadings : t.readings + 1 ≤ m'.readings := by
      have := hsealing.readings
      rw [hcount] at this
      exact this
    have hoffset : m'.offsetMs = t.offsetMs := hsealing.offsetMs.trans hticks.aside.offsetMs
    refine ⟨t.readings, hreadings, ?_⟩
    change now ≤ _
    omega
  · rw [haside.blockTime, hblank.blockTime]
  · rw [InsertionMap.get, hqueue] at htx
    cases htx
  · rw [haside.admitted, haside.dropped, hblank.admitted, hblank.dropped, hempty, hwaiting]
    exact .refl _
  · rw [hempty, hwaiting]
    exact List.nodup_nil
  · rw [hreceipts, ← hnode, hempty]
    have hnone : ((Prog.run (setRegisters fun g =>
        { g with blocks := g.blocks.put genesisHash 0 [] }) m.node).2.chain.table .txs).get txid =
        none := hblank.receipts txid
    rw [hnone]
    simp

/-- The invariant holds in every state that can be reached. -/
theorem MiningState.Reachable.sound (h : m.Reachable env) : m.Sound env := by
  induction h with
  | create hblank hrun => exact create_sound hblank hrun
  | call _ c ih => exact c.sound ih

end Calls

/-! ### The chain -/

/-- **The chain invariant.**  In every reachable state heights are contiguous from genesis, every
block names the id of its predecessor and is not older than it, and the clock is not behind the
head.  A production that throws leaves the block store exactly as it was; one that returns leaves it
or appends one block, and the clock is not behind that block at a reading the production took. -/
theorem reachable_chain {env : MiningEnv} {m : MiningState} (h : m.Reachable env) :
    m.node.chain.registers.blocks.Linked ∧ 0 ≤ m.node.chain.registers.blocks.headNumber ∧
      m.ClockAtHead env ∧
      ∀ (txs : List PendingTransaction) (skipRejected allowEmpty : Bool) (intervalSeconds : ℤ),
        match (produceBlock env txs skipRejected allowEmpty intervalSeconds).run m with
        | (.error _, m') => m'.node.chain.registers.blocks = m.node.chain.registers.blocks
        | (.ok _, m') =>
          m'.node.chain.registers.blocks = m.node.chain.registers.blocks ∨
            ∃ hash timestampMs records, m'.node.chain.registers.blocks =
                m.node.chain.registers.blocks.put hash timestampMs records ∧
              CaughtUp env m m' timestampMs := by
  refine ⟨h.sound.linked, h.sound.created, h.sound.clock, fun txs skip allow interval => ?_⟩
  rcases hrun : (produceBlock env txs skip allow interval).run m with ⟨e | block, m'⟩
  · exact (produceBlock_throws hrun).history.blocks
  · obtain ⟨_, _, _, hp⟩ := produceBlock_returns hrun
    rcases hp.production with ⟨hsame, -⟩ | ⟨-, ⟨⟨hash, records, -, hblocks⟩, -⟩, hclock, -⟩
    · exact .inl hsame.blocks
    · exact .inr ⟨hash, _, records, hblocks, hclock⟩

/-! ### The queue over all runs -/

/-- A node whose clock stands at three seconds. -/
def sampleMining : MiningEnv := ⟨sampleEnv, sampleEnv, fun _ => 3000⟩

/-- The node before genesis, with the sample's accounts. -/
def blankNode : MiningState where
  node := { sampleState with chain := { sampleState.chain with registers := {} } }

/-- Account 1 freezes three TRX for energy. -/
def freezeTransaction : PendingTransaction where
  txid := "a"
  execute env := do
    freezeV2 env 1 3000000 .energy
    pure ⟨⟨"a", none⟩, fun _ => .ok ()⟩
  quiet _ := .bind rel_freezeV2 fun _ => .pure _
  names env s tx s' h := by
    obtain ⟨_, _, -, hdone⟩ := Prog.run_bind_ok.1 h
    cases hdone
    rfl

/-- Interval mode is switched on, the freeze is submitted, and the timer ticks. -/
def minedNode : MiningState :=
  (MiningCall.tick 0).run sampleMining
    ((MiningCall.submit freezeTransaction (fun _ => (pure () : NodeM Unit)) fun _ => .pure _).run
      sampleMining ((MiningCall.setBlockTime 3).run sampleMining
        ((create sampleMining []).run blankNode).2))

/-- Submitting and mining reaches the sample. -/
private theorem minedNode_reachable : minedNode.Reachable sampleMining :=
  .call (.call (.call (.create ⟨rfl, fun _ => rfl, rfl, rfl, rfl, rfl⟩
    (Prod.ext (by rfl) rfl)) _) _) _

example : minedNode.committedIds = ["a"] := by decide +kernel

theorem reachable_chain_mined :
    minedNode.node.chain.registers.blocks.Linked ∧
      0 ≤ minedNode.node.chain.registers.blocks.headNumber ∧
        minedNode.ClockAtHead sampleMining := by
  obtain ⟨hlinked, hcreated, hclock, -⟩ := reachable_chain minedNode_reachable
  exact ⟨hlinked, hcreated, hclock⟩

end Tvmjs
