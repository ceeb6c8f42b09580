import Tvmjs.Client.Atomicity
import Tvmjs.Util.AccountRlp

/-!
# Mining and the development clock

Pending transactions wait in a queue.  Instant mode drains it one transaction to a block, interval
mode packs the whole of it whenever the timer ticks, and `mine` may be called at any time.  A block
is built inside one `transact`, in which each transaction has a `transact` of its own; candidates
leave the queue after the block has committed.

* `MiningState` -- the node with its queue, its clock and its timer;
* `produceBlock` -- one block;
* `MiningCall` -- what is asked of the node, one call at a time, since every call holds the write
  lock from its beginning to its end;
* `MiningState.Reachable` -- the states of a node after any calls.
-/

namespace Tvmjs

/-! ### Transactions -/

/-- What executing a transaction hands to the block: its record, and what is still to be filled in
once the block is known. -/
structure Executed where
  record : TronTxRecord
  finalize : BlockRecord → Except NodeError Unit

/-- A transaction waiting for a block.  It is executed against whatever node it is given, and its
execution writes neither blocks nor receipts. -/
structure PendingTransaction where
  txid : String
  execute : NodeEnv → NodeM Executed
  quiet : ∀ env, Prog.Rel Quiet (execute env)
  names : ∀ env s tx s', (execute env).run s = (.ok tx, s') → tx.record.txid = txid

/-- `instanceof TransactionRejectedError` -/
def NodeError.isRejection : NodeError → Bool
  | .rejected _ => true
  | _ => false

/-! ### States -/

/-- The node with everything that mining adds to it. -/
structure MiningState where
  node : NodeState
  offsetMs : ℤ := 0
  /-- How often the clock's source was read. -/
  readings : ℕ := 0
  blockTimeSeconds : ℤ := 0
  /-- The timer that may mine, if any. -/
  blockTimer : Option ℕ := none
  /-- How many timers were set. -/
  timers : ℕ := 0
  pendingTransactions : InsertionMap String PendingTransaction := .empty
  /-- The node that pending transactions were executed on. -/
  pendingState : Option NodeState := none
  /-- The ids of the submissions that returned.  Nothing branches on it. -/
  admitted : List String := []
  /-- The ids reported as dropped.  Nothing branches on it. -/
  dropped : List String := []

/-- The surroundings of mining.  The node of pending transactions has a state backend of its own,
and the source of the clock may read anything. -/
structure MiningEnv where
  node : NodeEnv
  admission : NodeEnv
  source : ℕ → ℤ

/-- The surroundings while `blockTimestampMs` is set. -/
def NodeEnv.at (env : NodeEnv) (blockTimestampMs : ℤ) : NodeEnv :=
  { env with currentTimeMs := blockTimestampMs }

/-- Programs of the mining node. -/
abbrev MiningM (α : Type) := Prog MiningState NodeError α

/-- A program of the node beneath. -/
def onNode {α : Type} (x : NodeM α) : MiningM α := fun m =>
  ((x.run m.node).1, { m with node := (x.run m.node).2 })

/-! ### The clock -/

/-- Throws unless an integer lies in a range. -/
def requireInteger (value : ℤ) (label : String) (lo : ℤ) (hi : ℤ) : MiningM Unit :=
  if value < lo ∨ hi < value then
    Prog.throw (.rangeError
      (label ++ " must be a safe integer between " ++ toString lo ++ " and " ++ toString hi))
  else pure ()

/-- `nowMs()` -/
def nowMs (env : MiningEnv) : MiningM ℤ := do
  let source ← Prog.gets fun m => env.source m.readings
  Prog.modify fun m => { m with readings := m.readings + 1 }
  requireInteger source "clock source" 0 MAX_SAFE_INTEGER
  let now ← Prog.gets fun m => source + m.offsetMs
  requireInteger now "clock time" 0 MAX_SAFE_INTEGER
  pure now

/-- The offset an advance leads to, checked. -/
def nextOffset (env : MiningEnv) (ms : ℤ) : MiningM ℤ := do
  requireInteger ms "time increase" 0 MAX_SAFE_INTEGER
  let now ← nowMs env
  requireInteger (now + ms) "clock time" 0 MAX_SAFE_INTEGER
  let nextOffset ← Prog.gets fun m => m.offsetMs + ms
  requireInteger nextOffset "clock offset" 0 MAX_SAFE_INTEGER
  pure nextOffset

/-- `advanceMs(ms)` -/
def advanceMs (env : MiningEnv) (ms : ℤ) : MiningM Unit := do
  let offsetMs ← nextOffset env ms
  Prog.modify fun m => { m with offsetMs }

/-- `restore(offsetMs)` -/
def restore (offsetMs : ℤ) : MiningM Unit := do
  requireInteger offsetMs "clock offset" 0 MAX_SAFE_INTEGER
  Prog.modify fun m => { m with offsetMs := offsetMs }

/-! ### Blocks -/

/-- `blocks.head()`, which throws before genesis. -/
def head : NodeM BlockRecord := do
  orTypeError (← read fun c => c.registers.blocks.byNumber.get c.registers.blocks.headNumber)

/-- `transact` around work on the mining node: an outermost return drops the pending state. -/
def transactMining {α : Type} (work : MiningM α) : MiningM α := fun m =>
  match work.run { m with node := m.node.enter } with
  | (.ok a, m') =>
    (.ok a, { m' with
      node := NodeState.commit m.node m'.node
      pendingState := if m.node.journal.isNone then none else m'.pendingState })
  | (.error e, m') => (.error e, { m' with node := NodeState.unwind m.node m'.node })

/-- Execute one candidate; where rejections are skipped, a rejected one yields nothing. -/
def attempt (env : NodeEnv) (skipRejected : Bool) (tx : PendingTransaction) :
    NodeM (Option Executed) :=
  Prog.tryCatch
    (do
      let executed ← transact (tx.execute env)
      pure (some executed))
    fun e => if skipRejected && e.isRejection then pure none else Prog.throw e

/-- Execute the candidates in order: the executed ones, and the ids of the rejected ones. -/
def packTransactions (env : NodeEnv) (skipRejected : Bool) :
    List PendingTransaction → NodeM (List Executed × List String)
  | [] => pure ([], [])
  | tx :: txs => do
    let outcome ← attempt env skipRejected tx
    let (executed, rejected) ← packTransactions env skipRejected txs
    match outcome with
    | some tx => pure (tx :: executed, rejected)
    | none => pure (executed, tx.txid :: rejected)

/-- The record a block and the receipts keep of an executed transaction. -/
def Executed.sealed (tx : Executed) (blockNumber : ℤ) : TronTxRecord :=
  { tx.record with blockNumber := some blockNumber }

/-- Finalize and index the transactions of a sealed block.  The journal record restores what stood
under the id before; the source's deletes the id, which is the same for an id that is new. -/
def storeExecuted (block : BlockRecord) : List Executed → NodeM Unit
  | [] => pure ()
  | tx :: txs => do
    Prog.ofExcept (tx.finalize block)
    writeTable .txs (.set tx.record.txid (tx.sealed block.number))
    storeExecuted block txs

/-- `sealBlock` on the mining node: a new head drops the pending state, and does so even when the
rewards fail after it. -/
def sealPending (env : NodeEnv) (txs : List TronTxRecord) : MiningM Unit := fun m =>
  let (result, node) := (sealBlock env txs).run m.node
  let sameHead := node.chain.registers.blocks.headNumber = m.node.chain.registers.blocks.headNumber
  (result, { m with node, pendingState := if sameHead then m.pendingState else none })

/-- Seal the executed transactions into the next block and index them. -/
def sealExecuted (env : NodeEnv) (executed : List Executed) : MiningM BlockRecord := do
  let number ← onNode (read fun c => c.registers.blocks.headNumber + 1)
  sealPending env (executed.map fun tx => tx.sealed number)
  let block ← onNode head
  onNode (storeExecuted block executed)
  pure block

/-- Manual mining may advance beyond wall time; the clock follows the block. -/
def followBlock (env : MiningEnv) (timestampMs : ℤ) : MiningM Unit := do
  let now ← nowMs env
  if timestampMs > now then advanceMs env (timestampMs - now) else pure ()

/-- The work inside the production of one block: the block at the head afterwards, and the ids of
the rejected candidates. -/
def candidateBlock (env : MiningEnv) (transactions : List PendingTransaction)
    (skipRejected allowEmpty : Bool) (timestampMs : ℤ) : MiningM (BlockRecord × List String) := do
  let (executed, rejected) ←
    onNode (packTransactions (env.node.at timestampMs) skipRejected transactions)
  if !allowEmpty && executed.isEmpty then do
    let block ← onNode head
    pure (block, rejected)
  else do
    let block ← sealExecuted (env.node.at timestampMs) executed
    followBlock env timestampMs
    pure (block, rejected)

/-- Remove candidates, accepted and rejected ones alike, from the queue. -/
def dequeue (pending : InsertionMap String PendingTransaction) (txs : List PendingTransaction) :
    InsertionMap String PendingTransaction :=
  txs.foldl (fun pending tx => pending.delete tx.txid) pending

/-- The timestamp of the block after the head. -/
def nextTimestamp (env : MiningEnv) (intervalSeconds : ℤ) : MiningM ℤ := do
  let parent ← onNode head
  let now ← nowMs env
  let timestampMs := max now (parent.timestampMs + intervalSeconds * 1000)
  requireInteger timestampMs "block time" 0 MAX_SAFE_INTEGER
  pure timestampMs

/-- `produceBlock`.  An unexpected failure leaves the queue intact for a retry. -/
def produceBlock (env : MiningEnv) (transactions : List PendingTransaction)
    (skipRejected allowEmpty : Bool) (intervalSeconds : ℤ) : MiningM BlockRecord := do
  let timestampMs ← nextTimestamp env intervalSeconds
  let (block, rejected) ←
    transactMining (candidateBlock env transactions skipRejected allowEmpty timestampMs)
  Prog.modify fun m =>
    { m with
      pendingTransactions := dequeue m.pendingTransactions transactions
      dropped := m.dropped ++ rejected }
  pure block

/-! ### The queue -/

/-- The most blocks of one request. -/
def MAX_MINE_BLOCKS : ℤ := 100

/-- The longest block time. -/
def MAX_BLOCK_TIME_SECONDS : ℤ := 60

/-- The candidates of the next block: one in instant mode, all in interval mode. -/
def MiningState.candidates (m : MiningState) : List PendingTransaction :=
  if m.blockTimeSeconds = 0 then m.pendingTransactions.values.take 1
  else m.pendingTransactions.values

/-- Some blocks in a row, each of the candidates there are by then; the last of them. -/
def mineBlocks (env : MiningEnv) : ℕ → BlockRecord → MiningM BlockRecord
  | 0, record => pure record
  | n + 1, _ => do
    let m ← Prog.gets id
    let record ← produceBlock env m.candidates true true m.blockTimeSeconds
    mineBlocks env n record

/-- `mine(count)` -/
def mine (env : MiningEnv) (count : ℤ) : MiningM BlockRecord := do
  requireInteger count "blocks" 1 MAX_MINE_BLOCKS
  let record ← onNode head
  mineBlocks env count.toNat record

/-- A block for each of some transactions that is not rejected. -/
def mineEach (env : MiningEnv) : List PendingTransaction → MiningM Unit
  | [] => pure ()
  | tx :: txs => do
    let _ ← produceBlock env [tx] true false 0
    mineEach env txs

/-- Mines the queue, each transaction in a block of its own. -/
def minePendingIndividually (env : MiningEnv) : MiningM Unit := do
  let pending ← Prog.gets fun m => m.pendingTransactions.values
  mineEach env pending

/-- The pending state, rebuilt by executing the queue on a copy of the node when it was dropped. -/
def getPendingState (env : MiningEnv) : MiningM NodeState := do
  let m ← Prog.gets id
  match m.pendingState with
  | some pending => pure pending
  | none => do
    let trie ← onNode (callState env.node fun w => (.ok w.trie, w))
    let stamp ← onNode headTimestampMs
    let copy : NodeState :=
      { chain := { m.node.chain with stateManager := { m.node.chain.stateManager with trie } } }
    let (result, pending) := (packTransactions (env.admission.at stamp) true
      m.pendingTransactions.values).run copy
    match result with
    | .error e => Prog.throw e
    | .ok _ => do
      Prog.modify fun m => { m with pendingState := some pending }
      pure pending

/-- Preview and execute a transaction on the pending state. -/
def executePending {T : Type} (env : MiningEnv) (tx : PendingTransaction)
    (preview : NodeEnv → NodeM T) : MiningM T := do
  let pending ← getPendingState env
  let stamp ← onNode headTimestampMs
  let env := env.admission.at stamp
  let (result, pending) := (do
    let reply ← preview env
    let _ ← transact (tx.execute env)
    pure reply : NodeM T).run pending
  Prog.modify fun m => { m with pendingState := some pending }
  Prog.ofExcept result

/-- `submitTransaction` -/
def submitTransaction {T : Type} (env : MiningEnv) (tx : PendingTransaction)
    (preview : NodeEnv → NodeM T) : MiningM T := do
  let m ← Prog.gets id
  if (m.node.chain.table .txs).has tx.txid || m.pendingTransactions.has tx.txid then
    Prog.throw (.rejected "Dup transaction.")
  else if m.blockTimeSeconds > 0 then do
    let reply ← executePending env tx preview
    Prog.modify fun m =>
      { m with
        pendingTransactions := m.pendingTransactions.set tx.txid tx
        admitted := m.admitted ++ [tx.txid] }
    pure reply
  else do
    minePendingIndividually env
    let now ← nowMs env
    let reply ← onNode (preview (env.node.at now))
    let seconds ← Prog.gets MiningState.blockTimeSeconds
    let _ ← produceBlock env [tx] false true seconds
    Prog.modify fun m => { m with admitted := m.admitted ++ [tx.txid] }
    pure reply

/-! ### Time control -/

/-- `increaseTime(seconds)` -/
def increaseTime (env : MiningEnv) (seconds : ℤ) : MiningM BlockRecord := do
  requireInteger seconds "seconds" 0 MAX_SAFE_INTEGER
  let clock ← Prog.gets MiningState.offsetMs
  Prog.tryCatch
    (do
      advanceMs env (seconds * 1000)
      mine env 1)
    fun e => do
      restore clock
      Prog.throw e

/-- What a failed change to instant mode reports. -/
structure BlockTimeChangeErrorData where
  activeBlockTime : ℤ
  committedTransactionIds : List String
  pendingTransactionIds : List String

/-- What a change of the mining mode throws. -/
inductive BlockTimeError where
  | refused (e : NodeError)
  | blockTimeChange (data : BlockTimeChangeErrorData) (cause : NodeError)

/-- What is reported when the drain of the pending ids failed. -/
def blockTimeChangeError (pendingIds : List String) (m : MiningState) (cause : NodeError) :
    BlockTimeError :=
  .blockTimeChange
    { activeBlockTime := m.blockTimeSeconds
      committedTransactionIds := pendingIds.filter fun txid => (m.node.chain.table .txs).has txid
      pendingTransactionIds := m.pendingTransactions.keys }
    cause

/-- Run a program whose errors are reported in terms of the state they left. -/
def reporting {α ε : Type} (report : MiningState → NodeError → ε) (x : MiningM α) :
    Prog MiningState ε α := fun m =>
  match x.run m with
  | (.ok a, m') => (.ok a, m')
  | (.error e, m') => (.error (report m' e), m')

/-- `setBlockTime(seconds)` -/
def setBlockTime (env : MiningEnv) (seconds : ℤ) : Prog MiningState BlockTimeError Unit := do
  reporting (fun _ => .refused)
    (requireInteger seconds "block time" 0 MAX_BLOCK_TIME_SECONDS)
  if seconds = 0 then do
    let pendingIds ← Prog.gets fun m => m.pendingTransactions.keys
    reporting (blockTimeChangeError pendingIds) (minePendingIndividually env)
    Prog.modify fun m => { m with blockTimer := none, blockTimeSeconds := 0 }
  else
    Prog.modify fun m =>
      { m with
        blockTimer := some m.timers
        timers := m.timers + 1
        blockTimeSeconds := seconds }

/-- A tick of an interval timer.  One queued behind a mode change must not mine. -/
def tick (env : MiningEnv) (timer : ℕ) : MiningM Unit := do
  if (← Prog.gets MiningState.blockTimer) = some timer then do
    let _ ← mine env 1
  else pure ()

/-! ### Runs -/

/-- `create`, once the state trie holds the genesis accounts: genesis is stamped zero, and the
first block follows at once. -/
def create (env : MiningEnv) (genesisHash : Bytes) : MiningM Unit := do
  onNode (setRegisters fun g => { g with blocks := g.blocks.put genesisHash 0 [] })
  let now ← nowMs env
  sealPending (env.node.at now) []

/-- What is asked of a node.  The writes of the cheat and administration endpoints are quiet; most
of these endpoints mine a block in the same `transact`. -/
inductive MiningCall where
  | submit {T : Type} (tx : PendingTransaction) (preview : NodeEnv → NodeM T)
      (quiet : ∀ env, Prog.Rel Quiet (preview env))
  | mine (count : ℤ)
  | increaseTime (seconds : ℤ)
  | setBlockTime (seconds : ℤ)
  | tick (timer : ℕ)
  | write {T : Type} (work : NodeM T) (quiet : Prog.Rel Quiet work)
  | writeAndMine {T : Type} (work : NodeM T) (quiet : Prog.Rel Quiet work)

/-- The state after a call, whether it returned or threw. -/
def MiningCall.run (env : MiningEnv) (m : MiningState) : MiningCall → MiningState
  | submit tx preview _ => ((submitTransaction env tx preview).run m).2
  | mine count => ((Tvmjs.mine env count).run m).2
  | increaseTime seconds => ((Tvmjs.increaseTime env seconds).run m).2
  | setBlockTime seconds => ((Tvmjs.setBlockTime env seconds).run m).2
  | tick timer => ((Tvmjs.tick env timer).run m).2
  | write work _ => ((transactMining (onNode work)).run m).2
  | writeAndMine work _ =>
    ((transactMining (do
      let _ ← onNode work
      Tvmjs.mine env 1)).run m).2

/-- A node before genesis: no blocks, no receipts, nothing pending. -/
structure MiningState.Blank (m : MiningState) : Prop where
  blocks : m.node.chain.registers.blocks = {}
  receipts : ∀ txid, (m.node.chain.table .txs).get txid = none
  pending : m.pendingTransactions.entries = []
  admitted : m.admitted = []
  dropped : m.dropped = []
  blockTime : m.blockTimeSeconds = 0

/-- The states of a node: a created one, and whatever calls make of it. -/
inductive MiningState.Reachable (env : MiningEnv) : MiningState → Prop
  | create {m m' : MiningState} {genesisHash : Bytes} (hblank : m.Blank)
      (hrun : (create env genesisHash).run m = (.ok (), m')) : Reachable env m'
  | call {m : MiningState} (h : Reachable env m) (c : MiningCall) : Reachable env (c.run env m)

end Tvmjs
