import Tvmjs.Base.Prog
import Tvmjs.Base.UndoLog
import Tvmjs.Client.Records
import Mathlib.Logic.Function.Basic

/-!
# The node's state, its journal and `transact`

`NodeCore` keeps the state trie in a state manager and everything else in tables beside it.  A
write records how to put a table back before it writes; `transact` runs a piece of work and, when
it throws, points the state manager back at the earlier root and replays the records newest
first.

* `Chain` -- everything the chain is made of;
* `NodeState` -- a chain, the journal of the write in flight, and a `Trace`: auxiliary variables
  which no definition branches on (the fault oracle's index apart) and which the statements about
  runs speak of;
* `NodeM` -- programs on that state; a throw keeps the writes made before it;
* `transact` -- one write, all or nothing.

The state manager is modelled by what it holds.  A root identifies the trie it is the root of, so
`getStateRoot` hands out the trie's contents and `setStateRoot` reinstates them.
-/

namespace Tvmjs

/-! ### The state manager as the node uses it -/

/-- The contents of the state trie: what a state root commits to. -/
structure Trie where
  accounts : Address → Option Account
  code : Address → Bytes
  storage : Address → Bytes → Bytes

/-- The state manager: the trie, and the registry of known TRC-10 ids, which stands outside it. -/
structure StateManager where
  trie : Trie
  /-- `_tokenIds`: ids settled by an outermost commit. -/
  tokenIds : ℕ → Option ℤ
  /-- `_tokenIdsCache`: ids met since, with the running totals of the balances written. -/
  tokenIdsCache : ℕ → Option ℤ

namespace StateManager

/-- The account at an address. -/
def getAccount (w : StateManager) (a : Address) : Option Account := w.trie.accounts a

/-- The registry after writing `account`: every id it holds that is not settled is met. -/
def registerTokens (w : StateManager) (account : Account) : ℕ → Option ℤ := fun id =>
  match account.asset id with
  | none => w.tokenIdsCache id
  | some value =>
    if (w.tokenIds id).isSome then w.tokenIdsCache id
    else some (value + (w.tokenIdsCache id).getD 0)

/-- Stores an account and registers the ids of its tokens. -/
def putAccount (w : StateManager) (a : Address) (account : Account) : StateManager :=
  { w with
    trie := { w.trie with accounts := Function.update w.trie.accounts a (some account) }
    tokenIdsCache := w.registerTokens account }

/-- The registry after deleting an account: its balances leave the running totals, and a total
which is used up leaves the registry. -/
def releaseTokens (w : StateManager) (account : Account) : ℕ → Option ℤ := fun id =>
  match account.asset id, w.tokenIdsCache id with
  | some value, some total => if total - value > 0 then some (total - value) else none
  | _, held => held

/-- Removes an account with its code and its storage. -/
def deleteAccount (w : StateManager) (a : Address) : StateManager :=
  { w with
    trie :=
      { accounts := Function.update w.trie.accounts a none
        code := Function.update w.trie.code a []
        storage := Function.update w.trie.storage a fun _ => [] }
    tokenIdsCache :=
      match w.getAccount a with
      | none => w.tokenIdsCache
      | some account => w.releaseTokens account }

/-- `tokenIdExists`. -/
def tokenIdExists (w : StateManager) (id : ℕ) : Bool :=
  (w.tokenIds id).isSome || (w.tokenIdsCache id).isSome

end StateManager

/-! ### The chain -/

/-- The tables kept in insertion-ordered maps and journaled key by key. -/
inductive Table where
  | contracts
  | accounts
  | accountNames
  | accountIds
  | delegations
  | delegationPairs
  | legacyDelegations
  | legacyDelegationPairs
  | txs
deriving DecidableEq, Repr

/-- An account-index row: its pair's latest delegation time. -/
abbrev PairTime := ℤ

namespace Table

/-- The keys of a table.  A delegation is keyed by owner, receiver and lock flag. -/
@[reducible] def Key : Table → Type
  | contracts => Address
  | accounts => Address
  | accountNames => String
  | accountIds => String
  | delegations => Address × Address × Bool
  | delegationPairs => Address × Address
  | legacyDelegations => Address × Address
  | legacyDelegationPairs => Address × Address
  | txs => String

/-- The values of a table.  The name and id registries hold the owner. -/
@[reducible] def Val : Table → Type
  | contracts => ContractMeta
  | accounts => AccountRecord
  | accountNames => Address
  | accountIds => Address
  | delegations => DelegationEntry
  | delegationPairs => PairTime
  | legacyDelegations => LegacyDelegationEntry
  | legacyDelegationPairs => PairTime
  | txs => TronTxRecord

instance (t : Table) : DecidableEq t.Key :=
  match t with
  | contracts => inferInstanceAs (DecidableEq Address)
  | accounts => inferInstanceAs (DecidableEq Address)
  | accountNames => inferInstanceAs (DecidableEq String)
  | accountIds => inferInstanceAs (DecidableEq String)
  | delegations => inferInstanceAs (DecidableEq (Address × Address × Bool))
  | delegationPairs => inferInstanceAs (DecidableEq (Address × Address))
  | legacyDelegations => inferInstanceAs (DecidableEq (Address × Address))
  | legacyDelegationPairs => inferInstanceAs (DecidableEq (Address × Address))
  | txs => inferInstanceAs (DecidableEq String)

end Table

/-- An account batch minted through the generation endpoint. -/
structure GeneratedBatch where
  mnemonic : String
  accounts : List (Address × ℤ)
deriving DecidableEq

/-- The part of the chain whose journal records are exact inverses: registries, blocks and
scalars. -/
structure Registers where
  assets : AssetRegistry := {}
  blocks : BlockStore := {}
  generatedAccounts : List GeneratedBatch := []
  maintenanceInProgress : Bool := false
  totalNetWeightTrx : ℤ := 0
  totalEnergyWeightTrx : ℤ := 0
  totalTronPowerWeightTrx : ℤ := 0

/-- Everything the chain is made of. -/
structure Chain where
  table : (t : Table) → InsertionMap t.Key t.Val
  registers : Registers
  burnedSun : ℤ
  /-- Slots written so far, by account; outside the transaction boundary. -/
  storageSlots : InsertionMap Address (InsertionMap Bytes Bytes)
  stateManager : StateManager

/-- What a write on one table does. -/
structure TableWrite where
  table : Table
  write : InsertionMap.Write table.Key table.Val

/-- A journal record: how to put back what one write changed. -/
inductive Undo where
  /-- Put one key of a table back: absent means removal. -/
  | restore (t : Table) (key : t.Key) (before : Option t.Val)
  | storageSlots (key : Address) (before : InsertionMap Bytes Bytes)
  | totalWeights (net energy tronPower : ℤ)
  | maintenanceInProgress (prior : Bool)
  /-- `blocks.drop(number)` -/
  | dropBlock (number : ℤ)
  /-- `assets.drop(id, ownerKey)` -/
  | dropAsset (id : ℕ) (ownerKey : Address)
  /-- `Object.assign(meta, before)` -/
  | assignAsset (id : ℕ) (before : AssetMeta)
  /-- `generatedAccounts.pop()` -/
  | popGenerated

/-- Auxiliary record of a run, for stating what its steps did. -/
structure Trace where
  /-- Writes to tables of the calls in flight which were not taken back, oldest first. -/
  writes : List TableWrite := []
  /-- Each `transact` that threw: the chain it began with and the table writes it took back. -/
  unwound : List (Chain × List TableWrite) := []
  /-- Each state-manager call: the manager before and after. -/
  calls : List (StateManager × StateManager) := []

/-- The node: its chain, the journal of the write in flight (newest first, absent outside a
write), and the trace. -/
structure NodeState where
  chain : Chain
  journal : Option (List Undo) := none
  trace : Trace := {}

/-- What a write can throw. -/
inductive NodeError where
  /-- The state backend failed. -/
  | backend (code : ℕ)
  /-- A property of `undefined` was read. -/
  | typeError
  /-- A range check failed. -/
  | rangeError (message : String)
  /-- `hexToBytes` met a sign: a negative number was to be stored. -/
  | invalidHex
  /-- A chain rule turned the transaction away. -/
  | rejected (message : String)
deriving DecidableEq, Repr

/-- Programs of the node. -/
abbrev NodeM (α : Type) := Prog NodeState NodeError α

/-! ### Tables -/

namespace Chain

/-- The chain with one table replaced. -/
def setTable (c : Chain) (t : Table) (m : InsertionMap t.Key t.Val) : Chain :=
  { c with table := Function.update c.table t m }

@[simp] theorem setTable_table_self (c : Chain) (t : Table) (m : InsertionMap t.Key t.Val) :
    (c.setTable t m).table t = m := Function.update_self ..

theorem setTable_table_of_ne (c : Chain) {t u : Table} (m : InsertionMap t.Key t.Val)
    (h : u ≠ t) : (c.setTable t m).table u = c.table u := Function.update_of_ne h ..

@[simp] theorem setTable_registers (c : Chain) (t : Table) (m : InsertionMap t.Key t.Val) :
    (c.setTable t m).registers = c.registers := rfl

@[simp] theorem setTable_burnedSun (c : Chain) (t : Table) (m : InsertionMap t.Key t.Val) :
    (c.setTable t m).burnedSun = c.burnedSun := rfl

@[simp] theorem setTable_stateManager (c : Chain) (t : Table) (m : InsertionMap t.Key t.Val) :
    (c.setTable t m).stateManager = c.stateManager := rfl

/-- The record of an account, empty where there is none. -/
def recordOf (c : Chain) (a : Address) : AccountRecord := ((c.table .accounts).get a).getD {}

/-- The account in the state trie. -/
def account (c : Chain) (a : Address) : Option Account := c.stateManager.getAccount a

/-- The account's balance, zero where there is no account. -/
def balanceOf (c : Chain) (a : Address) : ℤ := ((c.account a).map Account.balance).getD 0

/-- `accountTypeOf`: a contract record decides, else the declared type. -/
def accountTypeOf (c : Chain) (a : Address) : Option AccountType :=
  if (c.table .contracts).has a then some .contract else (c.recordOf a).accountType

end Chain

/-! ### Registries -/

namespace AssetRegistry

private theorem lt_of_mem_keys_set {m : InsertionMap ℕ AssetMeta} {n : ℕ} {v : AssetMeta}
    (h : ∀ id ∈ m.keys, id < n) : ∀ id ∈ (m.set n v).keys, id < n + 1 := by
  intro id hid
  rw [InsertionMap.keys_set] at hid
  split at hid
  · exact Nat.lt_succ_of_lt (h id hid)
  · rcases List.mem_append.1 hid with hid | hid
    · exact Nat.lt_succ_of_lt (h id hid)
    · rw [List.mem_singleton.1 hid]
      exact Nat.lt_succ_self n

/-- `create`: the next id is given to the input; the caller has checked that the owner issued
nothing before. -/
def create (r : AssetRegistry) (input : AssetMeta) : AssetRegistry :=
  { byIdMap := r.byIdMap.set r.nextId { input with id := r.nextId }
    byOwnerMap := r.byOwnerMap.set input.ownerKey r.nextId
    nextId := r.nextId + 1
    lt_nextId := lt_of_mem_keys_set r.lt_nextId }

private theorem mem_keys_of_delete {κ α : Type*} [DecidableEq κ] {m : InsertionMap κ α} {k k' : κ}
    (h : k' ∈ (m.delete k).keys) : k' ∈ m.keys ∧ k' ≠ k := by
  rw [InsertionMap.keys_delete, List.mem_filter] at h
  exact ⟨h.1, by simpa using h.2⟩

/-- `drop`: take back an issuance, id included. -/
def drop (r : AssetRegistry) (id : ℕ) (ownerKey : Address) : AssetRegistry :=
  { byIdMap := r.byIdMap.delete id
    byOwnerMap := r.byOwnerMap.delete ownerKey
    nextId := if r.nextId = id + 1 then id else r.nextId
    lt_nextId := by
      intro id' h
      obtain ⟨hmem, hne⟩ := mem_keys_of_delete h
      have := r.lt_nextId id' hmem
      split
      · omega
      · exact this }

/-- The metadata of an id replaced in place; nothing happens for an unknown id. -/
def assign (r : AssetRegistry) (id : ℕ) (m : AssetMeta) : AssetRegistry :=
  if h : id ∈ r.byIdMap.keys then
    { r with
      byIdMap := r.byIdMap.set id m
      lt_nextId := by
        rw [InsertionMap.keys_set_of_mem m h]
        exact r.lt_nextId }
  else r

/-- `byOwner` -/
def byOwner (r : AssetRegistry) (ownerKey : Address) : Option AssetMeta :=
  (r.byOwnerMap.get ownerKey).bind r.byIdMap.get

/-- `byName(name).length > 0` -/
def nameTaken (r : AssetRegistry) (name : String) : Bool :=
  r.byIdMap.values.any fun m => m.name = name

end AssetRegistry

namespace BlockStore

/-- The id the next block names as its parent's. -/
def parentBlockID (b : BlockStore) : BlockID :=
  ((b.byNumber.get b.headNumber).map BlockRecord.blockID).getD GENESIS_PARENT_ID

private theorem le_head_set (b : BlockStore) (record : BlockRecord) :
    ∀ n ∈ (b.byNumber.set (b.headNumber + 1) record).keys, n ≤ b.headNumber + 1 := by
  intro n hn
  rw [← InsertionMap.get_isSome_iff, InsertionMap.get_set] at hn
  split at hn
  · omega
  · have := b.le_head n (InsertionMap.get_isSome_iff.1 hn)
    omega

private theorem id_stored_set (b : BlockStore) (record : BlockRecord)
    (hnumber : record.blockID.number = b.headNumber + 1) :
    ∀ id ∈ (b.byId.set record.blockID record).keys, ∃ r,
      (b.byNumber.set (b.headNumber + 1) record).get id.number = some r ∧ r.blockID = id := by
  intro id hid
  rw [← InsertionMap.get_isSome_iff, InsertionMap.get_set] at hid
  split at hid
  · rename_i h
    refine ⟨record, ?_, h.symm⟩
    rw [h, hnumber]
    exact InsertionMap.get_set_self ..
  · obtain ⟨r, hr, hrid⟩ := b.id_stored id (InsertionMap.get_isSome_iff.1 hid)
    have hle := b.le_head id.number (InsertionMap.mem_keys_of_get hr)
    refine ⟨r, ?_, hrid⟩
    rw [InsertionMap.get_set_of_ne _ _ (by omega)]
    exact hr

/-- `put` of the block after the head, which is the only height the node seals. -/
def put (b : BlockStore) (hash : Bytes) (timestampMs : ℤ) (txs : List TronTxRecord) :
    BlockStore :=
  let number := b.headNumber + 1
  let record : BlockRecord :=
    ⟨number, toBlockID number hash, b.parentBlockID, timestampMs, txs⟩
  { byNumber := b.byNumber.set number record
    byId := b.byId.set record.blockID record
    headNumber := number
    le_head := b.le_head_set record
    id_stored := b.id_stored_set record rfl }

/-- `drop`: take back a block, leaving the store at its parent when it was the head. -/
def drop (b : BlockStore) (number : ℤ) : BlockStore :=
  match h : b.byNumber.get number with
  | none => b
  | some record =>
    { byNumber := b.byNumber.delete number
      byId := b.byId.delete record.blockID
      headNumber := if b.headNumber = number then number - 1 else b.headNumber
      le_head := by
        intro n hn
        rw [InsertionMap.keys_delete, List.mem_filter] at hn
        have hle := b.le_head n hn.1
        have hne : n ≠ number := by simpa using hn.2
        split <;> omega
      id_stored := by
        intro id hid
        rw [InsertionMap.keys_delete, List.mem_filter] at hid
        have hne : id ≠ record.blockID := by simpa using hid.2
        obtain ⟨r, hr, hrid⟩ := b.id_stored id hid.1
        refine ⟨r, ?_, hrid⟩
        rw [InsertionMap.get_delete, if_neg, hr]
        rintro hn
        rw [hn, h] at hr
        exact hne (by rw [← hrid, Option.some.inj hr]) }

/-- `head()?.timestampMs`; `undefined` before genesis. -/
def headTimestamp (b : BlockStore) : Option ℤ :=
  (b.byNumber.get b.headNumber).map BlockRecord.timestampMs

end BlockStore

/-! ### The journal -/

/-- Run one journal record. -/
def Undo.apply : Undo → Chain → Chain
  | .restore t key before, c => c.setTable t ((c.table t).put key before)
  | .storageSlots key before, c => { c with storageSlots := c.storageSlots.set key before }
  | .totalWeights net energy tronPower, c =>
    { c with registers := { c.registers with
        totalNetWeightTrx := net
        totalEnergyWeightTrx := energy
        totalTronPowerWeightTrx := tronPower } }
  | .maintenanceInProgress prior, c =>
    { c with registers := { c.registers with maintenanceInProgress := prior } }
  | .dropBlock number, c =>
    { c with registers := { c.registers with blocks := c.registers.blocks.drop number } }
  | .dropAsset id ownerKey, c =>
    { c with registers := { c.registers with assets := c.registers.assets.drop id ownerKey } }
  | .assignAsset id before, c =>
    { c with registers := { c.registers with assets := c.registers.assets.assign id before } }
  | .popGenerated, c =>
    { c with registers := { c.registers with
        generatedAccounts := c.registers.generatedAccounts.dropLast } }

/-- Run journal records, newest first. -/
def undoAll : List Undo → Chain → Chain
  | [], c => c
  | u :: us, c => undoAll us (u.apply c)

/-- `recordUndo`: outside a write this is nothing. -/
def recordUndo (u : Undo) : NodeM Unit :=
  Prog.modify fun s => { s with journal := s.journal.map (u :: ·) }

/-- Read the chain. -/
def read {α : Type} (f : Chain → α) : NodeM α := Prog.gets fun s => f s.chain

/-- Change the registers; the caller has recorded the undo. -/
def setRegisters (f : Registers → Registers) : NodeM Unit :=
  Prog.modify fun s => { s with chain := { s.chain with registers := f s.chain.registers } }

/-- One journaled write to a table: the record of the old value first, then the write. -/
def writeTable (t : Table) (w : InsertionMap.Write t.Key t.Val) : NodeM Unit :=
  Prog.modify fun s =>
    { s with
      chain := s.chain.setTable t ((s.chain.table t).write w)
      journal := s.journal.map (.restore t w.key ((s.chain.table t).get w.key) :: ·)
      trace := { s.trace with writes := s.trace.writes ++ [⟨t, w⟩] } }

/-- A journaled removal which does nothing at all when the key is absent. -/
def removeFrom (t : Table) (key : t.Key) : NodeM Unit := do
  if ← read fun c => (c.table t).has key then
    writeTable t (.delete key)

/-- `recordFor(address)` followed by assignments to the record it returns. -/
def modifyRecord (a : Address) (f : AccountRecord → AccountRecord) : NodeM Unit := do
  let record ← read fun c => c.recordOf a
  writeTable .accounts (.set a (f record))

/-! ### Calls into the state manager -/

/-- Usage arithmetic in double precision, which no statement about amounts depends on. -/
structure UsageArithmetic where
  /-- `windowedUsage(held, lastMs, nowMs, bytes)` -/
  windowedUsage : ℤ → ℤ → ℤ → ℤ → ℤ
  /-- `gridShare(weightSun, totalLimit, totalWeightTrx)` -/
  gridShare : ℤ → ℤ → ℤ → ℤ
  /-- `trunc((amountSun / 1e6) * (limit / weight))` -/
  maxUsage : ℤ → ℤ → ℤ → ℤ
  /-- `trunc(usageNow * (amountSun / allFrozen))` -/
  transferUsage : ℤ → ℤ → ℤ → ℤ
  /-- `trunc(usage * 1e6 * (weight / limit))` -/
  usageShare : ℤ → ℤ → ℤ → ℤ
  /-- `brokerageShareSun(value)` -/
  brokerageShare : ℤ → ℤ

/-- Inputs of one transaction execution. -/
structure WriteParams where
  caller : Address
  toAddress : Option Address
  data : Bytes
  value : ℤ
  energyLimit : Option ℤ
  tokenId : ℕ
  tokenValue : ℤ
  create : Bool
  plainTransfer : Bool

/-- What the virtual machine reports about one execution. -/
structure ExecOutcome where
  executionGasUsed : ℤ
  reverted : Bool
  /-- Destroyed accounts which this transaction also created. -/
  destroyed : List Address
  /-- Slots an SSTORE named. -/
  slots : List (Address × Bytes)

/-- What a raw header hash is computed over.  The account state is committed to by block 0 only. -/
structure RawHeader where
  timestampMs : ℤ
  /-- The transactions the Merkle root is over. -/
  txs : List TronTxRecord
  parentHash : BlockID
  number : ℤ
  accountState : Option Trie

/-- The surroundings of a write: chain parameters, the clock, and the code outside this package,
whose behaviour is left open. -/
structure NodeEnv where
  params : ChainParameters
  usage : UsageArithmetic
  /-- `currentTimeMs()`: fixed while a block is produced. -/
  currentTimeMs : ℤ
  /-- `maxEnergyLimitForConstant` -/
  maxEnergyLimitForConstant : ℤ
  /-- The block producer. -/
  witness : Address
  /-- The standby slice with what a block pays each of its witnesses. -/
  standbyPays : List (Address × ℤ)
  /-- Whether the `n`-th state-manager call fails, and what it leaves behind if so. -/
  fault : ℕ → Option (NodeError × StateManager)
  /-- The hash of code. -/
  keccak : Bytes → Bytes
  /-- The root of a storage trie. -/
  storageRoot : (Bytes → Bytes) → Bytes
  /-- The raw header hash of a block. -/
  rawHeaderHash : RawHeader → Bytes
  /-- Running a transaction on the virtual machine. -/
  executeTransaction : WriteParams → ℤ → StateManager → Except NodeError ExecOutcome × StateManager

namespace StateManager

/-- What a call into the state manager comes to: a value or a throw, and the manager after it. -/
abbrev Call (α : Type) := StateManager → Except NodeError α × StateManager

/-- `putAccount(address, account)`.  The tokens are met first; then the account is serialized, which
throws at a negative balance. -/
def storeAccount (a : Address) (account : Account) : Call Unit := fun w =>
  if account.balance < 0 then
    (.error .invalidHex, { w with tokenIdsCache := w.registerTokens account })
  else (.ok (), w.putAccount a account)

/-- `modifyAccountFields(address, fields)`: the account exists afterwards. -/
def modifyAccountFields (a : Address) (fields : Account → Account) : Call Unit := fun w =>
  storeAccount a (fields ((w.getAccount a).getD {})) w

/-- `putCode`: the account is created when it is missing; its code hash is the code's. -/
def putCode (keccak : Bytes → Bytes) (a : Address) (code : Bytes) : Call Unit := fun w =>
  let w := if (w.getAccount a).isNone then w.putAccount a {} else w
  let w := { w with trie := { w.trie with code := Function.update w.trie.code a code } }
  modifyAccountFields a (fun account => { account with codeHash := keccak code }) w

/-- `putStorage`: the value is stored unpadded, and the account carries the new storage root. -/
def putStorage (rootOf : (Bytes → Bytes) → Bytes) (a : Address) (slot value : Bytes) :
    Call Unit := fun w =>
  let slots := Function.update (w.trie.storage a) slot (value.dropWhile (· = 0))
  let w := { w with trie := { w.trie with storage := Function.update w.trie.storage a slots } }
  modifyAccountFields a (fun account => { account with storageRoot := rootOf slots }) w

end StateManager

/-- One call into the state manager: the backend may fail, leaving anything behind. -/
def callState {α : Type} (env : NodeEnv) (f : StateManager.Call α) : NodeM α := fun s =>
  let before := s.chain.stateManager
  let landed (after : StateManager) : NodeState :=
    { s with
      chain := { s.chain with stateManager := after }
      trace := { s.trace with calls := s.trace.calls ++ [(before, after)] } }
  match env.fault s.trace.calls.length with
  | some (e, after) => (.error e, landed after)
  | none => ((f before).1, landed (f before).2)

/-- Reads an account through the state manager. -/
def getAccount (env : NodeEnv) (a : Address) : NodeM (Option Account) :=
  callState env fun w => (.ok (w.getAccount a), w)

/-- Stores an account through the state manager. -/
def putAccount (env : NodeEnv) (a : Address) (account : Account) : NodeM Unit :=
  callState env (StateManager.storeAccount a account)

/-- `modifyAccountFields(address, {})` -/
def touchAccount (env : NodeEnv) (a : Address) : NodeM Unit :=
  callState env (StateManager.modifyAccountFields a id)

/-- `flush()`: this manager holds no caches, so nothing moves. -/
def flush (env : NodeEnv) : NodeM Unit := callState env fun w => (.ok (), w)

/-- `x!.field`: reading a property of `undefined` throws. -/
def orTypeError {α : Type} : Option α → NodeM α
  | some x => pure x
  | none => Prog.throw .typeError

/-! ### `transact` -/

/-- The state inside `transact`: a journal is open. -/
def NodeState.enter (s : NodeState) : NodeState := { s with journal := some (s.journal.getD []) }

/-- The state after the work returned: the outer journal, which inner records joined. -/
def NodeState.commit (s₀ s : NodeState) : NodeState :=
  { s with journal := s₀.journal.map fun _ => s.journal.getD [] }

/-- The state after the work threw: the earlier root, then the records of this call newest first,
then the burned amount. -/
def NodeState.unwind (s₀ s : NodeState) : NodeState :=
  let start := (s₀.journal.getD []).length
  let undo := s.journal.getD []
  let root := s₀.chain.stateManager.trie
  let c := { s.chain with stateManager := { s.chain.stateManager with trie := root } }
  let c := undoAll (undo.take (undo.length - start)) c
  { chain := { c with burnedSun := s₀.chain.burnedSun }
    journal := s₀.journal.map fun _ => undo.drop (undo.length - start)
    trace := { s.trace with
      writes := s₀.trace.writes
      unwound := s.trace.unwound ++
        [(s₀.chain, s.trace.writes.drop s₀.trace.writes.length)] } }

/-- One write, all or nothing. -/
def transact {α : Type} (work : NodeM α) : NodeM α := fun s =>
  (work.finish (NodeState.commit s) (NodeState.unwind s)).run s.enter

end Tvmjs
