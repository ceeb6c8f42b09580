import Tvmjs.Client.Stake

/-!
# The node's other write operations

Everything `NodeCore` writes besides staking: sealed blocks and their rewards, executions, the
cheat writes, TRC-10 issuance and transfers, usage ledgers and the side registries, together with
the few journaled writes its callers make themselves.
-/

namespace Tvmjs

variable (env : NodeEnv)

/-! ### Stamps on records -/

/-- `this.blocks.height() < 0n ? 0 : this.blocks.head().timestampMs` -/
def headStamp : NodeM ℤ := do
  if (← read fun c => c.registers.blocks.headNumber) < 0 then pure 0 else headTimestampMs

/-- Creation stamp for a cheat write, which goes straight into the store: root-stored at once. -/
def noteCheatCreation (a : Address) : NodeM Unit := do
  noteCreation env a
  modifyRecord a fun r => { r with createdIn := none }

/-- Stamp the head block time on an account the resource layer just billed. -/
def noteOperation (a : Address) : NodeM Unit := do
  modifyRecord a id
  let stamp ← headStamp
  modifyRecord a fun r => { r with operationAt := some stamp }

/-- Stamp the head block time of an energy preparation or billing. -/
def noteEnergyTime (a : Address) : NodeM Unit := do
  modifyRecord a id
  let stamp ← headStamp
  modifyRecord a fun r => { r with energyConsumedAt := some stamp }

/-- Remember a non-`Normal` account type declared at creation. -/
def noteAccountType (a : Address) (type : AccountType) : NodeM Unit :=
  modifyRecord a fun r => { r with accountType := some type }

/-- Replace an account's permission set. -/
def setPermissions (owner : Address) (permissions : List StoredPermission) : NodeM Unit :=
  modifyRecord owner fun r => { r with permissions := some permissions }

/-- Add an accrued reward to the account allowance ledger. -/
def creditAllowance (a : Address) (amountSun : ℤ) : NodeM Unit := do
  if amountSun < 0 then Prog.throw (.rangeError "allowance credit must not be negative")
  else modifyRecord a fun r => { r with allowance := r.allowance + amountSun }

/-! ### Registries -/

/-- Store the account's name and update the chain-wide name index. -/
def setAccountName (owner : Address) (name : String) : NodeM Unit := do
  let nameKey := name.toLower
  modifyRecord owner fun r => { r with name := some nameKey }
  writeTable .accountNames (.set nameKey owner)

/-- Claim a chain-wide account id; the validator turns down ids which are taken. -/
def setAccountId (owner : Address) (accountId : String) : NodeM Unit := do
  if ← read fun c => (c.table .accountIds).has accountId then
    Prog.throw (.rejected "This id has existed")
  else
    writeTable .accountIds (.set accountId owner)

/-- Notes what a contract was deployed with. -/
def registerContract (a : Address) (contractMeta : ContractMeta) : NodeM Unit :=
  writeTable .contracts (.set a contractMeta)

/-- Remove some keys of a table one after the other. -/
def removeKeys (t : Table) : List t.Key → NodeM Unit
  | [] => pure ()
  | key :: keys => do
    removeFrom t key
    removeKeys t keys

/-- The names of a registry an account owns. -/
def ownedNames (m : InsertionMap String Address) (a : Address) : List String :=
  (m.entries.filter fun e => e.2 = a).map Prod.fst

/-- Forget the written slots of an account. -/
def removeStorageSlots (a : Address) : NodeM Unit := do
  match ← read fun c => c.storageSlots.get a with
  | none => pure ()
  | some before => do
    recordUndo (.storageSlots a before)
    Prog.modify fun s =>
      { s with chain := { s.chain with storageSlots := s.chain.storageSlots.delete a } }

/-- Everything kept beside the trie for a destroyed account goes. -/
def deleteAccountRecords (a : Address) : NodeM Unit := do
  removeFrom .contracts a
  removeFrom .accounts a
  removeStorageSlots a
  removeKeys .accountNames (← read fun c => ownedNames (c.table .accountNames) a)
  removeKeys .accountIds (← read fun c => ownedNames (c.table .accountIds) a)

/-- Note a slot an account has been written at; a rollback leaves its entries behind. -/
def noteStorageSlot (a : Address) (slot : Bytes) : NodeM Unit :=
  Prog.modify fun s =>
    let slots := (s.chain.storageSlots.get a).getD .empty
    { s with chain := { s.chain with
        storageSlots := s.chain.storageSlots.set a (slots.set slot slot) } }

/-- Remember a batch of generated accounts. -/
def pushGenerated (batch : GeneratedBatch) : NodeM Unit := do
  recordUndo .popGenerated
  setRegisters fun g => { g with generatedAccounts := g.generatedAccounts ++ [batch] }

/-- Keep the receipt of a sealed transaction; its id is new to the chain. -/
def storeTransaction (record : TronTxRecord) : NodeM Unit := do
  if ← read fun c => (c.table .txs).has record.txid then
    Prog.throw (.rejected "Dup transaction.")
  else
    writeTable .txs (.set record.txid record)

/-! ### Blocks -/

/-- `payWitnessReward`: credit the witness's configured share. -/
def payWitnessReward (a : Address) (value : ℤ) : NodeM Unit := do
  if value ≤ 0 then pure ()
  else creditAllowance a (env.usage.brokerageShare value)

/-- The standby payments, in the order of the standby slice. -/
def payStandbys : List (Address × ℤ) → NodeM Unit
  | [] => pure ()
  | (a, pay) :: standbys => do
    payWitnessReward env a pay
    payStandbys standbys

/-- Settle the block and standby payments into the producer allowance ledger. -/
def accrueBlockReward : NodeM Unit := do
  if env.params.allowChangeDelegation ≠ 1 then
    creditAllowance env.witness env.params.witnessPayPerBlock
  else do
    payWitnessReward env env.witness env.params.witnessPayPerBlock
    payStandbys env env.standbyPays

/-- The absolute maintenance bucket a timestamp falls into. -/
def maintenanceBucket (timestampMs : ℤ) : ℤ := timestampMs / env.params.maintenanceTimeIntervalMs

/-- Whether the block after the head at `timestampMs` is a maintenance block. -/
def isMaintenanceBlock (b : BlockStore) (timestampMs : ℤ) : Bool :=
  match b.headTimestamp with
  | none => false
  | some parentMs =>
    b.headNumber ≠ 0 ∧ maintenanceBucket env parentMs ≠ maintenanceBucket env timestampMs

/-- `rawHeaderOf` the block to be sealed after the head. -/
def rawHeaderOf (b : BlockStore) (timestampMs : ℤ) (trie : Trie) (txs : List TronTxRecord) :
    RawHeader where
  timestampMs := timestampMs
  txs := txs
  parentHash := b.parentBlockID
  number := b.headNumber + 1
  accountState := if b.headNumber + 1 = 0 then some trie else none

/-- Seal the current state into the next block. -/
def sealBlock (txs : List TronTxRecord) : NodeM Unit := do
  let timestampMs := env.currentTimeMs
  let g ← read Chain.registers
  recordUndo (.maintenanceInProgress g.maintenanceInProgress)
  setRegisters fun g =>
    { g with maintenanceInProgress := isMaintenanceBlock env g.blocks timestampMs }
  let trie ← callState env fun w => (.ok w.trie, w)
  let number ← read fun c => c.registers.blocks.headNumber
  recordUndo (.dropBlock (number + 1))
  setRegisters fun g =>
    { g with
      blocks := g.blocks.put (env.rawHeaderHash (rawHeaderOf g.blocks timestampMs trie txs))
        timestampMs txs }
  accrueBlockReward env

/-! ### Accounts of the state trie -/

/-- Sets the balance of an account. -/
def modifyBalance (a : Address) (balanceSun : ℤ) : NodeM Unit :=
  callState env
    (StateManager.modifyAccountFields a fun account => { account with balance := balanceSun })

/-- Why a balance cannot be written. -/
def balanceFault (balance : ℤ) : Option String :=
  if balance < 0 then some "the balance is below zero"
  else if INT64_MAX < balance then
    some ("the balance is past " ++ toString INT64_MAX ++ ", the widest an account holds")
  else none

/-- The cheat write of a balance. -/
def setBalance (a : Address) (balanceSun : ℤ) : NodeM Unit :=
  match balanceFault balanceSun with
  | some fault => Prog.throw (.rangeError fault)
  | none => transact do
    noteCheatCreation env a
    modifyBalance env a balanceSun
    flush env

/-- Balance write from inside a transaction's execution. -/
def setBalanceUnlocked (a : Address) (balanceSun : ℤ) : NodeM Unit := do
  noteCreation env a
  modifyBalance env a balanceSun
  flush env

/-- The hex of `CreatedByTre`. -/
def CREATED_BY_TRE : String := "437265617465644279547265"

/-- The account and the record a cheat write plants. -/
def plantContractAccount (a : Address) : NodeM Unit := do
  let fresh := (← getAccount env a).isNone
  noteCheatCreation env a
  touchAccount env a
  if fresh then modifyRecord a fun r => { r with name := some CREATED_BY_TRE } else pure ()
  noteAccountType a .contract
  if ← read fun c => (c.table .contracts).has a then
    pure ()
  else
    registerContract a
      { name := "", bytecode := "", consumeUserResourcePercent := 100, originEnergyLimit := 0 }

/-- The cheat write of runtime code. -/
def setCode (a : Address) (code : Bytes) : NodeM Unit := transact do
  plantContractAccount env a
  match ← read fun c => (c.table .contracts).get a with
  | some planted => registerContract a { planted with codeHashed := true }
  | none => pure ()
  callState env (StateManager.putCode env.keccak a code)
  flush env

/-- A slot padded to its full width. -/
def setLengthLeft (slot : Bytes) (length : ℕ) : Bytes :=
  if slot.length < length then List.replicate (length - slot.length) 0 ++ slot
  else slot.drop (slot.length - length)

/-- The cheat write of a storage slot. -/
def setStorage (a : Address) (slot value : Bytes) : NodeM Unit := transact do
  plantContractAccount env a
  let key := setLengthLeft slot 32
  noteStorageSlot a key
  callState env (StateManager.putStorage env.storageRoot a key value)
  flush env

/-! ### TRC-10 assets -/

/-- `{ ...account.asset, [tokenId]: value }` -/
def Account.setToken (account : Account) (tokenId : ℕ) (value : ℤ) : Account :=
  { account with asset := Function.update account.asset tokenId (some value) }

/-- `getAssetBalance` -/
def getAssetBalance (a : Address) (tokenId : ℕ) : NodeM ℤ := do
  pure (((← getAccount env a).map fun account => account.token tokenId).getD 0)

/-- Why an asset was not issued. -/
inductive IssueRefusal where
  | ownerAlreadyIssued
  | assetNameAlreadyIssued
deriving DecidableEq, Repr

/-- Issue a TRC-10 asset.  The issuer receives the supply that is not locked in frozen tranches. -/
def issueAsset (owner : Address) (input : AssetMeta) (creditedSupply : Option ℤ)
    (frozen : List FrozenSupply) : NodeM (Except IssueRefusal ℕ) := do
  let assets ← read fun c => c.registers.assets
  if env.params.allowSameTokenName = 0 ∧ assets.nameTaken input.name then
    pure (.error .assetNameAlreadyIssued)
  else if assets.byOwnerMap.has owner then
    pure (.error .ownerAlreadyIssued)
  else do
    let id := assets.nextId
    recordUndo (.dropAsset id owner)
    setRegisters fun g => { g with assets := g.assets.create { input with ownerKey := owner } }
    let account := (← getAccount env owner).getD {}
    putAccount env owner (account.setToken id (creditedSupply.getD input.totalSupply))
    flush env
    if frozen = [] then pure ()
    else modifyRecord owner fun r => { r with frozenSupply := frozen }
    pure (.ok id)

/-- Replace the metadata of an issuance in place. -/
def assignAsset (id : ℕ) (f : AssetMeta → AssetMeta) : NodeM Unit := do
  match ← read fun c => c.registers.assets.byIdMap.get id with
  | none => pure ()
  | some before => do
    recordUndo (.assignAsset id before)
    setRegisters fun g => { g with assets := g.assets.assign id (f before) }

/-- The state operation of an asset update by its issuer. -/
def updateAsset (caller : Address) (url description : String) (newLimit newPublicLimit : ℤ) :
    NodeM Unit := do
  match ← read fun c => c.registers.assets.byOwner caller with
  | none => Prog.throw (.rejected "Account has not issued any asset")
  | some issued => assignAsset issued.id fun m =>
    { m with
      url := url
      description := description
      freeAssetNetLimit := newLimit
      publicFreeAssetNetLimit := newPublicLimit }

/-- Add to an account's holding of a TRC-10. -/
def creditAsset (a : Address) (tokenId : ℕ) (amount : ℤ) : NodeM Unit := do
  let account := (← getAccount env a).getD {}
  let held ← getAssetBalance env a tokenId
  putAccount env a (account.setToken tokenId (held + amount))
  flush env

/-- Release every tranche whose window has passed, crediting the issuer. -/
def unfreezeAsset (owner : Address) (tokenId : ℕ) : NodeM (Option ℤ) := do
  modifyRecord owner id
  let tranches := (← read fun c => c.recordOf owner).frozenSupply
  let now ← headTimestampMs
  let released := tranches.filter fun t => t.expireTime ≤ now
  if released = [] then pure none
  else do
    modifyRecord owner fun r =>
      { r with frozenSupply := tranches.filter fun t => now < t.expireTime }
    let total := (released.map FrozenSupply.frozenBalance).sum
    creditAsset env owner tokenId total
    pure (some total)

/-- Move TRC-10 balance between accounts; false when insufficient. -/
def transferAsset (sender recipient : Address) (tokenId : ℕ) (amount : ℤ) : NodeM Bool := do
  let fromAccount ← getAccount env sender
  let held ← getAssetBalance env sender tokenId
  match fromAccount with
  | none => pure false
  | some fromAccount =>
    if held < amount ∨ amount < 0 then pure false
    else do
      putAccount env sender (fromAccount.setToken tokenId (held - amount))
      noteCreation env recipient
      touchAccount env recipient
      let toAccount ← orTypeError (← getAccount env recipient)
      let received := (← getAssetBalance env recipient tokenId) + amount
      putAccount env recipient (toAccount.setToken tokenId received)
      flush env
      pure true

/-! ### Usage ledgers -/

/-- The stake of an account that counts for its share of the grid, own and acquired. -/
def stakeWeightSun (r : AccountRecord) (resource : DelegatableResource) : ℤ :=
  r.frozenV2.field resource.toStake + r.acquired.field resource +
    r.frozenLegacy.amount resource.toStake + r.acquiredLegacy.field resource

/-- `gridShare`: weight × grid/total. -/
def gridShare (weightSun totalLimit totalWeightTrx : ℤ) : ℤ :=
  if totalWeightTrx ≤ 0 then 0 else env.usage.gridShare weightSun totalLimit totalWeightTrx

/-- The bandwidth that an account's stake is worth. -/
def stakedNetLimitOf (c : Chain) (a : Address) : ℤ :=
  gridShare env (stakeWeightSun (c.recordOf a) .bandwidth) env.params.totalNetLimit
    c.registers.totalNetWeightTrx

/-- The energy that an account's stake is worth. -/
def stakedEnergyLimitOf (c : Chain) (a : Address) : ℤ :=
  gridShare env (stakeWeightSun (c.recordOf a) .energy) env.params.totalEnergyCurrentLimit
    c.registers.totalEnergyWeightTrx

/-- Staked energy still available right now. -/
def stakedEnergyLeftOf (c : Chain) (a : Address) : ℤ :=
  max (stakedEnergyLimitOf env c a - stakedUsedOf env c a .energy) 0

/-- A ledger charged with `amount` now. -/
def charged (ledger : Option Ledger) (amount : ℤ) : Ledger :=
  let now := env.currentTimeMs
  ⟨env.usage.windowedUsage ((ledger.map Ledger.used).getD 0) ((ledger.map Ledger.lastMs).getD now)
    now amount, now⟩

/-- Bill staked bandwidth; false when the quota cannot cover the bytes. -/
def consumeStakedNet (a : Address) (bytes : ℤ) : NodeM Bool := do
  let limit ← read fun c => stakedNetLimitOf env c a
  let used ← read fun c => stakedUsedOf env c a .bandwidth
  if limit = 0 ∨ used + bytes > limit then pure false
  else do
    modifyRecord a fun r => { r with stakedNet := some (charged env r.stakedNet bytes) }
    pure true

/-- Bill an asset transfer against the issuance's free bandwidth: three quotas must each hold the
bytes, and all three are charged together. -/
def consumeAssetNet (holder : Address) (assetId : ℕ) (bytes : ℤ) : NodeM Bool := do
  match ← read fun c => c.registers.assets.byIdMap.get assetId with
  | none => pure false
  | some issued => do
    let publicUsed := decayedUsage env
      (some ⟨issued.publicFreeAssetNetUsage, issued.publicLatestFreeNetTime⟩)
    let holderUsed ← read fun c => decayedUsage env ((c.recordOf holder).assetNet assetId)
    if publicUsed + bytes > issued.publicFreeAssetNetLimit then pure false
    else if holderUsed + bytes > issued.freeAssetNetLimit then pure false
    else if ← consumeStakedNet env issued.ownerKey bytes then do
      modifyRecord holder fun r =>
        { r with assetNet :=
            Function.update r.assetNet assetId (some (charged env (r.assetNet assetId) bytes)) }
      assignAsset assetId fun m =>
        { m with
          publicFreeAssetNetUsage := publicUsed + bytes
          publicLatestFreeNetTime := env.currentTimeMs }
      pure true
    else pure false

/-- Bill staked energy the execution already drew. -/
def chargeStakedEnergy (a : Address) (units : ℤ) : NodeM Unit := do
  modifyRecord a fun r => { r with energyLedger := some (charged env r.energyLedger units) }
  noteOperation a
  noteEnergyTime a

/-- What paid for a transaction's bandwidth. -/
inductive BandwidthOutcome where
  | staked
  | free
  | burn (feeSun : ℤ)
  | insufficient (feeSun : ℤ)
deriving DecidableEq, Repr

/-- Bill bandwidth for a transaction: the staked quota, then the free allowance, then burning. -/
def consumeBandwidth (a : Address) (bytes : ℤ) : NodeM BandwidthOutcome := do
  noteOperation a
  if ← consumeStakedNet env a bytes then pure .staked
  else do
    let used ← read fun c => decayedUsage env (c.recordOf a).bandwidth
    if used + bytes ≤ env.params.freeNetLimit then do
      modifyRecord a fun r => { r with bandwidth := some (charged env r.bandwidth bytes) }
      pure .free
    else do
      let feeSun := bytes * env.params.transactionFee
      if ← deductBalance env a feeSun then pure (.burn feeSun) else pure (.insufficient feeSun)

/-! ### Execution -/

/-- What an execution returns to the dialect. -/
structure WriteResult where
  energyUsed : ℤ
  energyFeeSun : ℤ
  energyFromStake : ℤ
  originEnergyUsage : ℤ
  reverted : Bool
deriving DecidableEq, Repr

/-- `executeTransaction`: the virtual machine runs on the state manager; it may fail, leaving
anything behind. -/
def runTransaction (params : WriteParams) (gasLimit : ℤ) : NodeM ExecOutcome := fun s =>
  let before := s.chain.stateManager
  let out := env.executeTransaction params gasLimit before
  (out.1, { s with
    chain := { s.chain with stateManager := out.2 }
    trace := { s.trace with calls := s.trace.calls ++ [(before, out.2)] } })

/-- Note every slot the execution wrote. -/
def noteStorageSlots : List (Address × Bytes) → NodeM Unit
  | [] => pure ()
  | (a, slot) :: slots => do
    noteStorageSlot a slot
    noteStorageSlots slots

/-- Delete the accounts the execution destroyed, with everything beside the trie. -/
def deleteDestroyed : List Address → NodeM Unit
  | [] => pure ()
  | a :: destroyed => do
    callState env fun w => (.ok (), w.deleteAccount a)
    deleteAccountRecords a
    deleteDestroyed destroyed

/-- The origin which subsidises a call, with the caller's percentage and the origin's cap. -/
structure Subsidy where
  origin : Option Address := none
  percent : ℤ := 100
  originCap : ℤ := 0

/-- The contract record that decides who pays for a call. -/
def subsidyOf (c : Chain) (params : WriteParams) : Subsidy :=
  match params.toAddress with
  | none => {}
  | some target =>
    if params.create then {}
    else match (c.table .contracts).get target with
      | none => {}
      | some m => ⟨m.originAddress, m.consumeUserResourcePercent, m.originEnergyLimit⟩

/-- The share of the budget the origin adds to the caller's. -/
def creatorLimit (c : Chain) (params : WriteParams) (callerLimit : ℤ) : ℤ :=
  let subsidy := subsidyOf c params
  match subsidy.origin with
  | none => 0
  | some origin =>
    if origin ≠ params.caller ∧ subsidy.percent < 100 then
      let bounded := min (stakedEnergyLeftOf env c origin) subsidy.originCap
      if subsidy.percent ≤ 0 then bounded
      else min ((callerLimit * (100 - subsidy.percent)).tdiv subsidy.percent) bounded
    else 0

/-- The origin's share of the energy used, settled from its staked energy alone. -/
def chargeOrigin (params : WriteParams) (subsidy : Subsidy) (energyUsed : ℤ) : NodeM ℤ := do
  match subsidy.origin with
  | none => pure 0
  | some origin =>
    if origin ≠ params.caller ∧ energyUsed > 0 then do
      let originLeft ← read fun c => stakedEnergyLeftOf env c origin
      let share := (energyUsed * (100 - subsidy.percent)).tdiv 100
      let usage := min (min share originLeft) subsidy.originCap
      chargeStakedEnergy env origin usage
      pure usage
    else pure 0

/-- The energy fee the caller pays in TRX. -/
def chargeEnergyFee (caller : Address) (feeSun : ℤ) : NodeM ℤ := do
  match ← getAccount env caller with
  | none => pure 0
  | some sender =>
    if feeSun > 0 then do
      Prog.modify fun s =>
        { s with chain := { s.chain with burnedSun := s.chain.burnedSun + feeSun } }
      putAccount env caller { sender with balance := sender.balance - feeSun }
      pure feeSun
    else pure feeSun

/-- The energy preparation timestamps of a successful execution. -/
def notePreparation (params : WriteParams) (subsidy : Subsidy) : NodeM Unit := do
  noteEnergyTime params.caller
  match subsidy.origin with
  | none => pure ()
  | some origin =>
    if origin = params.caller then pure ()
    else if (← getAccount env origin).isSome then noteEnergyTime origin
    else pure ()

/-- State-changing execution: the virtual machine runs within the budget, and the energy used is
settled even when the call reverts. -/
def execute (params : WriteParams) : NodeM WriteResult := do
  let energyFee := env.params.energyFee
  let senderBalance := ((← getAccount env params.caller).map Account.balance).getD 0
  let spendable := max (senderBalance - params.value) 0
  let requested := params.energyLimit.getD env.maxEnergyLimitForConstant
  let stakeEnergyLeft ← read fun c => stakedEnergyLeftOf env c params.caller
  if energyFee = 0 then Prog.throw (.rangeError "Division by zero")
  else do
    let callerLimit := min requested (stakeEnergyLeft + spendable.tdiv energyFee)
    let subsidy ← read fun c => subsidyOf c params
    let creator ← read fun c => creatorLimit env c params callerLimit
    flush env
    let _ ← headTimestampMs
    let outcome ← runTransaction env params (callerLimit + creator)
    noteStorageSlots outcome.slots
    if !params.plainTransfer ∧ !outcome.reverted ∧ env.params.unfreezeDelayDays > 0 then
      notePreparation env params subsidy
    else pure ()
    let energyUsed := outcome.executionGasUsed
    let originEnergyUsage ← chargeOrigin env params subsidy energyUsed
    let callerUsed := energyUsed - originEnergyUsage
    let energyFromStake := min callerUsed stakeEnergyLeft
    if energyUsed > 0 then chargeStakedEnergy env params.caller energyFromStake else pure ()
    let energyFeeSun ← chargeEnergyFee env params.caller
      ((callerUsed - energyFromStake) * energyFee)
    if outcome.reverted then pure () else deleteDestroyed env outcome.destroyed
    flush env
    pure ⟨energyUsed, energyFeeSun, energyFromStake, originEnergyUsage, outcome.reverted⟩

end Tvmjs
