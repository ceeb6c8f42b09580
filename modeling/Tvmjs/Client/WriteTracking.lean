import Tvmjs.Client.Journal

/-!
# Every write operation is tracked

One theorem for each operation of the node: whatever it does and wherever it throws, the journal
holds the records which take it back.  All but the sealing of a block and the storing of a receipt
are quiet.  The proofs follow the operations step by step; only the operations that change the
registers need an argument, since their records have to be exact.
-/

namespace Tvmjs

open Prog

variable {env : NodeEnv} {α : Type}

/-! ### Building blocks -/

/-- Reading what may be missing writes nothing. -/
theorem rel_orTypeError {o : Option α} : Rel Quiet (orTypeError o) := by
  cases o with
  | none => exact .throw _
  | some x => exact .pure x

theorem rel_headTimestampMs : Rel Quiet headTimestampMs := .bind rel_read fun _ => rel_orTypeError

/-- Records are no transactions, so that storing one notes no transaction. -/
private theorem rel_modifyRecord {a : Address} {f : AccountRecord → AccountRecord} :
    Rel Quiet (modifyRecord a f) := .bind rel_read fun _ => rel_writeTable (by decide)

/-- Removing is a write of its table. -/
private theorem rel_removeFrom {t : Table} {key : t.Key} (h : t ≠ .txs) :
    Rel Quiet (removeFrom t key) := by
  refine .bind rel_read fun _ => ?_
  exact .ite (rel_writeTable h) (.pure _)

private theorem rel_getAccount {a : Address} : Rel Quiet (getAccount env a) := rel_callState

private theorem rel_putAccount {a : Address} {account : Account} :
    Rel Quiet (putAccount env a account) := rel_callState

private theorem rel_touchAccount {a : Address} : Rel Quiet (touchAccount env a) := rel_callState

private theorem rel_flush : Rel Quiet (flush env) := rel_callState

/-- A read and a write of the account. -/
private theorem rel_adjustBalance {a : Address} {deltaSun : ℤ} :
    Rel Quiet (adjustBalance env a deltaSun) := by
  refine .bind rel_getAccount fun _ => ?_
  refine .bind rel_orTypeError fun _ => ?_
  refine .bind rel_putAccount fun _ => ?_
  exact rel_flush

/-- The weight totals are recorded as they stand before they shift. -/
private theorem rel_shiftWeight {resource : StakeResource} {beforeSun afterSun : ℤ} :
    Rel Quiet (shiftWeight resource beforeSun afterSun) := by
  refine .ite (.pure _) (rel_read_bind fun s => ?_)
  rw [← bind_pure (setRegisters _)]
  refine quiet_record (fun _ => rfl) ?_ ?_ fun _ => .pure _
  · cases resource <;> rfl
  · cases resource <;> rfl

theorem rel_noteCreation {a : Address} : Rel Quiet (noteCreation env a) := by
  refine .bind rel_modifyRecord fun _ => ?_
  refine .bind rel_read fun _ => ?_
  refine .ite (.pure _) ?_
  refine .bind rel_getAccount fun _ => ?_
  refine .ite (.pure _) ?_
  refine .bind rel_read fun _ => ?_
  refine .ite ?_ ?_
  · refine .bind (.pure _) fun _ => ?_
    exact rel_modifyRecord
  · refine .bind rel_headTimestampMs fun _ => ?_
    exact rel_modifyRecord

/-! ### Balance moves -/

/-- What was burnt is a register, not a table. -/
private theorem rel_modifyBurned (f : ℤ → ℤ) : Rel Quiet (Prog.modify fun s =>
    { s with chain := { s.chain with burnedSun := f s.chain.burnedSun } } : NodeM PUnit) :=
  rel_modifyUntouched (fun c => f c.burnedSun) Chain.storageSlots

/-- One account loses what is burnt. -/
theorem rel_deductBalance {a : Address} {amountSun : ℤ} :
    Rel Quiet (deductBalance env a amountSun) := by
  refine .bind rel_getAccount fun account => ?_
  cases account with
  | none => exact .pure _
  | some account =>
    refine .ite (.pure _) ?_
    refine .bind (rel_modifyBurned (· + amountSun)) fun _ => ?_
    refine .bind rel_putAccount fun _ => ?_
    refine .bind rel_flush fun _ => ?_
    exact .pure _

theorem rel_creditBalance {a : Address} {amountSun : ℤ} :
    Rel Quiet (creditBalance env a amountSun) := by
  refine .bind (rel_modifyBurned (· - amountSun)) fun _ => ?_
  refine .bind rel_noteCreation fun _ => ?_
  refine .bind rel_touchAccount fun _ => ?_
  exact rel_adjustBalance

/-- Two accounts are written, or none. -/
theorem rel_moveBalance {sender recipient : Address} {amountSun : ℤ} :
    Rel Quiet (moveBalance env sender recipient amountSun) := by
  refine .bind rel_getAccount fun account => ?_
  cases account with
  | none => exact .pure _
  | some account =>
    refine .ite (.pure _) ?_
    refine .bind rel_putAccount fun _ => ?_
    refine .bind rel_touchAccount fun _ => ?_
    refine .bind rel_adjustBalance fun _ => ?_
    exact .pure _

/-! ### Staking -/

/-- The account, its record and the weight are written. -/
theorem rel_freezeV2 {owner : Address} {amountSun : ℤ} {resource : StakeResource} :
    Rel Quiet (freezeV2 env owner amountSun resource) := by
  refine .bind rel_adjustBalance fun _ => ?_
  refine .bind rel_read fun _ => ?_
  refine .bind rel_modifyRecord fun _ => ?_
  exact rel_shiftWeight

/-- The account and its record are written where something has matured. -/
private theorem rel_claimExpiredUnfrozen {owner : Address} {nowMs : ℤ} :
    Rel Quiet (claimExpiredUnfrozen env owner nowMs) := by
  refine .bind rel_modifyRecord fun _ => ?_
  refine .bind rel_read fun _ => ?_
  refine .ite (.pure _) ?_
  refine .bind rel_modifyRecord fun _ => ?_
  refine .bind rel_adjustBalance fun _ => ?_
  exact .pure _

/-- What has matured is claimed before the amount is queued. -/
theorem rel_unfreezeV2 {owner : Address} {amountSun : ℤ} {resource : StakeResource} :
    Rel Quiet (unfreezeV2 env owner amountSun resource) := by
  refine .bind rel_headTimestampMs fun _ => ?_
  refine .bind rel_claimExpiredUnfrozen fun _ => ?_
  refine .bind rel_read fun _ => ?_
  refine .bind rel_modifyRecord fun _ => ?_
  refine .bind rel_shiftWeight fun _ => ?_
  refine .bind rel_modifyRecord fun _ => ?_
  exact .pure _

theorem rel_withdrawExpiredUnfreeze {owner : Address} :
    Rel Quiet (withdrawExpiredUnfreeze env owner) :=
  .bind rel_headTimestampMs fun _ => rel_claimExpiredUnfrozen

private theorem rel_returnCanceled {owner : Address} {back : ℤ} {resource : StakeResource} :
    Rel Quiet (returnCanceled owner back resource) := by
  refine .ite (.pure _) ?_
  refine .bind rel_read fun _ => ?_
  refine .bind rel_modifyRecord fun _ => ?_
  exact rel_shiftWeight

/-- What is canceled goes back resource by resource. -/
theorem rel_cancelAllUnfreezeV2 {owner : Address} :
    Rel Quiet (cancelAllUnfreezeV2 env owner) := by
  refine .bind rel_headTimestampMs fun _ => ?_
  refine .bind rel_claimExpiredUnfrozen fun _ => ?_
  refine .bind rel_read fun _ => ?_
  refine .bind rel_modifyRecord fun _ => ?_
  refine .bind rel_returnCanceled fun _ => ?_
  refine .bind rel_returnCanceled fun _ => ?_
  refine .bind rel_returnCanceled fun _ => ?_
  exact .pure _

/-- An entry is stored or removed. -/
private theorem rel_putLegacyDelegation {key : Address × Address}
    {o : Option LegacyDelegationEntry} :
    Rel Quiet (putLegacyDelegation key o) := by
  cases o with
  | none => exact rel_writeTable (by decide)
  | some entry => exact rel_writeTable (by decide)

/-- The index of pairs is a table as well. -/
private theorem rel_noteLegacyPair {owner receiver : Address} :
    Rel Quiet (noteLegacyPair owner receiver) := by
  refine .bind rel_headTimestampMs fun _ => ?_
  exact rel_writeTable (by decide)

/-- The index loses a pair at most. -/
private theorem rel_dropLegacyPairIfEmpty {owner receiver : Address} :
    Rel Quiet (dropLegacyPairIfEmpty owner receiver) := by
  refine .bind rel_read fun _ => ?_
  exact .ite (.pure _) (rel_removeFrom (by decide))

/-- The owner's record is written, or the delegation where there is a receiver. -/
theorem rel_freezeLegacy {owner : Address} {amountSun : ℤ} {resource : StakeResource}
    {durationDays : ℤ} {receiver : Option Address} :
    Rel Quiet (freezeLegacy env owner amountSun resource durationDays receiver) := by
  refine .bind rel_adjustBalance fun _ => ?_
  refine .bind rel_modifyRecord fun _ => ?_
  refine .bind rel_headTimestampMs fun _ => ?_
  rcases legacyTarget env resource receiver with _ | ⟨target, field⟩
  · refine .bind rel_read fun _ => ?_
    refine .bind rel_modifyRecord fun _ => ?_
    exact rel_shiftWeight
  · refine .bind rel_read fun _ => ?_
    refine .bind rel_putLegacyDelegation fun _ => ?_
    refine .bind rel_noteLegacyPair fun _ => ?_
    refine .bind rel_modifyRecord fun _ => ?_
    refine .bind rel_read fun _ => ?_
    refine .bind rel_modifyRecord fun _ => ?_
    exact rel_shiftWeight

private theorem rel_releaseLegacyDelegation {owner target : Address} {field : DelegatableResource} :
    Rel Quiet (releaseLegacyDelegation env owner target field) := by
  refine .bind rel_read fun _ => ?_
  refine .bind rel_orTypeError fun _ => ?_
  refine .bind rel_putLegacyDelegation fun _ => ?_
  refine .bind rel_dropLegacyPairIfEmpty fun _ => ?_
  refine .bind rel_modifyRecord fun _ => ?_
  refine .bind rel_getAccount fun _ => ?_
  refine .bind rel_read fun _ => ?_
  refine .ite ?_ (.pure _)
  refine .bind rel_read fun _ => ?_
  refine .bind rel_modifyRecord fun _ => ?_
  exact .pure _

/-- What is held is released, by the owner's record or by the delegation. -/
theorem rel_unfreezeLegacy {owner : Address} {resource : StakeResource}
    {receiver : Option Address} :
    Rel Quiet (unfreezeLegacy env owner resource receiver) := by
  have hrest (p : ℤ × ℤ) : Rel Quiet (do
      adjustBalance env owner p.1
      shiftWeight resource p.2 (p.2 - p.1)
      modifyRecord owner (closeOldTronPower env)
      pure p.1 : NodeM ℤ) := by
    refine .bind rel_adjustBalance fun _ => ?_
    refine .bind rel_shiftWeight fun _ => ?_
    refine .bind rel_modifyRecord fun _ => ?_
    exact .pure _
  refine .bind rel_modifyRecord fun _ => ?_
  rcases legacyTarget env resource receiver with _ | ⟨target, field⟩
  · refine .bind (.bind rel_read fun _ => ?_) hrest
    exact .bind rel_modifyRecord fun _ => .pure _
  · exact .bind rel_releaseLegacyDelegation hrest

/-- An entry is stored or removed. -/
private theorem rel_putDelegation {key : Address × Address × Bool} {o : Option DelegationEntry} :
    Rel Quiet (putDelegation key o) := by
  cases o with
  | none => exact rel_writeTable (by decide)
  | some entry => exact rel_writeTable (by decide)

/-- The locked entry moves over to the unlocked one. -/
private theorem rel_unlockExpiredDelegation {owner receiver : Address} {nowMs : ℤ} :
    Rel Quiet (unlockExpiredDelegation owner receiver nowMs) := by
  refine .bind rel_read fun locked => ?_
  cases locked with
  | none => exact .pure _
  | some locked =>
    refine .ite (.pure _) ?_
    refine .bind rel_putDelegation fun _ => ?_
    refine .bind rel_read fun _ => ?_
    exact rel_putDelegation

private theorem rel_notePair {owner receiver : Address} : Rel Quiet (notePair owner receiver) := by
  refine .bind rel_headTimestampMs fun _ => ?_
  exact rel_writeTable (by decide)

private theorem rel_dropPairIfEmpty {owner receiver : Address} :
    Rel Quiet (dropPairIfEmpty owner receiver) := by
  refine .bind rel_read fun _ => ?_
  refine .ite (.pure _) ?_
  refine .bind rel_read fun _ => ?_
  exact .ite (.pure _) (rel_removeFrom (by decide))

/-- The expired locks go first, then the records and the entry are written. -/
theorem rel_delegateResource {owner receiver : Address} {amountSun : ℤ}
    {resource : DelegatableResource} {lock : Bool} {lockPeriodBlocks : ℤ} :
    Rel Quiet (delegateResource owner receiver amountSun resource lock lockPeriodBlocks) := by
  refine .bind rel_headTimestampMs fun _ => ?_
  refine .bind rel_unlockExpiredDelegation fun _ => ?_
  refine .bind rel_read fun _ => ?_
  refine .bind rel_putDelegation fun _ => ?_
  refine .bind rel_notePair fun _ => ?_
  refine .bind rel_modifyRecord fun _ => ?_
  exact rel_modifyRecord

/-- Only the receiver's record is written. -/
private theorem rel_releaseAcquired {receiver : Address} {amountSun : ℤ}
    {resource : DelegatableResource} :
    Rel Quiet (releaseAcquired env receiver amountSun resource) := by
  refine .bind rel_read fun _ => ?_
  refine .bind rel_read fun _ => ?_
  refine .bind rel_read fun _ => ?_
  refine .bind rel_modifyRecord fun _ => ?_
  exact .pure _

/-- Only the unlocked entry is written. -/
private theorem rel_shrinkUnlocked {owner receiver : Address} {amountSun : ℤ}
    {resource : DelegatableResource} :
    Rel Quiet (shrinkUnlocked owner receiver amountSun resource) := by
  refine .bind rel_read fun unlocked => ?_
  cases unlocked with
  | none => exact .pure _
  | some unlocked => exact rel_putDelegation

private theorem rel_addOwnerUsage {owner : Address} {transferUsage : ℤ}
    {resource : DelegatableResource} :
    Rel Quiet (addOwnerUsage env owner transferUsage resource) := by
  exact .ite (.bind rel_read fun _ => rel_modifyRecord) (.pure _)

/-- The receiver, the entry and the owner, one after the other. -/
theorem rel_undelegateResource {owner receiver : Address} {amountSun : ℤ}
    {resource : DelegatableResource} :
    Rel Quiet (undelegateResource env owner receiver amountSun resource) := by
  refine .bind rel_headTimestampMs fun _ => ?_
  refine .bind rel_releaseAcquired fun _ => ?_
  refine .bind rel_unlockExpiredDelegation fun _ => ?_
  refine .bind rel_shrinkUnlocked fun _ => ?_
  refine .bind rel_dropPairIfEmpty fun _ => ?_
  refine .bind rel_modifyRecord fun _ => ?_
  exact rel_addOwnerUsage

/-! ### Exact records of the registers -/

attribute [ext] AssetRegistry BlockStore Registers

namespace AssetRegistry

/-- The next id of the registry is free. -/
private theorem nextId_not_mem (r : AssetRegistry) : r.nextId ∉ r.byIdMap.keys :=
  fun h => (r.lt_nextId _ h).false

/-- Dropping an issuance right after its creation. -/
private theorem drop_create (r : AssetRegistry) (input : AssetMeta)
    (h : r.byOwnerMap.has input.ownerKey = false) :
    (r.create input).drop r.nextId input.ownerKey = r := by
  have howner : input.ownerKey ∉ r.byOwnerMap.keys := by
    rw [← InsertionMap.get_isSome_iff]
    simpa [InsertionMap.has] using h
  refine AssetRegistry.ext ?_ ?_ ?_
  · exact InsertionMap.delete_set_of_not_mem _ r.nextId_not_mem
  · exact InsertionMap.delete_set_of_not_mem _ howner
  · simp [drop, create]

/-- Assigning back the metadata an id held. -/
private theorem assign_assign (r : AssetRegistry) {id : ℕ} {before : AssetMeta} (m : AssetMeta)
    (h : r.byIdMap.get id = some before) : (r.assign id m).assign id before = r := by
  have hmem := InsertionMap.mem_keys_of_get h
  have hkeys : (r.byIdMap.set id m).keys = r.byIdMap.keys := InsertionMap.keys_set_of_mem m hmem
  have hassign : (r.assign id m).byIdMap = r.byIdMap.set id m := by
    simp [assign, hmem]
  have hmem' : id ∈ (r.assign id m).byIdMap.keys := by
    rw [hassign, hkeys]
    exact hmem
  refine AssetRegistry.ext ?_ ?_ ?_
  · have : ((r.assign id m).assign id before).byIdMap = (r.assign id m).byIdMap.set id before := by
      rw [assign, dif_pos hmem']
    rw [this, hassign, InsertionMap.set_set_of_get m h]
  · rw [assign, dif_pos hmem']
    simp [assign, hmem]
  · rw [assign, dif_pos hmem']
    simp [assign, hmem]

end AssetRegistry

namespace BlockStore

/-- What dropping a block removes. -/
private theorem drop_of_get {b : BlockStore} {number : ℤ} {record : BlockRecord}
    (h : b.byNumber.get number = some record) :
    (b.drop number).byNumber = b.byNumber.delete number ∧
      (b.drop number).byId = b.byId.delete record.blockID ∧
      (b.drop number).headNumber =
        if b.headNumber = number then number - 1 else b.headNumber := by
  unfold drop
  split
  · rename_i hnone
    rw [h] at hnone
    cases hnone
  · rename_i record' hget
    rw [h] at hget
    cases hget
    exact ⟨rfl, rfl, rfl⟩

/-- Dropping a block right after it was put. -/
private theorem drop_put (b : BlockStore) (hash : Bytes) (timestampMs : ℤ)
    (txs : List TronTxRecord) :
    (b.put hash timestampMs txs).drop (b.headNumber + 1) = b := by
  have hnumber : b.headNumber + 1 ∉ b.byNumber.keys := fun h => by
    have := b.le_head _ h
    omega
  have hid : toBlockID (b.headNumber + 1) hash ∉ b.byId.keys := fun h => by
    obtain ⟨r, hr, -⟩ := b.id_stored _ h
    exact hnumber (InsertionMap.mem_keys_of_get hr)
  obtain ⟨hbyNumber, hbyId, hhead⟩ := drop_of_get (b := b.put hash timestampMs txs)
    (InsertionMap.get_set_self b.byNumber (b.headNumber + 1)
      ⟨b.headNumber + 1, toBlockID (b.headNumber + 1) hash, b.parentBlockID, timestampMs, txs⟩)
  refine BlockStore.ext ?_ ?_ ?_
  · rw [hbyNumber]
    exact InsertionMap.delete_set_of_not_mem _ hnumber
  · rw [hbyId]
    exact InsertionMap.delete_set_of_not_mem _ hid
  · rw [hhead]
    simp [put]

end BlockStore

/-! ### Registries -/

private theorem rel_headStamp : Rel Quiet headStamp := by
  refine .bind rel_read fun _ => ?_
  exact .ite (.pure _) rel_headTimestampMs

/-- The creation is noted as any other. -/
private theorem rel_noteCheatCreation {a : Address} : Rel Quiet (noteCheatCreation env a) :=
  .bind rel_noteCreation fun _ => rel_modifyRecord

theorem rel_noteOperation {a : Address} : Rel Quiet (noteOperation a) := by
  refine .bind rel_modifyRecord fun _ => ?_
  refine .bind rel_headStamp fun _ => ?_
  exact rel_modifyRecord

private theorem rel_noteEnergyTime {a : Address} : Rel Quiet (noteEnergyTime a) := by
  refine .bind rel_modifyRecord fun _ => ?_
  refine .bind rel_headStamp fun _ => ?_
  exact rel_modifyRecord

theorem rel_noteAccountType {a : Address} {type : AccountType} :
    Rel Quiet (noteAccountType a type) := rel_modifyRecord

theorem rel_setPermissions {owner : Address} {permissions : List StoredPermission} :
    Rel Quiet (setPermissions owner permissions) := rel_modifyRecord

theorem rel_creditAllowance {a : Address} {amountSun : ℤ} :
    Rel Quiet (creditAllowance a amountSun) := .ite (.throw _) rel_modifyRecord

/-- The name is entered in its table and in the record. -/
theorem rel_setAccountName {owner : Address} {name : String} :
    Rel Quiet (setAccountName owner name) := by
  refine .bind rel_modifyRecord fun _ => ?_
  exact rel_writeTable (by decide)

/-- The id is entered in its table and in the record. -/
theorem rel_setAccountId {owner : Address} {accountId : String} :
    Rel Quiet (setAccountId owner accountId) := by
  refine .bind rel_read fun _ => ?_
  exact .ite (.throw _) (rel_writeTable (by decide))

theorem rel_registerContract {a : Address} {m : ContractMeta} :
    Rel Quiet (registerContract a m) := rel_writeTable (by decide)

/-- Key by key. -/
private theorem rel_removeKeys {t : Table} (keys : List t.Key) (h : t ≠ .txs) :
    Rel Quiet (removeKeys t keys) := by
  induction keys with
  | nil => exact .pure _
  | cons key keys ih => exact .bind (rel_removeFrom h) fun _ => ih

private theorem rel_removeStorageSlots {a : Address} : Rel Quiet (removeStorageSlots a) := by
  refine .bind rel_read fun before => ?_
  cases before with
  | none => exact .pure _
  | some before =>
    exact .bind rel_recordSlots fun _ =>
      rel_modifyUntouched Chain.burnedSun fun c => c.storageSlots.delete a

/-- Every table loses what it holds of the account. -/
private theorem rel_deleteAccountRecords {a : Address} : Rel Quiet (deleteAccountRecords a) := by
  refine .bind (rel_removeFrom (by decide)) fun _ => ?_
  refine .bind (rel_removeFrom (by decide)) fun _ => ?_
  refine .bind rel_removeStorageSlots fun _ => ?_
  refine .bind rel_read fun _ => ?_
  refine .bind (rel_removeKeys _ (by decide)) fun _ => ?_
  refine .bind rel_read fun _ => ?_
  exact rel_removeKeys _ (by decide)

/-- The slots of an account are listed for its deletion. -/
theorem rel_noteStorageSlot {a : Address} {slot : Bytes} : Rel Quiet (noteStorageSlot a slot) :=
  rel_modifyUntouched Chain.burnedSun fun c =>
    c.storageSlots.set a (((c.storageSlots.get a).getD .empty).set slot slot)

/-- The batches of generated accounts are a register. -/
theorem rel_pushGenerated {batch : GeneratedBatch} : Rel Quiet (pushGenerated batch) := by
  intro s
  rw [pushGenerated, ← bind_pure (setRegisters _)]
  refine quiet_record (fun _ => rfl) ?_ rfl fun _ => .pure _
  simp [Undo.onRegisters]

/-- Storing a transaction is tracked, not quiet. -/
theorem tracked_storeTransaction {record : TronTxRecord} :
    Rel Tracked (storeTransaction record) := by
  refine .bind rel_read fun _ => ?_
  exact .ite (.throw _) tracked_writeTable

/-! ### Blocks -/

private theorem rel_payWitnessReward {a : Address} {value : ℤ} :
    Rel Quiet (payWitnessReward env a value) :=
  .ite (.pure _) rel_creditAllowance

/-- Witness by witness. -/
private theorem rel_payStandbys (standbys : List (Address × ℤ)) :
    Rel Quiet (payStandbys env standbys) := by
  induction standbys with
  | nil => exact .pure _
  | cons standby standbys ih => exact .bind rel_payWitnessReward fun _ => ih

/-- The producer is paid and then the standbys. -/
theorem rel_accrueBlockReward : Rel Quiet (accrueBlockReward env) := by
  refine .ite ?_ ?_
  · exact rel_creditAllowance
  · refine .bind rel_payWitnessReward fun _ => ?_
    exact rel_payStandbys _

/-- Sealing stores the transactions and then the block. -/
theorem tracked_sealBlock {txs : List TronTxRecord} : Rel Tracked (sealBlock env txs) := by
  refine rel_read_bind fun s => tracked_record (fun _ => rfl) rfl fun _ => ?_
  refine .bind rel_callState.tracked fun trie => rel_read_bind fun t => ?_
  refine tracked_record (fun _ => rfl) ?_ fun _ => rel_accrueBlockReward.tracked
  simp only [Undo.onRegisters, BlockStore.drop_put]

/-! ### The state trie and assets -/

private theorem rel_modifyBalance {a : Address} {balanceSun : ℤ} :
    Rel Quiet (modifyBalance env a balanceSun) := rel_callState

/-- The balance is set in a transaction of its own. -/
theorem rel_setBalance {a : Address} {balanceSun : ℤ} :
    Rel Quiet (setBalance env a balanceSun) := by
  unfold setBalance
  split
  · exact .throw _
  · exact rel_transact (.bind rel_noteCheatCreation fun _ => .bind rel_modifyBalance fun _ =>
      rel_flush)

theorem rel_setBalanceUnlocked {a : Address} {balanceSun : ℤ} :
    Rel Quiet (setBalanceUnlocked env a balanceSun) := by
  refine .bind rel_noteCreation fun _ => ?_
  refine .bind rel_modifyBalance fun _ => ?_
  exact rel_flush

/-- The account is touched, typed and registered. -/
private theorem rel_plantContractAccount {a : Address} :
    Rel Quiet (plantContractAccount env a) := by
  have hregister : Rel Quiet (do
      noteAccountType a .contract
      if ← read fun c => (c.table .contracts).has a then
        pure ()
      else
        registerContract a
          { name := "", bytecode := "", consumeUserResourcePercent := 100,
            originEnergyLimit := 0 } :
      NodeM Unit) :=
    .bind rel_noteAccountType fun _ => .bind rel_read fun _ => .ite (.pure _) rel_registerContract
  refine .bind rel_getAccount fun _ => ?_
  refine .bind rel_noteCheatCreation fun _ => ?_
  refine .bind rel_touchAccount fun _ => ?_
  exact .ite (.bind rel_modifyRecord fun _ => hregister)
      hregister

/-- The account is planted before its code is stored. -/
theorem rel_setCode {a : Address} {code : Bytes} : Rel Quiet (setCode env a code) := by
  refine rel_transact (.bind rel_plantContractAccount fun _ => .bind rel_read fun planted => ?_)
  cases planted with
  | none => exact .bind rel_callState fun _ => rel_flush
  | some planted => exact .bind rel_registerContract fun _ => .bind rel_callState fun _ => rel_flush

theorem rel_setStorage {a : Address} {slot value : Bytes} :
    Rel Quiet (setStorage env a slot value) :=
  rel_transact (.bind rel_plantContractAccount fun _ => .bind rel_noteStorageSlot fun _ =>
    .bind rel_callState fun _ => rel_flush)

private theorem rel_getAssetBalance {a : Address} {tokenId : ℕ} :
    Rel Quiet (getAssetBalance env a tokenId) := .bind rel_getAccount fun _ => .pure _

/-- The registry gains the token and the owner its supply. -/
theorem rel_issueAsset {owner : Address} {input : AssetMeta} {creditedSupply : Option ℤ}
    {frozen : List FrozenSupply} :
    Rel Quiet (issueAsset env owner input creditedSupply frozen) := by
  refine rel_read_bind fun s => ?_
  by_cases hname : env.params.allowSameTokenName = 0 ∧
      s.chain.registers.assets.nameTaken input.name = true
  · rw [if_pos hname]
    exact refl_of Quiet s
  rw [if_neg hname]
  by_cases howner : s.chain.registers.assets.byOwnerMap.has owner = true
  · rw [if_pos howner]
    exact refl_of Quiet s
  rw [if_neg howner]
  -- the id was free and the owner had issued nothing, so dropping the issuance is exact
  refine quiet_record (fun _ => rfl) ?_ rfl fun _ => ?_
  · simp only [Undo.onRegisters]
    have hdrop := AssetRegistry.drop_create s.chain.registers.assets
      { input with ownerKey := owner } (by simpa using howner)
    exact Registers.ext hdrop rfl rfl rfl rfl rfl rfl
  · exact .bind rel_getAccount fun _ => .bind rel_putAccount fun _ => .bind rel_flush fun _ =>
      .ite (.pure _) (.bind rel_modifyRecord fun _ => .pure _)

private theorem rel_assignAsset {id : ℕ} {f : AssetMeta → AssetMeta} :
    Rel Quiet (assignAsset id f) := by
  refine rel_read_bind fun s => ?_
  cases hget : s.chain.registers.assets.byIdMap.get id with
  | none => exact refl_of Quiet s
  | some before =>
    dsimp only
    rw [← bind_pure (setRegisters _)]
    refine quiet_record (fun _ => rfl) ?_ rfl fun _ => .pure _
    simp only [Undo.onRegisters, AssetRegistry.assign_assign _ _ hget]

/-- The entry of the caller's token is assigned anew. -/
theorem rel_updateAsset {caller : Address} {url description : String}
    {newLimit newPublicLimit : ℤ} :
    Rel Quiet (updateAsset caller url description newLimit newPublicLimit) := by
  refine .bind rel_read fun issued => ?_
  cases issued with
  | none => exact .throw _
  | some issued => exact rel_assignAsset

theorem rel_creditAsset {a : Address} {tokenId : ℕ} {amount : ℤ} :
    Rel Quiet (creditAsset env a tokenId amount) := by
  refine .bind rel_getAccount fun _ => ?_
  refine .bind rel_getAssetBalance fun _ => ?_
  refine .bind rel_putAccount fun _ => ?_
  exact rel_flush

/-- What has matured of the frozen supply is credited. -/
theorem rel_unfreezeAsset {owner : Address} {tokenId : ℕ} :
    Rel Quiet (unfreezeAsset env owner tokenId) := by
  refine .bind rel_modifyRecord fun _ => ?_
  refine .bind rel_read fun _ => ?_
  refine .bind rel_headTimestampMs fun _ => ?_
  refine .ite (.pure _) ?_
  refine .bind rel_modifyRecord fun _ => ?_
  refine .bind rel_creditAsset fun _ => ?_
  exact .pure _

/-- Two accounts are written, or none. -/
theorem rel_transferAsset {sender recipient : Address} {tokenId : ℕ} {amount : ℤ} :
    Rel Quiet (transferAsset env sender recipient tokenId amount) := by
  refine .bind rel_getAccount fun fromAccount => ?_
  refine .bind rel_getAssetBalance fun held => ?_
  cases fromAccount with
  | none => exact .pure _
  | some fromAccount =>
    refine .ite (.pure _) ?_
    refine .bind rel_putAccount fun _ => ?_
    refine .bind rel_noteCreation fun _ => ?_
    refine .bind rel_touchAccount fun _ => ?_
    refine .bind rel_getAccount fun _ => ?_
    refine .bind rel_orTypeError fun _ => ?_
    refine .bind rel_getAssetBalance fun _ => ?_
    refine .bind rel_putAccount fun _ => ?_
    refine .bind rel_flush fun _ => ?_
    exact .pure _

/-! ### Usage and execution -/

/-- Only the account's own usage is written. -/
theorem rel_consumeStakedNet {a : Address} {bytes : ℤ} :
    Rel Quiet (consumeStakedNet env a bytes) := by
  refine .bind rel_read fun _ => ?_
  refine .bind rel_read fun _ => ?_
  exact .ite (.pure _) (.bind rel_modifyRecord fun _ => .pure _)

/-- The holder's usage, the issuer's and the token's. -/
theorem rel_consumeAssetNet {holder : Address} {assetId : ℕ} {bytes : ℤ} :
    Rel Quiet (consumeAssetNet env holder assetId bytes) := by
  refine .bind rel_read fun issued => ?_
  cases issued with
  | none => exact .pure _
  | some issued =>
    refine .bind rel_read fun _ => ?_
    refine .ite (.pure _) ?_
    refine .ite (.pure _) ?_
    refine .bind rel_consumeStakedNet fun _ => ?_
    refine .ite ?_ (.pure _)
    refine .bind rel_modifyRecord fun _ => ?_
    refine .bind rel_assignAsset fun _ => ?_
    exact .pure _

/-- Only the account's own usage is written. -/
theorem rel_chargeStakedEnergy {a : Address} {units : ℤ} :
    Rel Quiet (chargeStakedEnergy env a units) := by
  refine .bind rel_modifyRecord fun _ => ?_
  refine .bind rel_noteOperation fun _ => ?_
  exact rel_noteEnergyTime

/-- The stake is charged first, then the free allowance, then the balance. -/
theorem rel_consumeBandwidth {a : Address} {bytes : ℤ} :
    Rel Quiet (consumeBandwidth env a bytes) := by
  refine .bind rel_noteOperation fun _ => ?_
  refine .bind rel_consumeStakedNet fun _ => ?_
  refine .ite (.pure _) ?_
  refine .bind rel_read fun _ => ?_
  refine .ite ?_ ?_
  · refine .bind rel_modifyRecord fun _ => ?_
    exact .pure _
  · refine .bind rel_deductBalance fun _ => ?_
    exact .ite (.pure _) (.pure _)

/-- Slot by slot. -/
private theorem rel_noteStorageSlots (slots : List (Address × Bytes)) :
    Rel Quiet (noteStorageSlots slots) := by
  induction slots with
  | nil => exact .pure _
  | cons slot slots ih => exact .bind rel_noteStorageSlot fun _ => ih

/-- Contract by contract. -/
private theorem rel_deleteDestroyed (destroyed : List Address) :
    Rel Quiet (deleteDestroyed env destroyed) := by
  induction destroyed with
  | nil => exact .pure _
  | cons a destroyed ih =>
    refine .bind rel_callState fun _ => ?_
    refine .bind rel_deleteAccountRecords fun _ => ?_
    exact ih

/-- The origin's stake pays its share. -/
private theorem rel_chargeOrigin {params : WriteParams} {subsidy : Subsidy} {energyUsed : ℤ} :
    Rel Quiet (chargeOrigin env params subsidy energyUsed) := by
  unfold chargeOrigin
  split
  · exact .pure _
  · refine .ite ?_ (.pure _)
    refine .bind rel_read fun _ => ?_
    refine .bind rel_chargeStakedEnergy fun _ => ?_
    exact .pure _

/-- The fee leaves the caller's balance. -/
private theorem rel_chargeEnergyFee {caller : Address} {feeSun : ℤ} :
    Rel Quiet (chargeEnergyFee env caller feeSun) := by
  refine .bind rel_getAccount fun sender => ?_
  cases sender with
  | none => exact .pure _
  | some sender =>
    refine .ite ?_ (.pure _)
    refine .bind (rel_modifyBurned (· + feeSun)) fun _ => ?_
    refine .bind rel_putAccount fun _ => ?_
    exact .pure _

private theorem rel_notePreparation {params : WriteParams} {subsidy : Subsidy} :
    Rel Quiet (notePreparation env params subsidy) := by
  refine .bind rel_noteEnergyTime fun _ => ?_
  split
  · exact .pure _
  · exact .ite (.pure _) (.bind rel_getAccount fun _ => .ite rel_noteEnergyTime (.pure _))

/-- A whole execution: the call, what it left behind and the fees. -/
theorem rel_execute {params : WriteParams} : Rel Quiet (execute env params) := by
  refine .bind rel_getAccount fun _ => ?_
  refine .bind rel_read fun _ => ?_
  refine .ite (.throw _) ?_
  refine .bind rel_read fun subsidy => ?_
  refine .bind rel_read fun _ => ?_
  refine .bind rel_flush fun _ => ?_
  refine .bind rel_headTimestampMs fun _ => ?_
  refine .bind rel_runTransaction fun outcome => ?_
  refine .bind (rel_noteStorageSlots _) fun _ => ?_
  -- the settlement after the branch is the same on both sides, and so on after each later branch
  refine .ite (.bind rel_notePreparation fun _ => ?_) ?_
  all_goals refine .bind rel_chargeOrigin fun _ => ?_
  all_goals refine .ite (.bind rel_chargeStakedEnergy fun _ => ?_) ?_
  all_goals
    refine .bind rel_chargeEnergyFee fun _ => ?_
    refine .ite ?_ ?_
    · refine .bind rel_flush fun _ => ?_
      exact .pure _
    · refine .bind (rel_deleteDestroyed _) fun _ => ?_
      refine .bind rel_flush fun _ => ?_
      exact .pure _

end Tvmjs
