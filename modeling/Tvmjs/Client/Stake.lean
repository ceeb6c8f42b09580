import Mathlib.Algebra.Ring.Int.Defs
import Tvmjs.Client.Node

/-!
# Staking operations

Freezing, unfreezing and delegating TRX, in both stake models, and the plain TRX moves beside
them.  The dialect has validated the arguments before any of these runs; `Client/StakeValidation`
holds the validators.
-/

namespace Tvmjs

variable (env : NodeEnv)

/-! ### Readings -/

/-- `head().timestampMs`, which throws before genesis. -/
def headTimestampMs : NodeM ℤ := do
  orTypeError (← read fun c => c.registers.blocks.headTimestamp)

/-- The frozen quota balances that counted as voting power before migration. -/
def quotaTronPowerSun (r : AccountRecord) : ℤ :=
  r.frozenV2.bandwidth + r.frozenV2.energy + r.delegatedOut.bandwidth + r.delegatedOut.energy +
    r.frozenLegacy.amount .bandwidth + r.frozenLegacy.amount .energy +
    r.delegatedLegacyOut.bandwidth + r.delegatedLegacyOut.energy

/-- Initialize the migration snapshot the first freeze or unfreeze observes. -/
def initializeOldTronPower (r : AccountRecord) : AccountRecord :=
  if env.params.allowNewResourceModel = 1 ∧ r.oldTronPower = 0 then
    let current := quotaTronPowerSun r
    { r with oldTronPower := if current = 0 then -1 else current }
  else r

/-- Close the migration: the snapshot is spent. -/
def closeOldTronPower (r : AccountRecord) : AccountRecord :=
  if env.params.allowNewResourceModel = 1 ∧ r.oldTronPower ≠ -1 then { r with oldTronPower := -1 }
  else r

/-- The Stake 2.0 weight one account holds itself or has delegated away. -/
def weightWithDelegated (r : AccountRecord) : StakeResource → ℤ
  | .tronPower => r.frozenV2.tronPower
  | .bandwidth => r.frozenV2.bandwidth + r.delegatedOut.bandwidth
  | .energy => r.frozenV2.energy + r.delegatedOut.energy

/-- The weight total of one resource. -/
def Registers.weight (g : Registers) : StakeResource → ℤ
  | .bandwidth => g.totalNetWeightTrx
  | .energy => g.totalEnergyWeightTrx
  | .tronPower => g.totalTronPowerWeightTrx

/-- The weight total of one resource moved by `delta`. -/
def Registers.addWeight (g : Registers) (delta : ℤ) : StakeResource → Registers
  | .bandwidth => { g with totalNetWeightTrx := g.totalNetWeightTrx + delta }
  | .energy => { g with totalEnergyWeightTrx := g.totalEnergyWeightTrx + delta }
  | .tronPower => { g with totalTronPowerWeightTrx := g.totalTronPowerWeightTrx + delta }

/-- Move the chain-wide weight by the TRX-floor difference a stake operation made. -/
def shiftWeight (resource : StakeResource) (beforeSun afterSun : ℤ) : NodeM Unit := do
  let delta := afterSun.tdiv TRX_SUN - beforeSun.tdiv TRX_SUN
  if delta = 0 then
    pure ()
  else do
    let g ← read Chain.registers
    recordUndo
      (.totalWeights g.totalNetWeightTrx g.totalEnergyWeightTrx g.totalTronPowerWeightTrx)
    setRegisters fun g => g.addWeight delta resource

/-- A ledger's usage as it reads right now. -/
def decayedUsage : Option Ledger → ℤ
  | none => 0
  | some entry => env.usage.windowedUsage entry.used entry.lastMs env.currentTimeMs 0

/-- Staked bandwidth or energy used right now, decayed. -/
def stakedUsedOf (c : Chain) (a : Address) : DelegatableResource → ℤ
  | .bandwidth => decayedUsage env (c.recordOf a).stakedNet
  | .energy => decayedUsage env (c.recordOf a).energyLedger

/-- The usage ledger of one resource, as it reads `used` right now. -/
def setStakedUsed (used : ℤ) (r : AccountRecord) : DelegatableResource → AccountRecord
  | .bandwidth => { r with stakedNet := some ⟨used, env.currentTimeMs⟩ }
  | .energy => { r with energyLedger := some ⟨used, env.currentTimeMs⟩ }

/-! ### Balance moves -/

/-- Read an account that has to exist, change its balance, write it back and flush. -/
def adjustBalance (a : Address) (deltaSun : ℤ) : NodeM Unit := do
  let account ← orTypeError (← getAccount env a)
  putAccount env a { account with balance := account.balance + deltaSun }
  flush env

/-- Stamp an address with the head block time the first time it is written. -/
def noteCreation (a : Address) : NodeM Unit := do
  modifyRecord a id
  if (← read fun c => c.recordOf a).createdAt.isSome then
    pure ()
  else if (← getAccount env a).isSome then
    pure ()
  else do
    let height ← read fun c => c.registers.blocks.headNumber
    let stamp ← if height < 0 then pure 0 else headTimestampMs
    modifyRecord a fun r =>
      { r with
        createdAt := some stamp
        createdIn := some (if height < 0 then 0 else height + 1) }

/-- Burn TRX from an account; false when insufficient. -/
def deductBalance (a : Address) (amountSun : ℤ) : NodeM Bool := do
  match ← getAccount env a with
  | none => pure false
  | some account =>
    if account.balance < amountSun then
      pure false
    else do
      -- every deduction here leaves circulation; refunds credit it back
      Prog.modify fun s =>
        { s with chain := { s.chain with burnedSun := s.chain.burnedSun + amountSun } }
      putAccount env a { account with balance := account.balance - amountSun }
      flush env
      pure true

/-- Give TRX back to an account. -/
def creditBalance (a : Address) (amountSun : ℤ) : NodeM Unit := do
  Prog.modify fun s =>
    { s with chain := { s.chain with burnedSun := s.chain.burnedSun - amountSun } }
  noteCreation env a
  touchAccount env a
  adjustBalance env a amountSun

/-- Move TRX between accounts; false when insufficient. -/
def moveBalance (sender recipient : Address) (amountSun : ℤ) : NodeM Bool := do
  match ← getAccount env sender with
  | none => pure false
  | some fromAccount =>
    if fromAccount.balance < amountSun ∨ amountSun < 0 then
      pure false
    else do
      putAccount env sender { fromAccount with balance := fromAccount.balance - amountSun }
      touchAccount env recipient
      adjustBalance env recipient amountSun
      pure true

/-! ### Stake 2.0: freezing -/

/-- The owner's record after a Stake 2.0 freeze. -/
def AccountRecord.freeze (r : AccountRecord) (amountSun : ℤ) (resource : StakeResource) :
    AccountRecord :=
  let r := initializeOldTronPower env r
  { r with
    frozenV2 := r.frozenV2.add amountSun resource
    frozenV2Order :=
      if resource ∈ r.frozenV2Order then r.frozenV2Order else r.frozenV2Order ++ [resource] }

/-- Move balance into a Stake 2.0 freeze. -/
def freezeV2 (owner : Address) (amountSun : ℤ) (resource : StakeResource) : NodeM Unit := do
  adjustBalance env owner (-amountSun)
  let before ← read fun c => weightWithDelegated (c.recordOf owner) resource
  modifyRecord owner fun r => r.freeze env amountSun resource
  shiftWeight resource before (before + amountSun)

/-- The pending unstakes of `l` which have matured at `nowMs`. -/
def matured (l : List UnfrozenV2Entry) (nowMs : ℤ) : List UnfrozenV2Entry :=
  l.filter fun entry => entry.expireMs ≤ nowMs

/-- The pending unstakes of `l` which are still running at `nowMs`. -/
def unmatured (l : List UnfrozenV2Entry) (nowMs : ℤ) : List UnfrozenV2Entry :=
  l.filter fun entry => nowMs < entry.expireMs

/-- The sun of a list of pending unstakes. -/
def unfrozenTotal (l : List UnfrozenV2Entry) : ℤ := (l.map UnfrozenV2Entry.amount).sum

/-- Matured pending unstakes go back to the balance; the sun credited. -/
def claimExpiredUnfrozen (owner : Address) (nowMs : ℤ) : NodeM ℤ := do
  modifyRecord owner id
  let pending := (← read fun c => c.recordOf owner).unfrozenV2
  if matured pending nowMs = [] then
    pure 0
  else do
    modifyRecord owner fun r => { r with unfrozenV2 := unmatured pending nowMs }
    let total := unfrozenTotal (matured pending nowMs)
    adjustBalance env owner total
    pure total

/-- Milliseconds in a day. -/
def DAY_MS : ℤ := 86400000

/-- The owner's record after a Stake 2.0 unstake began. -/
def AccountRecord.unfreeze (r : AccountRecord) (amountSun : ℤ) (resource : StakeResource)
    (expireMs : ℤ) : AccountRecord :=
  let r := initializeOldTronPower env r
  { r with
    frozenV2 := r.frozenV2.add (-amountSun) resource
    unfrozenV2 := r.unfrozenV2 ++ [⟨resource, amountSun, expireMs⟩] }

/-- Begin a Stake 2.0 unstake; matured ones settle on the way. -/
def unfreezeV2 (owner : Address) (amountSun : ℤ) (resource : StakeResource) : NodeM ℤ := do
  let nowMs ← headTimestampMs
  let withdrawn ← claimExpiredUnfrozen env owner nowMs
  let before ← read fun c => weightWithDelegated (c.recordOf owner) resource
  let expireMs := nowMs + env.params.unfreezeDelayDays * DAY_MS
  modifyRecord owner fun r => r.unfreeze env amountSun resource expireMs
  shiftWeight resource before (before - amountSun)
  modifyRecord owner (closeOldTronPower env)
  pure withdrawn

/-- Settle every matured unstake into the balance. -/
def withdrawExpiredUnfreeze (owner : Address) : NodeM ℤ := do
  claimExpiredUnfrozen env owner (← headTimestampMs)

/-- The sun `l` holds for one resource. -/
def canceled (l : List UnfrozenV2Entry) (resource : StakeResource) : ℤ :=
  unfrozenTotal (l.filter fun entry => entry.type = resource)

/-- One resource's cancelled unstakes return to its freeze, weight included. -/
def returnCanceled (owner : Address) (back : ℤ) (resource : StakeResource) : NodeM Unit := do
  if back = 0 then
    pure ()
  else do
    let before ← read fun c => weightWithDelegated (c.recordOf owner) resource
    modifyRecord owner fun r => { r with frozenV2 := r.frozenV2.add back resource }
    shiftWeight resource before (before + back)

/-- Take back every pending unstake: matured amounts settle into the balance, the rest return to
their freezes. -/
def cancelAllUnfreezeV2 (owner : Address) : NodeM (ℤ × (StakeResource → ℤ)) := do
  let nowMs ← headTimestampMs
  let withdrawnSun ← claimExpiredUnfrozen env owner nowMs
  let pending := (← read fun c => c.recordOf owner).unfrozenV2
  modifyRecord owner fun r => { r with unfrozenV2 := [] }
  returnCanceled owner (canceled pending .bandwidth) .bandwidth
  returnCanceled owner (canceled pending .energy) .energy
  returnCanceled owner (canceled pending .tronPower) .tronPower
  pure (withdrawnSun, canceled pending)

/-! ### Stake 1.0 -/

/-- The Stake 1.0 entry of a pair, empty where there is none. -/
def Chain.legacyDelegation (c : Chain) (owner receiver : Address) : LegacyDelegationEntry :=
  ((c.table .legacyDelegations).get (owner, receiver)).getD {}

/-- Write one Stake 1.0 delegation entry, absent meaning removal. -/
def putLegacyDelegation (key : Address × Address) : Option LegacyDelegationEntry → NodeM Unit
  | none => writeTable .legacyDelegations (.delete key)
  | some entry => writeTable .legacyDelegations (.set key entry)

/-- Record the most recent delegation time for the legacy account index. -/
def noteLegacyPair (owner receiver : Address) : NodeM Unit := do
  let timestampMs ← headTimestampMs
  writeTable .legacyDelegationPairs (.set (owner, receiver) timestampMs)

/-- The pair leaves the old account index after its last resource is released. -/
def dropLegacyPairIfEmpty (owner receiver : Address) : NodeM Unit := do
  if ← read fun c => (c.table .legacyDelegations).has (owner, receiver) then
    pure ()
  else
    removeFrom .legacyDelegationPairs (owner, receiver)

/-- `[field]: entry[field] + amount`, the expiry of the same resource set. -/
def LegacyDelegationEntry.grow (e : LegacyDelegationEntry) (amountSun expireMs : ℤ)
    (resource : DelegatableResource) : LegacyDelegationEntry :=
  match resource with
  | .bandwidth => { e with pair := e.pair.add amountSun .bandwidth, expireBandwidthMs := expireMs }
  | .energy => { e with pair := e.pair.add amountSun .energy, expireEnergyMs := expireMs }

/-- `[field]: 0n`, the expiry of the same resource cleared. -/
def LegacyDelegationEntry.clear (e : LegacyDelegationEntry) (resource : DelegatableResource) :
    LegacyDelegationEntry :=
  match resource with
  | .bandwidth => { e with pair := { e.pair with bandwidth := 0 }, expireBandwidthMs := 0 }
  | .energy => { e with pair := { e.pair with energy := 0 }, expireEnergyMs := 0 }

/-- The delegated branch of a Stake 1.0 operation: a receiver is meaningful only while resource
delegation is enabled, and voting power is never delegated. -/
def legacyTarget (resource : StakeResource) (receiver : Option Address) :
    Option (Address × DelegatableResource) :=
  match receiver, resource with
  | some target, .bandwidth =>
    if env.params.allowDelegateResource = 1 then some (target, .bandwidth) else none
  | some target, .energy =>
    if env.params.allowDelegateResource = 1 then some (target, .energy) else none
  | _, _ => none

/-- Move balance into a Stake 1.0 freeze, for oneself or delegated to a receiver. -/
def freezeLegacy (owner : Address) (amountSun : ℤ) (resource : StakeResource)
    (durationDays : ℤ) (receiver : Option Address) : NodeM Unit := do
  adjustBalance env owner (-amountSun)
  modifyRecord owner (initializeOldTronPower env)
  let expireMs := (← headTimestampMs) + durationDays * DAY_MS
  match legacyTarget env resource receiver with
  | some (target, field) => do
    let existing ← read fun c => c.legacyDelegation owner target
    putLegacyDelegation (owner, target) (some (existing.grow amountSun expireMs field))
    noteLegacyPair owner target
    modifyRecord owner fun r =>
      { r with delegatedLegacyOut := r.delegatedLegacyOut.add amountSun field }
    let weightBefore := (← read fun c => c.recordOf target).acquiredLegacy.field field
    modifyRecord target fun r =>
      { r with acquiredLegacy := r.acquiredLegacy.add amountSun field }
    shiftWeight resource weightBefore (weightBefore + amountSun)
  | none => do
    let weightBefore := (← read fun c => c.recordOf owner).frozenLegacy.amount resource
    modifyRecord owner fun r =>
      { r with
        frozenLegacy := r.frozenLegacy.set (some ⟨weightBefore + amountSun, expireMs⟩) resource }
    shiftWeight resource weightBefore (weightBefore + amountSun)

/-- `{ ...acquired, [field]: value }` as a difference to the value held. -/
def StakePair.setField (p : StakePair) (value : ℤ) (field : DelegatableResource) : StakePair :=
  p.add (value - p.field field) field

/-- The delegated branch of `unfreezeLegacy`: the pair's entry is released, and the receiver's
acquired amount shrinks with it.  Returns the amount and the weight it counted with. -/
def releaseLegacyDelegation (owner target : Address) (field : DelegatableResource) :
    NodeM (ℤ × ℤ) := do
  let existing ← orTypeError (← read fun c => (c.table .legacyDelegations).get (owner, target))
  let amount := existing.pair.field field
  let next := existing.clear field
  putLegacyDelegation (owner, target)
    (if next.pair.bandwidth = 0 ∧ next.pair.energy = 0 then none else some next)
  dropLegacyPairIfEmpty owner target
  modifyRecord owner fun r =>
    { r with delegatedLegacyOut := r.delegatedLegacyOut.add (-amount) field }
  let receiverAccount ← getAccount env target
  let type ← read fun c => c.accountTypeOf target
  if receiverAccount.isSome ∧ type ≠ some .contract then do
    let held := (← read fun c => c.recordOf target).acquiredLegacy.field field
    -- legacy claims can outlive the receiver's original account record
    let weightBefore := if held < amount then amount else held
    modifyRecord target fun r =>
      { r with acquiredLegacy := r.acquiredLegacy.setField (weightBefore - amount) field }
    pure (amount, weightBefore)
  else
    pure (amount, amount)

/-- The local branch of `unfreezeLegacy`. -/
def releaseLegacyFrozen (owner : Address) (resource : StakeResource) : NodeM (ℤ × ℤ) := do
  let amount := (← read fun c => c.recordOf owner).frozenLegacy.amount resource
  modifyRecord owner fun r => { r with frozenLegacy := r.frozenLegacy.set none resource }
  pure (amount, amount)

/-- Release a matured Stake 1.0 freeze, local or delegated. -/
def unfreezeLegacy (owner : Address) (resource : StakeResource) (receiver : Option Address) :
    NodeM ℤ := do
  modifyRecord owner (initializeOldTronPower env)
  let (amount, weightBefore) ←
    match legacyTarget env resource receiver with
    | some (target, field) => releaseLegacyDelegation env owner target field
    | none => releaseLegacyFrozen owner resource
  adjustBalance env owner amount
  shiftWeight resource weightBefore (weightBefore - amount)
  modifyRecord owner (closeOldTronPower env)
  pure amount

/-! ### Stake 2.0: delegation -/

/-- The expiry of one resource's amount. -/
def DelegationEntry.expireMs (e : DelegationEntry) : DelegatableResource → ℤ
  | .bandwidth => e.expireBandwidthMs
  | .energy => e.expireEnergyMs

/-- Write one delegation entry, absent meaning removal. -/
def putDelegation (key : Address × Address × Bool) : Option DelegationEntry → NodeM Unit
  | none => writeTable .delegations (.delete key)
  | some entry => writeTable .delegations (.set key entry)

/-- Merge a pair's expired locked amounts into its unlocked entry. -/
def unlockExpiredDelegation (owner receiver : Address) (nowMs : ℤ) : NodeM Unit := do
  match ← read fun c => (c.table .delegations).get (owner, receiver, true) with
  | none => pure ()
  | some locked =>
    let moveBandwidth := if locked.expireBandwidthMs ≤ nowMs then locked.pair.bandwidth else 0
    let moveEnergy := if locked.expireEnergyMs ≤ nowMs then locked.pair.energy else 0
    if moveBandwidth = 0 ∧ moveEnergy = 0 then
      pure ()
    else do
      let remaining : DelegationEntry :=
        { pair := ⟨locked.pair.bandwidth - moveBandwidth, locked.pair.energy - moveEnergy⟩
          expireBandwidthMs := if moveBandwidth > 0 then 0 else locked.expireBandwidthMs
          expireEnergyMs := if moveEnergy > 0 then 0 else locked.expireEnergyMs }
      putDelegation (owner, receiver, true)
        (if remaining.pair.bandwidth = 0 ∧ remaining.pair.energy = 0 then none
          else some remaining)
      let unlocked :=
        (← read fun c => (c.table .delegations).get (owner, receiver, false)).getD {}
      putDelegation (owner, receiver, false)
        (some { unlocked with
          pair := ⟨unlocked.pair.bandwidth + moveBandwidth, unlocked.pair.energy + moveEnergy⟩ })

/-- Record the most recent delegation time for the V2 account index. -/
def notePair (owner receiver : Address) : NodeM Unit := do
  let timestampMs ← headTimestampMs
  writeTable .delegationPairs (.set (owner, receiver) timestampMs)

/-- The pair leaves the index once neither entry holds anything. -/
def dropPairIfEmpty (owner receiver : Address) : NodeM Unit := do
  if ← read fun c => (c.table .delegations).has (owner, receiver, false) then
    pure ()
  else if ← read fun c => (c.table .delegations).has (owner, receiver, true) then
    pure ()
  else
    removeFrom .delegationPairs (owner, receiver)

/-- Blocks a locked delegation runs for when the request states no period. -/
def DEFAULT_DELEGATE_LOCK_BLOCKS : ℤ := 86400

/-- Block cadence in milliseconds. -/
def BLOCK_INTERVAL_MS : ℤ := 3000

/-- The entry after a delegation of `amountSun`: a locked one carries the new expiry. -/
def DelegationEntry.grow (e : DelegationEntry) (amountSun : ℤ) (lock : Bool) (expireMs : ℤ)
    (resource : DelegatableResource) : DelegationEntry :=
  match resource with
  | .bandwidth =>
    { e with
      pair := e.pair.add amountSun .bandwidth
      expireBandwidthMs := if lock then expireMs else e.expireBandwidthMs }
  | .energy =>
    { e with
      pair := e.pair.add amountSun .energy
      expireEnergyMs := if lock then expireMs else e.expireEnergyMs }

/-- Delegate frozen sun to another account. -/
def delegateResource (owner receiver : Address) (amountSun : ℤ) (resource : DelegatableResource)
    (lock : Bool) (lockPeriodBlocks : ℤ) : NodeM Unit := do
  let nowMs ← headTimestampMs
  unlockExpiredDelegation owner receiver nowMs
  let held := (← read fun c => (c.table .delegations).get (owner, receiver, lock)).getD {}
  let expireMs :=
    if lock then
      nowMs + (if lockPeriodBlocks = 0 then DEFAULT_DELEGATE_LOCK_BLOCKS else lockPeriodBlocks) *
        BLOCK_INTERVAL_MS
    else 0
  putDelegation (owner, receiver, lock) (some (held.grow amountSun lock expireMs resource))
  notePair owner receiver
  -- the owner's weight travels with the delegation, so the totals sit still
  modifyRecord owner fun r =>
    { r with
      frozenV2 := r.frozenV2.add (-amountSun) resource.toStake
      delegatedOut := r.delegatedOut.add amountSun resource }
  modifyRecord receiver fun r => { r with acquired := r.acquired.add amountSun resource }

/-- The usage that travels back with `amountSun` of the receiver's weight. -/
def transferUsageOf (c : Chain) (receiver : Address) (amountSun acquired : ℤ)
    (resource : DelegatableResource) : ℤ :=
  let limit := match resource with
    | .bandwidth => env.params.totalNetLimit
    | .energy => env.params.totalEnergyCurrentLimit
  let weight := c.registers.weight resource.toStake
  let maxUsage := if weight = 0 then 0 else env.usage.maxUsage amountSun limit weight
  let allFrozen := (c.recordOf receiver).frozenV2.field resource.toStake + acquired
  let transferUsage :=
    if allFrozen = 0 then 0
    else env.usage.transferUsage (stakedUsedOf env c receiver resource) amountSun allFrozen
  min maxUsage transferUsage

/-- The receiver's side of an undelegation: the acquired amount shrinks, and usage travels back.
Returns the usage that travels. -/
def releaseAcquired (receiver : Address) (amountSun : ℤ) (resource : DelegatableResource) :
    NodeM ℤ := do
  let acquired := (← read fun c => c.recordOf receiver).acquired.field resource
  let transferUsage ← read fun c =>
    if acquired < amountSun then 0
    else transferUsageOf env c receiver amountSun acquired resource
  let receiverUsage ← read fun c => stakedUsedOf env c receiver resource
  modifyRecord receiver fun r =>
    let left := if acquired < amountSun then 0 else acquired - amountSun
    setStakedUsed env (max 0 (receiverUsage - transferUsage))
      { r with acquired := r.acquired.setField left resource } resource
  pure transferUsage

/-- The pair's unlocked entry shrinks; an entry left empty is removed. -/
def shrinkUnlocked (owner receiver : Address) (amountSun : ℤ) (resource : DelegatableResource) :
    NodeM Unit := do
  match ← read fun c => (c.table .delegations).get (owner, receiver, false) with
  | none => pure ()
  | some unlocked =>
    let entry := { unlocked with pair := unlocked.pair.add (-amountSun) resource }
    putDelegation (owner, receiver, false)
      (if entry.pair.bandwidth = 0 ∧ entry.pair.energy = 0 ∧ entry.expireBandwidthMs = 0 ∧
          entry.expireEnergyMs = 0 then none
        else some entry)

/-- Usage which came back joins the owner's ledger. -/
def addOwnerUsage (owner : Address) (transferUsage : ℤ) (resource : DelegatableResource) :
    NodeM Unit := do
  if transferUsage > 0 then do
    let ownerUsage ← read fun c => stakedUsedOf env c owner resource
    modifyRecord owner fun r => setStakedUsed env (ownerUsage + transferUsage) r resource
  else
    pure ()

/-- Take a delegation back; the receiver's usage travels with it in proportion. -/
def undelegateResource (owner receiver : Address) (amountSun : ℤ)
    (resource : DelegatableResource) : NodeM Unit := do
  let nowMs ← headTimestampMs
  let transferUsage ← releaseAcquired env receiver amountSun resource
  unlockExpiredDelegation owner receiver nowMs
  shrinkUnlocked owner receiver amountSun resource
  dropPairIfEmpty owner receiver
  modifyRecord owner fun r =>
    { r with
      delegatedOut := r.delegatedOut.add (-amountSun) resource
      frozenV2 := r.frozenV2.add amountSun resource.toStake }
  addOwnerUsage env owner transferUsage resource

end Tvmjs
