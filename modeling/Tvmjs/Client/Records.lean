import Tvmjs.Base.InsertionMap
import Tvmjs.Util.Account
import Mathlib.Data.Finset.Insert
import Mathlib.Data.Fintype.Defs

/-!
# Records the node keeps beside the state trie

The data types of the client core: per-account records with their stakes, delegation entries,
contract and asset metadata, and the block store.  Amounts are `bigint`s, modelled by `ℤ`; times
are millisecond numbers, modelled by `ℤ`.

An optional field which every reader of the source completes with a default (`?? 0n`, `?? []`) is
modelled by the plain type with that default.  The two registries whose undo steps rely on an
invariant (`AssetRegistry`, `BlockStore`) carry it as a field.
-/

namespace Tvmjs

/-! ### Chain parameters -/

/-- The chain parameters the modelled operations and validators read. -/
structure ChainParameters where
  energyFee : ℤ
  transactionFee : ℤ
  allowMultiSign : ℤ
  allowSameTokenName : ℤ
  allowDelegateResource : ℤ
  allowNewResourceModel : ℤ
  allowCancelAllUnfreezeV2 : ℤ
  allowChangeDelegation : ℤ
  freeNetLimit : ℤ
  totalNetLimit : ℤ
  totalEnergyCurrentLimit : ℤ
  maintenanceTimeIntervalMs : ℤ
  unfreezeDelayDays : ℤ
  checkFrozenTime : ℤ
  minFrozenTime : ℤ
  maxFrozenTime : ℤ
  maxDelegateLockPeriod : ℤ
  witnessPayPerBlock : ℤ
deriving DecidableEq, Repr

/-- Sun in one TRX. -/
def TRX_SUN : ℤ := 1000000

/-! ### Stakes -/

/-- A resource a stake is made for. -/
inductive StakeResource where
  | bandwidth
  | energy
  | tronPower
deriving DecidableEq, Repr

instance : Fintype StakeResource :=
  ⟨{.bandwidth, .energy, .tronPower}, by intro r; cases r <;> decide⟩

/-- A resource which can be delegated: every stake resource but `tronPower`. -/
inductive DelegatableResource where
  | bandwidth
  | energy
deriving DecidableEq, Repr

instance : Fintype DelegatableResource :=
  ⟨{.bandwidth, .energy}, by intro r; cases r <;> decide⟩

/-- A delegatable resource as a stake resource. -/
def DelegatableResource.toStake : DelegatableResource → StakeResource
  | .bandwidth => .bandwidth
  | .energy => .energy

/-- Sun per delegatable resource. -/
@[ext]
structure StakePair where
  bandwidth : ℤ := 0
  energy : ℤ := 0
deriving DecidableEq, Repr

/-- Sun per stake resource. -/
structure FrozenStakePair where
  bandwidth : ℤ := 0
  energy : ℤ := 0
  tronPower : ℤ := 0
deriving DecidableEq, Repr

namespace StakePair

/-- The field `pairField(resource)` names. -/
def field (p : StakePair) : DelegatableResource → ℤ
  | .bandwidth => p.bandwidth
  | .energy => p.energy

/-- `pair[field] += amount`. -/
def add (p : StakePair) (amount : ℤ) : DelegatableResource → StakePair
  | .bandwidth => { p with bandwidth := p.bandwidth + amount }
  | .energy => { p with energy := p.energy + amount }

/-- All the sun of the pair. -/
def total (p : StakePair) : ℤ := p.bandwidth + p.energy

theorem field_add (p : StakePair) (amount : ℤ) (r r' : DelegatableResource) :
    (p.add amount r).field r' = p.field r' + if r = r' then amount else 0 := by
  cases r <;> cases r' <;> simp [add, field]

@[simp] theorem total_add (p : StakePair) (amount : ℤ) (r : DelegatableResource) :
    (p.add amount r).total = p.total + amount := by
  cases r <;> simp only [add, total] <;> omega

end StakePair

namespace FrozenStakePair

/-- The field `pairField(resource)` names. -/
def field (p : FrozenStakePair) : StakeResource → ℤ
  | .bandwidth => p.bandwidth
  | .energy => p.energy
  | .tronPower => p.tronPower

/-- `frozen[field] += amount`. -/
def add (p : FrozenStakePair) (amount : ℤ) : StakeResource → FrozenStakePair
  | .bandwidth => { p with bandwidth := p.bandwidth + amount }
  | .energy => { p with energy := p.energy + amount }
  | .tronPower => { p with tronPower := p.tronPower + amount }

/-- All the sun of the triple. -/
def total (p : FrozenStakePair) : ℤ := p.bandwidth + p.energy + p.tronPower

theorem field_add (p : FrozenStakePair) (amount : ℤ) (r r' : StakeResource) :
    (p.add amount r).field r' = p.field r' + if r = r' then amount else 0 := by
  cases r <;> cases r' <;> simp [add, field]

@[simp] theorem total_add (p : FrozenStakePair) (amount : ℤ) (r : StakeResource) :
    (p.add amount r).total = p.total + amount := by
  cases r <;> simp only [add, total] <;> omega

end FrozenStakePair

/-- A Stake 1.0 balance and the block time at which it may be released. -/
structure LegacyFrozenBalance where
  amount : ℤ
  expireMs : ℤ
deriving DecidableEq, Repr

/-- Stake 1.0 freezes of one account, at most one for each resource. -/
structure LegacyFrozenPair where
  bandwidth : Option LegacyFrozenBalance := none
  energy : Option LegacyFrozenBalance := none
  tronPower : Option LegacyFrozenBalance := none
deriving DecidableEq, Repr

namespace LegacyFrozenPair

/-- The freeze held for a resource. -/
def field (p : LegacyFrozenPair) : StakeResource → Option LegacyFrozenBalance
  | .bandwidth => p.bandwidth
  | .energy => p.energy
  | .tronPower => p.tronPower

/-- `{ ...frozenLegacy, [field]: held }`. -/
def set (p : LegacyFrozenPair) (held : Option LegacyFrozenBalance) :
    StakeResource → LegacyFrozenPair
  | .bandwidth => { p with bandwidth := held }
  | .energy => { p with energy := held }
  | .tronPower => { p with tronPower := held }

/-- `frozenLegacy?.[field]?.amount ?? 0n`. -/
def amount (p : LegacyFrozenPair) (r : StakeResource) : ℤ :=
  ((p.field r).map LegacyFrozenBalance.amount).getD 0

/-- All the sun frozen. -/
def total (p : LegacyFrozenPair) : ℤ :=
  p.amount .bandwidth + p.amount .energy + p.amount .tronPower

theorem amount_set (p : LegacyFrozenPair) (held : Option LegacyFrozenBalance)
    (r r' : StakeResource) :
    (p.set held r).amount r' =
      if r = r' then (held.map LegacyFrozenBalance.amount).getD 0 else p.amount r' := by
  cases r <;> cases r' <;> simp [set, amount, field]

end LegacyFrozenPair

/-- One pending Stake 2.0 unstake. -/
structure UnfrozenV2Entry where
  type : StakeResource
  amount : ℤ
  /-- head-block time the amount becomes withdrawable -/
  expireMs : ℤ
deriving DecidableEq, Repr

/-- Sun one account delegated to another; locked and unlocked amounts have entries of their own. -/
structure DelegationEntry where
  pair : StakePair := {}
  expireBandwidthMs : ℤ := 0
  expireEnergyMs : ℤ := 0
deriving DecidableEq, Repr

/-- One Stake 1.0 delegation; its two resources share the same key. -/
structure LegacyDelegationEntry where
  pair : StakePair := {}
  expireBandwidthMs : ℤ := 0
  expireEnergyMs : ℤ := 0
deriving DecidableEq, Repr

/-! ### Account records -/

/-- A usage reading and the point it was last charged. -/
structure Ledger where
  used : ℤ
  lastMs : ℤ
deriving DecidableEq, Repr

/-- One tranche of an issuance's own supply, locked until its window passes. -/
structure FrozenSupply where
  frozenBalance : ℤ
  expireTime : ℤ
deriving DecidableEq, Repr

/-- A stored permission. -/
structure StoredPermission where
  type : ℕ
  id : ℕ
  permissionName : String
  threshold : ℤ
  parentId : ℕ
  operations : Bytes
  keys : List (Address × ℤ)
deriving DecidableEq

/-- A non-`Normal` account type declared at creation. -/
inductive AccountType where
  | assetIssue
  | contract
deriving DecidableEq, Repr

/-- What the node keeps for one account beside the state trie. -/
structure AccountRecord where
  bandwidth : Option Ledger := none
  assetNet : ℕ → Option Ledger := fun _ => none
  operationAt : Option ℤ := none
  createdIn : Option ℤ := none
  createdAt : Option ℤ := none
  accountType : Option AccountType := none
  name : Option String := none
  allowance : ℤ := 0
  permissions : Option (List StoredPermission) := none
  energyConsumedAt : Option ℤ := none
  frozenSupply : List FrozenSupply := []
  frozenV2 : FrozenStakePair := {}
  frozenV2Order : List StakeResource := []
  frozenLegacy : LegacyFrozenPair := {}
  oldTronPower : ℤ := 0
  unfrozenV2 : List UnfrozenV2Entry := []
  delegatedOut : StakePair := {}
  acquired : StakePair := {}
  delegatedLegacyOut : StakePair := {}
  acquiredLegacy : StakePair := {}
  stakedNet : Option Ledger := none
  energyLedger : Option Ledger := none

/-! ### Contracts, assets and transactions -/

/-- Contract metadata: the fields the core reads or writes. -/
structure ContractMeta where
  name : String
  codeHashed : Bool := false
  originAddress : Option Address := none
  bytecode : String
  consumeUserResourcePercent : ℤ
  originEnergyLimit : ℤ
deriving DecidableEq

/-- TRC-10 issuance metadata: the fields the core reads or writes. -/
structure AssetMeta where
  id : ℕ
  ownerKey : Address
  name : String
  totalSupply : ℤ
  description : String
  url : String
  freeAssetNetLimit : ℤ
  publicFreeAssetNetLimit : ℤ
  publicFreeAssetNetUsage : ℤ
  publicLatestFreeNetTime : ℤ
deriving DecidableEq

/-- `Number(MIN_TOKEN_ID)`. -/
def MIN_TOKEN_ID : ℕ := 1000000

theorem lt_nextId_empty :
    ∀ id ∈ (InsertionMap.empty : InsertionMap ℕ AssetMeta).keys, id < MIN_TOKEN_ID + 1 := by
  simp [InsertionMap.keys, InsertionMap.empty]

/-- The TRC-10 registry: ids allocate upward, so every id issued so far is below `nextId`. -/
structure AssetRegistry where
  byIdMap : InsertionMap ℕ AssetMeta := .empty
  byOwnerMap : InsertionMap Address ℕ := .empty
  nextId : ℕ := MIN_TOKEN_ID + 1
  lt_nextId : ∀ id ∈ byIdMap.keys, id < nextId := by exact lt_nextId_empty

/-- A receipt kept for one transaction id: the block it was sealed into. -/
structure TronTxRecord where
  txid : String
  blockNumber : Option ℤ := none
deriving DecidableEq

/-! ### Blocks -/

/-- A block id: the height in front, then the tail of the raw header hash (`toBlockID`). -/
structure BlockID where
  number : ℤ
  hash : Bytes
deriving DecidableEq

/-- `toBlockID(number, hash)` -/
def toBlockID (number : ℤ) (hash : Bytes) : BlockID := ⟨number, hash.drop 8⟩

/-- The parent id of a block without a parent: all zeros. -/
def GENESIS_PARENT_ID : BlockID := ⟨0, List.replicate 24 0⟩

/-- One sealed block. -/
structure BlockRecord where
  number : ℤ
  blockID : BlockID
  parentBlockID : BlockID
  timestampMs : ℤ
  txs : List TronTxRecord
deriving DecidableEq

theorem le_head_empty :
    ∀ n ∈ (InsertionMap.empty : InsertionMap ℤ BlockRecord).keys, n ≤ -1 := by
  simp [InsertionMap.keys, InsertionMap.empty]

theorem id_stored_empty : ∀ id ∈ (InsertionMap.empty : InsertionMap BlockID BlockRecord).keys,
    ∃ r, (InsertionMap.empty : InsertionMap ℤ BlockRecord).get id.number = some r ∧
      r.blockID = id := by
  simp [InsertionMap.keys, InsertionMap.empty]

/-- The block store.  Heights are dense up to the head, and an id is held for stored blocks
only. -/
structure BlockStore where
  byNumber : InsertionMap ℤ BlockRecord := .empty
  byId : InsertionMap BlockID BlockRecord := .empty
  headNumber : ℤ := -1
  le_head : ∀ n ∈ byNumber.keys, n ≤ headNumber := by
    exact le_head_empty
  id_stored : ∀ id ∈ byId.keys, ∃ r, byNumber.get id.number = some r ∧ r.blockID = id := by
    exact id_stored_empty

end Tvmjs
