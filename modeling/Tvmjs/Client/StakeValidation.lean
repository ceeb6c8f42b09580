import Tvmjs.Client.Stake

/-!
# Staking requests and their validators

What the dialect checks before a staking operation runs, with the texts it answers.  A request is
the parsed form of a contract: amounts through `amountOf`, resources through `resourceOf` (where
an unknown name is `none`), addresses through `tryParseTronAddress`.

A validator judges the chain after billing and returns the refusal, if any; `StakeRequest.apply`
is validation followed by the state operation.
-/

namespace Tvmjs

/-- The lower-case hexadecimal digits of `n`, at least `width` of them. -/
def hexPadded (width n : ℕ) : String :=
  let digits := Nat.toDigits 16 n
  String.ofList (List.replicate (width - digits.length) '0' ++ digits)

/-- An address in the 41-prefixed hexadecimal form. -/
def toTronHex (a : Address) : String := "41" ++ hexPadded 40 a.val

/-- The wording the freeze, delegate, withdraw and cancel actuators use. -/
def accountNotExists (a : Address) : String := "Account[" ++ toTronHex a ++ "] not exists"

/-- The same lookup, in the wording both unstake actuators and undelegate use. -/
def accountDoesNotExist (a : Address) : String := "Account[" ++ toTronHex a ++ "] does not exist"

/-- The receiver field of a Stake 1.0 request. -/
inductive ReceiverField where
  | absent
  | invalid
  | address (a : Address)
deriving DecidableEq

/-- A staking contract as the dialect has parsed it. -/
inductive StakeRequest where
  | freezeBalanceV2Contract (caller : Address) (amount : ℤ) (resource : Option StakeResource)
  | unfreezeBalanceV2Contract (caller : Address) (amount : ℤ) (resource : Option StakeResource)
  | withdrawExpireUnfreezeContract (caller : Address)
  | cancelAllUnfreezeV2Contract (caller : Address)
  | delegateResourceContract (caller : Address) (receiver : Option Address) (amount : ℤ)
      (resource : Option StakeResource) (lock : Bool) (statedPeriod : ℤ)
  | unDelegateResourceContract (caller : Address) (receiver : Option Address) (amount : ℤ)
      (resource : Option StakeResource)
  | freezeBalanceContract (caller : Address) (amount duration : ℤ) (resource : Option StakeResource)
      (receiver : ReceiverField)
  | unfreezeBalanceContract (caller : Address) (resource : Option StakeResource)
      (receiver : ReceiverField)

variable (env : NodeEnv)

/-- Slots one account's pending unstakes may occupy. -/
def UNFREEZE_MAX_TIMES : ℕ := 32

/-- The lock-period field is active only once the configured maximum exceeds the original
three-day period. -/
def supportsMaxDelegateLockPeriod : Bool :=
  env.params.maxDelegateLockPeriod > DEFAULT_DELEGATE_LOCK_BLOCKS ∧
    env.params.unfreezeDelayDays > 0

/-- Proposal gates the stake families are judged by before any contract field is examined. -/
def transactionActivationError : StakeRequest → Option String
  | .delegateResourceContract .. =>
    if env.params.allowDelegateResource ≠ 1 then some "No support for resource delegate"
    else if env.params.unfreezeDelayDays ≤ 0 then
      some "Not support Delegate resource transaction, need to be opened by the committee"
    else none
  | .unDelegateResourceContract .. =>
    if env.params.allowDelegateResource ≠ 1 then some "No support for resource delegate"
    else if env.params.unfreezeDelayDays ≤ 0 then
      some "Not support unDelegate resource transaction, need to be opened by the committee"
    else none
  | .cancelAllUnfreezeV2Contract .. =>
    if env.params.allowCancelAllUnfreezeV2 = 1 ∧ env.params.unfreezeDelayDays > 0 then none
    else some "Not support CancelAllUnfreezeV2 transaction, need to be opened by the committee"
  | .freezeBalanceV2Contract .. =>
    if env.params.unfreezeDelayDays > 0 then none
    else some "Not support FreezeV2 transaction, need to be opened by the committee"
  | .unfreezeBalanceV2Contract .. =>
    if env.params.unfreezeDelayDays > 0 then none
    else some "Not support UnfreezeV2 transaction, need to be opened by the committee"
  | .withdrawExpireUnfreezeContract .. =>
    if env.params.unfreezeDelayDays > 0 then none
    else some
      "Not support WithdrawExpireUnfreeze transaction, need to be opened by the committee"
  | .freezeBalanceContract .. => none
  | .unfreezeBalanceContract .. => none

/-- What `head()` throws before genesis. -/
def emptyBlockStore : String := "block store is empty (genesis not sealed yet)"

/-- Usage share in sun that one resource's decayed usage pins down. -/
def usageAsSun (c : Chain) (usage : ℤ) (resource : DelegatableResource) : ℤ :=
  let limit := match resource with
    | .bandwidth => env.params.totalNetLimit
    | .energy => env.params.totalEnergyCurrentLimit
  let weight := c.registers.weight resource.toStake
  if weight = 0 ∨ usage ≤ 0 then 0
  else if limit = 0 then INT64_MAX
  else env.usage.usageShare usage weight limit

/-- Sun still delegatable from one resource's own stake: the frozen balance less the share current
usage keeps occupied. -/
def delegatableSun (c : Chain) (owner : Address) (resource : DelegatableResource) : ℤ :=
  let own := (c.recordOf owner).frozenV2.field resource.toStake
  let usageSun := usageAsSun env c (stakedUsedOf env c owner resource) resource
  let occupied := usageSun - (c.recordOf owner).acquired.field resource
  own - max occupied 0

/-- A resource code as a delegatable resource. -/
def StakeResource.toDelegatable : StakeResource → Option DelegatableResource
  | .bandwidth => some .bandwidth
  | .energy => some .energy
  | .tronPower => none

/-- The refusal of a resource a Stake request may not name, in the freeze actuators' wording. -/
def resourceCodeError : String :=
  if env.params.allowNewResourceModel = 1 then
    "ResourceCode error, valid ResourceCode[BANDWIDTH、ENERGY、TRON_POWER]"
  else "ResourceCode error, valid ResourceCode[BANDWIDTH、ENERGY]"

/-- The same refusal in the unfreeze actuators' wording. -/
def unfreezeResourceCodeError : String :=
  if env.params.allowNewResourceModel = 1 then
    "ResourceCode error.valid ResourceCode[BANDWIDTH、Energy、TRON_POWER]"
  else "ResourceCode error.valid ResourceCode[BANDWIDTH、Energy]"

/-- `adaptFreezeBalanceV2(…).validate` -/
def validateFreezeBalanceV2 (c : Chain) (caller : Address) (amount : ℤ)
    (resource : Option StakeResource) : Option String :=
  if (c.account caller).isNone then some (accountNotExists caller)
  else if amount ≤ 0 then some "frozenBalance must be positive"
  else if amount < 1000000 then some "frozenBalance must be greater than or equal to 1 TRX"
  else if c.balanceOf caller < amount then
    some "frozenBalance must be less than or equal to accountBalance"
  else match resource with
    | none => some (resourceCodeError env)
    | some .tronPower =>
      if env.params.allowNewResourceModel ≠ 1 then
        some "ResourceCode error, valid ResourceCode[BANDWIDTH、ENERGY]"
      else none
    | some _ => none

/-- The refusal of an unfreeze whose resource holds no freeze. -/
def noFrozenBalance : StakeResource → String
  | .bandwidth => "no frozenBalance(BANDWIDTH)"
  | .energy => "no frozenBalance(Energy)"
  | .tronPower => "no frozenBalance(TronPower)"

/-- `adaptUnfreezeBalanceV2(…).validate` -/
def validateUnfreezeBalanceV2 (c : Chain) (caller : Address) (amount : ℤ)
    (resource : Option StakeResource) : Option String :=
  if (c.account caller).isNone then some (accountDoesNotExist caller)
  else match resource with
    | none => some (unfreezeResourceCodeError env)
    | some resource =>
      let held := (c.recordOf caller).frozenV2.field resource
      if resource = .tronPower ∧ env.params.allowNewResourceModel ≠ 1 then
        some "ResourceCode error.valid ResourceCode[BANDWIDTH、Energy]"
      else if held ≤ 0 then some (noFrozenBalance resource)
      else if amount ≤ 0 ∨ held < amount then
        some ("Invalid unfreeze_balance, [" ++ toString amount ++ "] is error")
      else match c.registers.blocks.headTimestamp with
        | none => some emptyBlockStore
        | some nowMs =>
          if (unmatured (c.recordOf caller).unfrozenV2 nowMs).length ≥ UNFREEZE_MAX_TIMES then
            some "Invalid unfreeze operation, unfreezing times is over limit"
          else none

/-- `adaptWithdrawExpireUnfreeze(…).validate`; the wording carries its trailing space. -/
def validateWithdrawExpireUnfreeze (c : Chain) (caller : Address) : Option String :=
  if (c.account caller).isNone then some (accountNotExists caller)
  else match c.registers.blocks.headTimestamp with
    | none => some emptyBlockStore
    | some nowMs =>
      let withdrawable := unfrozenTotal (matured (c.recordOf caller).unfrozenV2 nowMs)
      if withdrawable ≤ 0 then some "no unFreeze balance to withdraw "
      else if INT64_MAX < c.balanceOf caller + withdrawable then some "long overflow"
      else none

/-- `adaptCancelAllUnfreezeV2(…).validate` -/
def validateCancelAllUnfreezeV2 (c : Chain) (caller : Address) : Option String :=
  if (c.account caller).isNone then some (accountNotExists caller)
  else if (c.recordOf caller).unfrozenV2 = [] then some "No unfreezeV2 list to cancel"
  else none

/-- Whether an entry holds nothing at all; such entries are left out of a pair's entries. -/
def DelegationEntry.isEmpty (e : DelegationEntry) : Bool :=
  e.pair.bandwidth = 0 ∧ e.pair.energy = 0 ∧ e.expireBandwidthMs = 0 ∧ e.expireEnergyMs = 0

/-- `delegationEntriesOf`: both entries of one pair, unlocked first, each with its lock flag. -/
def delegationEntriesOf (c : Chain) (owner receiver : Address) : List (Bool × DelegationEntry) :=
  [false, true].filterMap fun locked =>
    match (c.table .delegations).get (owner, receiver, locked) with
    | none => none
    | some held => if held.isEmpty then none else some (locked, held)

/-- The name of a resource in the lock-period refusal. -/
def DelegatableResource.name : DelegatableResource → String
  | .bandwidth => "BANDWIDTH"
  | .energy => "ENERGY"

/-- The lock period a delegation runs for. -/
def lockPeriodOf (statedPeriod : ℤ) : ℤ :=
  if supportsMaxDelegateLockPeriod env then
    if statedPeriod = 0 then DEFAULT_DELEGATE_LOCK_BLOCKS else statedPeriod
  else DEFAULT_DELEGATE_LOCK_BLOCKS

/-- The lock-period part of the delegate validator. -/
def lockPeriodError (c : Chain) (caller receiver : Address) (resource : DelegatableResource)
    (lock : Bool) (statedPeriod : ℤ) : Option String :=
  if lock ∧ supportsMaxDelegateLockPeriod env then
    let lockPeriod := lockPeriodOf env statedPeriod
    let max := env.params.maxDelegateLockPeriod
    if lockPeriod < 0 ∨ max < lockPeriod then
      some ("The lock period of delegate resource cannot be less than 0 and cannot exceed " ++
        toString max ++ "!")
    else match c.registers.blocks.headTimestamp with
      | none => some emptyBlockStore
      | some nowMs =>
        match (delegationEntriesOf c caller receiver).find? fun e => e.1 with
        | none => none
        | some (_, locked) =>
          let remain := locked.expireMs resource - nowMs
          if lockPeriod * 3000 < remain then
            some ("The lock period for " ++ resource.name ++
              " this time cannot be less than the remaining time[" ++ toString remain ++
              "ms] of the last lock period for " ++ resource.name ++ "!")
          else none
  else none

/-- `adaptDelegateResource(…).validate` outside a build. -/
def validateDelegateResource (c : Chain) (caller : Address) (receiver : Option Address)
    (amount : ℤ) (resource : Option StakeResource) (lock : Bool) (statedPeriod : ℤ) :
    Option String :=
  if (c.account caller).isNone then some (accountNotExists caller)
  else if amount < 1000000 then some "delegateBalance must be greater than or equal to 1 TRX"
  else match resource.bind StakeResource.toDelegatable with
    | none => some "ResourceCode error, valid ResourceCode[BANDWIDTH、ENERGY]"
    | some resource =>
      if delegatableSun env c caller resource < amount then
        some (match resource with
          | .bandwidth =>
            "delegateBalance must be less than or equal to available FreezeBandwidthV2 balance"
          | .energy =>
            "delegateBalance must be less than or equal to available FreezeEnergyV2 balance")
      else match receiver with
        | none => some "Invalid receiverAddress"
        | some receiver =>
          if receiver = caller then some "receiverAddress must not be the same as ownerAddress"
          else if (c.account receiver).isNone then some (accountNotExists receiver)
          else match lockPeriodError env c caller receiver resource lock statedPeriod with
            | some message => some message
            | none =>
              if c.accountTypeOf receiver = some .contract then
                some "Do not allow delegate resources to contract addresses"
              else none

/-- What an undelegation may take: unlocked amounts, and locked ones past their expiry. -/
def undelegatable (c : Chain) (owner receiver : Address) (resource : DelegatableResource)
    (nowMs : ℤ) : ℤ :=
  ((delegationEntriesOf c owner receiver).map fun e =>
    if !e.1 ∨ e.2.expireMs resource < nowMs then e.2.pair.field resource else 0).sum

/-- `adaptUnDelegateResource(…).validate` -/
def validateUnDelegateResource (c : Chain) (caller : Address) (receiver : Option Address)
    (amount : ℤ) (resource : Option StakeResource) : Option String :=
  if (c.account caller).isNone then some (accountDoesNotExist caller)
  else match receiver with
    | none => some "Invalid receiverAddress"
    | some receiver =>
      if receiver = caller then some "receiverAddress must not be the same as ownerAddress"
      else if delegationEntriesOf c caller receiver = [] then
        some "delegated Resource does not exist"
      else if amount ≤ 0 then some "unDelegateBalance must be more than 0 TRX"
      else match c.registers.blocks.headTimestamp with
        | none => some emptyBlockStore
        | some nowMs =>
          match resource.bind StakeResource.toDelegatable with
          | none => some "ResourceCode error.valid ResourceCode[BANDWIDTH、Energy]"
          | some resource =>
            let available := undelegatable c caller receiver resource nowMs
            if available < amount then
              some ((match resource with
                  | .bandwidth => "insufficient delegatedFrozenBalance(BANDWIDTH), request="
                  | .energy => "insufficient delegateFrozenBalance(Energy), request=") ++
                toString amount ++ ", unlock_balance=" ++ toString available)
            else none

/-- `adaptFreezeBalance(…).validate` -/
def validateFreezeBalance (c : Chain) (caller : Address) (amount duration : ℤ)
    (resource : Option StakeResource) (receiver : ReceiverField) : Option String :=
  let closed :=
    if env.params.unfreezeDelayDays > 0 then some "freeze v2 is open, old freeze is closed"
    else none
  if (c.account caller).isNone then some (accountNotExists caller)
  else if amount ≤ 0 then some "frozenBalance must be positive"
  else if amount < 1000000 then some "frozenBalance must be greater than or equal to 1 TRX"
  else if c.balanceOf caller < amount then
    some "frozenBalance must be less than or equal to accountBalance"
  else if env.params.checkFrozenTime = 1 ∧
      (duration < env.params.minFrozenTime ∨ env.params.maxFrozenTime < duration) then
    some ("frozenDuration must be less than " ++ toString env.params.maxFrozenTime ++
      " days and more than " ++ toString env.params.minFrozenTime ++ " days")
  else match resource with
    | none => some (resourceCodeError env)
    | some resource =>
      if resource = .tronPower ∧ env.params.allowNewResourceModel ≠ 1 then
        some "ResourceCode error, valid ResourceCode[BANDWIDTH、ENERGY]"
      else if resource = .tronPower ∧ receiver ≠ .absent then
        some "TRON_POWER is not allowed to delegate to other accounts."
      else if env.params.allowDelegateResource = 1 then
        match receiver with
        | .absent => closed
        | .invalid => some "Invalid receiverAddress"
        | .address receiver =>
          if receiver = caller then some "receiverAddress must not be the same as ownerAddress"
          else if (c.account receiver).isNone then some (accountNotExists receiver)
          else if c.accountTypeOf receiver = some .contract then
            some "Do not allow delegate resources to contract addresses"
          else closed
      else closed

/-- The refusal of a Stake 1.0 freeze that has not expired. -/
def notTimeToUnfreeze : StakeResource → String
  | .bandwidth => "It's not time to unfreeze(BANDWIDTH)."
  | .energy => "It's not time to unfreeze(Energy)."
  | .tronPower => "It's not time to unfreeze(TronPower)."

/-- The local branch of the Stake 1.0 unfreeze validator. -/
def validateUnfreezeLocal (c : Chain) (caller : Address) (resource : Option StakeResource) :
    Option String :=
  match c.registers.blocks.headTimestamp, resource with
  | none, _ => some emptyBlockStore
  | some _, none => some (unfreezeResourceCodeError env)
  | some nowMs, some resource =>
    if resource = .tronPower ∧ env.params.allowNewResourceModel ≠ 1 then
      some "ResourceCode error.valid ResourceCode[BANDWIDTH、Energy]"
    else match (c.recordOf caller).frozenLegacy.field resource with
      | none => some (noFrozenBalance resource)
      | some held =>
        if held.amount ≤ 0 then some (noFrozenBalance resource)
        else if nowMs < held.expireMs then some (notTimeToUnfreeze resource)
        else none

/-- The delegated branch of the Stake 1.0 unfreeze validator. -/
def validateUnfreezeDelegated (c : Chain) (caller receiver : Address)
    (resource : Option StakeResource) : Option String :=
  if receiver = caller then some "receiverAddress must not be the same as ownerAddress"
  else match (c.table .legacyDelegations).get (caller, receiver) with
    | none => some "delegated Resource does not exist"
    | some delegated =>
      match c.registers.blocks.headTimestamp, resource with
      | none, _ => some emptyBlockStore
      | some nowMs, some .bandwidth =>
        if delegated.pair.bandwidth ≤ 0 then some "no delegatedFrozenBalance(BANDWIDTH)"
        else if nowMs < delegated.expireBandwidthMs then some "It's not time to unfreeze."
        else none
      | some nowMs, some .energy =>
        let expiry :=
          if env.params.allowMultiSign = 0 then delegated.expireBandwidthMs
          else delegated.expireEnergyMs
        if delegated.pair.energy ≤ 0 then some "no delegateFrozenBalance(Energy)"
        else if nowMs < expiry then some "It's not time to unfreeze."
        else none
      | some _, _ => some "ResourceCode error.valid ResourceCode[BANDWIDTH、Energy]"

/-- `adaptUnfreezeBalance(…).validate` -/
def validateUnfreezeBalance (c : Chain) (caller : Address) (resource : Option StakeResource)
    (receiver : ReceiverField) : Option String :=
  if (c.account caller).isNone then some (accountDoesNotExist caller)
  else if env.params.allowDelegateResource = 1 then
    match receiver with
    | .absent => validateUnfreezeLocal env c caller resource
    | .invalid => some "Invalid receiverAddress"
    | .address receiver => validateUnfreezeDelegated env c caller receiver resource
  else validateUnfreezeLocal env c caller resource

/-- The validator of a request. -/
def StakeRequest.validate (c : Chain) : StakeRequest → Option String
  | .freezeBalanceV2Contract caller amount resource =>
    validateFreezeBalanceV2 env c caller amount resource
  | .unfreezeBalanceV2Contract caller amount resource =>
    validateUnfreezeBalanceV2 env c caller amount resource
  | .withdrawExpireUnfreezeContract caller => validateWithdrawExpireUnfreeze c caller
  | .cancelAllUnfreezeV2Contract caller => validateCancelAllUnfreezeV2 c caller
  | .delegateResourceContract caller receiver amount resource lock statedPeriod =>
    validateDelegateResource env c caller receiver amount resource lock statedPeriod
  | .unDelegateResourceContract caller receiver amount resource =>
    validateUnDelegateResource c caller receiver amount resource
  | .freezeBalanceContract caller amount duration resource receiver =>
    validateFreezeBalance env c caller amount duration resource receiver
  | .unfreezeBalanceContract caller resource receiver =>
    validateUnfreezeBalance env c caller resource receiver

/-- The receiver a Stake 1.0 state operation hands on. -/
def ReceiverField.target (resource : StakeResource) : ReceiverField → NodeM (Option Address)
  | .absent => pure none
  | .invalid =>
    if resource ≠ .tronPower ∧ env.params.allowDelegateResource = 1 then
      Prog.throw (.rejected "Invalid receiverAddress")
    else pure none
  | .address a =>
    if resource ≠ .tronPower ∧ env.params.allowDelegateResource = 1 then pure (some a)
    else pure none

/-- A parsed field the validator has already insisted on. -/
def orRejected {α : Type} (message : String) : Option α → NodeM α
  | some x => pure x
  | none => Prog.throw (.rejected message)

/-- The state operation of a request. -/
def StakeRequest.stateOp : StakeRequest → NodeM Unit
  | .freezeBalanceV2Contract caller amount resource => do
    freezeV2 env caller amount (← orRejected (resourceCodeError env) resource)
  | .unfreezeBalanceV2Contract caller amount resource => do
    let _ ← unfreezeV2 env caller amount (← orRejected (unfreezeResourceCodeError env) resource)
  | .withdrawExpireUnfreezeContract caller => do
    let _ ← withdrawExpiredUnfreeze env caller
  | .cancelAllUnfreezeV2Contract caller => do
    let _ ← cancelAllUnfreezeV2 env caller
  | .delegateResourceContract caller receiver amount resource lock statedPeriod => do
    let receiver ← orRejected "Invalid receiverAddress" receiver
    let resource ← orRejected "ResourceCode error, valid ResourceCode[BANDWIDTH、ENERGY]"
      (resource.bind StakeResource.toDelegatable)
    delegateResource caller receiver amount resource lock (lockPeriodOf env statedPeriod)
  | .unDelegateResourceContract caller receiver amount resource => do
    let receiver ← orRejected "Invalid receiverAddress" receiver
    let resource ← orRejected "ResourceCode error.valid ResourceCode[BANDWIDTH、Energy]"
      (resource.bind StakeResource.toDelegatable)
    undelegateResource env caller receiver amount resource
  | .freezeBalanceContract caller amount duration resource receiver => do
    let resource ← orRejected (resourceCodeError env) resource
    freezeLegacy env caller amount resource duration (← receiver.target env resource)
  | .unfreezeBalanceContract caller resource receiver => do
    let resource ← orRejected (unfreezeResourceCodeError env) resource
    let _ ← unfreezeLegacy env caller resource (← receiver.target env resource)

/-- A request on its way through the dialect: the gates, the validator, the operation. -/
def StakeRequest.apply (q : StakeRequest) : NodeM Unit := do
  match transactionActivationError env q with
  | some message => Prog.throw (.rejected message)
  | none =>
    match ← read fun c => q.validate env c with
    | some message => Prog.throw (.rejected message)
    | none => q.stateOp env

end Tvmjs
