import Tvmjs.Base.Text
import Tvmjs.Client.StakeValidation
import Tvmjs.Client.Writes

/-!
# Permissions of an account

An account's permissions say which keys sign for it, with what weight, and -- for an active
permission -- which contract types.  They are judged in their wire form (`permissionError`), stored
by `toStoredPermissions` and read back by `permissionsOf`.

* `TronWeb` -- the client library's address and signature functions, as parameters;
* `Permission.Sound` -- what an accepted permission still guarantees once it has been stored: key
  weights are positive and their sum is a signed 64-bit value;
* `PermissionsAccepted` -- every stored permission was accepted, which reshaping keeps;
* `sound_of_mem_permissionsOf` -- hence every permission an account resolves to is sound.
-/

namespace Tvmjs

namespace Dialect

/-! ### The client library and addresses -/

/-- The functions of the client library, and the language's Unicode lower-casing. -/
structure TronWeb where
  /-- `TronWeb.address.toHex`: the hex form of a base58 or hex address. -/
  toHex : JSString → Except JSString JSString
  /-- `TronWeb.address.fromHex`: the base58 form of a hex address. -/
  fromHex : JSString → Except JSString JSString
  /-- `utils.crypto.ecRecover`: the hex address which signed an id. -/
  ecRecover : JSString → JSString → Except JSString JSString
  toLowerCase : JSString → JSString

/-- The address some hex digits stand for. -/
def Address.ofDigits (s : JSString) : Address :=
  Fin.ofNat (2 ^ 160) (JSString.digitsValue (s.filterMap JSString.digitValue))

/-- `/^41[0-9a-fA-F]{40}$/`. -/
def isTronAddress (s : JSString) : Bool :=
  s.length = 42 ∧ s.startsWith (.ofString "41") ∧
    (s.drop 2).all fun u => (JSString.digitValue u).isSome

/-- `toTronHex`, as a string of code units. -/
def tronHex (a : Address) : JSString := .ofString (toTronHex a)

/-- The hex form of an address: `41` and forty digits which spell the address. -/
theorem tronHex_eq (a : Address) :
    ∃ ds, tronHex a = .ofString "41" ++ ds ∧ ds.length = 40 ∧ JSString.HexOf a.val ds := by
  have hzeros : ∀ k, JSString.ofScalars ((List.replicate k '0').map Char.toNat) =
      List.replicate k (JSString.digit 0) := by
    intro k
    induction k with
    | zero => rfl
    | succ k ih =>
      rw [List.replicate_succ, List.map_cons, List.replicate_succ, ← ih]
      rfl
  obtain ⟨hhex, hlength⟩ := JSString.hexOf_toDigits a.val
  have hle : (Nat.toDigits 16 a.val).length ≤ 40 :=
    (Nat.length_toDigits_le_iff (by decide) (by decide)).2 a.isLt
  have hpadded : JSString.ofString (hexPadded 40 a.val) =
      List.replicate (40 - (Nat.toDigits 16 a.val).length) (JSString.digit 0) ++
        JSString.ofScalars ((Nat.toDigits 16 a.val).map Char.toNat) := by
    rw [hexPadded, JSString.ofString_ofList, List.map_append, JSString.ofScalars,
      List.flatMap_append, ← hzeros]
    rfl
  refine ⟨JSString.ofString (hexPadded 40 a.val), JSString.ofString_append .., ?_, ?_⟩
  · rw [hpadded, List.length_append, List.length_replicate, hlength]
    omega
  · rw [hpadded]
    exact hhex.zeros _

theorem isTronAddress_tronHex (a : Address) : isTronAddress (tronHex a) = true := by
  obtain ⟨ds, hds, hlength, hhex⟩ := tronHex_eq a
  rw [hds]
  refine decide_eq_true ⟨?_, ?_, ?_⟩
  · rw [List.length_append, hlength]
    rfl
  · exact List.isPrefixOf_iff_prefix.2 (List.prefix_append _ _)
  · change (ds.all _) = true
    exact List.all_eq_true.2 hhex.digits

theorem ofDigits_tronHex (a : Address) : Address.ofDigits ((tronHex a).drop 2) = a := by
  obtain ⟨ds, hds, -, hhex⟩ := tronHex_eq a
  rw [hds]
  change Fin.ofNat (2 ^ 160) (JSString.digitsValue (ds.filterMap _)) = a
  rw [hhex.value]
  exact Fin.ofNat_val_eq_self a

section Library

variable (lib : TronWeb)

/-- A base58 or 41-prefixed hex address. -/
def parseTronAddress (input : JSString) : Except JSString Address :=
  let invalid := JSString.ofString "Invalid address: " ++ input
  let text := if input.startsWith (.ofString "0x") then input.drop 2 else input
  if input.startsWith (.ofString "0X") ∨
      (input.startsWith (.ofString "0x") ∧ ¬ isTronAddress text) then .error invalid
  else match lib.toHex text with
    | .error _ => .error invalid
    | .ok hex =>
      if isTronAddress hex then .ok (Address.ofDigits (hex.drop 2)) else .error invalid

/-- `TVMJS Address → base58`. -/
def toBase58 (a : Address) : Except JSString JSString := lib.fromHex (tronHex a)

variable {lib} in
/-- An address in its own hex form parses to itself. -/
theorem parseTronAddress_tronHex {a : Address} (h : lib.toHex (tronHex a) = .ok (tronHex a)) :
    parseTronAddress lib (tronHex a) = .ok a := by
  obtain ⟨ds, hds, -, -⟩ := tronHex_eq a
  have hstart : ∀ text : JSString, text.head? = some 48 → (tronHex a).startsWith text = false := by
    intro text htext
    obtain ⟨u, text, rfl⟩ := List.exists_cons_of_ne_nil (l := text) (by rintro rfl; cases htext)
    cases htext
    rw [hds]
    rfl
  have hx := hstart (.ofString "0x") rfl
  have hX := hstart (.ofString "0X") rfl
  simp only [parseTronAddress, hx, hX, h, isTronAddress_tronHex, ofDigits_tronHex,
    Bool.false_eq_true, false_and, or_self, if_false, if_true]

end Library

/-! ### Contract types -/

/-- `Transaction.Contract.ContractType`: the value of each name. -/
def CONTRACT_TYPE : List (String × ℕ) :=
  [("AccountCreateContract", 0), ("TransferContract", 1), ("TransferAssetContract", 2),
   ("VoteAssetContract", 3), ("VoteWitnessContract", 4), ("WitnessCreateContract", 5),
   ("AssetIssueContract", 6), ("WitnessUpdateContract", 8), ("ParticipateAssetIssueContract", 9),
   ("AccountUpdateContract", 10), ("FreezeBalanceContract", 11), ("UnfreezeBalanceContract", 12),
   ("WithdrawBalanceContract", 13), ("UnfreezeAssetContract", 14), ("UpdateAssetContract", 15),
   ("ProposalCreateContract", 16), ("ProposalApproveContract", 17), ("ProposalDeleteContract", 18),
   ("SetAccountIdContract", 19), ("CustomContract", 20), ("CreateSmartContract", 30),
   ("TriggerSmartContract", 31), ("GetContract", 32), ("UpdateSettingContract", 33),
   ("ExchangeCreateContract", 41), ("ExchangeInjectContract", 42), ("ExchangeWithdrawContract", 43),
   ("ExchangeTransactionContract", 44), ("UpdateEnergyLimitContract", 45),
   ("AccountPermissionUpdateContract", 46), ("ClearABIContract", 48),
   ("UpdateBrokerageContract", 49), ("ShieldedTransferContract", 51),
   ("MarketSellAssetContract", 52), ("MarketCancelOrderContract", 53),
   ("FreezeBalanceV2Contract", 54), ("UnfreezeBalanceV2Contract", 55),
   ("WithdrawExpireUnfreezeContract", 56), ("DelegateResourceContract", 57),
   ("UnDelegateResourceContract", 58), ("CancelAllUnfreezeV2Contract", 59)]

/-- `CONTRACT_TYPE[name]`; a name the table lacks is `undefined`. -/
def contractTypeValue (name : JSString) : Option ℕ :=
  (CONTRACT_TYPE.find? fun entry => JSString.ofString entry.1 = name).map (·.2)

/-- `(byte & (1 << (bit % 8))) !== 0` for the byte that two digits of a mask spell; what is no
number counts as zero. -/
def maskHasBit (mask : JSString) (bit : ℕ) : Bool :=
  (JSString.parseHex (mask.slice (bit / 8 * 2) (bit / 8 * 2 + 2))).getD 0 / 2 ^ (bit % 8) % 2 ≠ 0

/-- The mask of the contract types every chain starts with. -/
def BASE_CONTRACT_TYPES : JSString :=
  .ofString "7fff1fc0037e0000000000000000000000000000000000000000000000000000"

/-- The contract types that every chain has. -/
def baseContractTypes (bit : ℕ) : Bool := bit < 256 ∧ maskHasBit BASE_CONTRACT_TYPES bit

/-- The contract types a permission may name under the node's parameters. -/
def availableContractTypes (params : ChainParameters) (bit : ℕ) : Bool :=
  baseContractTypes bit || bit = 49 || bit = 48 ||
    (params.unfreezeDelayDays > 0 && [54, 55, 56, 57, 58].contains bit) ||
    (params.allowCancelAllUnfreezeV2 = 1 && bit = 59)

/-! ### Permissions -/

/-- The kind of a permission; `Unknown` is what a request may spell beside the three. -/
inductive PermissionType where
  | Owner
  | Witness
  | Active
  | Unknown
deriving DecidableEq, Repr

/-- The kind's name, as messages print it. -/
def PermissionType.name : PermissionType → String
  | Owner => "Owner"
  | Witness => "Witness"
  | Active => "Active"
  | Unknown => "Unknown"

/-- A member of a permission, its address spelled as the request spells it. -/
structure PermissionKey where
  address : JSString
  weight : ℤ
deriving DecidableEq, Repr

/-- A permission in its wire form. -/
structure Permission where
  type : PermissionType
  id : ℕ
  permission_name : String
  threshold : ℤ
  parent_id : Option ℤ := none
  operations : Option JSString := none
  keys : List PermissionKey
deriving DecidableEq, Repr

/-- `PERMISSION_TYPE[type]`; the value of `Unknown` is `undefined`, which reads back like any other
that is not one of the three. -/
def PERMISSION_TYPE : PermissionType → ℕ
  | .Owner => 0
  | .Witness => 1
  | .Active => 2
  | .Unknown => 3

/-- One stored permission in its wire form. -/
def toWire (entry : StoredPermission) : Permission where
  type := if entry.type = 0 then .Owner else if entry.type = 1 then .Witness else .Active
  id := entry.id
  permission_name := entry.permissionName
  threshold := entry.threshold
  parent_id := if entry.parentId ≠ 0 then some entry.parentId else none
  operations := if entry.type = 2 then some (hexOfBytes entry.operations) else none
  keys := entry.keys.map fun key => ⟨tronHex key.1, key.2⟩

/-- The permissions of an account in the form they have on the wire. -/
def storedPermissions : Option (List StoredPermission) → List Permission
  | none => []
  | some stored => stored.map toWire

/-- Every contract type an ordinary account may sign for. -/
def DEFAULT_ACTIVE_OPERATIONS : JSString :=
  .ofString "7fff1fc0033ec30f000000000000000000000000000000000000000000000000"

/-- The permission set an account carries before it has ever been reshaped. -/
def defaultPermissions (owner : Address) : List Permission :=
  let address := tronHex owner
  [{ type := .Owner, id := 0, permission_name := "owner", threshold := 1, keys := [⟨address, 1⟩] },
   { type := .Active, id := 2, permission_name := "active", threshold := 1,
     operations := some DEFAULT_ACTIVE_OPERATIONS, keys := [⟨address, 1⟩] }]

/-- Every permission an account holds, defaults included. -/
def permissionsOf (c : Chain) (owner : Address) : List Permission :=
  if (c.account owner).isNone then defaultPermissions owner
  else
    let stored := storedPermissions (c.recordOf owner).permissions
    if stored.length > 0 then stored else defaultPermissions owner

/-- The permission an id names. -/
def permissionById (c : Chain) (owner : Address) (id : ℤ) : Option Permission :=
  (permissionsOf c owner).find? fun permission => (permission.id : ℤ) = id

/-- `hexToBytes` on a mask: an odd number of digits gets a zero in front. -/
def maskBytes (operations : JSString) : Except JSString Bytes :=
  match bytesOfHex (if operations.length % 2 ≠ 0 then JSString.digit 0 :: operations
      else operations) with
  | some b => .ok b
  | none => .error (.ofString "hex string expected")

/-- The record form of one permission; a permission that was accepted has no parent. -/
def toStoredPermission (lib : TronWeb) (permission : Permission) :
    Except JSString StoredPermission := do
  let operations ← maskBytes (permission.operations.getD [])
  let keys ← permission.keys.mapM fun key => do
    let address ← parseTronAddress lib key.address
    return (address, key.weight)
  return { type := PERMISSION_TYPE permission.type, id := permission.id
           permissionName := permission.permission_name, threshold := permission.threshold
           parentId := (permission.parent_id.getD 0).toNat, operations, keys }

/-- The account record shape, built from the wire form. -/
def toStoredPermissions (lib : TronWeb) (permissions : List Permission) :
    Except JSString (List StoredPermission) := permissions.mapM (toStoredPermission lib)

/-! ### The rules for a permission -/

/-- The weights of the keys, added up as signed 64-bit integers. -/
def sumWeights (lib : TronWeb) : List PermissionKey → ℤ → Except String ℤ
  | [], weightSum => .ok weightSum
  | key :: keys, weightSum =>
    match parseTronAddress lib key.address with
    | .error _ => .error "key is not a validate address"
    | .ok _ =>
      if key.weight ≤ 0 then .error "key's weight should be greater than 0"
      else if weightSum + key.weight > INT64_MAX then .error "long overflow"
      else sumWeights lib keys (weightSum + key.weight)

/-- The rules for the operations mask. -/
def operationsError (permission : Permission) (available : ℕ → Bool) : Option String :=
  let operations := permission.operations.getD []
  if permission.type ≠ .Active then
    if operations = [] then none
    else some (permission.type.name ++ " permission needn't operations")
  else if operations.length ≠ 64 then some "operations size must 32"
  else
    ((List.range 256).find? fun bit => maskHasBit operations bit && !available bit).map fun bit =>
      toString bit ++ " isn't a validate ContractType"

/-- The rules one permission must satisfy, in the order the actuator applies them. -/
def permissionError (lib : TronWeb) (permission : Permission) (totalSignNum : ℤ)
    (available : ℕ → Bool) : Option String :=
  if permission.keys.length > totalSignNum then
    some ("number of keys in permission should not be greater than " ++ toString totalSignNum)
  else if permission.keys.length = 0 then some "key's count should be greater than 0"
  else if permission.type = .Witness ∧ permission.keys.length ≠ 1 then
    some "Witness permission's key count should be 1"
  else if permission.threshold ≤ 0 then some "permission's threshold should be greater than 0"
  else if permission.permission_name ≠ "" ∧
    (JSString.ofString permission.permission_name).length > 32
  then some "permission's name is too long"
  else if permission.parent_id.getD 0 ≠ 0 then some "permission's parent should be owner"
  -- the spellings are compared, not the addresses they stand for
  else if ¬ (permission.keys.map fun key => lib.toLowerCase key.address).Nodup then
    some ("address should be distinct in permission " ++ permission.type.name)
  else match sumWeights lib permission.keys 0 with
    | .error message => some message
    | .ok weightSum =>
      if weightSum < permission.threshold then
        some ("sum of all key's weight should not be less than threshold in permission "
          ++ permission.type.name)
      else operationsError permission available

/-! ### Reshaping an account's permissions -/

/-- An `AccountPermissionUpdateContract`, its permissions normalised. -/
structure PermissionUpdate where
  caller : Address
  owner : Option Permission
  /-- The witness field, if the request has one: a permission, if it is one. -/
  witness : Option (Option Permission)
  actives : List Permission

/-- What reshaping permissions reads beside the chain. -/
structure PermissionRules where
  totalSignNum : ℤ
  updateAccountPermissionFee : ℤ
  /-- `isWitness` -/
  isWitness : Address → Bool

section Update

variable (lib : TronWeb) (env : NodeEnv) (rules : PermissionRules)

/-- The first active permission that is refused; each is judged whole before the next. -/
def activesError : List Permission → Option String
  | [] => none
  | active :: actives =>
    if active.type ≠ .Active then some "active permission type is error"
    else match permissionError lib active rules.totalSignNum
      (availableContractTypes env.params) with
      | some message => some message
      | none => activesError actives

/-- `adaptAccountPermissionUpdate(…).validate` -/
def PermissionUpdate.validate (c : Chain) (q : PermissionUpdate) : Option String :=
  if (c.account q.caller).isNone then some "ownerAddress account does not exist"
  else match q.owner with
    | none => some "owner permission is missed"
    | some owner =>
      if rules.isWitness q.caller ∧ q.witness.isNone then some "witness permission is missed"
      else if ¬ rules.isWitness q.caller ∧ q.witness.isSome then
        some "account isn't witness can't set witness permission"
      else if q.actives.length = 0 then some "active permission is missed"
      else if q.actives.length > 8 then some "active permission is too many"
      else if owner.type ≠ .Owner then some "owner permission type is error"
      else
        let available := availableContractTypes env.params
        match permissionError lib owner rules.totalSignNum available with
        | some message => some message
        | none =>
          if rules.isWitness q.caller then
            match q.witness.join with
            | none => some "witness permission type is error"
            | some witness =>
              if witness.type ≠ .Witness then some "witness permission type is error"
              else match permissionError lib witness rules.totalSignNum available with
                | some message => some message
                | none => activesError lib env rules q.actives
          else activesError lib env rules q.actives

/-- The permissions an update stores: ids are assigned by position, not by the request. -/
def PermissionUpdate.permissions (q : PermissionUpdate) : List Permission :=
  q.owner.toList.map (fun owner => { owner with id := 0 }) ++
    q.witness.join.toList.map (fun witness => { witness with id := 1 }) ++
    q.actives.mapIdx fun index active => { active with id := index + 2 }

/-- `adaptAccountPermissionUpdate(…).stateOp` -/
def PermissionUpdate.stateOp (q : PermissionUpdate) : NodeM Unit := do
  let feeSun := rules.updateAccountPermissionFee
  let balance ← read fun c => c.balanceOf q.caller
  -- the fee is charged while applying the change, not while checking it
  if balance < feeSun then
    Prog.throw (.rejected (toTronHex q.caller ++ " insufficient balance, balance: "
      ++ toString balance ++ ", amount: " ++ toString feeSun))
  else do
    let _ ← deductBalance env q.caller feeSun
    match toStoredPermissions lib q.permissions with
    | .error _ => Prog.throw .typeError
    | .ok stored => setPermissions q.caller stored

/-- An update on its way through the dialect: the gate, the validator, the operation. -/
def PermissionUpdate.apply (q : PermissionUpdate) : NodeM Unit := do
  if env.params.allowMultiSign ≠ 1 then
    Prog.throw (.rejected "multi sign is not allowed, need to be opened by the committee")
  else match ← read fun c => q.validate lib env rules c with
    | some message => Prog.throw (.rejected message)
    | none => q.stateOp lib env rules

end Update

/-! ### What acceptance guarantees -/

/-- What signatures are weighed under: positive weights whose sum is a signed 64-bit value, an
operations mask which is spelled by its bytes, and the owner permission under id 0. -/
structure Permission.Sound (p : Permission) : Prop where
  weight_pos : ∀ key ∈ p.keys, 0 < key.weight
  sum_weight_le : (p.keys.map PermissionKey.weight).sum ≤ INT64_MAX
  operations_eq : ∀ operations, p.operations = some operations →
    ∃ mask, operations = hexOfBytes mask
  owner_of_id : p.id = 0 → p.type = .Owner

/-- A list built in `Except` is built entry by entry. -/
private theorem forall₂_of_mapM {ε α β : Type} {f : α → Except ε β} {l : List α} {l' : List β}
    (h : l.mapM f = .ok l') : List.Forall₂ (fun a b => f a = .ok b) l l' := by
  induction l generalizing l' with
  | nil =>
    cases h
    exact .nil
  | cons a l ih =>
    rw [List.mapM_cons] at h
    rcases ha : f a with e | b
    · rw [ha] at h
      cases h
    · rcases hl : l.mapM f with e | bs
      · rw [ha, hl] at h
        cases h
      · rw [ha, hl] at h
        cases h
        exact .cons ha (ih hl)

private theorem exists_of_mem_right {α β : Type} {R : α → β → Prop} {l : List α} {l' : List β}
    (h : List.Forall₂ R l l') {b : β} (hb : b ∈ l') : ∃ a ∈ l, R a b := by
  induction h with
  | nil => cases hb
  | cons hab _ ih =>
    rcases List.mem_cons.1 hb with rfl | hb
    · exact ⟨_, List.mem_cons_self, hab⟩
    · obtain ⟨a, ha, hR⟩ := ih hb
      exact ⟨a, List.mem_cons_of_mem _ ha, hR⟩

private theorem map_eq_of_forall₂ {α β γ : Type} {R : α → β → Prop} {l : List α} {l' : List β}
    (h : List.Forall₂ R l l') {f : α → γ} {g : β → γ} (hR : ∀ a b, R a b → g b = f a) :
    l'.map g = l.map f := by
  induction h with
  | nil => rfl
  | cons hab _ ih => rw [List.map_cons, List.map_cons, hR _ _ hab, ih]

section Accepted

variable {lib : TronWeb}

private theorem sumWeights_ok {keys : List PermissionKey} {n m : ℤ}
    (h : sumWeights lib keys n = .ok m) :
    m = n + (keys.map PermissionKey.weight).sum ∧ (∀ key ∈ keys, 0 < key.weight) ∧
      (n ≤ INT64_MAX → m ≤ INT64_MAX) := by
  induction keys generalizing n with
  | nil =>
    cases h
    exact ⟨by simp, nofun, id⟩
  | cons key keys ih =>
    rw [sumWeights] at h
    split at h
    · cases h
    · split at h
      · cases h
      · rename_i hpos
        split at h
        · cases h
        · rename_i hle
          obtain ⟨hm, hkeys, hbound⟩ := ih h
          refine ⟨?_, ?_, fun _ => hbound (by omega)⟩
          · rw [hm, List.map_cons, List.sum_cons, Int.add_assoc]
          · intro key' hkey'
            rcases List.mem_cons.1 hkey' with rfl | hkey'
            · omega
            · exact hkeys key' hkey'

/-- The rules every accepted permission has passed. -/
private theorem permissionError_eq_none {p : Permission} {totalSignNum : ℤ} {available : ℕ → Bool}
    (h : permissionError lib p totalSignNum available = none) :
    ∃ weightSum, sumWeights lib p.keys 0 = .ok weightSum ∧ p.threshold ≤ weightSum ∧
      operationsError p available = none := by
  unfold permissionError at h
  split at h
  · cases h
  split at h
  · cases h
  split at h
  · cases h
  split at h
  · cases h
  split at h
  · cases h
  split at h
  · cases h
  split at h
  · cases h
  split at h
  · cases h
  · rename_i weightSum hsum
    split at h
    · cases h
    · exact ⟨weightSum, hsum, by omega, h⟩

/-- Storing keeps the weights, and reading back spells the mask by its bytes. -/
private theorem sound_toWire {p : Permission} {totalSignNum : ℤ} {available : ℕ → Bool}
    (h : permissionError lib p totalSignNum available = none) (hid : p.id = 0 → p.type = .Owner)
    {entry : StoredPermission} (he : toStoredPermission lib p = .ok entry) :
    (toWire entry).Sound := by
  -- the sum that was checked bounds each weight
  obtain ⟨weightSum, hsum, -, -⟩ := permissionError_eq_none h
  obtain ⟨hm, hpos, hle⟩ := sumWeights_ok hsum
  -- the addresses are parsed anew, but the weights are stored as given
  have hstored : (toWire entry).keys.map PermissionKey.weight = p.keys.map PermissionKey.weight ∧
      entry.id = p.id ∧ entry.type = PERMISSION_TYPE p.type := by
    rw [toStoredPermission] at he
    rcases hmask : maskBytes (p.operations.getD []) with e | mask
    · rw [hmask] at he
      cases he
    · rcases hmap : (p.keys.mapM fun key => do
          let address ← parseTronAddress lib key.address
          return (address, key.weight) : Except JSString _) with e | keys
      · rw [hmask, hmap] at he
        cases he
      · rw [hmask, hmap] at he
        cases he
        refine ⟨?_, rfl, rfl⟩
        rw [toWire, List.map_map]
        refine map_eq_of_forall₂ (forall₂_of_mapM hmap) ?_
        intro key stored hkey
        rcases hparse : parseTronAddress lib key.address with e | address
        · rw [hparse] at hkey
          cases hkey
        · rw [hparse] at hkey
          cases hkey
          rfl
  obtain ⟨hkeys, hentryId, hentryType⟩ := hstored
  refine ⟨?_, ?_, ?_, ?_⟩
  · intro key hkey
    have hmem : key.weight ∈ (toWire entry).keys.map PermissionKey.weight :=
      List.mem_map_of_mem hkey
    rw [hkeys] at hmem
    obtain ⟨key', hkey', hw⟩ := List.mem_map.1 hmem
    exact hw ▸ hpos key' hkey'
  · rw [hkeys]
    have := hle (by decide)
    omega
  · intro operations hoperations
    change (if entry.type = 2 then some (hexOfBytes entry.operations) else none) = _ at hoperations
    split at hoperations
    · cases hoperations
      exact ⟨entry.operations, rfl⟩
    · cases hoperations
  · intro hzero
    change entry.id = 0 at hzero
    rw [hentryId] at hzero
    rw [toWire, hentryType, hid hzero]
    rfl

/-- The permission set of an account which was never reshaped. -/
private theorem sound_of_mem_defaultPermissions {owner : Address} {p : Permission}
    (h : p ∈ defaultPermissions owner) : p.Sound := by
  have hmask : DEFAULT_ACTIVE_OPERATIONS =
      hexOfBytes ((bytesOfHex DEFAULT_ACTIVE_OPERATIONS).getD []) := by decide
  rcases List.mem_cons.1 h with rfl | h
  · refine ⟨?_, by simp [INT64_MAX], nofun, fun _ => rfl⟩
    intro key hkey
    rw [List.mem_singleton.1 hkey]
    exact Int.one_pos
  · rw [List.mem_singleton.1 h]
    refine ⟨?_, by simp [INT64_MAX], ?_, nofun⟩
    · intro key hkey
      rw [List.mem_singleton.1 hkey]
      exact Int.one_pos
    · intro operations hoperations
      cases hoperations
      exact ⟨_, hmask⟩

variable (lib) in
/-- Every permission set an account holds was accepted before it was stored, with the owner
permission under id 0. -/
def PermissionsAccepted (c : Chain) : Prop :=
  ∀ owner stored, (c.recordOf owner).permissions = some stored → ∃ permissions,
    toStoredPermissions lib permissions = .ok stored ∧
      ∀ p ∈ permissions, (∃ totalSignNum available,
        permissionError lib p totalSignNum available = none) ∧ (p.id = 0 → p.type = .Owner)

/-- Whatever permission an account resolves to can be weighed. -/
theorem sound_of_mem_permissionsOf {c : Chain} (hc : PermissionsAccepted lib c) {owner : Address}
    {p : Permission} (hp : p ∈ permissionsOf c owner) : p.Sound := by
  rw [permissionsOf] at hp
  split at hp
  · exact sound_of_mem_defaultPermissions hp
  · change p ∈ (if _ then _ else _) at hp
    split at hp
    · rcases hstored : (c.recordOf owner).permissions with - | stored
      · rw [hstored] at hp
        cases hp
      · rw [hstored] at hp
        obtain ⟨entry, hentry, rfl⟩ := List.mem_map.1 hp
        obtain ⟨permissions, hto, haccepted⟩ := hc owner stored hstored
        obtain ⟨p, hpmem, hpe⟩ := exists_of_mem_right (forall₂_of_mapM hto) hentry
        obtain ⟨⟨totalSignNum, available, herror⟩, hid⟩ := haccepted p hpmem
        exact sound_toWire herror hid hpe
    · exact sound_of_mem_defaultPermissions hp

end Accepted

end Dialect

end Tvmjs
