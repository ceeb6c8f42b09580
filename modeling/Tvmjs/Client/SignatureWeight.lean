import Tvmjs.Client.Permission
import Tvmjs.Client.StakeRuns

/-!
# Weighing the signatures of a transaction

`checkSignatureWeight` resolves the permission a transaction declares and adds up the weights of
the keys that signed it; the broadcast path compares the sum with the permission's threshold.

* `returns_apply_accepted` -- reshaping permissions stores accepted ones only;
* `weighSignatures_counted` -- by induction on the signatures: each adds one member that was not
  counted before, so the members counted are distinct and their weights add up;
* `sum_members_le` -- distinct members of a sound permission never weigh more than all its keys;
* `checkSignatureWeight_counts` -- what success means, and where the threshold is compared.
-/

namespace Tvmjs

namespace Dialect

/-! ### Weighing -/

/-- Which exception a failure corresponds to. -/
inductive WeightErrorKind where
  | setup
  | permission
  | signatureFormat
  | computeAddress
deriving DecidableEq, Repr

/-- What the check of the signatures finds. -/
structure WeightOutcome where
  /-- The wire message of the first failure, absent when the signatures check out. -/
  error : Option JSString := none
  errorKind : Option WeightErrorKind := none
  currentWeight : ℤ := 0
  permission : Option Permission := none
  approvedList : List JSString := []
deriving DecidableEq, Repr

/-- The fields of a contract that the check reads. -/
structure TronContract where
  type : JSString
  Permission_id : Option ℤ := none
deriving DecidableEq, Repr

/-- r, s and v: the only signature length the recovery accepts. -/
def SIGNATURE_BYTES : ℕ := 65

/-- Whether the permission's operations mask grants a contract type; an error when the mask has not
the right size. -/
def grantsContract (permission : Permission) (contractType : JSString) : Except JSString Bool :=
  let operations := permission.operations.getD []
  if operations.length ≠ 64 then
    .error (.ofString ("operations size must 32, actual: " ++ toString (operations.length / 2)))
  else match contractTypeValue contractType with
    | none => .ok false
    | some typeValue => .ok (maskHasBit operations typeValue)

/-- The 65 bytes of a signature that the recovery reads, as digits, once their number and the
header byte have been checked. -/
def readSignature (raw : JSString) : Except (JSString × WeightErrorKind) JSString :=
  let hex := raw.stripHexMark
  let byteLength := hex.length / 2
  if byteLength < SIGNATURE_BYTES then
    .error (.ofString ("Signature size is " ++ toString byteLength), .signatureFormat)
  else
    -- anything past the 65th byte is dropped rather than rejected
    let signature := hex.slice 0 (SIGNATURE_BYTES * 2)
    match JSString.parseHex (signature.slice 128 130) with
    -- no comparison holds of `NaN`
    | none => .ok signature
    | some stated =>
      let header := if stated < 27 then stated + 27 else stated
      if header < 27 ∨ header > 34 then
        .error (.ofString ("Header byte out of range: " ++ toString header), .computeAddress)
      -- 31..34 name the compressed form of the same four ids
      else if (if header ≥ 31 then header - 4 else header) - 27 > 1 then
        .error (.ofString "Could not recover public key from signature", .computeAddress)
      else .ok signature

section Weigh

variable (lib : TronWeb)

/-- An address as it is shown; what begins with a `T` is taken as it is. -/
def toBase58Loose (address : JSString) : Except JSString JSString :=
  if address.startsWith (.ofString "T") then .ok address
  else do toBase58 lib (← parseTronAddress lib address)

/-- The weight a key carries among some keys, 0 when it is not a member. -/
def weightOf : List PermissionKey → JSString → Except JSString ℤ
  | [], _ => .ok 0
  | key :: keys, signerBase58 =>
    match toBase58Loose lib key.address with
    | .error e => .error e
    | .ok base58 => if base58 = signerBase58 then .ok key.weight else weightOf keys signerBase58

/-- The address which signed an id, in base58. -/
def recoverSigner (txId signature : JSString) : Except JSString JSString := do
  lib.fromHex (← lib.ecRecover txId signature)

/-- The loop over the signatures.  The set of signers seen has the members of `approvedList`. -/
def weighSignatures (permission : Permission) (txId : JSString) :
    List JSString → ℤ → List JSString → Except JSString WeightOutcome
  | [], currentWeight, approvedList =>
    .ok { currentWeight, permission := some permission, approvedList }
  | raw :: signatures, currentWeight, approvedList =>
    let failed (error : JSString) (kind : WeightErrorKind) : Except JSString WeightOutcome :=
      .ok { error := some error, errorKind := some kind, currentWeight,
            permission := some permission, approvedList }
    match readSignature raw with
    | .error (error, kind) => failed error kind
    | .ok signature =>
      match recoverSigner lib txId signature with
      | .error message => failed message .computeAddress
      | .ok signer =>
        match weightOf lib permission.keys signer with
        | .error e => .error e
        | .ok weight =>
          if weight = 0 then
            failed (txId ++ .ofString " is signed by " ++ signer
              ++ .ofString " but it is not contained of permission.") .permission
          else if signer ∈ approvedList then
            failed (signer ++ .ofString " has signed twice!") .permission
          else
            weighSignatures permission txId signatures (currentWeight + weight)
              (approvedList ++ [signer])

/-- Resolve the permission a transaction declares, check that it may carry this contract type, and
sum the weights of the keys that signed it. -/
def checkSignatureWeight (c : Chain) (owner : Address) (contract : TronContract)
    (signatures : List JSString) (txId : JSString) : Except JSString WeightOutcome :=
  let permissionId := contract.Permission_id.getD 0
  match permissionById c owner permissionId with
  | none => .ok { error := some (.ofString "permission isn't exit"), errorKind := some .setup }
  | some permission =>
    let failed (error : JSString) (kind : WeightErrorKind) : Except JSString WeightOutcome :=
      .ok { error := some error, errorKind := some kind, permission := some permission }
    let weigh : Except JSString WeightOutcome :=
      if signatures.length > permission.keys.length then
        failed (.ofString ("Signature count is " ++ toString signatures.length ++
          " more than key counts of permission : " ++ toString permission.keys.length)) .permission
      else weighSignatures lib permission txId signatures 0 []
    if permissionId ≠ 0 then
      if permission.type ≠ .Active then failed (.ofString "Permission type is error") .setup
      else match grantsContract permission contract.type with
        | .error message => failed message .setup
        | .ok false => failed (.ofString "Permission denied") .setup
        | .ok true => weigh
    else weigh

/-- What the broadcast path turns a transaction away with before it is adapted: the signature part
of `validateTransaction`.  The outer error is one that the check throws. -/
def validateSignatures (unlockedAccounts : JSString → Bool) (totalSignNum : ℤ) (c : Chain)
    (owner : Address) (contract : TronContract) (signatures : List JSString) (txId : JSString) :
    Except JSString (Option JSString) := do
  let ownerBase58 ← toBase58 lib owner
  if unlockedAccounts ownerBase58 then return none
  else if signatures.length = 0 then return some (.ofString "miss sig or contract")
  else if signatures.length > totalSignNum then return some (.ofString "too many signatures")
  else
    let weight ← checkSignatureWeight lib c owner contract signatures txId
    match weight.error with
    | some error => return some error
    | none =>
      if weight.currentWeight < (weight.permission.map Permission.threshold).getD 1 then
        return some (.ofString "sig error")
      else return none

end Weigh

/-! ### Accepted permissions stay accepted -/

section Accepted

variable {lib : TronWeb} {c : Chain}

/-- A chain with the same permission sets. -/
theorem PermissionsAccepted.congr {c' : Chain} (hc : PermissionsAccepted lib c)
    (h : ∀ a, (c'.recordOf a).permissions = (c.recordOf a).permissions) :
    PermissionsAccepted lib c' := fun owner stored hstored => hc owner stored (h owner ▸ hstored)

/-- Permissions that were accepted may be stored. -/
theorem PermissionsAccepted.setPermissions (hc : PermissionsAccepted lib c) {owner : Address}
    {permissions : List Permission} {stored : List StoredPermission}
    (hto : toStoredPermissions lib permissions = .ok stored)
    (haccepted : ∀ p ∈ permissions, (∃ totalSignNum available,
      permissionError lib p totalSignNum available = none) ∧ (p.id = 0 → p.type = .Owner)) :
    PermissionsAccepted lib
      (c.setRecord owner { c.recordOf owner with permissions := some stored }) := by
  intro a held hheld
  rw [Chain.recordOf_setRecord] at hheld
  split at hheld
  · cases hheld
    exact ⟨permissions, hto, haccepted⟩
  · exact hc a held hheld

variable {env : NodeEnv} {rules : PermissionRules}

/-- Each of the active permissions passes where all of them do. -/
private theorem activesError_eq_none {actives : List Permission}
    (h : activesError lib env rules actives = none) :
    ∀ p ∈ actives, permissionError lib p rules.totalSignNum (availableContractTypes env.params) =
      none := by
  induction actives with
  | nil => exact nofun
  | cons active actives ih =>
    rw [activesError] at h
    split at h
    · cases h
    · split at h
      · cases h
      · rename_i hactive
        intro p hp
        rcases List.mem_cons.1 hp with rfl | hp
        · exact hactive
        · exact ih h p hp

/-- What a validated update stores was accepted; an id is no part of what is judged. -/
private theorem PermissionUpdate.accepted_of_validate {q : PermissionUpdate}
    (h : q.validate lib env rules c = none) :
    ∀ p ∈ q.permissions, (∃ totalSignNum available,
      permissionError lib p totalSignNum available = none) ∧ (p.id = 0 → p.type = .Owner) := by
  -- the checks in the order of the source; each that fails refuses the update
  have hjudged : ∃ owner, q.owner = some owner ∧ owner.type = .Owner ∧
      permissionError lib owner rules.totalSignNum (availableContractTypes env.params) = none ∧
      (∀ witness, q.witness.join = some witness →
        permissionError lib witness rules.totalSignNum (availableContractTypes env.params) = none) ∧
      activesError lib env rules q.actives = none := by
    unfold PermissionUpdate.validate at h
    split at h
    · cases h
    split at h
    · cases h
    rename_i owner howner
    split at h
    · cases h
    split at h
    · cases h
    rename_i hwitness
    split at h
    · cases h
    split at h
    · cases h
    split at h
    · cases h
    rename_i htype
    dsimp only at h
    split at h
    · cases h
    rename_i hownerError
    refine ⟨owner, howner, not_not.1 htype, hownerError, ?_⟩
    split at h
    · split at h
      · cases h
      rename_i witness hjoin
      split at h
      · cases h
      split at h
      · cases h
      rename_i hwitnessError
      rw [hjoin]
      exact ⟨fun _ hw => Option.some.inj hw ▸ hwitnessError, h⟩
    · rename_i hnot
      have hnone : q.witness = none := by
        rw [← Option.not_isSome_iff_eq_none]
        exact fun hsome => hwitness ⟨hnot, hsome⟩
      rw [hnone]
      exact ⟨nofun, h⟩
  obtain ⟨owner, howner, htype, hownerError, hwitness, hactives⟩ := hjudged
  intro p hp
  rw [PermissionUpdate.permissions, List.mem_append, List.mem_append] at hp
  -- the owner permission, the witness permission or one of the active ones
  rcases hp with (hp | hp) | hp
  · rw [howner] at hp
    obtain ⟨owner', howner', rfl⟩ := List.mem_map.1 hp
    rw [List.mem_singleton.1 howner']
    exact ⟨⟨_, _, hownerError⟩, fun _ => htype⟩
  · obtain ⟨witness, hmem, rfl⟩ := List.mem_map.1 hp
    exact ⟨⟨_, _, hwitness witness (Option.mem_toList.1 hmem)⟩, nofun⟩
  · obtain ⟨index, hindex, rfl⟩ := List.mem_mapIdx.1 hp
    have hactive := activesError_eq_none hactives q.actives[index] (List.getElem_mem hindex)
    exact ⟨⟨_, _, hactive⟩, nofun⟩

/-- The end of an update: the permissions in their stored form, if they have one. -/
def PermissionUpdate.store (lib : TronWeb) (q : PermissionUpdate) : NodeM Unit :=
  match toStoredPermissions lib q.permissions with
  | .error _ => Prog.throw .typeError
  | .ok stored => setPermissions q.caller stored

/-- Reshaping an account's permissions stores accepted permissions only. -/
theorem PermissionUpdate.returns_apply_accepted (hc : PermissionsAccepted lib c)
    (q : PermissionUpdate) :
    Returns (q.apply lib env rules) (fun _ c' => PermissionsAccepted lib c') c := by
  refine .ite (fun _ => .throw) fun _ => .bind (.read ?_)
  rcases hvalidate : q.validate lib env rules c with - | message
  · refine .bind (.read (.ite (fun _ => .throw) fun _ => .bind ?_))
    have hstore : ∀ c', (∀ a, (c'.recordOf a).permissions = (c.recordOf a).permissions) →
        Returns (q.store lib) (fun _ c' => PermissionsAccepted lib c') c' := by
      intro c' hsame
      rw [PermissionUpdate.store]
      rcases hto : toStoredPermissions lib q.permissions with e | stored
      · exact .throw
      · exact .modifyRecord ((hc.congr hsame).setPermissions hto
          (PermissionUpdate.accepted_of_validate hvalidate))
    refine .bind (.getAccount ?_)
    rcases c.account q.caller with - | account
    · exact .pure (hstore c fun _ => rfl)
    · refine .ite (fun _ => .pure (hstore c fun _ => rfl)) fun _ => ?_
      refine .bind (.modifyChain (fun c => { c with burnedSun := c.burnedSun + _ }) ?_)
      exact .bind (.putAccount (.bind (.flush (.pure (hstore _ fun _ => rfl)))))
  · exact .throw

end Accepted

/-! ### What a successful weighing has counted -/

/-- A signature names its signer. -/
def Signs (lib : TronWeb) (txId raw signer : JSString) : Prop :=
  ∃ signature, readSignature raw = .ok signature ∧ recoverSigner lib txId signature = .ok signer

/-- A key's address is the signer's. -/
def Spells (lib : TronWeb) (key : PermissionKey) (signer : JSString) : Prop :=
  toBase58Loose lib key.address = .ok signer

/-- What the signatures met so far have been counted for: distinct signers, one for each, and the
members of the permission they are, whose weights add up to `currentWeight`. -/
structure Counted (lib : TronWeb) (permission : Permission) (txId : JSString)
    (signatures : List JSString) (currentWeight : ℤ) (approvedList : List JSString) : Prop where
  signs : List.Forall₂ (Signs lib txId) signatures approvedList
  nodup : approvedList.Nodup
  members : ∃ members : List PermissionKey, (∀ key ∈ members, key ∈ permission.keys) ∧
    List.Forall₂ (Spells lib) members approvedList ∧
    currentWeight = (members.map PermissionKey.weight).sum

section Weighing

variable {lib : TronWeb} {permission : Permission} {txId : JSString}

/-- A weight other than zero is that of a member. -/
private theorem weightOf_ok {keys : List PermissionKey} {signer : JSString} {weight : ℤ}
    (h : weightOf lib keys signer = .ok weight) (h0 : weight ≠ 0) :
    ∃ key ∈ keys, Spells lib key signer ∧ key.weight = weight := by
  induction keys with
  | nil =>
    cases h
    exact absurd rfl h0
  | cons key keys ih =>
    rw [weightOf] at h
    split at h
    · cases h
    · rename_i base58 hspells
      split at h
      · rename_i heq
        cases h
        exact ⟨key, List.mem_cons_self, heq ▸ hspells, rfl⟩
      · obtain ⟨key', hmem, hkey'⟩ := ih h
        exact ⟨key', List.mem_cons_of_mem _ hmem, hkey'⟩

/-- One more pair at the end. -/
private theorem forall₂_snoc {α β : Type} {R : α → β → Prop} {l : List α} {l' : List β}
    (h : List.Forall₂ R l l') {a : α} {b : β} (hab : R a b) :
    List.Forall₂ R (l ++ [a]) (l' ++ [b]) :=
  List.rel_append h (.cons hab .nil)

/-- Nothing has been counted yet. -/
theorem Counted.nil : Counted lib permission txId [] 0 [] :=
  ⟨.nil, List.nodup_nil, [], nofun, .nil, rfl⟩

/-- One more signature, by a member that was not counted before. -/
theorem Counted.snoc {signatures approvedList : List JSString} {currentWeight : ℤ}
    (h : Counted lib permission txId signatures currentWeight approvedList) {raw signer : JSString}
    (hsigns : Signs lib txId raw signer) (hnew : signer ∉ approvedList) {weight : ℤ}
    (hweight : weightOf lib permission.keys signer = .ok weight) (h0 : weight ≠ 0) :
    Counted lib permission txId (signatures ++ [raw]) (currentWeight + weight)
      (approvedList ++ [signer]) := by
  obtain ⟨key, hkey, hspells, rfl⟩ := weightOf_ok hweight h0
  obtain ⟨members, hsub, hforall, rfl⟩ := h.members
  refine ⟨forall₂_snoc h.signs hsigns, ?_, members ++ [key], ?_, forall₂_snoc hforall hspells, ?_⟩
  · exact h.nodup.append (List.nodup_singleton _) (by simpa using hnew)
  · intro key' hkey'
    rcases List.mem_append.1 hkey' with hmem | hmem
    · exact hsub key' hmem
    · rw [List.mem_singleton.1 hmem]
      exact hkey
  · rw [List.map_append, List.sum_append, List.map_singleton, List.sum_singleton]

/-- By induction on the signatures that are left: what has been counted stays counted. -/
theorem weighSignatures_counted {done signatures approvedList : List JSString} {currentWeight : ℤ}
    (hdone : Counted lib permission txId done currentWeight approvedList) {outcome : WeightOutcome}
    (h : weighSignatures lib permission txId signatures currentWeight approvedList = .ok outcome)
    (herror : outcome.error = none) :
    Counted lib permission txId (done ++ signatures) outcome.currentWeight outcome.approvedList ∧
      outcome.permission = some permission := by
  induction signatures generalizing done currentWeight approvedList with
  | nil =>
    cases h
    rw [List.append_nil]
    exact ⟨hdone, rfl⟩
  | cons raw signatures ih =>
    rw [weighSignatures] at h
    split at h
    · cases h
      cases herror
    · rename_i signature hread
      split at h
      · cases h
        cases herror
      · rename_i signer hrecover
        split at h
        · cases h
        · rename_i weight hweight
          split at h
          · cases h
            cases herror
          · rename_i h0
            split at h
            · cases h
              cases herror
            · rename_i hnew
              have hsnoc := hdone.snoc ⟨signature, hread, hrecover⟩ hnew hweight h0
              have hcounted := ih hsnoc h
              rwa [List.append_assoc, List.singleton_append] at hcounted

/-- A key that was counted is in the list of approvals. -/
private theorem mem_of_spells {members : List PermissionKey} {approvedList : List JSString}
    (h : List.Forall₂ (Spells lib) members approvedList) {key : PermissionKey} {signer : JSString}
    (hkey : Spells lib key signer) (hmem : key ∈ members) : signer ∈ approvedList := by
  induction h with
  | nil => cases hmem
  | cons hkey' _ ih =>
    rcases List.mem_cons.1 hmem with rfl | hmem
    · have heq : Except.ok signer = Except.ok _ := hkey.symm.trans hkey'
      cases heq
      exact List.mem_cons_self
    · exact List.mem_cons_of_mem _ (ih hmem)

/-- Members with distinct addresses are distinct. -/
private theorem nodup_of_spells {members : List PermissionKey} {approvedList : List JSString}
    (h : List.Forall₂ (Spells lib) members approvedList) (hnodup : approvedList.Nodup) :
    members.Nodup := by
  induction h with
  | nil => exact List.nodup_nil
  | cons hkey hrest ih =>
    obtain ⟨hnew, hnodup⟩ := List.nodup_cons.1 hnodup
    exact List.nodup_cons.2 ⟨fun hmem => hnew (mem_of_spells hrest hkey hmem), ih hnodup⟩

/-- Distinct members of a sound permission never weigh more than all its keys. -/
theorem sum_members_le (hsound : permission.Sound) {members : List PermissionKey}
    (hsub : ∀ key ∈ members, key ∈ permission.keys) (hnodup : members.Nodup) :
    0 ≤ (members.map PermissionKey.weight).sum ∧
      (members.map PermissionKey.weight).sum ≤ INT64_MAX := by
  obtain ⟨found, hfound, hsublist⟩ := hnodup.subperm hsub
  obtain ⟨rest, hrest⟩ := hsublist.exists_perm_append
  have hperm := hrest.trans (hfound.append_right rest)
  have hsum : (permission.keys.map PermissionKey.weight).sum =
      (members.map PermissionKey.weight).sum + (rest.map PermissionKey.weight).sum := by
    rw [(hperm.map PermissionKey.weight).sum_eq, List.map_append, List.sum_append]
  have hnonneg : ∀ keys : List PermissionKey, (∀ key ∈ keys, key ∈ permission.keys) →
      0 ≤ (keys.map PermissionKey.weight).sum := by
    intro keys hkeys
    refine List.sum_nonneg fun weight hweight => ?_
    obtain ⟨key, hkey, rfl⟩ := List.mem_map.1 hweight
    exact (hsound.weight_pos key (hkeys key hkey)).le
  have hremaining := hnonneg rest fun key hkey => hperm.mem_iff.2 (List.mem_append_right _ hkey)
  have hle := hsound.sum_weight_le
  exact ⟨hnonneg members hsub, by omega⟩

end Weighing

/-! ### The operations mask -/

/-- A mask that is spelled by its bytes has a bit exactly where its bytes have it. -/
private theorem maskHasBit_hexOfBytes (mask : Bytes) (bit : ℕ) :
    maskHasBit (hexOfBytes mask) bit = (mask.getD (bit / 8) 0).toNat.testBit (bit % 8) := by
  rw [maskHasBit, List.getD_eq_getElem?_getD]
  rcases Nat.lt_or_ge (bit / 8) mask.length with hlt | hge
  · rw [parseHex_slice_hexOfBytes mask _ hlt, List.getElem?_eq_getElem hlt, Option.getD_some,
      Option.getD_some, Nat.testBit_eq_decide_div_mod_eq, decide_eq_decide]
    have hcast : (mask[bit / 8].toNat : ℤ) / 2 ^ (bit % 8) % 2 =
        ((mask[bit / 8].toNat / 2 ^ (bit % 8) % 2 : ℕ) : ℤ) := by push_cast; rfl
    rw [hcast]
    omega
  · have hslice : (hexOfBytes mask).slice (bit / 8 * 2) (bit / 8 * 2 + 2) = [] := by
      rw [JSString.slice, List.drop_eq_nil_of_le (by rw [length_hexOfBytes]; omega), List.take_nil]
    rw [hslice, List.getElem?_eq_none hge]
    simp [JSString.parseHex]

/-- A permission grants a contract type: the type's bit is set in its 32-byte mask. -/
def Permission.Grants (p : Permission) (contractType : JSString) : Prop :=
  ∃ (mask : Bytes) (typeValue : ℕ), p.operations = some (hexOfBytes mask) ∧ mask.length = 32 ∧
    contractTypeValue contractType = some typeValue ∧
    (mask.getD (typeValue / 8) 0).toNat.testBit (typeValue % 8) = true

/-- A permission that grants a contract has its bit. -/
private theorem grants_of_grantsContract {p : Permission} (hsound : p.Sound)
    {contractType : JSString}
    (h : grantsContract p contractType = .ok true) : p.Grants contractType := by
  rw [grantsContract] at h
  rcases hoperations : p.operations with - | operations
  · rw [hoperations] at h
    cases h
  · obtain ⟨mask, rfl⟩ := hsound.operations_eq operations hoperations
    rw [hoperations, Option.getD_some] at h
    split at h
    · cases h
    · rename_i hlength
      rw [length_hexOfBytes] at hlength
      split at h
      · cases h
      · rename_i typeValue hvalue
        rw [maskHasBit_hexOfBytes] at h
        exact ⟨mask, typeValue, hoperations, by omega, hvalue, Except.ok.inj h⟩

/-! ### What success means -/

/-- What a check without error reports under the permission it resolved. -/
structure Weighed (lib : TronWeb) (contract : TronContract) (signatures : List JSString)
    (txId : JSString) (outcome : WeightOutcome) (permission : Permission) : Prop where
  reported : outcome.permission = some permission
  counted : Counted lib permission txId signatures outcome.currentWeight outcome.approvedList
  distinct : ∀ members, List.Forall₂ (Spells lib) members outcome.approvedList → members.Nodup
  nonneg : 0 ≤ outcome.currentWeight
  le : outcome.currentWeight ≤ INT64_MAX
  grants : permission.type = .Active → permission.Grants contract.type

variable {lib : TronWeb} {c : Chain}

/-- A check without an error has weighed the signatures. -/
private theorem weighed_of_checkSignatureWeight (hc : PermissionsAccepted lib c) {owner : Address}
    {contract : TronContract} {signatures : List JSString} {txId : JSString}
    {outcome : WeightOutcome}
    (h : checkSignatureWeight lib c owner contract signatures txId = .ok outcome)
    (herror : outcome.error = none) :
    ∃ permission, permissionById c owner (contract.Permission_id.getD 0) = some permission ∧
      Weighed lib contract signatures txId outcome permission := by
  unfold checkSignatureWeight at h
  dsimp only at h
  split at h
  · cases h
    cases herror
  rename_i permission hresolved
  refine ⟨permission, hresolved, ?_⟩
  have hsound : permission.Sound := sound_of_mem_permissionsOf hc
    (List.mem_of_find?_eq_some hresolved)
  -- whichever way the permission was checked, the signatures were weighed
  have hweighed : (if signatures.length > permission.keys.length then
        .ok { error := some (.ofString ("Signature count is " ++ toString signatures.length ++
                " more than key counts of permission : " ++ toString permission.keys.length))
              errorKind := some .permission, permission := some permission }
        else weighSignatures lib permission txId signatures 0 []) =
        (Except.ok outcome : Except JSString WeightOutcome) ∧
      (permission.type = .Active → permission.Grants contract.type) := by
    split at h
    · split at h
      · cases h
        cases herror
      · split at h
        · cases h
          cases herror
        · cases h
          cases herror
        · rename_i hgranted
          exact ⟨h, fun _ => grants_of_grantsContract hsound hgranted⟩
    · rename_i hzero
      refine ⟨h, fun hactive => ?_⟩
      have hfound : (permissionsOf c owner).find?
          (fun p => (p.id : ℤ) = contract.Permission_id.getD 0) = some permission := hresolved
      have hid : (permission.id : ℤ) = contract.Permission_id.getD 0 := by
        simpa using List.find?_some hfound
      rw [not_not.1 hzero, Int.natCast_eq_zero] at hid
      rw [hsound.owner_of_id hid] at hactive
      cases hactive
  obtain ⟨hweigh, hgrants⟩ := hweighed
  split at hweigh
  · cases hweigh
    cases herror
  · obtain ⟨hcounted, hreported⟩ := weighSignatures_counted .nil hweigh herror
    rw [List.nil_append] at hcounted
    obtain ⟨members, hsub, hspells, hsum⟩ := hcounted.members
    obtain ⟨hnonneg, hle⟩ := sum_members_le hsound hsub (nodup_of_spells hspells hcounted.nodup)
    exact ⟨hreported, hcounted, fun _ hm => nodup_of_spells hm hcounted.nodup, hsum ▸ hnonneg,
      hsum ▸ hle, hgrants⟩

/-- The broadcast path lets a transaction pass that was signed by its account's keys exactly when
the weight it is told reaches the threshold of the permission it is told. -/
private theorem validateSignatures_iff {owner : Address} {contract : TronContract}
    {signatures : List JSString} {txId : JSString} {outcome : WeightOutcome}
    (h : checkSignatureWeight lib c owner contract signatures txId = .ok outcome)
    (herror : outcome.error = none) {permission : Permission}
    (hreported : outcome.permission = some permission) {unlockedAccounts : JSString → Bool}
    {totalSignNum : ℤ} {ownerBase58 : JSString} (howner : toBase58 lib owner = .ok ownerBase58)
    (hlocked : unlockedAccounts ownerBase58 = false) (hsigned : signatures ≠ [])
    (hcap : signatures.length ≤ totalSignNum) :
    validateSignatures lib unlockedAccounts totalSignNum c owner contract signatures txId =
      .ok none ↔ permission.threshold ≤ outcome.currentWeight := by
  have hlength : signatures.length ≠ 0 := fun h0 => hsigned (List.length_eq_zero_iff.1 h0)
  have hpass : validateSignatures lib unlockedAccounts totalSignNum c owner contract signatures txId
      = if outcome.currentWeight < permission.threshold then .ok (some (.ofString "sig error"))
        else .ok none := by
    rw [validateSignatures, howner]
    change (if unlockedAccounts ownerBase58 = true then _ else _) = _
    rw [hlocked, if_neg (by decide), if_neg hlength, if_neg (by omega), h]
    change (match outcome.error with | some error => _ | none => _) = _
    rw [herror, hreported]
    rfl
  rw [hpass]
  split
  · constructor
    · intro hno
      cases hno
    · intro hle
      omega
  · constructor
    · intro _
      omega
    · intro _
      rfl

/-- Success means that each signature is by another member of the permission the transaction
declares, that the current weight is the sum of these members' weights, a signed 64-bit value, and
that an active permission grants the contract type.  The threshold is what the broadcast path
compares the weight with. -/
theorem checkSignatureWeight_counts (hc : PermissionsAccepted lib c) {owner : Address}
    {contract : TronContract} {signatures : List JSString} {txId : JSString}
    {outcome : WeightOutcome}
    (h : checkSignatureWeight lib c owner contract signatures txId = .ok outcome)
    (herror : outcome.error = none) :
    ∃ permission, permissionById c owner (contract.Permission_id.getD 0) = some permission ∧
      Weighed lib contract signatures txId outcome permission ∧
      ∀ (unlockedAccounts : JSString → Bool) (totalSignNum : ℤ) (ownerBase58 : JSString),
        toBase58 lib owner = .ok ownerBase58 → unlockedAccounts ownerBase58 = false →
          signatures ≠ [] → signatures.length ≤ totalSignNum →
            (validateSignatures lib unlockedAccounts totalSignNum c owner contract signatures txId =
              .ok none ↔ permission.threshold ≤ outcome.currentWeight) := by
  obtain ⟨permission, hresolved, hweighed⟩ := weighed_of_checkSignatureWeight hc h herror
  refine ⟨permission, hresolved, hweighed, ?_⟩
  intro unlockedAccounts totalSignNum ownerBase58 howner hlocked hsigned hcap
  exact validateSignatures_iff h herror hweighed.reported howner hlocked hsigned hcap

/-! ### A weight below the threshold -/

/-- The addresses of the private keys 1 and 2. -/
def sampleKeys : List (Address × JSString) :=
  [(0x7e5f4552091a69125d5dfcb7b8c2659029395bdf, .ofString "TMVQGm1qAQYVdetCeGRRkTWYYrLXuHK2HC"),
   (0x2b5ad5c4795c026514f8317c7a215e218dccd6cf, .ofString "TDvSsdrNM5eeXNL3czpa6AxLDHZA9nwe9K"),
   (1, .ofString "T9yD14Nj9j7xAB4dbGeiX9h8unkKLxmGkn")]

/-- The id 1, signed by the private key 1. -/
def sampleSignature : JSString :=
  .ofString ("9377c312145a5afb911bf9e8c067bcf6094c533603687850df502b61290bbf5e" ++
    "137332ada54d85f40743765a75b831b69799f2ca0e8c704fde4fc913db439d7d1c")

/-- The id of a transaction. -/
def sampleTxId : JSString :=
  .ofString "0000000000000000000000000000000000000000000000000000000000000001"

/-- The client library on the addresses of the sample. -/
def sampleLib : TronWeb where
  toHex text :=
    match sampleKeys.find? fun key => key.2 = text with
    | some key => .ok (tronHex key.1)
    | none => .ok text
  fromHex hex :=
    match sampleKeys.find? fun key => key.1 = Address.ofDigits (hex.drop 2) with
    | some key => .ok key.2
    | none => .error (.ofString "Invalid address")
  ecRecover txId signature :=
    if txId = sampleTxId ∧ signature = sampleSignature then
      .ok (.ofString "417E5F4552091A69125d5DfCb7b8C2659029395Bdf")
    else .error (.ofString "invalid signature")
  toLowerCase text := text.map fun u => if 65 ≤ u.toNat ∧ u.toNat ≤ 90 then u + 32 else u

/-- An owner permission that needs two keys; the first one is spelled both ways. -/
def samplePermission : Permission where
  type := .Owner
  id := 0
  permission_name := "owner"
  threshold := 2
  keys := [⟨.ofString "417e5f4552091a69125d5dfcb7b8c2659029395bdf", 1⟩,
    ⟨.ofString "TMVQGm1qAQYVdetCeGRRkTWYYrLXuHK2HC", 1⟩,
    ⟨.ofString "TDvSsdrNM5eeXNL3czpa6AxLDHZA9nwe9K", 1⟩]

/-- A permission with two keys, the first of them listed twice. -/
def sampleStored : StoredPermission where
  type := 0
  id := 0
  permissionName := "owner"
  threshold := 2
  parentId := 0
  operations := []
  keys := [(0x7e5f4552091a69125d5dfcb7b8c2659029395bdf, 1),
    (0x7e5f4552091a69125d5dfcb7b8c2659029395bdf, 1),
    (0x2b5ad5c4795c026514f8317c7a215e218dccd6cf, 1)]

/-- Account 1 under that permission. -/
def weightChain : Chain :=
  sampleState.chain.setRecord 1
    { sampleState.chain.recordOf 1 with permissions := some [sampleStored] }

/-- One approval of weight one. -/
def sampleOutcome : WeightOutcome where
  currentWeight := 1
  permission := some (toWire sampleStored)
  approvedList := [.ofString "TMVQGm1qAQYVdetCeGRRkTWYYrLXuHK2HC"]

/-- The base58 texts of the sample start with a `T`, and differ in the letter that follows. -/
private theorem exists_base58 :
    (∃ s, JSString.ofString "TMVQGm1qAQYVdetCeGRRkTWYYrLXuHK2HC" = 84 :: 77 :: s) ∧
    (∃ s, JSString.ofString "TDvSsdrNM5eeXNL3czpa6AxLDHZA9nwe9K" = 84 :: 68 :: s) ∧
    ∃ s, JSString.ofString "T9yD14Nj9j7xAB4dbGeiX9h8unkKLxmGkn" = 84 :: 57 :: s :=
  ⟨⟨_, (JSString.ofString_ofList _).trans rfl⟩, ⟨_, (JSString.ofString_ofList _).trans rfl⟩,
    ⟨_, (JSString.ofString_ofList _).trans rfl⟩⟩

/-- One more signature, by a signer who was not counted before. -/
private theorem weighSignatures_cons {lib : TronWeb} {permission : Permission}
    {txId raw signature signer : JSString}
    {signatures approvedList : List JSString} {currentWeight weight : ℤ}
    (hread : readSignature raw = .ok signature)
    (hrecover : recoverSigner lib txId signature = .ok signer)
    (hweight : weightOf lib permission.keys signer = .ok weight) (hmember : weight ≠ 0)
    (hnew : signer ∉ approvedList) :
    weighSignatures lib permission txId (raw :: signatures) currentWeight approvedList =
      weighSignatures lib permission txId signatures (currentWeight + weight)
        (approvedList ++ [signer]) := by
  simp only [weighSignatures, hread, hrecover, hweight, hmember, hnew, if_false]

/-- The sample library reads hex addresses as they are. -/
private theorem sampleLib_toHex_tronHex (a : Address) :
    sampleLib.toHex (tronHex a) = .ok (tronHex a) := by
  obtain ⟨⟨s₁, h₁⟩, ⟨s₂, h₂⟩, ⟨s₃, h₃⟩⟩ := exists_base58
  obtain ⟨ds, hds, -, -⟩ := tronHex_eq a
  have hnone : sampleKeys.find? (fun key => key.2 = tronHex a) = none := by
    rw [hds, sampleKeys, h₁, h₂, h₃]
    rfl
  simp only [sampleLib, hnone]

/-- A base58 text of the sample parses to the address it is listed with. -/
private theorem parse_base58 {text : JSString} {a : Address} (hstart : ∃ s, text = 84 :: s)
    (hto : sampleLib.toHex text = .ok (tronHex a)) : parseTronAddress sampleLib text = .ok a := by
  obtain ⟨s, rfl⟩ := hstart
  have hx : JSString.startsWith (84 :: s) (.ofString "0x") = false := rfl
  have hX : JSString.startsWith (84 :: s) (.ofString "0X") = false := rfl
  simp only [parseTronAddress, hx, hX, hto, isTronAddress_tronHex, ofDigits_tronHex,
    Bool.false_eq_true, false_and, or_self, if_false, if_true]

/-- The first sample address. -/
private theorem parse_first :
    parseTronAddress sampleLib (.ofString "TMVQGm1qAQYVdetCeGRRkTWYYrLXuHK2HC") =
      .ok 0x7e5f4552091a69125d5dfcb7b8c2659029395bdf := by
  obtain ⟨⟨s₁, h₁⟩, -⟩ := exists_base58
  refine parse_base58 ⟨_, h₁⟩ ?_
  simp only [sampleLib, sampleKeys, List.find?_cons, decide_true]

/-- The second sample address. -/
private theorem parse_second :
    parseTronAddress sampleLib (.ofString "TDvSsdrNM5eeXNL3czpa6AxLDHZA9nwe9K") =
      .ok 0x2b5ad5c4795c026514f8317c7a215e218dccd6cf := by
  obtain ⟨⟨s₁, h₁⟩, ⟨s₂, h₂⟩, -⟩ := exists_base58
  have hne : JSString.ofString "TMVQGm1qAQYVdetCeGRRkTWYYrLXuHK2HC" ≠
      .ofString "TDvSsdrNM5eeXNL3czpa6AxLDHZA9nwe9K" := by
    rw [h₁, h₂]
    intro h
    cases h
  refine parse_base58 ⟨_, h₂⟩ ?_
  simp only [sampleLib, sampleKeys, List.find?_cons, hne, decide_false, decide_true]

/-- The first sample address in hex. -/
private theorem parse_firstHex :
    parseTronAddress sampleLib (.ofString "417e5f4552091a69125d5dfcb7b8c2659029395bdf") =
      .ok 0x7e5f4552091a69125d5dfcb7b8c2659029395bdf := by
  have hprinted : "417e5f4552091a69125d5dfcb7b8c2659029395bdf" =
      toTronHex 0x7e5f4552091a69125d5dfcb7b8c2659029395bdf := by
    refine String.toList_inj.1 ?_
    rw [toTronHex, String.toList_append, hexPadded, String.toList_ofList]
    decide
  rw [hprinted]
  exact parseTronAddress_tronHex (sampleLib_toHex_tronHex _)

private theorem toStored_sample :
    toStoredPermissions sampleLib [samplePermission] = .ok [sampleStored] := by
  have hstored : toStoredPermission sampleLib samplePermission = .ok sampleStored := by
    simp only [toStoredPermission, samplePermission, List.mapM_cons, parse_firstHex, parse_first,
      parse_second]
    rfl
  rw [toStoredPermissions, List.mapM_cons, hstored]
  rfl

/-- The weights are summed key by key. -/
private theorem sumWeights_cons {lib : TronWeb} {address : JSString} {a : Address} {weight sum : ℤ}
    {keys : List PermissionKey} (h : parseTronAddress lib address = .ok a) (hpos : 0 < weight)
    (hle : sum + weight ≤ INT64_MAX) :
    sumWeights lib (⟨address, weight⟩ :: keys) sum = sumWeights lib keys (sum + weight) := by
  simp only [sumWeights, h, not_le.2 hpos, not_lt.2 hle, if_false]

private theorem permissionError_sample :
    permissionError sampleLib samplePermission 5 (fun _ => true) = none := by
  obtain ⟨⟨s₁, h₁⟩, ⟨s₂, h₂⟩, -⟩ := exists_base58
  have hhex : ∃ s, JSString.ofString "417e5f4552091a69125d5dfcb7b8c2659029395bdf" = 52 :: s :=
    ⟨_, (JSString.ofString_ofList _).trans rfl⟩
  obtain ⟨s, h⟩ := hhex
  have hdistinct : (samplePermission.keys.map fun key =>
      sampleLib.toLowerCase key.address).Nodup := by
    simp only [samplePermission, List.map_cons, List.map_nil, h, h₁, h₂, sampleLib]
    simp
  have hsum : sumWeights sampleLib samplePermission.keys 0 = .ok 3 := by
    rw [samplePermission, sumWeights_cons parse_firstHex (by decide) (by decide),
      sumWeights_cons parse_first (by decide) (by decide),
      sumWeights_cons parse_second (by decide) (by decide)]
    rfl
  have hname : (JSString.ofString samplePermission.permission_name).length ≤ 32 := by decide
  rw [permissionError, if_neg (by decide), if_neg (by decide), if_neg (by decide),
    if_neg (by decide), if_neg fun h => absurd h.2 (not_lt_of_ge hname), if_neg (by decide),
    if_neg (not_not.2 hdistinct), hsum]
  rfl

/-- The permission of the sample chain was accepted. -/
private theorem accepted_weightChain : PermissionsAccepted sampleLib weightChain := by
  have hstart : PermissionsAccepted sampleLib sampleState.chain := by
    intro owner stored h
    cases h
  refine hstart.setPermissions toStored_sample ?_
  intro p hp
  rw [List.mem_singleton.1 hp]
  exact ⟨⟨5, fun _ => true, permissionError_sample⟩, fun _ => rfl⟩

private theorem readSignature_sample : readSignature sampleSignature = .ok sampleSignature := by
  have hfirst : JSString.ofString
      "9377c312145a5afb911bf9e8c067bcf6094c533603687850df502b61290bbf5e" =
      [57, 51, 55, 55, 99, 51, 49, 50, 49, 52, 53, 97, 53, 97, 102, 98, 57, 49, 49, 98, 102, 57,
       101, 56, 99, 48, 54, 55, 98, 99, 102, 54, 48, 57, 52, 99, 53, 51, 51, 54, 48, 51, 54, 56,
       55, 56, 53, 48, 100, 102, 53, 48, 50, 98, 54, 49, 50, 57, 48, 98, 98, 102, 53, 101] :=
    (JSString.ofString_ofList _).trans rfl
  have hsecond : JSString.ofString
      "137332ada54d85f40743765a75b831b69799f2ca0e8c704fde4fc913db439d7d1c" =
      [49, 51, 55, 51, 51, 50, 97, 100, 97, 53, 52, 100, 56, 53, 102, 52, 48, 55, 52, 51, 55, 54,
       53, 97, 55, 53, 98, 56, 51, 49, 98, 54, 57, 55, 57, 57, 102, 50, 99, 97, 48, 101, 56, 99,
       55, 48, 52, 102, 100, 101, 52, 102, 99, 57, 49, 51, 100, 98, 52, 51, 57, 100, 55, 100, 49,
       99] :=
    (JSString.ofString_ofList _).trans rfl
  rw [sampleSignature, JSString.ofString_append, hfirst, hsecond]
  decide +kernel

private theorem recoverSigner_sample : recoverSigner sampleLib sampleTxId sampleSignature =
    .ok (.ofString "TMVQGm1qAQYVdetCeGRRkTWYYrLXuHK2HC") := by
  have hunits : JSString.ofString "417E5F4552091A69125d5DfCb7b8C2659029395Bdf" =
      [52, 49, 55, 69, 53, 70, 52, 53, 53, 50, 48, 57, 49, 65, 54, 57, 49, 50, 53, 100, 53, 68,
       102, 67, 98, 55, 98, 56, 67, 50, 54, 53, 57, 48, 50, 57, 51, 57, 53, 66, 100, 102] :=
    (JSString.ofString_ofList _).trans rfl
  have hdigits : ([55, 69, 53, 70, 52, 53, 53, 50, 48, 57, 49, 65, 54, 57, 49, 50, 53, 100, 53,
                    68, 102, 67, 98, 55, 98, 56, 67, 50, 54, 53, 57, 48, 50, 57, 51, 57, 53, 66,
                    100, 102] : JSString).filterMap
      JSString.digitValue =
      [7, 14, 5, 15, 4, 5, 5, 2, 0, 9, 1, 10, 6, 9, 1, 2, 5, 13, 5, 13, 15, 12, 11, 7, 11, 8, 12,
       2, 6, 5, 9, 0, 2, 9, 3, 9, 5, 11, 13, 15] := rfl
  have hvalue : JSString.digitsValue
      [7, 14, 5, 15, 4, 5, 5, 2, 0, 9, 1, 10, 6, 9, 1, 2, 5, 13, 5, 13, 15, 12, 11, 7, 11, 8, 12,
       2, 6, 5, 9, 0, 2, 9, 3, 9, 5, 11, 13, 15] =
      0x7e5f4552091a69125d5dfcb7b8c2659029395bdf := rfl
  have haddress : Address.ofDigits
      ((JSString.ofString "417E5F4552091A69125d5DfCb7b8C2659029395Bdf").drop 2) =
        0x7e5f4552091a69125d5dfcb7b8c2659029395bdf := by
    rw [hunits, Address.ofDigits, List.drop_succ_cons, List.drop_succ_cons, List.drop_zero, hdigits,
      hvalue]
    rfl
  have hrecover : sampleLib.ecRecover sampleTxId sampleSignature =
      .ok (.ofString "417E5F4552091A69125d5DfCb7b8C2659029395Bdf") := by
    simp only [sampleLib, and_self, if_true]
  have hfrom : sampleLib.fromHex (.ofString "417E5F4552091A69125d5DfCb7b8C2659029395Bdf") =
      .ok (.ofString "TMVQGm1qAQYVdetCeGRRkTWYYrLXuHK2HC") := by
    simp only [sampleLib, sampleKeys, haddress, List.find?_cons, decide_true]
  rw [recoverSigner, hrecover, ← hfrom]
  rfl

/-- A member has its weight. -/
private theorem weightOf_member {lib : TronWeb} {address signerBase58 : JSString} {weight : ℤ}
    {keys : List PermissionKey} (h : toBase58Loose lib address = .ok signerBase58) :
    weightOf lib (⟨address, weight⟩ :: keys) signerBase58 = .ok weight := by
  simp only [weightOf, h, if_true]

private theorem weightOf_sample : weightOf sampleLib (toWire sampleStored).keys
    (.ofString "TMVQGm1qAQYVdetCeGRRkTWYYrLXuHK2HC") = .ok 1 := by
  have hbase58 : toBase58 sampleLib 0x7e5f4552091a69125d5dfcb7b8c2659029395bdf =
      .ok (.ofString "TMVQGm1qAQYVdetCeGRRkTWYYrLXuHK2HC") := by
    simp only [toBase58, sampleLib, sampleKeys, ofDigits_tronHex, List.find?_cons, decide_true]
  have hloose : ∀ a, toBase58Loose sampleLib (tronHex a) = toBase58 sampleLib a := by
    intro a
    have hstart : (tronHex a).startsWith (.ofString "T") = false := by
      obtain ⟨ds, hds, -, -⟩ := tronHex_eq a
      rw [hds]
      rfl
    simp only [toBase58Loose, hstart, parseTronAddress_tronHex (sampleLib_toHex_tronHex a),
      Bool.false_eq_true, if_false]
    exact pure_bind a (toBase58 sampleLib)
  simp only [toWire, sampleStored, List.map_cons]
  rw [weightOf_member ((hloose _).trans hbase58)]

private theorem check_weightChain :
    checkSignatureWeight sampleLib weightChain 1 ⟨.ofString "TransferContract", none⟩
      [sampleSignature] sampleTxId = .ok sampleOutcome := by
  have hheld : (weightChain.account 1).isNone = false := rfl
  have hrecord : (weightChain.recordOf 1).permissions = some [sampleStored] := rfl
  have hpermission : permissionById weightChain 1 0 = some (toWire sampleStored) := by
    simp only [permissionById, permissionsOf, hheld, hrecord, storedPermissions]
    rfl
  have hweigh : weighSignatures sampleLib (toWire sampleStored) sampleTxId [sampleSignature] 0 [] =
      .ok sampleOutcome := by
    rw [weighSignatures_cons readSignature_sample recoverSigner_sample weightOf_sample one_ne_zero
      List.not_mem_nil]
    rfl
  simp only [checkSignatureWeight, Option.getD_none, hpermission, hweigh]
  rfl

/-- One key of weight one signs for a permission that needs two. -/
theorem checkSignatureWeight_below_threshold :
    ¬ ∀ (lib : TronWeb) (c : Chain), PermissionsAccepted lib c → ∀ (owner : Address)
      (contract : TronContract) (signatures : List JSString) (txId : JSString)
      (outcome : WeightOutcome) (permission : Permission),
      checkSignatureWeight lib c owner contract signatures txId = .ok outcome →
        outcome.error = none → outcome.permission = some permission →
          permission.threshold ≤ outcome.currentWeight := by
  intro h
  have hthreshold :=
    h sampleLib weightChain accepted_weightChain 1 _ _ _ _ _ check_weightChain rfl rfl
  exact absurd hthreshold (by decide)

theorem checkSignatureWeight_counts_sample :
    ∃ permission, permissionById weightChain 1 0 = some permission ∧
      Weighed sampleLib ⟨.ofString "TransferContract", none⟩ [sampleSignature] sampleTxId
        sampleOutcome permission ∧
      ∀ (unlockedAccounts : JSString → Bool) (totalSignNum : ℤ) (ownerBase58 : JSString),
        toBase58 sampleLib 1 = .ok ownerBase58 → unlockedAccounts ownerBase58 = false →
          [sampleSignature] ≠ [] → ([sampleSignature] : List JSString).length ≤ totalSignNum →
            (validateSignatures sampleLib unlockedAccounts totalSignNum weightChain 1
              ⟨.ofString "TransferContract", none⟩ [sampleSignature] sampleTxId = .ok none ↔
                permission.threshold ≤ sampleOutcome.currentWeight) :=
  checkSignatureWeight_counts accepted_weightChain check_weightChain rfl

end Dialect

end Tvmjs
