import Tvmjs.Base.SortedMap
import Tvmjs.Base.Text
import Tvmjs.Util.AccessList

/-!
# The encodings of access lists

A block level access list is hashed in its RLP encoding and handed out as JSON.  Both sort what a
block did at every level, and both can be read back.

* `BlockLevelAccessList.raw`, `serialize`, `toJSON` -- the two encoders;
* `createBlockLevelAccessListFromRLP`, `createBlockLevelAccessListFromJSON` -- the two decoders;
* `BALCall` -- the operations of the class.
-/

namespace Tvmjs

/-! ### Hex strings -/

/-- A hex string as the encoder takes it. -/
def hexUnits (hex : PrefixedHexString) : JSString := JSString.ofScalars (hex.map Char.toNat)

/-- `hexToBytes`, with digits of either case; nothing where it throws. -/
def hexToBytes (hex : PrefixedHexString) : Option Bytes :=
  if ['0', 'x'].isPrefixOf hex then readHex ((padToEven (hex.drop 2)).map Char.toLower) else none

/-- `hexToBigInt` of a slot, which is zero for `0x`. -/
def hexToBigInt (hex : PrefixedHexString) : ℕ := RLP.bytesToNumber ((hexToBytes hex).getD [])

/-- An index in hex, with an even number of digits. -/
def indexToHex (index : BALAccessIndexNumber) : PrefixedHexString :=
  padToEvenHex ('0' :: 'x' :: toString16 index)

/-- `parseInt(index, 16)`.  What is not a number of a transaction is refused here; the code keeps a
negative number and `NaN`. -/
def parseIndex (index : PrefixedHexString) : Option BALAccessIndexNumber :=
  match JSString.parseHex (hexUnits index) with
  | some (.ofNat n) => some n
  | _ => none

/-- What `normalizeHexForRLP` makes of a slot. -/
inductive HexOrBytes where
  | hex (hex : PrefixedHexString)
  | bytes (bytes : Bytes)

/-- A slot without its leading zeros, for the encoder. -/
def normalizeHexForRLP (hex : PrefixedHexString) : HexOrBytes :=
  let stripped := (hex.drop 2).dropWhile (· = '0')
  if stripped = [] then .bytes [] else .hex ('0' :: 'x' :: padToEven stripped)

/-- A quantity without leading zeros; zero has no digits at all. -/
def normalizeQuantityHexForRLP (hex : PrefixedHexString) : PrefixedHexString :=
  let stripped := (hex.drop 2).dropWhile (· = '0')
  if stripped = [] then ['0', 'x'] else '0' :: 'x' :: padToEven stripped

namespace HexOrBytes

/-- The bytes that are compared.  The comparison throws at a string that is no hex; the slots of a
list are. -/
def toBytes : HexOrBytes → Bytes
  | .hex s => (hexToBytes s).getD []
  | .bytes b => b

/-- What is handed to the encoder. -/
def raw : HexOrBytes → RLP.RawInput
  | .hex s => .str (hexUnits s)
  | .bytes b => .bytes b

end HexOrBytes

/-! ### Orders -/

/-- The loop of `compareLexicographicHexOrBytes`. -/
def compareLexicographic : Bytes → Bytes → ℤ
  | [], [] => 0
  | [], _ :: _ => -1
  | _ :: _, [] => 1
  | a :: as, b :: bs => if a < b then -1 else if b < a then 1 else compareLexicographic as bs

/-- The order of bytes, a hex string taken for the bytes it stands for. -/
def compareLexicographicHexOrBytes (a b : HexOrBytes) : ℤ :=
  compareLexicographic a.toBytes b.toBytes

/-- The order of slots. -/
def slotBefore (a b : BALStorageKeyHex) : Prop :=
  compareLexicographicHexOrBytes (.hex a) (.hex b) ≤ 0

instance : DecidableRel slotBefore := fun _ _ => inferInstanceAs (Decidable (_ ≤ (0 : ℤ)))

/-- The order of strings, by their code units. -/
def addressBefore (a b : BALAddressHex) : Bool := InsertionMap.lexLe Char.toNat a b

/-- `changes.sort((a, b) => a[0] - b[0])` -/
def sortByIndex {α : Type} (changes : List (BALAccessIndexNumber × α)) :
    List (BALAccessIndexNumber × α) :=
  changes.insertionSort fun a b => a.1 ≤ b.1

/-! ### RLP -/

/-- The address of system calls, left out while it has no changes. -/
def SYSTEM_ADDRESS : BALAddressHex := "0xfffffffffffffffffffffffffffffffffffffffe".toList

/-- The system address is left out unless something happened to it. -/
def shouldIncludeAddress (address : BALAddressHex) (access : AccountAccesses) : Bool :=
  address ≠ SYSTEM_ADDRESS || !access.storageReads.entries.isEmpty ||
    !access.storageChanges.entries.isEmpty || !access.balanceChanges.entries.isEmpty ||
    !access.nonceChanges.entries.isEmpty || !access.codeChanges.isEmpty

/-- A change under its index. -/
def rawChange (index : BALAccessIndexNumber) (value : RLP.RawInput) : RLP.RawInput :=
  .list [.number index, value]

/-- What the raw format says about an account. -/
def AccountAccesses.raw (data : AccountAccesses) (address : BALAddressHex) : RLP.RawInput :=
  .list [.str (hexUnits address),
    .list ((data.storageChanges.sortedBy slotBefore).map fun e =>
      .list [(normalizeHexForRLP e.1).raw,
        .list ((sortByIndex e.2).map fun c => rawChange c.1 (.bytes (stripLeadingZeros c.2)))]),
    .list (((data.storageReads.keys.map normalizeHexForRLP).insertionSort fun a b =>
      compareLexicographicHexOrBytes a b ≤ 0).map HexOrBytes.raw),
    .list ((data.balanceChanges.sortedBy (· ≤ ·)).map fun e =>
      rawChange e.1 (.str (hexUnits (normalizeQuantityHexForRLP e.2)))),
    .list ((data.nonceChanges.sortedBy (· ≤ ·)).map fun e =>
      rawChange e.1 (.str (hexUnits (normalizeQuantityHexForRLP e.2)))),
    .list ((sortByIndex data.codeChanges).map fun c => rawChange c.1 (.bytes c.2))]

namespace BlockLevelAccessList

variable (bal : BlockLevelAccessList)

/-- The accounts of the raw format, in the order of their addresses. -/
def included : List (BALAddressHex × AccountAccesses) :=
  (bal.accesses.sortedBy fun a b => addressBefore a b).filter fun e => shouldIncludeAddress e.1 e.2

/-- The list as it is handed to the encoder. -/
def raw : RLP.RawInput := .list (bal.included.map fun e => e.2.raw e.1)

/-- The encoded list; it throws where a hex string is none. -/
def serialize : Except RLP.ToBytesError Bytes := RLP.encodeRaw bal.raw

/-- What is left of the list by an encoder, which sorts the changes of the slots where they are.  An
account that is left out has none. -/
def sortChanges : BlockLevelAccessList :=
  { bal with accesses := bal.accesses.mapValues fun access =>
      { access with storageChanges := access.storageChanges.mapValues sortByIndex } }

end BlockLevelAccessList

/-- The members of a list; bytes without any byte pass for an empty one. -/
def rlpItems : RLP.Input → Option (List RLP.Input)
  | .list l => some l
  | .bytes [] => some []
  | .bytes _ => none

/-- An index and its value.  The code lets a list, or nothing, pass for a value or a code. -/
def changeFromRLP : RLP.Input → Option (BALAccessIndexNumber × Bytes)
  | .list (.bytes index :: .bytes value :: _) =>
    -- `bytesToInt`
    if (RLP.bytesToNumber index : ℤ) > MAX_SAFE_INTEGER then none
    else some (RLP.bytesToNumber index, value)
  | _ => none

/-- Changes as they are read back. -/
def changesFromRLP (changes : RLP.Input) : Option (List (BALAccessIndexNumber × Bytes)) := do
  (← rlpItems changes).mapM changeFromRLP

/-- A slot with its changes. -/
def slotFromRLP : RLP.Input → Option (BALStorageKeyHex × List (BALAccessIndexNumber × Bytes))
  | .list (.bytes slot :: changes :: _) => do
    return (normalizeStorageKeyHex (bytesToHex slot), ← changesFromRLP changes)
  | _ => none

/-- A slot that was read, as it is read back. -/
def readFromRLP : RLP.Input → Option BALStorageKeyHex
  | .bytes slot => some (normalizeStorageKeyHex (bytesToHex slot))
  | .list _ => none

namespace AccountAccesses

/-- Changes of a slot behind those that are there already. -/
def addSlot (changes : InsertionMap BALStorageKeyHex (List (BALAccessIndexNumber × Bytes)))
    (e : BALStorageKeyHex × List (BALAccessIndexNumber × Bytes)) :
    InsertionMap BALStorageKeyHex (List (BALAccessIndexNumber × Bytes)) :=
  changes.set e.1 ((changes.get e.1).getD [] ++ e.2)

/-- The loops of the decoders, once all is read. -/
def extend (access : AccountAccesses)
    (storageChanges : List (BALStorageKeyHex × List (BALAccessIndexNumber × Bytes)))
    (storageReads : List BALStorageKeyHex)
    (balanceChanges nonceChanges : List (BALAccessIndexNumber × PrefixedHexString))
    (codeChanges : List (BALAccessIndexNumber × Bytes)) : AccountAccesses where
  storageChanges := storageChanges.foldl addSlot access.storageChanges
  storageReads := storageReads.foldl (fun reads slot => reads.set slot ()) access.storageReads
  balanceChanges := balanceChanges.foldl (fun m e => m.set e.1 e.2) access.balanceChanges
  nonceChanges := nonceChanges.foldl (fun m e => m.set e.1 e.2) access.nonceChanges
  codeChanges := access.codeChanges ++ codeChanges

end AccountAccesses

/-- A balance or a nonce, in hex. -/
def quantityFromRLP (e : BALAccessIndexNumber × Bytes) : BALAccessIndexNumber × PrefixedHexString :=
  (e.1, padToEvenHex (bytesToHex e.2))

/-- One turn of the loop over the accounts. -/
def accountFromRLP (accesses : Accesses) : RLP.Input → Option Accesses
  | .list (.bytes addressBytes :: storageChangesRaw :: storageReadsRaw :: balanceChangesRaw ::
      nonceChangesRaw :: codeChangesRaw :: _) => do
    let storageChanges ← (← rlpItems storageChangesRaw).mapM slotFromRLP
    let storageReads ← (← rlpItems storageReadsRaw).mapM readFromRLP
    let balanceChanges ← changesFromRLP balanceChangesRaw
    let nonceChanges ← changesFromRLP nonceChangesRaw
    let codeChanges ← changesFromRLP codeChangesRaw
    return accesses.modify (bytesToHex addressBytes) fun access =>
      access.extend storageChanges storageReads (balanceChanges.map quantityFromRLP)
        (nonceChanges.map quantityFromRLP) codeChanges
  | _ => none

/-- `createBlockLevelAccessListFromRLP`; nothing where it throws. -/
def createBlockLevelAccessListFromRLP (rlp : Bytes) : Option BlockLevelAccessList := do
  let decoded ← (RLP.decode rlp).toOption
  let accesses ← (← rlpItems decoded).foldlM accountFromRLP .empty
  return { accesses }

/-! ### JSON -/

/-- The JSON form of a balance. -/
structure BALJSONBalanceChange where
  blockAccessIndex : PrefixedHexString
  postBalance : PrefixedHexString

/-- The JSON form of a nonce. -/
structure BALJSONNonceChange where
  blockAccessIndex : PrefixedHexString
  postNonce : PrefixedHexString

/-- The JSON form of a code. -/
structure BALJSONCodeChange where
  blockAccessIndex : PrefixedHexString
  newCode : PrefixedHexString

/-- The JSON form of a value written to a slot. -/
structure BALJSONStorageChange where
  blockAccessIndex : PrefixedHexString
  postValue : PrefixedHexString

/-- The JSON form of a slot and what was written to it. -/
structure BALJSONSlotChanges where
  slot : BALStorageKeyHex
  slotChanges : List BALJSONStorageChange

/-- The JSON form of an account. -/
structure BALJSONAccountChanges where
  address : BALAddressHex
  balanceChanges : List BALJSONBalanceChange
  nonceChanges : List BALJSONNonceChange
  codeChanges : List BALJSONCodeChange
  storageChanges : List BALJSONSlotChanges
  storageReads : List BALStorageKeyHex

section ToJSON

-- `a.localeCompare(b)` depends on the locale
variable (localeCompare : PrefixedHexString → PrefixedHexString → ℤ)

/-- What the JSON format says about an account. -/
def AccountAccesses.toJSON (access : AccountAccesses) (address : BALAddressHex) :
    BALJSONAccountChanges where
  address
  balanceChanges := (access.balanceChanges.sortedBy (· ≤ ·)).map fun e => ⟨indexToHex e.1, e.2⟩
  nonceChanges := (access.nonceChanges.sortedBy (· ≤ ·)).map fun e => ⟨indexToHex e.1, e.2⟩
  codeChanges := access.codeChanges.map fun c => ⟨indexToHex c.1, bytesToHex c.2⟩
  storageChanges :=
    (access.storageChanges.sortedBy fun a b => localeCompare a b ≤ 0).map fun e =>
      ⟨e.1, (sortByIndex e.2).map fun c => ⟨indexToHex c.1, padToEvenHex (bytesToHex c.2)⟩⟩
  storageReads := access.storageReads.keys.insertionSort fun a b =>
    (hexToBigInt a : ℤ) - hexToBigInt b ≤ 0

/-- The accounts in JSON, sorted by the comparison of the locale. -/
def BlockLevelAccessList.toJSON (bal : BlockLevelAccessList) : List BALJSONAccountChanges :=
  ((bal.accesses.sortedBy fun a b => localeCompare a b ≤ 0).filter fun e =>
    shouldIncludeAddress e.1 e.2).map fun e => e.2.toJSON localeCompare e.1

end ToJSON

/-- A change that is read from JSON. -/
def changeFromJSON (blockAccessIndex value : PrefixedHexString) :
    Option (BALAccessIndexNumber × Bytes) := do
  return (← parseIndex blockAccessIndex, ← hexToBytes value)

/-- A balance or a nonce as it is read from JSON. -/
def quantityFromJSON (blockAccessIndex value : PrefixedHexString) :
    Option (BALAccessIndexNumber × PrefixedHexString) := do
  return (← parseIndex blockAccessIndex, padToEvenHex value)

/-- A slot and what was written to it, as they are read from JSON. -/
def slotFromJSON (slotChange : BALJSONSlotChanges) :
    Option (BALStorageKeyHex × List (BALAccessIndexNumber × Bytes)) := do
  return (normalizeStorageKeyHex slotChange.slot,
    ← slotChange.slotChanges.mapM fun c => changeFromJSON c.blockAccessIndex c.postValue)

/-- One turn of the loop over the accounts. -/
def accountFromJSON (accesses : Accesses) (account : BALJSONAccountChanges) : Option Accesses := do
  let storageChanges ← account.storageChanges.mapM slotFromJSON
  let balanceChanges ← account.balanceChanges.mapM fun c =>
    quantityFromJSON c.blockAccessIndex c.postBalance
  let nonceChanges ← account.nonceChanges.mapM fun c =>
    quantityFromJSON c.blockAccessIndex c.postNonce
  let codeChanges ← account.codeChanges.mapM fun c => changeFromJSON c.blockAccessIndex c.newCode
  return accesses.modify account.address fun access =>
    access.extend storageChanges (account.storageReads.map normalizeStorageKeyHex) balanceChanges
      nonceChanges codeChanges

/-- `createBlockLevelAccessListFromJSON`; nothing where it throws. -/
def createBlockLevelAccessListFromJSON (json : List BALJSONAccountChanges) :
    Option BlockLevelAccessList := do
  let accesses ← json.foldlM accountFromJSON .empty
  return { accesses }

/-! ### The operations -/

namespace BlockLevelAccessList

variable (bal : BlockLevelAccessList)

/-- Balances that are what they were before the transaction are no change of this transaction. -/
def cleanupNetZeroBalanceChanges : BlockLevelAccessList :=
  { bal with
    accesses := bal.originalBalances.entries.foldl
      (fun accesses e =>
        match accesses.get e.1 with
        | none => accesses
        | some access =>
          match access.balanceChanges.values.getLast? with
          | none => accesses
          | some finalBalanceHex =>
            if hexToBigInt finalBalanceHex = e.2 then
              accesses.set e.1
                { access with balanceChanges := access.balanceChanges.delete bal.blockAccessIndex }
            else accesses)
      bal.accesses
    originalBalances := .empty }

/-- What is left of an account that destroyed itself: what was read of it, and its balances if it
had any before the transaction. -/
def destroyed (originalBalance : Option ℕ) (access : AccountAccesses) : AccountAccesses where
  storageReads := access.storageChanges.keys.foldl (fun reads slot => reads.set slot ())
    access.storageReads
  balanceChanges :=
    match originalBalance with
    | none => .empty
    | some balance => if balance = 0 then .empty else access.balanceChanges

/-- Clears what was noted of accounts that are gone. -/
def cleanupSelfdestructed (addresses : List BALAddressHex) : BlockLevelAccessList :=
  { bal with
    accesses := addresses.foldl
      (fun accesses address =>
        match accesses.get address with
        | none => accesses
        | some access => accesses.set address (destroyed (bal.originalBalances.get address) access))
      bal.accesses }

end BlockLevelAccessList

/-- The number of a transaction, as a number that stands for itself alone. -/
abbrev SafeIndex := { index : BALAccessIndexNumber // (index : ℤ) ≤ MAX_SAFE_INTEGER }

/-- The operations of the class.  Addresses are given in the form in which every caller has them,
the hex form of their bytes. -/
inductive BALCall where
  | addAddress (address : Bytes)
  | addStorageRead (address storageKey : Bytes)
  | addStorageWrite (address storageKey value : Bytes) (blockAccessIndex : SafeIndex)
      (originalValue : Option Bytes)
  | addBalanceChange (address : Bytes) (balance : ℕ) (blockAccessIndex : SafeIndex)
      (originalBalance : Option ℕ)
  | addNonceChange (address : Bytes) (nonce : ℕ) (blockAccessIndex : SafeIndex)
  | addCodeChange (address code : Bytes) (blockAccessIndex : SafeIndex)
      (originalCode : Option Bytes)
  | cleanupNetZeroBalanceChanges
  | cleanupSelfdestructed (addresses : List Bytes)
  | setBlockAccessIndex (blockAccessIndex : BALAccessIndexNumber)
  | checkpoint
  | commit
  | revert (preserveReads : Bool)
  /-- `serialize`, `hash` or `toJSON` -/
  | encode

/-- What an operation makes of the list. -/
def BALCall.run (bal : BlockLevelAccessList) : BALCall → BlockLevelAccessList
  | addAddress address => bal.addAddress (bytesToHex address)
  | addStorageRead address storageKey => bal.addStorageRead (bytesToHex address) storageKey
  | addStorageWrite address storageKey value blockAccessIndex originalValue =>
    bal.addStorageWrite (bytesToHex address) storageKey value blockAccessIndex originalValue
  | addBalanceChange address balance blockAccessIndex originalBalance =>
    bal.addBalanceChange (bytesToHex address) balance blockAccessIndex originalBalance
  | addNonceChange address nonce blockAccessIndex =>
    bal.addNonceChange (bytesToHex address) nonce blockAccessIndex
  | addCodeChange address code blockAccessIndex originalCode =>
    bal.addCodeChange (bytesToHex address) code blockAccessIndex originalCode
  | cleanupNetZeroBalanceChanges => bal.cleanupNetZeroBalanceChanges
  | cleanupSelfdestructed addresses => bal.cleanupSelfdestructed (addresses.map bytesToHex)
  | setBlockAccessIndex blockAccessIndex => { bal with blockAccessIndex }
  | checkpoint => bal.checkpoint
  | commit => bal.commit
  | revert preserveReads => bal.revert preserveReads
  | encode => bal.sortChanges

end Tvmjs
