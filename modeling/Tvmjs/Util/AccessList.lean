import Tvmjs.Base.InsertionMap
import Tvmjs.Util.AccountRlp
import Tvmjs.Util.Hex

/-!
# Block level access lists

What the transactions of a block read and change: for each account the slots that were only read,
the values written to the others, and the balances, nonces and codes, each under the index of the
transaction.

* `BlockLevelAccessList` -- the list with its checkpoints;
* `addStorageWrite`, `addStorageRead`, `addNonceChange`, `addCodeChange` -- what is recorded.
-/

namespace Tvmjs

/-- An address in hex. -/
abbrev BALAddressHex := PrefixedHexString

/-- A storage slot in hex. -/
abbrev BALStorageKeyHex := PrefixedHexString

/-- The number of a transaction in its block. -/
abbrev BALAccessIndexNumber := ℕ

/-- What a block does to one account. -/
structure AccountAccesses where
  nonceChanges : InsertionMap BALAccessIndexNumber PrefixedHexString := .empty
  balanceChanges : InsertionMap BALAccessIndexNumber PrefixedHexString := .empty
  codeChanges : List (BALAccessIndexNumber × Bytes) := []
  storageChanges : InsertionMap BALStorageKeyHex (List (BALAccessIndexNumber × Bytes)) := .empty
  /-- A set: its members are the keys. -/
  storageReads : InsertionMap BALStorageKeyHex Unit := .empty

/-- The accounts of a list, in the order in which they were first met. -/
abbrev Accesses := InsertionMap BALAddressHex AccountAccesses

/-- What a checkpoint keeps. -/
structure BALCheckpoint where
  accesses : Accesses
  blockAccessIndex : BALAccessIndexNumber
  originalBalances : InsertionMap BALAddressHex ℕ
  originalCodesAtIndex : InsertionMap (BALAddressHex × BALAccessIndexNumber) Bytes

/-- The list of a block.  The source keys `originalCodesAtIndex` by the address, a dash and the
index, which can be told apart at the last dash. -/
structure BlockLevelAccessList where
  accesses : Accesses := .empty
  blockAccessIndex : BALAccessIndexNumber := 0
  /-- The newest checkpoint comes first. -/
  checkpoints : List BALCheckpoint := []
  originalBalances : InsertionMap BALAddressHex ℕ := .empty
  originalCodesAtIndex : InsertionMap (BALAddressHex × BALAccessIndexNumber) Bytes := .empty

/-! ### Hex strings -/

/-- The bytes without their leading zeros. -/
def stripLeadingZeros (bytes : Bytes) : Bytes := bytes.dropWhile (· = 0)

/-- `padToEven` behind `0x`. -/
def padToEvenHex (hex : PrefixedHexString) : PrefixedHexString :=
  '0' :: 'x' :: padToEven (hex.drop 2)

/-- The same, but `0x` alone is kept. -/
def normalizeStorageKeyHex (hex : PrefixedHexString) : BALStorageKeyHex :=
  if hex.drop 2 = [] then ['0', 'x'] else '0' :: 'x' :: padToEven (hex.drop 2)

/-- `num.toString(16)` -/
def toString16 (num : ℕ) : HexString := Nat.toDigits 16 num

/-- The digits of a number, without leading zeros. -/
def bigIntToHex (num : ℕ) : PrefixedHexString := '0' :: 'x' :: toString16 num

/-- The name of a slot in the list. -/
def slotKey (storageKey : Bytes) : BALStorageKeyHex :=
  normalizeStorageKeyHex (bytesToHex (stripLeadingZeros storageKey))

/-! ### Reading the list -/

namespace Accesses

/-- What the list says about an account. -/
def account (a : Accesses) (address : BALAddressHex) : AccountAccesses := (a.get address).getD {}

/-- Change what the list says about an account; one that is not there yet is added. -/
def modify (a : Accesses) (address : BALAddressHex) (f : AccountAccesses → AccountAccesses) :
    Accesses :=
  a.set address (f (a.account address))

end Accesses

/-! ### Recording -/

namespace BlockLevelAccessList

variable (bal : BlockLevelAccessList)

/-- Record something about one account, which is added to the list if it is not there. -/
def record (address : BALAddressHex) (f : AccountAccesses → AccountAccesses) :
    BlockLevelAccessList :=
  { bal with accesses := bal.accesses.modify address f }

/-- Notes that an account was met. -/
def addAddress (address : BALAddressHex) : BlockLevelAccessList :=
  if bal.accesses.has address then bal
  else { bal with accesses := bal.accesses.set address {} }

/-- Notes a slot that was read, unless it was written before. -/
def addStorageRead (address : BALAddressHex) (storageKey : Bytes) : BlockLevelAccessList :=
  let strippedKey := slotKey storageKey
  bal.record address fun access =>
    if access.storageChanges.has strippedKey then access
    else { access with storageReads := access.storageReads.set strippedKey () }

/-- A write of the original value is none, and so is a write of zero where the original value is not
known. -/
def isNoOp (value : Bytes) (originalValue : Option Bytes) : Bool :=
  match originalValue with
  | some originalValue =>
    bytesToHex (stripLeadingZeros value) = bytesToHex (stripLeadingZeros originalValue)
  | none => stripLeadingZeros value = []

/-- Notes what was written to a slot.  A write of the value the slot had before the block turns its
changes into a read. -/
def addStorageWrite (address : BALAddressHex) (storageKey value : Bytes)
    (blockAccessIndex : BALAccessIndexNumber) (originalValue : Option Bytes) :
    BlockLevelAccessList :=
  let strippedKey := slotKey storageKey
  if isNoOp value originalValue then
    -- all changes of the slot go, also those of earlier transactions
    let bal :=
      if bal.accesses.has address then
        bal.record address fun access =>
          { access with storageChanges := access.storageChanges.delete strippedKey }
      else bal
    bal.addStorageRead address storageKey
  else
    bal.record address fun access =>
      { access with
        storageChanges := access.storageChanges.set strippedKey
          ((access.storageChanges.get strippedKey).getD [] ++
            [(blockAccessIndex, stripLeadingZeros value)])
        storageReads := access.storageReads.delete strippedKey }

/-- Notes a balance.  The first original balance is kept, and a balance that is back at it has no
changes. -/
def addBalanceChange (address : BALAddressHex) (balance : ℕ)
    (blockAccessIndex : BALAccessIndexNumber) (originalBalance : Option ℕ) :
    BlockLevelAccessList :=
  let originalBalances :=
    match originalBalance with
    | some originalBalance =>
      if bal.originalBalances.has address then bal.originalBalances
      else bal.originalBalances.set address originalBalance
    | none => bal.originalBalances
  { bal.record address fun access =>
      { access with
        balanceChanges := access.balanceChanges.set blockAccessIndex
          (padToEvenHex (bytesToHex (stripLeadingZeros (bigIntToBytes balance)))) } with
    originalBalances }

/-- Notes a nonce. -/
def addNonceChange (address : BALAddressHex) (nonce : ℕ) (blockAccessIndex : BALAccessIndexNumber) :
    BlockLevelAccessList :=
  bal.record address fun access =>
    { access with
      nonceChanges := access.nonceChanges.set blockAccessIndex (padToEvenHex (bigIntToHex nonce)) }

/-- The code changes of an account after one at an index.  One that is there already gives way to
the new code, or goes if that is the original one; otherwise the new code is added unless it is what
was said to be there before. -/
def changeCode (codeChanges : List (BALAccessIndexNumber × Bytes)) (code : Bytes)
    (blockAccessIndex : BALAccessIndexNumber) (originalCode originalCodeAtIndex : Option Bytes) :
    List (BALAccessIndexNumber × Bytes) :=
  match codeChanges.findIdx? fun change => change.1 = blockAccessIndex with
  | some existingIndex =>
    if originalCodeAtIndex.any fun original => bytesToHex code = bytesToHex original then
      codeChanges.eraseIdx existingIndex
    else codeChanges.set existingIndex (blockAccessIndex, code)
  | none =>
    if originalCode.any fun original => bytesToHex code = bytesToHex original then codeChanges
    else codeChanges ++ [(blockAccessIndex, code)]

/-- Notes a code.  The first original code at an index is kept, and code that is back at it has no
change there. -/
def addCodeChange (address : BALAddressHex) (code : Bytes) (blockAccessIndex : BALAccessIndexNumber)
    (originalCode : Option Bytes) : BlockLevelAccessList :=
  let originalCodesAtIndex :=
    match originalCode with
    | some originalCode =>
      if bal.originalCodesAtIndex.has (address, blockAccessIndex) then bal.originalCodesAtIndex
      else bal.originalCodesAtIndex.set (address, blockAccessIndex) originalCode
    | none => bal.originalCodesAtIndex
  { bal.record address fun access =>
      { access with
        codeChanges := changeCode access.codeChanges code blockAccessIndex originalCode
          (originalCodesAtIndex.get (address, blockAccessIndex)) } with
    originalCodesAtIndex }

/-! ### Checkpoints -/

/-- Puts a snapshot on the stack. -/
def checkpoint : BlockLevelAccessList :=
  { bal with
    checkpoints := ⟨bal.accesses, bal.blockAccessIndex, bal.originalBalances,
      bal.originalCodesAtIndex⟩ :: bal.checkpoints }

/-- Drops the snapshot on top. -/
def commit : BlockLevelAccessList := { bal with checkpoints := bal.checkpoints.tail }

/-- What is left of an account after its changes have been reverted: the slots it read, and as read
the slots it had changed. -/
def keepReads (target : AccountAccesses) (access : AccountAccesses) : AccountAccesses :=
  let explicitReads := access.storageReads.keys.foldl (fun reads slot => reads.set slot ())
    target.storageReads
  { target with
    storageReads := access.storageChanges.keys.foldl
      (fun reads slot => if target.storageChanges.has slot then reads else reads.set slot ())
      explicitReads }

/-- Goes back to the snapshot on top.  The slots touched since are kept as reads where that is asked
for. -/
def revert (preserveReads : Bool) : BlockLevelAccessList :=
  match bal.checkpoints with
  | [] => bal
  | snapshot :: checkpoints =>
    if preserveReads then
      { bal with
        accesses := bal.accesses.entries.foldl
          (fun accesses e => accesses.modify e.1 fun target => keepReads target e.2)
          snapshot.accesses
        blockAccessIndex := snapshot.blockAccessIndex
        checkpoints }
    else
      { accesses := snapshot.accesses
        blockAccessIndex := snapshot.blockAccessIndex
        checkpoints
        originalBalances := snapshot.originalBalances
        originalCodesAtIndex := snapshot.originalCodesAtIndex }

end BlockLevelAccessList

end Tvmjs
