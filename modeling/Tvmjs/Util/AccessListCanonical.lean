import Tvmjs.Util.AccessListHex
import Tvmjs.Util.AccessListRuns

/-!
# Canonical access lists

The operations of the class keep every name of a slot, every balance and every nonce in the hex form
of bytes, and no account has two codes under one index.

* `BlockLevelAccessList.Canonical` -- the invariant;
* `canonical_foldl_run` -- **every list that the operations build has it**;
* `BlockLevelAccessList.raw_congr` -- lists of the same accounts have the same raw format.
-/

namespace Tvmjs

/-! ### The invariant -/

/-- The name of a slot: the hex form of bytes without leading zeros. -/
def CanonicalSlot (slot : BALStorageKeyHex) : Prop :=
  ∃ b, slot = bytesToHex b ∧ stripLeadingZeros b = b

/-- A balance or a nonce under a safe index. -/
def CanonicalQuantity (index : BALAccessIndexNumber) (value : PrefixedHexString) : Prop :=
  (index : ℤ) ≤ MAX_SAFE_INTEGER ∧ ∃ b, value = bytesToHex b

namespace AccountAccesses

/-- What is recorded for an account is as the codec writes it. -/
structure Canonical (access : AccountAccesses) : Prop where
  slots : ∀ slot changes, access.storageChanges.get slot = some changes →
    CanonicalSlot slot ∧ ∀ c ∈ changes, (c.1 : ℤ) ≤ MAX_SAFE_INTEGER
  reads : ∀ slot, access.storageReads.has slot = true → CanonicalSlot slot
  balances : ∀ index balance, access.balanceChanges.get index = some balance →
    CanonicalQuantity index balance
  nonces : ∀ index nonce, access.nonceChanges.get index = some nonce →
    CanonicalQuantity index nonce
  codes : ∀ c ∈ access.codeChanges, (c.1 : ℤ) ≤ MAX_SAFE_INTEGER
  nodup_codes : (access.codeChanges.map Prod.fst).Nodup

/-- Nothing is recorded. -/
theorem canonical_empty : ({} : AccountAccesses).Canonical where
  slots := nofun
  reads := nofun
  balances := nofun
  nonces := nofun
  codes := nofun
  nodup_codes := List.nodup_nil

end AccountAccesses

/-- Every address is the hex form of bytes, and what is recorded for it is canonical. -/
def Accesses.Canonical (a : Accesses) : Prop :=
  ∀ address access, a.get address = some access →
    (∃ b, address = bytesToHex b) ∧ access.Canonical

/-- The list and its checkpoints are canonical. -/
structure BlockLevelAccessList.Canonical (bal : BlockLevelAccessList) : Prop where
  accesses : bal.accesses.Canonical
  checkpoints : ∀ c ∈ bal.checkpoints, c.accesses.Canonical

/-! ### Maps -/

section Maps

variable {κ α : Type*} [DecidableEq κ] {p : κ → α → Prop}

/-- What holds of all entries and of a new one holds after it was written. -/
private theorem forall_set {m : InsertionMap κ α} (h : ∀ k v, m.get k = some v → p k v) {k : κ}
    {v : α}
    (hv : p k v) : ∀ k' v', (m.set k v).get k' = some v' → p k' v' := by
  intro k' v' hget
  rw [InsertionMap.get_set] at hget
  split at hget
  · rename_i heq
    rw [heq, ← Option.some.inj hget]
    exact hv
  · exact h k' v' hget

/-- What holds of every entry holds of those that are left. -/
private theorem forall_delete {m : InsertionMap κ α} (h : ∀ k v, m.get k = some v → p k v) (k : κ) :
    ∀ k' v', (m.delete k).get k' = some v' → p k' v' := by
  intro k' v' hget
  rw [InsertionMap.get_delete] at hget
  split at hget
  · cases hget
  · exact h k' v' hget

end Maps

/-- A slot is recorded in its canonical form. -/
private theorem canonicalSlot_slotKey (storageKey : Bytes) : CanonicalSlot (slotKey storageKey) :=
  ⟨stripLeadingZeros storageKey, normalizeStorageKeyHex_bytesToHex _, stripLeadingZeros_idem _⟩

namespace Accesses

variable {a : Accesses}

/-- An account that is not there has nothing recorded. -/
theorem Canonical.account (h : a.Canonical) (address : BALAddressHex) :
    (a.account address).Canonical := by
  rw [Accesses.account]
  cases hget : a.get address with
  | none => exact AccountAccesses.canonical_empty
  | some access => exact (h address access hget).2

/-- A canonical account may be set. -/
theorem Canonical.set (h : a.Canonical) {address : BALAddressHex} {access : AccountAccesses}
    (haddress : ∃ b, address = bytesToHex b) (haccess : access.Canonical) :
    Canonical (a.set address access) :=
  forall_set h ⟨haddress, haccess⟩

/-- A canonical change of one account. -/
theorem Canonical.modify (h : a.Canonical) {address : BALAddressHex}
    {f : AccountAccesses → AccountAccesses} (haddress : ∃ b, address = bytesToHex b)
    (hf : ∀ access, access.Canonical → (f access).Canonical) :
    (a.modify address f).Canonical :=
  h.set haddress (hf _ (h.account address))

/-- What every turn of a loop keeps, the loop keeps. -/
theorem Canonical.foldl {ι : Type} (f : Accesses → ι → Accesses) (l : List ι)
    (hf : ∀ a, ∀ e ∈ l, Canonical a → (f a e).Canonical) (h : a.Canonical) :
    (l.foldl f a).Canonical := by
  induction l generalizing a with
  | nil => exact h
  | cons e l ih =>
    exact ih (fun a e he => hf a e (List.mem_cons_of_mem _ he)) (hf a e List.mem_cons_self h)

end Accesses

/-! ### One account -/

namespace AccountAccesses

variable {access : AccountAccesses} (h : access.Canonical)

include h

/-- A canonical slot may be added to those that were read. -/
theorem Canonical.read {slot : BALStorageKeyHex} (hslot : CanonicalSlot slot) :
    { access with storageReads := access.storageReads.set slot () }.Canonical := by
  refine { h with reads := fun slot' hhas => ?_ }
  rw [InsertionMap.has_set, Bool.or_eq_true, decide_eq_true_eq] at hhas
  obtain rfl | hhas := hhas
  · exact hslot
  · exact h.reads slot' hhas

/-- Slots that are added to the reads. -/
private theorem Canonical.readAll (skip : BALStorageKeyHex → Bool) {l : List BALStorageKeyHex}
    (hl : ∀ slot ∈ l, CanonicalSlot slot) :
    { access with
      storageReads := l.foldl (fun reads slot => if skip slot then reads else reads.set slot ())
        access.storageReads }.Canonical := by
  refine { h with reads := fun slot hhas => ?_ }
  obtain hhas | ⟨hmem, -⟩ := (InsertionMap.has_foldl_set skip l access.storageReads slot).1 hhas
  · exact h.reads slot hhas
  · exact hl slot hmem

/-- The slots that were written are canonical. -/
private theorem Canonical.slotKeys : ∀ slot ∈ access.storageChanges.keys, CanonicalSlot slot := by
  intro slot hmem
  obtain ⟨changes, hget⟩ := Option.isSome_iff_exists.1 (InsertionMap.get_isSome_iff.2 hmem)
  exact (h.slots slot changes hget).1

/-- The slots that were read are canonical. -/
theorem Canonical.readKeys : ∀ slot ∈ access.storageReads.keys, CanonicalSlot slot :=
  fun slot hmem => h.reads slot (InsertionMap.has_iff.2 hmem)

/-- Codes are bytes already. -/
theorem Canonical.changeCode (code : Bytes) (index : SafeIndex)
    (originalCode originalCodeAtIndex : Option Bytes) :
    { access with
      codeChanges := BlockLevelAccessList.changeCode access.codeChanges code index originalCode
        originalCodeAtIndex }.Canonical := by
  obtain ⟨hcodes, hnodup⟩ :
      (∀ c ∈ BlockLevelAccessList.changeCode access.codeChanges code index originalCode
        originalCodeAtIndex, (c.1 : ℤ) ≤ MAX_SAFE_INTEGER) ∧
      ((BlockLevelAccessList.changeCode access.codeChanges code index originalCode
        originalCodeAtIndex).map Prod.fst).Nodup := by
    rw [BlockLevelAccessList.changeCode]
    split
    · rename_i i hfind
      obtain ⟨hi, hindex, -⟩ := List.findIdx?_eq_some_iff_getElem.1 hfind
      split
      · exact ⟨fun c hc => h.codes c (List.mem_of_mem_eraseIdx hc),
          h.nodup_codes.sublist ((List.eraseIdx_sublist _ _).map _)⟩
      · refine ⟨fun c hc => ?_, ?_⟩
        · obtain hc | rfl := List.mem_or_eq_of_mem_set hc
          · exact h.codes c hc
          · exact index.2
        · -- the index in this place stays
          have hsame : (access.codeChanges.set i (index.1, code)).map Prod.fst =
              access.codeChanges.map Prod.fst := by
            have hlt : i < (access.codeChanges.map Prod.fst).length := by
              rwa [List.length_map]
            have hfst : (index.1 : ℕ) = (access.codeChanges.map Prod.fst)[i] := by
              rw [List.getElem_map]
              exact (of_decide_eq_true hindex).symm
            rw [List.map_set, hfst, List.set_getElem_self]
          rw [hsame]
          exact h.nodup_codes
    · rename_i hfind
      split
      · exact ⟨h.codes, h.nodup_codes⟩
      · refine ⟨fun c hc => ?_, ?_⟩
        · obtain hc | hc := List.mem_append.1 hc
          · exact h.codes c hc
          · rw [List.mem_singleton.1 hc]
            exact index.2
        · rw [List.map_append]
          refine h.nodup_codes.append (List.nodup_singleton _) fun i hi hi' => ?_
          obtain ⟨c, hc, rfl⟩ := List.mem_map.1 hi
          have hne := List.findIdx?_eq_none_iff.1 hfind c hc
          exact of_decide_eq_false hne (List.mem_singleton.1 hi')
  exact { h with codes := hcodes, nodup_codes := hnodup }

omit h in
/-- The empty map holds nothing. -/
private theorem elim_get_empty {κ α : Type*} [DecidableEq κ] {k : κ} {value : α} {P : Prop}
    (hget : (InsertionMap.empty : InsertionMap κ α).get k = some value) : P :=
  absurd hget.symm (Option.some_ne_none value)

/-- Of an account that is gone only its slots are left, as reads. -/
theorem Canonical.destroyed (originalBalance : Option ℕ) :
    (BlockLevelAccessList.destroyed originalBalance access).Canonical where
  slots _ _ hget := elim_get_empty hget
  reads := (h.readAll (fun _ => false) h.slotKeys).reads
  balances := by
    obtain _ | balance := originalBalance
    · exact fun _ _ hget => elim_get_empty hget
    · change ∀ index value,
        (if balance = 0 then InsertionMap.empty else access.balanceChanges).get index = some value →
          CanonicalQuantity index value
      split
      · exact fun _ _ hget => elim_get_empty hget
      · exact h.balances
  nonces _ _ hget := elim_get_empty hget
  codes _ hc := absurd hc List.not_mem_nil
  nodup_codes := List.nodup_nil

/-- The reads that outlive a revert are canonical on both sides. -/
theorem Canonical.keepReads {target : AccountAccesses} (htarget : target.Canonical) :
    (BlockLevelAccessList.keepReads target access).Canonical :=
  (htarget.readAll (fun _ => false) h.readKeys).readAll
    (fun slot => target.storageChanges.has slot) h.slotKeys

/-- Sorting changes the order only. -/
theorem Canonical.sortChanges :
    { access with
      storageChanges := access.storageChanges.mapValues sortByIndex }.Canonical := by
  refine { h with slots := fun slot changes hget => ?_ }
  rw [InsertionMap.get_mapValues] at hget
  obtain ⟨changes', hget', rfl⟩ := Option.map_eq_some_iff.1 hget
  obtain ⟨hslot, hsafe⟩ := h.slots slot changes' hget'
  exact ⟨hslot, fun c hc => hsafe c ((List.mem_insertionSort _).1 hc)⟩

end AccountAccesses

/-! ### The operations -/

namespace BlockLevelAccessList

variable {bal : BlockLevelAccessList}

/-- A new list is canonical. -/
theorem canonical_empty : ({} : BlockLevelAccessList).Canonical := ⟨nofun, nofun⟩

variable (h : bal.Canonical)

include h

/-- A canonical change of the account at an address. -/
theorem Canonical.record {address : Bytes} {f : AccountAccesses → AccountAccesses}
    (hf : ∀ access, access.Canonical → (f access).Canonical) :
    (bal.record (bytesToHex address) f).Canonical :=
  ⟨h.accesses.modify ⟨address, rfl⟩ hf, h.checkpoints⟩

theorem Canonical.addAddress (address : Bytes) :
    (bal.addAddress (bytesToHex address)).Canonical := by
  rw [BlockLevelAccessList.addAddress]
  split
  · exact h
  · exact ⟨h.accesses.set ⟨address, rfl⟩ AccountAccesses.canonical_empty, h.checkpoints⟩

theorem Canonical.addStorageRead (address storageKey : Bytes) :
    (bal.addStorageRead (bytesToHex address) storageKey).Canonical := by
  refine h.record fun access haccess => ?_
  split
  · exact haccess
  · exact haccess.read (canonicalSlot_slotKey storageKey)

theorem Canonical.addStorageWrite (address storageKey value : Bytes) (index : SafeIndex)
    (originalValue : Option Bytes) :
    (bal.addStorageWrite (bytesToHex address) storageKey value index originalValue).Canonical := by
  rw [BlockLevelAccessList.addStorageWrite]
  dsimp only
  split
  · refine Canonical.addStorageRead ?_ address storageKey
    split
    · exact h.record fun access haccess =>
        { haccess with slots := forall_delete haccess.slots _ }
    · exact h
  · refine h.record fun access haccess => { haccess with slots := ?_, reads := ?_ }
    · refine forall_set haccess.slots ⟨canonicalSlot_slotKey storageKey, fun c hc => ?_⟩
      obtain hc | hc := List.mem_append.1 hc
      · cases hget : access.storageChanges.get (slotKey storageKey) with
        | none =>
          rw [hget] at hc
          cases hc
        | some changes =>
          rw [hget] at hc
          exact (haccess.slots _ changes hget).2 c hc
      · rw [List.mem_singleton.1 hc]
        exact index.2
    · intro slot hhas
      rw [InsertionMap.has_delete, Bool.and_eq_true] at hhas
      exact haccess.reads slot hhas.2

theorem Canonical.addBalanceChange (address : Bytes) (balance : ℕ) (index : SafeIndex)
    (originalBalance : Option ℕ) :
    (bal.addBalanceChange (bytesToHex address) balance index originalBalance).Canonical := by
  refine ⟨h.accesses.modify ⟨address, rfl⟩ fun _ haccess => ?_, h.checkpoints⟩
  exact { haccess with
    balances := forall_set haccess.balances
      ⟨index.2, stripLeadingZeros (bigIntToBytes balance), padToEvenHex_bytesToHex _⟩ }

theorem Canonical.addNonceChange (address : Bytes) (nonce : ℕ) (index : SafeIndex) :
    (bal.addNonceChange (bytesToHex address) nonce index).Canonical :=
  h.record fun _ haccess =>
    { haccess with
      nonces := forall_set haccess.nonces
        ⟨index.2, bigIntToBytes nonce, padToEvenHex_bigIntToHex nonce⟩ }

theorem Canonical.addCodeChange (address code : Bytes) (index : SafeIndex)
    (originalCode : Option Bytes) :
    (bal.addCodeChange (bytesToHex address) code index originalCode).Canonical :=
  ⟨h.accesses.modify ⟨address, rfl⟩ fun _ haccess => haccess.changeCode code index originalCode _,
    h.checkpoints⟩

theorem Canonical.cleanupNetZeroBalanceChanges : bal.cleanupNetZeroBalanceChanges.Canonical := by
  refine ⟨Accesses.Canonical.foldl _ _ (fun a e _ ha => ?_) h.accesses, h.checkpoints⟩
  split
  · exact ha
  · rename_i access hget
    split
    · exact ha
    · split
      · obtain ⟨haddress, haccess⟩ := ha e.1 access hget
        exact ha.set haddress { haccess with balances := forall_delete haccess.balances _ }
      · exact ha

theorem Canonical.cleanupSelfdestructed (addresses : List BALAddressHex) :
    (bal.cleanupSelfdestructed addresses).Canonical := by
  refine ⟨Accesses.Canonical.foldl _ _ (fun a address _ ha => ?_) h.accesses, h.checkpoints⟩
  split
  · exact ha
  · rename_i access hget
    obtain ⟨haddress, haccess⟩ := ha address access hget
    exact ha.set haddress (haccess.destroyed _)

/-- A snapshot is as canonical as the list was. -/
theorem Canonical.revert (preserveReads : Bool) : (bal.revert preserveReads).Canonical := by
  rw [BlockLevelAccessList.revert]
  split
  · exact h
  · rename_i snapshot checkpoints hcheckpoints
    have hsnapshot : snapshot.accesses.Canonical :=
      h.checkpoints snapshot (by rw [hcheckpoints]; exact List.mem_cons_self)
    have hrest : ∀ c ∈ checkpoints, c.accesses.Canonical :=
      fun c hc => h.checkpoints c (by rw [hcheckpoints]; exact List.mem_cons_of_mem _ hc)
    split
    · refine ⟨Accesses.Canonical.foldl _ _ (fun a e he ha => ?_) hsnapshot, hrest⟩
      obtain ⟨haddress, haccess⟩ := h.accesses e.1 e.2 (InsertionMap.get_of_mem he)
      exact ha.modify haddress fun target htarget => haccess.keepReads htarget
    · exact ⟨hsnapshot, hrest⟩

theorem Canonical.sortChanges : bal.sortChanges.Canonical := by
  refine ⟨fun address access hget => ?_, h.checkpoints⟩
  rw [BlockLevelAccessList.sortChanges, InsertionMap.get_mapValues] at hget
  obtain ⟨access', hget', rfl⟩ := Option.map_eq_some_iff.1 hget
  obtain ⟨haddress, haccess⟩ := h.accesses address access' hget'
  exact ⟨haddress, haccess.sortChanges⟩

/-- **One operation** keeps the invariant. -/
theorem Canonical.run (call : BALCall) : (call.run bal).Canonical := by
  cases call with
  | addAddress address => exact h.addAddress address
  | addStorageRead address storageKey => exact h.addStorageRead address storageKey
  | addStorageWrite address storageKey value index originalValue =>
    exact h.addStorageWrite address storageKey value index originalValue
  | addBalanceChange address balance index originalBalance =>
    exact h.addBalanceChange address balance index originalBalance
  | addNonceChange address nonce index => exact h.addNonceChange address nonce index
  | addCodeChange address code index originalCode =>
    exact h.addCodeChange address code index originalCode
  | cleanupNetZeroBalanceChanges => exact h.cleanupNetZeroBalanceChanges
  | cleanupSelfdestructed addresses => exact h.cleanupSelfdestructed _
  | setBlockAccessIndex index => exact ⟨h.accesses, h.checkpoints⟩
  | checkpoint => exact ⟨h.accesses, List.forall_mem_cons.2 ⟨h.accesses, h.checkpoints⟩⟩
  | commit => exact ⟨h.accesses, fun c hc => h.checkpoints c (List.mem_of_mem_tail hc)⟩
  | revert preserveReads => exact h.revert preserveReads
  | encode => exact h.sortChanges

end BlockLevelAccessList

/-- **Every list that the operations build is canonical.** -/
theorem canonical_foldl_run {bal : BlockLevelAccessList} (h : bal.Canonical)
    (calls : List BALCall) : (calls.foldl BALCall.run bal).Canonical := by
  induction calls generalizing bal with
  | nil => exact h
  | cons call calls ih => exact ih (h.run call)

/-! ### Orders -/

/-- The comparison of the code is the lexicographic order of the bytes. -/
private theorem compareLexicographic_le_iff (a b : Bytes) :
    compareLexicographic a b ≤ 0 ↔ InsertionMap.lexLe UInt8.toNat a b = true := by
  induction a generalizing b with
  | nil =>
    rcases b with _ | ⟨y, b⟩
    · exact iff_of_true le_rfl rfl
    · exact iff_of_true (show (-1 : ℤ) ≤ 0 by decide) rfl
  | cons x a ih =>
    rcases b with _ | ⟨y, b⟩
    · exact iff_of_false (show ¬(1 : ℤ) ≤ 0 by decide) Bool.false_ne_true
    · simp only [compareLexicographic, InsertionMap.lexLe_cons_iff, ← ih, UInt8.lt_iff_toNat_lt]
      split
      · exact iff_of_true (by decide) (Or.inl ‹_›)
      · split
        · exact iff_of_false (by decide) (by omega)
        · exact ⟨fun h => Or.inr ⟨by omega, h⟩, fun h => h.elim (fun h => by omega) And.right⟩

/-- It sorts any set of byte strings. -/
private theorem sorts_compareLexicographic (S : Set Bytes) :
    InsertionMap.Sorts (fun a b : Bytes => compareLexicographic a b ≤ 0) S := by
  have hsorts : InsertionMap.Sorts (fun a b => InsertionMap.lexLe UInt8.toNat a b = true) S :=
    InsertionMap.sorts_lexLe (fun _ _ => UInt8.toNat_inj.1) S
  have heq : (fun a b : Bytes => compareLexicographic a b ≤ 0) =
      fun a b => InsertionMap.lexLe UInt8.toNat a b = true := by
    funext a b
    exact propext (compareLexicographic_le_iff a b)
  rw [heq]
  exact hsorts

/-- Addresses are told apart by the comparison. -/
private theorem sorts_addressBefore (S : Set BALAddressHex) :
    InsertionMap.Sorts (fun a b => addressBefore a b = true) S :=
  InsertionMap.sorts_lexLe (fun _ _ => Char.toNat_inj.1) S

/-- The bytes of a slot. -/
def slotBytes (slot : BALStorageKeyHex) : Bytes := HexOrBytes.toBytes (.hex slot)

/-- The bytes of a slot are those it was written from. -/
theorem slotBytes_bytesToHex (b : Bytes) : slotBytes (bytesToHex b) = b := by
  rw [slotBytes, HexOrBytes.toBytes, hexToBytes_bytesToHex]
  rfl

/-- A canonical slot is the hex form of its bytes. -/
theorem CanonicalSlot.bytesToHex_slotBytes {slot : BALStorageKeyHex} (h : CanonicalSlot slot) :
    bytesToHex (slotBytes slot) = slot := by
  obtain ⟨b, rfl, -⟩ := h
  rw [slotBytes_bytesToHex]

/-- A canonical slot is encoded as its bytes. -/
theorem CanonicalSlot.toBytes_normalizeHexForRLP {slot : BALStorageKeyHex}
    (h : CanonicalSlot slot) : (normalizeHexForRLP slot).toBytes = slotBytes slot := by
  obtain ⟨b, rfl, hb⟩ := h
  rw [Tvmjs.toBytes_normalizeHexForRLP, hb, slotBytes_bytesToHex]

/-- Canonical slots are told apart by the comparison. -/
private theorem sorts_slotBefore : InsertionMap.Sorts slotBefore {slot | CanonicalSlot slot} where
  total a b := (sorts_compareLexicographic Set.univ).total (slotBytes a) (slotBytes b)
  trans a b c :=
    (sorts_compareLexicographic Set.univ).trans (slotBytes a) (slotBytes b) (slotBytes c)
  antisymm a ha b hb hab hba := by
    have heq := (sorts_compareLexicographic Set.univ).antisymm (slotBytes a) trivial (slotBytes b)
      trivial hab hba
    rw [← ha.bytesToHex_slotBytes, heq, hb.bytesToHex_slotBytes]

/-! ### The raw format of the same accounts -/

/-- The changes of a slot as they are written. -/
def writtenValues (changes : List (BALAccessIndexNumber × Bytes)) :
    List (BALAccessIndexNumber × Bytes) :=
  (sortByIndex changes).map fun c => (c.1, stripLeadingZeros c.2)

namespace AccountAccesses

/-- Accounts with the same slots, reads and changes: the changes of a slot in the order of their
indices, and every value without the leading zeros it is written without. -/
structure Same (x y : AccountAccesses) : Prop where
  storageChanges : ∀ slot, (x.storageChanges.get slot).map writtenValues =
    (y.storageChanges.get slot).map writtenValues
  storageReads : ∀ slot, x.storageReads.has slot = y.storageReads.has slot
  balanceChanges : ∀ index, (x.balanceChanges.get index).map normalizeQuantityHexForRLP =
    (y.balanceChanges.get index).map normalizeQuantityHexForRLP
  nonceChanges : ∀ index, (x.nonceChanges.get index).map normalizeQuantityHexForRLP =
    (y.nonceChanges.get index).map normalizeQuantityHexForRLP
  codeChanges : sortByIndex x.codeChanges = sortByIndex y.codeChanges

variable {x y : AccountAccesses}

/-- Which of the two came first does not matter. -/
theorem Same.symm (h : Same x y) : Same y x where
  storageChanges slot := (h.storageChanges slot).symm
  storageReads slot := (h.storageReads slot).symm
  balanceChanges index := (h.balanceChanges index).symm
  nonceChanges index := (h.nonceChanges index).symm
  codeChanges := h.codeChanges.symm

/-- Whether an account is left out depends on what is recorded only. -/
theorem Same.shouldIncludeAddress (h : Same x y) (address : BALAddressHex) :
    shouldIncludeAddress address x = Tvmjs.shouldIncludeAddress address y := by
  have hsome : ∀ {α β : Type} {f : α → β} {o o' : Option α}, o.map f = o'.map f →
      o.isSome = o'.isSome := by
    intro α β f o o' heq
    rw [← Option.isSome_map, heq, Option.isSome_map]
  have hcodes : x.codeChanges.isEmpty = y.codeChanges.isEmpty := by
    have hlength := congrArg List.length h.codeChanges
    rw [sortByIndex, sortByIndex, List.length_insertionSort, List.length_insertionSort] at hlength
    rw [Bool.eq_iff_iff, List.isEmpty_iff_length_eq_zero, List.isEmpty_iff_length_eq_zero, hlength]
  rw [Tvmjs.shouldIncludeAddress, Tvmjs.shouldIncludeAddress, hcodes,
    InsertionMap.isEmpty_entries_congr fun slot => hsome (h.storageChanges slot),
    InsertionMap.isEmpty_entries_congr h.storageReads,
    InsertionMap.isEmpty_entries_congr fun index => hsome (h.balanceChanges index),
    InsertionMap.isEmpty_entries_congr fun index => hsome (h.nonceChanges index)]

/-- **The raw format of an account** is determined by what the account did. -/
theorem Same.raw (h : Same x y) (hx : x.Canonical) (address : BALAddressHex) :
    x.raw address = y.raw address := by
  have hchanges := InsertionMap.map_sortedBy_congr (sorts_slotBefore.mono hx.slotKeys)
    (fun _ => writtenValues)
    (fun e => RLP.RawInput.list [(normalizeHexForRLP e.1).raw,
      .list (e.2.map fun c => rawChange c.1 (.bytes c.2))]) h.storageChanges
  have hquantities : ∀ m m' : InsertionMap BALAccessIndexNumber PrefixedHexString,
      (∀ index, (m.get index).map normalizeQuantityHexForRLP =
        (m'.get index).map normalizeQuantityHexForRLP) →
      (m.sortedBy (· ≤ ·)).map (fun e =>
        rawChange e.1 (.str (hexUnits (normalizeQuantityHexForRLP e.2)))) =
      (m'.sortedBy (· ≤ ·)).map fun e =>
        rawChange e.1 (.str (hexUnits (normalizeQuantityHexForRLP e.2))) :=
    fun m m' => InsertionMap.map_sortedBy_congr (InsertionMap.sorts_le _)
      (fun _ => normalizeQuantityHexForRLP) fun e => rawChange e.1 (.str (hexUnits e.2))
  have hreads : (x.storageReads.keys.map normalizeHexForRLP).insertionSort
      (fun a b => compareLexicographicHexOrBytes a b ≤ 0) =
      (y.storageReads.keys.map normalizeHexForRLP).insertionSort
        fun a b => compareLexicographicHexOrBytes a b ≤ 0 := by
    refine (sorts_compareLexicographic Set.univ).insertionSort_congr HexOrBytes.toBytes ?_ ?_
      fun _ _ => trivial
    · refine List.Perm.map _ ((List.perm_ext_iff_of_nodup x.storageReads.nodup_keys
        y.storageReads.nodup_keys).2 fun slot => ?_)
      rw [← InsertionMap.has_iff, h.storageReads, InsertionMap.has_iff]
    · rw [List.map_map]
      refine x.storageReads.nodup_keys.map_on fun slot hslot slot' hslot' heq => ?_
      have hslot := hx.readKeys slot hslot
      have hslot' := hx.readKeys slot' hslot'
      rw [Function.comp_apply, Function.comp_apply, hslot.toBytes_normalizeHexForRLP,
        hslot'.toBytes_normalizeHexForRLP] at heq
      rw [← hslot.bytesToHex_slotBytes, heq, hslot'.bytesToHex_slotBytes]
  simp only [writtenValues, List.map_map] at hchanges
  rw [AccountAccesses.raw, AccountAccesses.raw, hreads, h.codeChanges,
    hquantities _ _ h.balanceChanges, hquantities _ _ h.nonceChanges]
  exact congrArg (fun l => RLP.RawInput.list [.str (hexUnits address), .list l, _, _, _, _])
    hchanges

end AccountAccesses

namespace BlockLevelAccessList

/-- The raw format of an account that is not left out. -/
def rawIncluded (address : BALAddressHex) (access : AccountAccesses) : Option RLP.RawInput :=
  if shouldIncludeAddress address access then some (access.raw address) else none

/-- **Lists of the same accounts** have the same raw format. -/
theorem raw_congr {bal bal' : BlockLevelAccessList}
    (h : ∀ address, (bal.accesses.get address).bind (rawIncluded address) =
      (bal'.accesses.get address).bind (rawIncluded address)) : bal.raw = bal'.raw := by
  have hincluded : ∀ bal : BlockLevelAccessList, bal.included.map (fun e => e.2.raw e.1) =
      ((bal.accesses.sortedBy fun a b => addressBefore a b).filterMap fun e =>
        (rawIncluded e.1 e.2).map (Prod.mk e.1)).map Prod.snd := by
    intro bal
    rw [included, List.map_filterMap, ← List.filterMap_eq_map, List.filterMap_filter]
    refine List.filterMap_congr fun e _ => ?_
    rw [rawIncluded]
    split
    · rfl
    · rfl
  rw [raw, raw, hincluded, hincluded,
    InsertionMap.filterMap_sortedBy_congr (sorts_addressBefore _) rawIncluded h]

end BlockLevelAccessList

end Tvmjs
