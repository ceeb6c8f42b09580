import Tvmjs.Base.ChangeLog
import Tvmjs.Base.Rollback
import Tvmjs.Util.AccessList

/-!
# What a block level access list says

Beside the list runs the history of the slots and the codes: what each holds at the start of every
access index.  A list that records the history names, for each slot and each code, the indices over
which it changed, each once and with the value at its end.

* `Recorded` -- the property;
* `BALOp`, `BALOp.step` -- the operations, on the list and on the history;
* `recorded_of_run` -- **every run keeps to the property** in which no slot is changed twice at one
  index, none is written back that an earlier index changed, nothing that was read is changed at the
  checkpoint that a revert goes back to, and codes are compared with what they were at the start of
  the index.
-/

namespace Tvmjs

open ChangeLog

namespace InsertionMap

variable {κ α : Type*} [DecidableEq κ]

/-- A key is there once it was set. -/
theorem has_set (m : InsertionMap κ α) (k k' : κ) (v : α) :
    (m.set k v).has k' = (decide (k' = k) || m.has k') := by
  rw [has, get_set]
  by_cases hk : k' = k
  · rw [if_pos hk, decide_eq_true hk]
    rfl
  · rw [if_neg hk, decide_eq_false hk]
    rfl

/-- A key is gone once it was deleted. -/
theorem has_delete (m : InsertionMap κ α) (k k' : κ) :
    (m.delete k).has k' = (!decide (k' = k) && m.has k') := by
  rw [has, get_delete]
  by_cases hk : k' = k
  · rw [if_pos hk, decide_eq_true hk]
    rfl
  · rw [if_neg hk, decide_eq_false hk]
    rfl

/-- A key is there where it is among the keys. -/
theorem has_iff {m : InsertionMap κ α} {k : κ} : m.has k = true ↔ k ∈ m.keys := get_isSome_iff

/-- The members that a loop adds to a set. -/
theorem has_foldl_set (p : κ → Bool) (l : List κ) (m : InsertionMap κ Unit) (k : κ) :
    (l.foldl (fun m k => if p k then m else m.set k ()) m).has k = true ↔
      m.has k = true ∨ k ∈ l ∧ p k = false := by
  induction l generalizing m with
  | nil => simp
  | cons k' l ih =>
    rw [List.foldl_cons, ih, List.mem_cons]
    by_cases hp : p k' = true
    · rw [if_pos hp]
      constructor
      · rintro (hm | ⟨hl, hk⟩)
        · exact Or.inl hm
        · exact Or.inr ⟨Or.inr hl, hk⟩
      · rintro (hm | ⟨rfl | hl, hk⟩)
        · exact Or.inl hm
        · rw [hp] at hk
          cases hk
        · exact Or.inr ⟨hl, hk⟩
    · rw [if_neg hp, has_set, Bool.or_eq_true, decide_eq_true_eq]
      constructor
      · rintro ((rfl | hm) | ⟨hl, hk⟩)
        · exact Or.inr ⟨Or.inl rfl, Bool.not_eq_true _ ▸ hp⟩
        · exact Or.inl hm
        · exact Or.inr ⟨Or.inr hl, hk⟩
      · rintro (hm | ⟨rfl | hl, hk⟩)
        · exact Or.inl (Or.inr hm)
        · exact Or.inl (Or.inl rfl)
        · exact Or.inr ⟨hl, hk⟩

end InsertionMap

/-! ### Lookups -/

/-- The changes of a slot. -/
def AccountAccesses.slotChanges (access : AccountAccesses) (slot : BALStorageKeyHex) :
    List (BALAccessIndexNumber × Bytes) :=
  (access.storageChanges.get slot).getD []

namespace Accesses

variable (a : Accesses)

/-- One account is changed, the others stay. -/
private theorem account_modify (address address' : BALAddressHex)
    (f : AccountAccesses → AccountAccesses) :
    (a.modify address f).account address' =
      if address' = address then f (a.account address) else a.account address' := by
  rw [account, modify, InsertionMap.get_set]
  split
  · rfl
  · rfl

/-- What a loop over the accounts of a list leaves of one of them. -/
private theorem account_foldl (g : AccountAccesses → AccountAccesses → AccountAccesses)
    (hg : ∀ target, g target {} = target) (b : Accesses) (address : BALAddressHex) :
    (b.entries.foldl (fun a e => modify a e.1 fun target => g target e.2) a).account address =
      g (a.account address) (b.account address) := by
  have hloop : ∀ (l : List (BALAddressHex × AccountAccesses)) (a : Accesses),
      (l.map Prod.fst).Nodup →
      (l.foldl (fun a e => modify a e.1 fun target => g target e.2) a).account address =
        g (a.account address) (((l.find? fun e => e.1 = address).map Prod.snd).getD {}) := by
    intro l
    induction l with
    | nil => exact fun a _ => (hg _).symm
    | cons e l ih =>
      intro a hnodup
      rw [List.map_cons, List.nodup_cons] at hnodup
      rw [List.foldl_cons, ih _ hnodup.2, account_modify, List.find?_cons]
      by_cases he : e.1 = address
      · have hnone : l.find? (fun e => e.1 = address) = none := by
          rw [List.find?_eq_none]
          intro e' he' heq
          refine hnodup.1 ?_
          rw [he, ← of_decide_eq_true heq]
          exact List.mem_map_of_mem he'
        rw [if_pos he.symm, hnone, he, decide_eq_true rfl]
        exact hg _
      · rw [if_neg (Ne.symm he), decide_eq_false he]
  exact hloop b.entries a b.nodup

end Accesses

/-! ### What each operation does to the lookups -/

namespace BlockLevelAccessList

variable {bal : BlockLevelAccessList} {address : BALAddressHex}

/-- One account is recorded for, the others stay. -/
private theorem account_record (f : AccountAccesses → AccountAccesses) (address' : BALAddressHex) :
    (bal.record address f).accesses.account address' =
      if address' = address then f (bal.accesses.account address)
      else bal.accesses.account address' :=
  Accesses.account_modify _ _ _ _

/-- A read changes nothing but the set of slots read. -/
private theorem account_addStorageRead (storageKey : Bytes) (address' : BALAddressHex) :
    (bal.addStorageRead address storageKey).accesses.account address' =
      let access := bal.accesses.account address'
      if address' = address ∧ access.storageChanges.has (slotKey storageKey) = false then
        { access with storageReads := access.storageReads.set (slotKey storageKey) () }
      else access := by
  rw [addStorageRead, account_record]
  by_cases ha : address' = address
  · subst ha
    rw [if_pos rfl]
    cases h : (bal.accesses.account address').storageChanges.has (slotKey storageKey)
    · simp [h]
    · simp [h]
  · rw [if_neg ha]
    simp [ha]

/-- A write of the original value leaves the slot read and unchanged. -/
private theorem account_addStorageWrite_noOp {storageKey value : Bytes}
    {originalValue : Option Bytes}
    (h : isNoOp value originalValue = true) (index : BALAccessIndexNumber)
    (address' : BALAddressHex) :
    (bal.addStorageWrite address storageKey value index originalValue).accesses.account address' =
      let access := bal.accesses.account address'
      if address' = address then
        { access with
          storageChanges := access.storageChanges.delete (slotKey storageKey)
          storageReads := access.storageReads.set (slotKey storageKey) () }
      else access := by
  have hgone : ∀ access : AccountAccesses,
      (access.storageChanges.delete (slotKey storageKey)).has (slotKey storageKey) = false := by
    intro access
    rw [InsertionMap.has_delete, decide_eq_true rfl]
    rfl
  rw [addStorageWrite, if_pos h, account_addStorageRead]
  by_cases ha : address' = address
  · subst ha
    by_cases hhas : bal.accesses.has address' = true
    · rw [if_pos hhas, account_record, if_pos rfl]
      simp only [hgone, and_self, if_true]
    · have hnew : bal.accesses.account address' = {} := by
        rw [Accesses.account, InsertionMap.get_eq_none_iff.2 fun hmem =>
          hhas (InsertionMap.has_iff.2 hmem)]
        rfl
      rw [if_neg hhas]
      simp only [hnew, true_and, if_true]
      rfl
  · rw [if_neg fun hread => ha hread.1, if_neg ha]
    by_cases hhas : bal.accesses.has address = true
    · rw [if_pos hhas, account_record, if_neg ha]
    · rw [if_neg hhas]

/-- Another write is filed at the end of the changes of its slot, which no longer counts as read. -/
private theorem account_addStorageWrite {storageKey value : Bytes} {originalValue : Option Bytes}
    (h : isNoOp value originalValue = false) (index : BALAccessIndexNumber)
    (address' : BALAddressHex) :
    (bal.addStorageWrite address storageKey value index originalValue).accesses.account address' =
      let access := bal.accesses.account address'
      if address' = address then
        { access with
          storageChanges := access.storageChanges.set (slotKey storageKey)
            (access.slotChanges (slotKey storageKey) ++ [(index, stripLeadingZeros value)])
          storageReads := access.storageReads.delete (slotKey storageKey) }
      else access := by
  rw [addStorageWrite, if_neg (by rw [h]; exact Bool.false_ne_true), account_record]
  by_cases ha : address' = address
  · subst ha
    rfl
  · rw [if_neg ha, if_neg ha]

/-- A revert that keeps reads gives each account back as it was, with more slots read. -/
private theorem account_revert {c : BALCheckpoint} {cs : List BALCheckpoint}
    (h : bal.checkpoints = c :: cs)
    (address' : BALAddressHex) : (bal.revert true).accesses.account address' =
      keepReads (c.accesses.account address') (bal.accesses.account address') := by
  rw [revert, h]
  exact Accesses.account_foldl _ keepReads (fun _ => rfl) _ _

/-- What is read after a revert: the reads of both sides, and the writes that are gone. -/
private theorem has_keepReads {target access : AccountAccesses} {slot : BALStorageKeyHex} :
    (keepReads target access).storageReads.has slot = true ↔
      target.storageReads.has slot = true ∨ access.storageReads.has slot = true ∨
        access.storageChanges.has slot = true ∧ target.storageChanges.has slot = false := by
  have hreads := InsertionMap.has_foldl_set (fun _ => false) access.storageReads.keys
    target.storageReads slot
  simp only [Bool.false_eq_true, if_false, and_true] at hreads
  rw [keepReads, InsertionMap.has_foldl_set, hreads, InsertionMap.has_iff, InsertionMap.has_iff,
    InsertionMap.has_iff, or_assoc]

end BlockLevelAccessList

/-! ### The history beside the list -/

/-- What the slots and the codes hold at the start of every access index; `index` is the one that
has been reached. -/
structure World where
  index : BALAccessIndexNumber
  storage : BALAddressHex → BALStorageKeyHex → ℕ → Bytes
  code : BALAddressHex → ℕ → Bytes

namespace World

variable (w : World)

/-- Before the first transaction. -/
def start (storage : BALAddressHex → BALStorageKeyHex → Bytes) (code : BALAddressHex → Bytes) :
    World :=
  { index := 0, storage := fun address slot _ => storage address slot
    code := fun address _ => code address }

/-- Writes a slot at an index of the block. -/
def writeStorage (address : BALAddressHex) (slot : BALStorageKeyHex) (value : Bytes)
    (index : BALAccessIndexNumber) : World :=
  { w with
    index
    storage := Function.update w.storage address
      (Function.update (w.storage address) slot
        (ChangeLog.write (w.storage address slot) index value)) }

/-- Deploys a code at an index of the block. -/
def writeCode (address : BALAddressHex) (code : Bytes) (index : BALAccessIndexNumber) : World :=
  { w with
    index
    code := Function.update w.code address (ChangeLog.write (w.code address) index code) }

end World

/-- **What the list says about an account is what happened to it**: no slot is both read and
changed, and the changes of each slot and of the code are those of the history. -/
structure RecordedAt (access : AccountAccesses) (storage : BALStorageKeyHex → ℕ → Bytes)
    (code : ℕ → Bytes) (now : BALAccessIndexNumber) : Prop where
  apart : ∀ slot, access.storageReads.has slot = true → access.storageChanges.has slot = false
  storage : ∀ slot, Records (access.slotChanges slot) (storage slot) now
  code : Records access.codeChanges code now

/-- The list records the history. -/
def Recorded (a : Accesses) (w : World) : Prop :=
  ∀ address, RecordedAt (a.account address) (w.storage address) (w.code address) w.index

/-- What is said about an account under earlier indices is the same. -/
structure SameBefore (index : BALAccessIndexNumber) (access access' : AccountAccesses) : Prop where
  storage : ∀ slot, earlier index (access.slotChanges slot) =
    earlier index (access'.slotChanges slot)
  code : earlier index access.codeChanges = earlier index access'.codeChanges
  nonce : ∀ i < index, access.nonceChanges.get i = access'.nonceChanges.get i

namespace SameBefore

variable {index : BALAccessIndexNumber} {x y z : AccountAccesses}

theorem refl (index : BALAccessIndexNumber) (x : AccountAccesses) : SameBefore index x x :=
  ⟨fun _ => rfl, rfl, fun _ _ => rfl⟩

theorem trans (h : SameBefore index x y) (h' : SameBefore index y z) : SameBefore index x z :=
  ⟨fun slot => (h.storage slot).trans (h'.storage slot), h.code.trans h'.code,
    fun i hi => (h.nonce i hi).trans (h'.nonce i hi)⟩

theorem symm (h : SameBefore index x y) : SameBefore index y x :=
  ⟨fun slot => (h.storage slot).symm, h.code.symm, fun i hi => (h.nonce i hi).symm⟩

/-- What is the same before a later index is so before an earlier one. -/
theorem mono {i : BALAccessIndexNumber} (h : SameBefore index x y) (hi : i ≤ index) :
    SameBefore i x y :=
  ⟨fun slot => earlier_mono hi (h.storage slot), earlier_mono hi h.code,
    fun k hk => h.nonce k (hk.trans_le hi)⟩

end SameBefore

/-- What is recorded up to now is recorded up to any later index. -/
theorem RecordedAt.mono {access : AccountAccesses} {storage : BALStorageKeyHex → ℕ → Bytes}
    {code : ℕ → Bytes} {now later : BALAccessIndexNumber} (h : RecordedAt access storage code now)
    (hle : now ≤ later) : RecordedAt access storage code later :=
  ⟨h.apart, fun slot => (h.storage slot).mono hle, h.code.mono hle⟩

/-! ### What one operation keeps -/

section Account

variable {access : AccountAccesses} {storage : BALStorageKeyHex → ℕ → Bytes} {code : ℕ → Bytes}
  {now index : BALAccessIndexNumber} {slot : BALStorageKeyHex} {value : Bytes}

/-- A slot that was not written may be read. -/
theorem RecordedAt.read (h : RecordedAt access storage code now)
    (hslot : access.storageChanges.has slot = false) :
    RecordedAt { access with storageReads := access.storageReads.set slot () }
      storage code now := by
  refine ⟨fun slot' hread => ?_, h.storage, h.code⟩
  rw [InsertionMap.has_set, Bool.or_eq_true, decide_eq_true_eq] at hread
  obtain rfl | hread := hread
  · exact hslot
  · exact h.apart slot' hread

/-- The changes of a slot among which those of one have been set. -/
private theorem slotChanges_set (slot' : BALStorageKeyHex) (l : List (BALAccessIndexNumber × Bytes))
    (reads : InsertionMap BALStorageKeyHex Unit) :
    ({ access with storageChanges := access.storageChanges.set slot l
                   storageReads := reads } : AccountAccesses).slotChanges slot' =
      if slot' = slot then l else access.slotChanges slot' := by
  rw [AccountAccesses.slotChanges, InsertionMap.get_set]
  split
  · rfl
  · rfl

/-- A slot that was deleted has no changes left. -/
private theorem slotChanges_delete (slot' : BALStorageKeyHex)
    (reads : InsertionMap BALStorageKeyHex Unit) :
    ({ access with storageChanges := access.storageChanges.delete slot
                   storageReads := reads } : AccountAccesses).slotChanges slot' =
      if slot' = slot then [] else access.slotChanges slot' := by
  rw [AccountAccesses.slotChanges, InsertionMap.get_delete]
  split
  · rfl
  · rfl

/-- A change of a slot that has no entry at its index. -/
theorem RecordedAt.change (h : RecordedAt access storage code now) (hindex : now ≤ index)
    (hvalue : value ≠ storage slot index)
    (hfresh : ∀ e ∈ access.slotChanges slot, e.1 ≠ index) :
    RecordedAt
      { access with
        storageChanges := access.storageChanges.set slot
          (access.slotChanges slot ++ [(index, value)])
        storageReads := access.storageReads.delete slot }
      (Function.update storage slot (ChangeLog.write (storage slot) index value)) code index := by
  refine ⟨fun slot' hread => ?_, fun slot' => ?_, h.code.mono hindex⟩
  · rw [InsertionMap.has_delete, Bool.and_eq_true, Bool.not_eq_true',
      decide_eq_false_iff_not] at hread
    rw [InsertionMap.has_set, decide_eq_false hread.1]
    exact h.apart slot' hread.2
  · rw [slotChanges_set, Function.update_apply]
    split
    · exact (h.storage slot).push hindex hfresh hvalue
    · exact (h.storage slot').mono hindex

/-- A write back of a slot that has entries at its index only. -/
private theorem RecordedAt.writeBack (h : RecordedAt access storage code now) (hindex : now ≤ index)
    (hvalue : value = storage slot index) (hlate : ∀ e ∈ access.slotChanges slot, index ≤ e.1) :
    RecordedAt
      { access with
        storageChanges := access.storageChanges.delete slot
        storageReads := access.storageReads.set slot () }
      (Function.update storage slot (ChangeLog.write (storage slot) index value)) code index := by
  refine ⟨fun slot' hread => ?_, fun slot' => ?_, h.code.mono hindex⟩
  · rw [InsertionMap.has_set, Bool.or_eq_true, decide_eq_true_eq] at hread
    rw [InsertionMap.has_delete]
    by_cases hslot : slot' = slot
    · rw [decide_eq_true hslot]
      rfl
    · rw [decide_eq_false hslot]
      exact h.apart slot' (hread.resolve_left hslot)
  · rw [slotChanges_delete, Function.update_apply]
    split
    · exact (h.storage slot).clear hindex hlate hvalue
    · exact (h.storage slot').mono hindex

open BlockLevelAccessList in
/-- The changes of a code are split at the one of an index, if there is one. -/
private theorem changeCode_cases (codeChanges : List (BALAccessIndexNumber × Bytes))
    (newCode : Bytes)
    (originalCode known : Option Bytes) :
    ((∀ e ∈ codeChanges, e.1 ≠ index) ∧
        changeCode codeChanges newCode index originalCode known =
          if originalCode = some newCode then codeChanges
          else codeChanges ++ [(index, newCode)]) ∨
      ∃ l₁ l₂ old, codeChanges = l₁ ++ (index, old) :: l₂ ∧
        changeCode codeChanges newCode index originalCode known =
          if known = some newCode then l₁ ++ l₂ else l₁ ++ (index, newCode) :: l₂ := by
  have hany : ∀ o : Option Bytes,
      o.any (fun original => bytesToHex newCode = bytesToHex original) = true ↔
        o = some newCode := by
    intro o
    rw [Option.any_eq_true]
    constructor
    · rintro ⟨original, rfl, heq⟩
      rw [bytesToHex_injective (of_decide_eq_true heq)]
    · rintro rfl
      exact ⟨newCode, rfl, decide_eq_true rfl⟩
  rw [changeCode]
  cases hfind : codeChanges.findIdx? fun change => change.1 = index with
  | none =>
    refine Or.inl ⟨fun e he heq => ?_, if_congr (hany _) rfl rfl⟩
    have hnone := List.findIdx?_eq_none_iff.1 hfind e he
    rw [decide_eq_false_iff_not] at hnone
    exact hnone heq
  | some i =>
    obtain ⟨hi, hp, -⟩ := List.findIdx?_eq_some_iff_getElem.1 hfind
    have hindex : codeChanges[i].1 = index := of_decide_eq_true hp
    have hsplit : codeChanges = codeChanges.take i ++
      codeChanges[i] :: codeChanges.drop (i + 1) := by
      rw [List.getElem_cons_drop, List.take_append_drop]
    refine Or.inr ⟨codeChanges.take i, codeChanges.drop (i + 1), codeChanges[i].2, ?_, ?_⟩
    · rw [← hindex]
      exact hsplit
    · exact if_congr (hany _) (List.eraseIdx_eq_take_drop_succ codeChanges i)
        (by rw [List.set_eq_take_append_cons_drop, if_pos hi])

open BlockLevelAccessList in
/-- **A change of code** that is compared with what the code was at the start of its index. -/
theorem RecordedAt.changeCode (h : RecordedAt access storage code now) (hindex : now ≤ index)
    {newCode : Bytes} {originalCode known : Option Bytes}
    (hcompared : (if ∃ e ∈ access.codeChanges, e.1 = index then known else originalCode) =
      some newCode ↔ newCode = code index) :
    RecordedAt
      { access with
        codeChanges := changeCode access.codeChanges newCode index originalCode known }
      storage (ChangeLog.write code index newCode) index := by
  refine ⟨h.apart, fun slot => (h.storage slot).mono hindex, ?_⟩
  obtain ⟨hfresh, hchanged⟩ | ⟨l₁, l₂, old, hsplit, hchanged⟩ :=
    @changeCode_cases index access.codeChanges newCode originalCode known
  · rw [if_neg fun ⟨e, he, heq⟩ => hfresh e he heq] at hcompared
    change Records (BlockLevelAccessList.changeCode _ _ _ _ _) _ _
    rw [hchanged]
    by_cases hsame : newCode = code index
    · rw [if_pos (hcompared.2 hsame)]
      exact h.code.skip hindex hfresh hsame
    · rw [if_neg (mt hcompared.1 hsame)]
      exact h.code.push hindex hfresh hsame
  · have hthere : ∃ e ∈ access.codeChanges, e.1 = index :=
      ⟨(index, old), by rw [hsplit]; exact List.mem_append_right l₁ List.mem_cons_self, rfl⟩
    rw [if_pos hthere] at hcompared
    change Records (BlockLevelAccessList.changeCode _ _ _ _ _) _ _
    rw [hchanged]
    by_cases hsame : newCode = code index
    · rw [if_pos (hcompared.2 hsame)]
      exact h.code.strike hindex hsplit hsame
    · rw [if_neg (mt hcompared.1 hsame)]
      exact h.code.replace hindex hsplit hsame

/-- A change of code under an index says nothing about earlier ones. -/
private theorem earlier_changeCode (codeChanges : List (BALAccessIndexNumber × Bytes))
    (newCode : Bytes)
    (originalCode known : Option Bytes) :
    earlier index codeChanges = earlier index
      (BlockLevelAccessList.changeCode codeChanges newCode index originalCode known) := by
  obtain ⟨hfresh, hchanged⟩ | ⟨l₁, l₂, old, hsplit, hchanged⟩ :=
    @changeCode_cases index codeChanges newCode originalCode known
  · rw [hchanged]
    split
    · rfl
    · rw [earlier_append, earlier_cons_of_le le_rfl _]
      exact (List.append_nil _).symm
  · rw [hchanged, hsplit, earlier_append, earlier_cons_of_le le_rfl _]
    split
    · rw [earlier_append]
    · rw [earlier_append, earlier_cons_of_le le_rfl _]

/-- A change at an index leaves what came before it. -/
private theorem sameBefore_change : SameBefore index access
    { access with
      storageChanges := access.storageChanges.set slot (access.slotChanges slot ++ [(index, value)])
      storageReads := access.storageReads.delete slot } := by
  refine ⟨fun slot' => ?_, rfl, fun _ _ => rfl⟩
  rw [slotChanges_set]
  split
  · rename_i hslot
    rw [hslot, earlier_append, earlier_cons_of_le le_rfl _]
    exact (List.append_nil _).symm
  · rfl

/-- Taking a slot out leaves what came before its first change. -/
private theorem sameBefore_writeBack (hlate : ∀ e ∈ access.slotChanges slot, index ≤ e.1) :
    SameBefore index access
      { access with
        storageChanges := access.storageChanges.delete slot
        storageReads := access.storageReads.set slot () } := by
  refine ⟨fun slot' => ?_, rfl, fun _ _ => rfl⟩
  rw [slotChanges_delete]
  split
  · rename_i hslot
    rw [hslot, earlier_of_le hlate]
    rfl
  · rfl

open BlockLevelAccessList in
/-- An account that a revert gives back, with more slots read. -/
theorem RecordedAt.keepReads (h : RecordedAt access storage code now) {current : AccountAccesses}
    (hread : ∀ slot, current.storageReads.has slot = true →
      access.storageChanges.has slot = false) :
    RecordedAt (keepReads access current) storage code now := by
  refine ⟨fun slot hslot => ?_, h.storage, h.code⟩
  obtain hslot | hslot | ⟨-, hslot⟩ := has_keepReads.1 hslot
  · exact h.apart slot hslot
  · exact hread slot hslot
  · exact hslot

end Account

/-! ### Runs -/

/-- An operation on the list. -/
inductive BALOp where
  | read (address : BALAddressHex) (storageKey : Bytes)
  | write (address : BALAddressHex) (storageKey value : Bytes)
      (blockAccessIndex : BALAccessIndexNumber) (originalValue : Bytes)
  | nonce (address : BALAddressHex) (nonce : ℕ) (blockAccessIndex : BALAccessIndexNumber)
  | code (address : BALAddressHex) (code : Bytes) (blockAccessIndex : BALAccessIndexNumber)
      (originalCode : Option Bytes)
  | checkpoint
  | commit
  | revert (preserveReads : Bool)

/-- A list, and the history beside it with a copy for each checkpoint. -/
structure Recording where
  bal : BlockLevelAccessList
  world : Snapshots World

/-- A new list. -/
def Recording.start (storage : BALAddressHex → BALStorageKeyHex → Bytes)
    (code : BALAddressHex → Bytes) : Recording :=
  { bal := {}, world := ⟨World.start storage code, []⟩ }

namespace BALOp

/-- The operation on the list. -/
def list : BALOp → BlockLevelAccessList → BlockLevelAccessList
  | read address storageKey, bal => bal.addStorageRead address storageKey
  | write address storageKey value index originalValue, bal =>
    bal.addStorageWrite address storageKey value index (some originalValue)
  | nonce address newNonce index, bal => bal.addNonceChange address newNonce index
  | code address newCode index originalCode, bal =>
    bal.addCodeChange address newCode index originalCode
  | checkpoint, bal => bal.checkpoint
  | commit, bal => bal.commit
  | revert preserveReads, bal => bal.revert preserveReads

/-- What happens to the slots and the codes. -/
def happen : BALOp → Snapshots World → Snapshots World
  | read _ _, s => s
  | write address storageKey value index _, s =>
    s.update fun w => w.writeStorage address (slotKey storageKey) (stripLeadingZeros value) index
  | nonce _ _ index, s => s.update fun w => { w with index }
  | code address newCode index _, s => s.update fun w => w.writeCode address newCode index
  | checkpoint, s => s.checkpoint
  | commit, s => s.commit
  | revert _, s => s.revert

/-- An operation changes the list and the world. -/
def step (op : BALOp) (r : Recording) : Recording := ⟨op.list r.bal, op.happen r.world⟩

/-- The access index at which an operation stands; a revert stands at that of its checkpoint. -/
def index : BALOp → Recording → BALAccessIndexNumber
  | write _ _ _ index _, _ => index
  | nonce _ _ index, _ => index
  | code _ _ index _, _ => index
  | revert _, r => ((r.world.saved.head?).map World.index).getD 0
  | _, r => r.world.current.index

/-- Indices do not descend, writes are given the value of the slot at the start of their index, and
a checkpoint is open where one is closed. -/
def Admissible : BALOp → Recording → Prop
  | read _ _, _ => True
  | write address storageKey _ index originalValue, r =>
    r.world.current.index ≤ index ∧
      stripLeadingZeros originalValue = r.world.current.storage address (slotKey storageKey) index
  | nonce _ _ index, r => r.world.current.index ≤ index
  | code _ _ index _, r => r.world.current.index ≤ index
  | checkpoint, _ => True
  | commit, r => r.bal.checkpoints ≠ []
  | revert _, r => r.bal.checkpoints ≠ []

/-- The code that a change is compared with: where the index has an entry the original code recorded
first, else the one given. -/
def comparedCode (bal : BlockLevelAccessList) (address : BALAddressHex)
    (index : BALAccessIndexNumber) (originalCode : Option Bytes) : Option Bytes :=
  if ∃ e ∈ (bal.accesses.account address).codeChanges, e.1 = index then
    (bal.originalCodesAtIndex.get (address, index)).or originalCode
  else originalCode

/-- A change finds no entry of its slot at its index, a write back none of an earlier one; a code is
equal to the one it is compared with exactly if it is the code at the start of the index; a revert
that keeps reads finds none among the slots changed at its checkpoint. -/
def Safe : BALOp → Recording → Prop
  | write address storageKey value index originalValue, r =>
    let changes := (r.bal.accesses.account address).slotChanges (slotKey storageKey)
    if stripLeadingZeros value = stripLeadingZeros originalValue then ∀ e ∈ changes, index ≤ e.1
    else ∀ e ∈ changes, e.1 ≠ index
  | code address newCode index originalCode, r =>
    comparedCode r.bal address index originalCode = some newCode ↔
      newCode = r.world.current.code address index
  | revert true, r => ∀ c ∈ r.bal.checkpoints.head?, ∀ address slot,
    (r.bal.accesses.account address).storageReads.has slot = true →
      (c.accesses.account address).storageChanges.has slot = false
  | _, _ => True

end BALOp

/-- The operations one after the other. -/
def Recording.run (ops : List BALOp) (r : Recording) : Recording :=
  ops.foldl (fun r op => op.step r) r

/-- Each operation is allowed in the state it meets. -/
def Recording.Allowed (P : BALOp → Recording → Prop) : List BALOp → Recording → Prop
  | [], _ => True
  | op :: ops, r => P op r ∧ Allowed P ops (op.step r)

/-- The same is said under earlier indices. -/
def Accesses.SameBefore (index : BALAccessIndexNumber) (a a' : Accesses) : Prop :=
  ∀ address, Tvmjs.SameBefore index (a.account address) (a'.account address)

/-- **The invariant of the checkpoints**: each records the history up to its own index, and what the
list says under the indices before that is still what the checkpoint says. -/
def Covered : Accesses → World → List BALCheckpoint → List World → Prop
  | a, w, c :: cs, v :: vs =>
    v.index ≤ w.index ∧ c.accesses.SameBefore v.index a ∧ Recorded c.accesses v ∧
      Covered c.accesses v cs vs
  | _, _, [], [] => True
  | _, _, _, _ => False

/-- Operations at or after the index that has been reached keep the checkpoints covered. -/
theorem Covered.advance {a a' : Accesses} {w w' : World} {cs : List BALCheckpoint} {vs : List World}
    (h : Covered a w cs vs) (hindex : w.index ≤ w'.index)
    (hsame : Accesses.SameBefore w.index a a') : Covered a' w' cs vs := by
  match cs, vs, h with
  | [], [], _ => trivial
  | c :: cs, v :: vs, ⟨hv, hbefore, hc⟩ =>
    refine ⟨hv.trans hindex, fun address => ?_, hc⟩
    exact (hbefore address).trans ((hsame address).mono hv)

namespace Recording

/-- The list records the history, and its checkpoints are covered. -/
structure Invariant (r : Recording) : Prop where
  recorded : Recorded r.bal.accesses r.world.current
  covered : Covered r.bal.accesses r.world.current r.bal.checkpoints r.world.saved

variable {r : Recording}

/-- An operation that stands at an index that has not been passed and changes one account. -/
theorem Invariant.update (h : r.Invariant) {bal : BlockLevelAccessList} {w : World}
    {address : BALAddressHex} (hcheckpoints : bal.checkpoints = r.bal.checkpoints)
    (hindex : r.world.current.index ≤ w.index)
    (hother : ∀ x, x ≠ address → bal.accesses.account x = r.bal.accesses.account x ∧
      w.storage x = r.world.current.storage x ∧ w.code x = r.world.current.code x)
    (hat : RecordedAt (bal.accesses.account address) (w.storage address) (w.code address) w.index)
    (hsame : SameBefore w.index (r.bal.accesses.account address) (bal.accesses.account address)) :
    Invariant ⟨bal, ⟨w, r.world.saved⟩⟩ ∧ r.bal.accesses.SameBefore w.index bal.accesses := by
  have hbefore : r.bal.accesses.SameBefore w.index bal.accesses := by
    intro x
    by_cases hx : x = address
    · exact hx ▸ hsame
    · rw [(hother x hx).1]
      exact .refl _ _
  refine ⟨⟨fun x => ?_, ?_⟩, hbefore⟩
  · by_cases hx : x = address
    · exact hx ▸ hat
    · obtain ⟨haccount, hstorage, hcode⟩ := hother x hx
      change RecordedAt (bal.accesses.account x) (w.storage x) (w.code x) w.index
      rw [haccount, hstorage, hcode]
      exact (h.recorded x).mono hindex
  · change Covered bal.accesses w bal.checkpoints r.world.saved
    rw [hcheckpoints]
    exact h.covered.advance hindex fun x => (hbefore x).mono hindex

/-- A write leaves the snapshots alone. -/
private theorem checkpoints_addStorageWrite (bal : BlockLevelAccessList) (address : BALAddressHex)
    (storageKey value : Bytes) (index : BALAccessIndexNumber) (originalValue : Option Bytes) :
    (bal.addStorageWrite address storageKey value index originalValue).checkpoints =
      bal.checkpoints := by
  rw [BlockLevelAccessList.addStorageWrite]
  split
  · dsimp only
    split
    · rfl
    · rfl
  · rfl

/-- A write leaves other accounts alone. -/
private theorem account_addStorageWrite_of_ne (bal : BlockLevelAccessList)
    {address x : BALAddressHex}
    (hx : x ≠ address) (storageKey value : Bytes) (index : BALAccessIndexNumber)
    (originalValue : Option Bytes) :
    (bal.addStorageWrite address storageKey value index originalValue).accesses.account x =
      bal.accesses.account x := by
  cases hnoOp : BlockLevelAccessList.isNoOp value originalValue
  · rw [BlockLevelAccessList.account_addStorageWrite hnoOp]
    exact if_neg hx
  · rw [BlockLevelAccessList.account_addStorageWrite_noOp hnoOp]
    exact if_neg hx

/-- A safe write is recorded. -/
theorem Invariant.write (h : r.Invariant) {address : BALAddressHex}
    {storageKey value originalValue : Bytes} {index : BALAccessIndexNumber}
    (ha : (BALOp.write address storageKey value index originalValue).Admissible r)
    (hs : (BALOp.write address storageKey value index originalValue).Safe r) :
    ((BALOp.write address storageKey value index originalValue).step r).Invariant ∧
      r.bal.accesses.SameBefore index
        (r.bal.addStorageWrite address storageKey value index (some originalValue)).accesses := by
  obtain ⟨hindex, horiginal⟩ := ha
  have hsafe : if stripLeadingZeros value = stripLeadingZeros originalValue then
      ∀ e ∈ (r.bal.accesses.account address).slotChanges (slotKey storageKey), index ≤ e.1
      else ∀ e ∈ (r.bal.accesses.account address).slotChanges (slotKey storageKey), e.1 ≠ index :=
        hs
  have hat : RecordedAt ((r.bal.addStorageWrite address storageKey value index
        (some originalValue)).accesses.account address)
      (Function.update (r.world.current.storage address) (slotKey storageKey)
        (ChangeLog.write (r.world.current.storage address (slotKey storageKey)) index
          (stripLeadingZeros value)))
      (r.world.current.code address) index ∧
      SameBefore index (r.bal.accesses.account address) ((r.bal.addStorageWrite address storageKey
        value index (some originalValue)).accesses.account address) := by
    -- a write of the original value removes every change of the slot, none of which is earlier
    -- here; any other one adds its own
    by_cases hsame : stripLeadingZeros value = stripLeadingZeros originalValue
    · rw [if_pos hsame] at hsafe
      have hnoOp : BlockLevelAccessList.isNoOp value (some originalValue) = true :=
        decide_eq_true (congrArg bytesToHex hsame)
      rw [BlockLevelAccessList.account_addStorageWrite_noOp hnoOp]
      simp only [if_true]
      exact ⟨(h.recorded address).writeBack hindex (hsame.trans horiginal) hsafe,
        sameBefore_writeBack hsafe⟩
    · rw [if_neg hsame] at hsafe
      have hnoOp : BlockLevelAccessList.isNoOp value (some originalValue) = false :=
        decide_eq_false fun heq => hsame (bytesToHex_injective heq)
      rw [BlockLevelAccessList.account_addStorageWrite hnoOp]
      simp only [if_true]
      exact ⟨(h.recorded address).change hindex (fun heq => hsame (heq.trans horiginal.symm)) hsafe,
        sameBefore_change⟩
  have hstorage : (r.world.current.writeStorage address (slotKey storageKey)
    (stripLeadingZeros value)
      index).storage address = Function.update (r.world.current.storage address)
        (slotKey storageKey)
        (ChangeLog.write (r.world.current.storage address (slotKey storageKey)) index
          (stripLeadingZeros value)) := Function.update_self _ _ _
  refine @Invariant.update r h (r.bal.addStorageWrite address storageKey value index
      (some originalValue)) (r.world.current.writeStorage address (slotKey storageKey)
      (stripLeadingZeros value) index) address (checkpoints_addStorageWrite _ _ _ _ _ _) hindex
    (fun x hx => ⟨account_addStorageWrite_of_ne _ hx _ _ _ _, Function.update_of_ne hx _ _, rfl⟩)
    ?_ hat.2
  rw [hstorage]
  exact hat.1

/-- A read is recorded. -/
theorem Invariant.read (h : r.Invariant) (address : BALAddressHex) (storageKey : Bytes) :
    ((BALOp.read address storageKey).step r).Invariant ∧
      r.bal.accesses.SameBefore r.world.current.index
        (r.bal.addStorageRead address storageKey).accesses := by
  have hother : ∀ x, x ≠ address → (r.bal.addStorageRead address storageKey).accesses.account x =
      r.bal.accesses.account x := by
    intro x hx
    rw [BlockLevelAccessList.account_addStorageRead]
    exact if_neg fun hread => hx hread.1
  have hat : RecordedAt ((r.bal.addStorageRead address storageKey).accesses.account address)
      (r.world.current.storage address) (r.world.current.code address) r.world.current.index ∧
      SameBefore r.world.current.index (r.bal.accesses.account address)
        ((r.bal.addStorageRead address storageKey).accesses.account address) := by
    rw [BlockLevelAccessList.account_addStorageRead]
    simp only [true_and]
    split
    · rename_i hslot
      exact ⟨(h.recorded address).read hslot, fun _ => rfl, rfl, fun _ _ => rfl⟩
    · exact ⟨h.recorded address, .refl _ _⟩
  exact @Invariant.update r h (r.bal.addStorageRead address storageKey) r.world.current address rfl
    le_rfl (fun x hx => ⟨hother x hx, rfl, rfl⟩) hat.1 hat.2

/-- A nonce is recorded. -/
theorem Invariant.nonce (h : r.Invariant) {address : BALAddressHex} {nonce : ℕ}
    {index : BALAccessIndexNumber} (hindex : r.world.current.index ≤ index) :
    ((BALOp.nonce address nonce index).step r).Invariant ∧
      r.bal.accesses.SameBefore index (r.bal.addNonceChange address nonce index).accesses := by
  have hother : ∀ x, x ≠ address → (r.bal.addNonceChange address nonce index).accesses.account x =
      r.bal.accesses.account x := fun x hx =>
    (BlockLevelAccessList.account_record _ x).trans (if_neg hx)
  have hself : (r.bal.addNonceChange address nonce index).accesses.account address =
      { r.bal.accesses.account address with
        nonceChanges := (r.bal.accesses.account address).nonceChanges.set index
          (padToEvenHex (bigIntToHex nonce)) } :=
    (BlockLevelAccessList.account_record _ address).trans (if_pos rfl)
  refine @Invariant.update r h (r.bal.addNonceChange address nonce index)
    { r.world.current with index } address rfl hindex (fun x hx => ⟨hother x hx, rfl, rfl⟩) ?_ ?_
  · have hat := (h.recorded address).mono hindex
    rw [hself]
    exact ⟨hat.apart, hat.storage, hat.code⟩
  · rw [hself]
    refine ⟨fun _ => rfl, rfl, fun i hi => ?_⟩
    rw [InsertionMap.get_set, if_neg (Nat.ne_of_lt hi)]

/-- The original codes, with the one a change names unless there is one. -/
def noteOriginal (codes : InsertionMap (BALAddressHex × BALAccessIndexNumber) Bytes)
    (key : BALAddressHex × BALAccessIndexNumber) :
    Option Bytes → InsertionMap (BALAddressHex × BALAccessIndexNumber) Bytes
  | some originalCode => if codes.has key then codes else codes.set key originalCode
  | none => codes

/-- A safe change of code is recorded. -/
theorem Invariant.code (h : r.Invariant) {address : BALAddressHex} {newCode : Bytes}
    {index : BALAccessIndexNumber} {originalCode : Option Bytes}
    (hindex : r.world.current.index ≤ index)
    (hs : (BALOp.code address newCode index originalCode).Safe r) :
    ((BALOp.code address newCode index originalCode).step r).Invariant ∧
      r.bal.accesses.SameBefore index
        (r.bal.addCodeChange address newCode index originalCode).accesses := by
  obtain ⟨known, hknown, hself⟩ : ∃ known, BALOp.comparedCode r.bal address index originalCode =
        (if ∃ e ∈ (r.bal.accesses.account address).codeChanges, e.1 = index then known
          else originalCode) ∧
      ∀ x, (r.bal.addCodeChange address newCode index originalCode).accesses.account x =
        if x = address then
          { r.bal.accesses.account address with
            codeChanges := BlockLevelAccessList.changeCode
              (r.bal.accesses.account address).codeChanges newCode index originalCode known }
        else r.bal.accesses.account x := by
    refine ⟨_, rfl, fun x => ?_⟩
    have hrecorded : (r.bal.originalCodesAtIndex.get (address, index)).or originalCode =
        (noteOriginal r.bal.originalCodesAtIndex (address, index) originalCode).get
          (address, index) := by
      cases originalCode with
      | none => exact Option.or_none
      | some originalCode =>
        rw [noteOriginal]
        by_cases hhas : r.bal.originalCodesAtIndex.has (address, index) = true
        · obtain ⟨original, horiginal⟩ := Option.isSome_iff_exists.1 hhas
          rw [if_pos hhas, horiginal]
          rfl
        · rw [if_neg hhas, InsertionMap.get_set_self,
            Option.not_isSome_iff_eq_none.1 hhas]
          rfl
    rw [hrecorded]
    exact BlockLevelAccessList.account_record _ x
  rw [BALOp.Safe, hknown] at hs
  have hcode : (r.world.current.writeCode address newCode index).code address =
      ChangeLog.write (r.world.current.code address) index newCode := Function.update_self _ _ _
  refine @Invariant.update r h (r.bal.addCodeChange address newCode index originalCode)
    (r.world.current.writeCode address newCode index) address rfl hindex
    (fun x hx => ⟨(hself x).trans (if_neg hx), rfl, Function.update_of_ne hx _ _⟩) ?_ ?_
  · rw [hself, if_pos rfl, hcode]
    exact (h.recorded address).changeCode hindex hs
  · rw [hself, if_pos rfl]
    exact ⟨fun _ => rfl, earlier_changeCode _ _ _ _, fun _ _ => rfl⟩

/-- A snapshot records what the list does. -/
theorem Invariant.checkpoint (h : r.Invariant) : (BALOp.checkpoint.step r).Invariant :=
  ⟨h.recorded, le_rfl, fun _ => .refl _ _, h.recorded, h.covered⟩

/-- A checkpoint that is closed leaves the one below it covered. -/
theorem Invariant.commit (h : r.Invariant) : (BALOp.commit.step r).Invariant := by
  refine ⟨h.recorded, ?_⟩
  have hcovered := h.covered
  change Covered r.bal.accesses r.world.current r.bal.checkpoints.tail r.world.saved.tail
  match hc : r.bal.checkpoints, hv : r.world.saved with
  | [], [] => trivial
  | [], _ :: _ => simp only [hc, hv, Covered] at hcovered
  | _ :: _, [] => simp only [hc, hv, Covered] at hcovered
  | c :: cs, v :: vs =>
    rw [hc, hv] at hcovered
    obtain ⟨hindex, hsame, -, hbelow⟩ := hcovered
    exact hbelow.advance hindex hsame

/-- A safe revert goes back to what was recorded. -/
theorem Invariant.revert (h : r.Invariant) {preserveReads : Bool}
    (ha : (BALOp.revert preserveReads).Admissible r) (hs : (BALOp.revert preserveReads).Safe r) :
    ((BALOp.revert preserveReads).step r).Invariant ∧
      r.bal.accesses.SameBefore ((BALOp.revert preserveReads).index r)
        (r.bal.revert preserveReads).accesses := by
  have hcovered := h.covered
  match hc : r.bal.checkpoints, hv : r.world.saved with
  | [], _ => exact absurd hc ha
  | _ :: _, [] => simp only [hc, hv, Covered] at hcovered
  | c :: cs, v :: vs =>
    rw [hc, hv] at hcovered
    obtain ⟨hindex, hsame, hrecorded, hbelow⟩ := hcovered
    have hworld : (BALOp.revert preserveReads).happen r.world = ⟨v, vs⟩ := by
      rw [BALOp.happen, Snapshots.revert, hv]
    have hat : (BALOp.revert preserveReads).index r = v.index := by
      rw [BALOp.index, hv]
      rfl
    have hsymm : r.bal.accesses.SameBefore v.index c.accesses := fun x => (hsame x).symm
    rw [BALOp.step, hworld, hat]
    cases preserveReads with
    | false =>
      have hbal : r.bal.revert false =
          ⟨c.accesses, c.blockAccessIndex, cs, c.originalBalances, c.originalCodesAtIndex⟩ := by
        rw [BlockLevelAccessList.revert, hc]
        rfl
      rw [BALOp.list, hbal]
      exact ⟨⟨hrecorded, hbelow⟩, hsymm⟩
    | true =>
      have hcheckpoints : (r.bal.revert true).checkpoints = cs := by
        rw [BlockLevelAccessList.revert, hc]
        rfl
      have hback : c.accesses.SameBefore v.index (r.bal.revert true).accesses := by
        intro x
        rw [BlockLevelAccessList.account_revert hc]
        exact ⟨fun _ => rfl, rfl, fun _ _ => rfl⟩
      refine ⟨⟨fun x => ?_, ?_⟩, fun x => (hsymm x).trans (hback x)⟩
      · change RecordedAt ((r.bal.revert true).accesses.account x) _ _ _
        rw [BlockLevelAccessList.account_revert hc]
        exact (hrecorded x).keepReads fun slot => hs c (by rw [hc]; rfl) x slot
      · change Covered (r.bal.revert true).accesses v (r.bal.revert true).checkpoints vs
        rw [hcheckpoints]
        exact hbelow.advance le_rfl hback

/-- The list records the history after one more operation, which says nothing under the indices
before its own. -/
theorem Invariant.step (h : r.Invariant) {op : BALOp} (ha : op.Admissible r) (hs : op.Safe r) :
    (op.step r).Invariant ∧ r.bal.accesses.SameBefore (op.index r) (op.step r).bal.accesses := by
  cases op with
  | read address storageKey => exact h.read address storageKey
  | write address storageKey value index originalValue => exact h.write ha hs
  | nonce address newNonce index => exact h.nonce ha
  | code address newCode index originalCode => exact h.code ha hs
  | checkpoint => exact ⟨h.checkpoint, fun _ => .refl _ _⟩
  | commit => exact ⟨h.commit, fun _ => .refl _ _⟩
  | revert preserveReads => exact h.revert ha hs

/-- A new list has nothing to record. -/
private theorem invariant_start (storage : BALAddressHex → BALStorageKeyHex → Bytes)
    (code : BALAddressHex → Bytes) : (start storage code).Invariant :=
  ⟨fun address => ⟨fun _ => nofun, fun slot => ChangeLog.records_nil (storage address slot) 0,
    ChangeLog.records_nil (code address) 0⟩, trivial⟩

/-- The invariant holds after every run of safe steps. -/
theorem Invariant.run {ops : List BALOp} (h : r.Invariant)
    (hops : Allowed (fun op r => op.Admissible r ∧ op.Safe r) ops r) : (r.run ops).Invariant := by
  induction ops generalizing r with
  | nil => exact h
  | cons op ops ih => exact ih (h.step hops.1.1 hops.1.2).1 hops.2

end Recording

/-- **Every run** of operations that are safe where they stand ends in a list that records the
history, and a further one alters nothing that the list says under the indices before its own. -/
theorem recorded_of_run (storage : BALAddressHex → BALStorageKeyHex → Bytes)
    (code : BALAddressHex → Bytes) {ops : List BALOp}
    (hops : Recording.Allowed (fun op r => op.Admissible r ∧ op.Safe r) ops
      (Recording.start storage code)) :
    Recorded ((Recording.start storage code).run ops).bal.accesses
        ((Recording.start storage code).run ops).world.current ∧
      ∀ op : BALOp, op.Admissible ((Recording.start storage code).run ops) →
        op.Safe ((Recording.start storage code).run ops) →
        ((Recording.start storage code).run ops).bal.accesses.SameBefore
          (op.index ((Recording.start storage code).run ops))
          (op.step ((Recording.start storage code).run ops)).bal.accesses := by
  have hinvariant := (Recording.invariant_start storage code).run hops
  exact ⟨hinvariant.recorded, fun _ ha hs => (hinvariant.step ha hs).2⟩

/-- Nothing is stored and no account has code. -/
def Recording.blank : Recording := .start (fun _ _ => []) fun _ => []

/-- A slot and a code are changed and both are undone again; then the slot is changed for good and
another one read. -/
def undoneThenWritten : Recording :=
  Recording.blank.run [.checkpoint, .write ['0', 'x', 'a', 'a'] [1] [5] 1 [],
    .code ['0', 'x', 'a', 'a'] [7] 1 (some []), .revert true,
    .write ['0', 'x', 'a', 'a'] [1] [5] 1 [], .read ['0', 'x', 'a', 'a'] [2]]

/-- The list records the change that stands, and a later one leaves what it says as it is. -/
theorem recorded_of_run_undone :
    (undoneThenWritten.bal.accesses.account ['0', 'x', 'a', 'a']).slotChanges (slotKey [1]) =
      [(1, [5])] ∧
    Recorded undoneThenWritten.bal.accesses undoneThenWritten.world.current ∧
    undoneThenWritten.bal.accesses.SameBefore 2
      ((BALOp.write ['0', 'x', 'a', 'a'] [1] [6] 2 [5]).step undoneThenWritten).bal.accesses := by
  have hallowed : Recording.Allowed (fun op r => op.Admissible r ∧ op.Safe r)
      [.checkpoint, .write ['0', 'x', 'a', 'a'] [1] [5] 1 [],
        .code ['0', 'x', 'a', 'a'] [7] 1 (some []), .revert true,
        .write ['0', 'x', 'a', 'a'] [1] [5] 1 [], .read ['0', 'x', 'a', 'a'] [2]]
      Recording.blank := by
    refine ⟨⟨trivial, trivial⟩, ⟨⟨Nat.zero_le 1, rfl⟩, nofun⟩, ⟨le_rfl, ?_⟩, ⟨nofun, ?_⟩,
      ⟨⟨Nat.zero_le 1, rfl⟩, nofun⟩, ⟨trivial, trivial⟩, trivial⟩
    · change some [] = some [7] ↔ [7] = []
      decide
    · rintro c ⟨⟩ address slot -
      rfl
  obtain ⟨hrecorded, hsame⟩ := recorded_of_run (fun _ _ => []) (fun _ => []) hallowed
  refine ⟨by decide, hrecorded, hsame (.write ['0', 'x', 'a', 'a'] [1] [6] 2 [5])
    ⟨Nat.le_succ 1, rfl⟩ ?_⟩
  change ∀ e ∈ (undoneThenWritten.bal.accesses.account ['0', 'x', 'a', 'a']).slotChanges
    (slotKey [1]), e.1 ≠ 2
  decide

/-- **Three ways not to record**: a slot that is written back loses the entry of an earlier index,
one that is changed twice at an index has two entries, and one that is written back before a revert
is both read and changed. -/
theorem notRecorded_of_writeBack :
    (Recording.Allowed BALOp.Admissible [.write ['0', 'x', 'a', 'a'] [1] [5] 1 [],
        .write ['0', 'x', 'a', 'a'] [1] [6] 2 [5], .write ['0', 'x', 'a', 'a'] [1] [5] 2 [5]]
        Recording.blank ∧
      ¬(Recording.blank.run [.write ['0', 'x', 'a', 'a'] [1] [5] 1 [],
        .write ['0', 'x', 'a', 'a'] [1] [6] 2 [5]]).bal.accesses.SameBefore 2
        (Recording.blank.run [.write ['0', 'x', 'a', 'a'] [1] [5] 1 [],
          .write ['0', 'x', 'a', 'a'] [1] [6] 2 [5],
          .write ['0', 'x', 'a', 'a'] [1] [5] 2 [5]]).bal.accesses) ∧
    (Recording.Allowed BALOp.Admissible [.write ['0', 'x', 'a', 'a'] [1] [5] 1 [],
        .write ['0', 'x', 'a', 'a'] [1] [6] 1 []] Recording.blank ∧
      ¬Recorded (Recording.blank.run [.write ['0', 'x', 'a', 'a'] [1] [5] 1 [],
          .write ['0', 'x', 'a', 'a'] [1] [6] 1 []]).bal.accesses
        (Recording.blank.run [.write ['0', 'x', 'a', 'a'] [1] [5] 1 [],
          .write ['0', 'x', 'a', 'a'] [1] [6] 1 []]).world.current) ∧
    (Recording.Allowed BALOp.Admissible [.write ['0', 'x', 'a', 'a'] [1] [5] 1 [], .checkpoint,
        .write ['0', 'x', 'a', 'a'] [1] [] 1 [], .revert true] Recording.blank ∧
      ¬Recorded (Recording.blank.run [.write ['0', 'x', 'a', 'a'] [1] [5] 1 [], .checkpoint,
          .write ['0', 'x', 'a', 'a'] [1] [] 1 [], .revert true]).bal.accesses
        (Recording.blank.run [.write ['0', 'x', 'a', 'a'] [1] [5] 1 [], .checkpoint,
          .write ['0', 'x', 'a', 'a'] [1] [] 1 [], .revert true]).world.current) := by
  refine ⟨⟨⟨⟨Nat.zero_le 1, rfl⟩, ⟨Nat.le_succ 1, rfl⟩, ⟨le_rfl, rfl⟩, trivial⟩, fun h => ?_⟩,
    ⟨⟨⟨Nat.zero_le 1, rfl⟩, ⟨le_rfl, rfl⟩, trivial⟩, fun h => ?_⟩,
    ⟨⟨Nat.zero_le 1, rfl⟩, trivial, ⟨le_rfl, rfl⟩, nofun, trivial⟩, fun h => ?_⟩
  · exact absurd ((h ['0', 'x', 'a', 'a']).storage (slotKey [1])) (by decide)
  · exact absurd ((h ['0', 'x', 'a', 'a']).storage (slotKey [1])).nodup (by decide)
  · exact absurd ((h ['0', 'x', 'a', 'a']).apart (slotKey [1]) (by decide))
      (by decide)

end Tvmjs
