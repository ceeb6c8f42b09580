import Tvmjs.Base.InsertionMap
import Tvmjs.Base.Rollback
import Tvmjs.Util.Account
import Mathlib.Data.Set.Insert

/-!
# The journal of warm and touched entries

`Journal` keeps the warm addresses and slots, the touched accounts and the storage writes of a
transaction once, and for going back only what each height added.  The reference copies all four
sets at a checkpoint (`JournalSets`, `Snapshots`).

* `forget_undoItem` -- undoing the additions of one height takes exactly these out of the sets;
* `Leveled` -- how the heights lie in the list of additions: those of an open checkpoint are above
  it, its last one stands at it;
* `Journal.Represents` -- the additions, cut at the open checkpoints, roll the sets back from copy
  to copy; every operation keeps this (`Represents.step`);
* `journal_refines` -- hence after every well-nested sequence the sets are those of the reference.
-/

namespace Tvmjs

/-- `set.add(x)`, of a set as the list of its members. -/
def addMember {α : Type*} [DecidableEq α] (l : List α) (x : α) : List α :=
  if x ∈ l then l else l ++ [x]

@[simp] theorem mem_addMember {α : Type*} [DecidableEq α] {l : List α} {x y : α} :
    y ∈ addMember l x ↔ y = x ∨ y ∈ l := by
  unfold addMember
  split
  · rename_i hx
    constructor
    · exact .inr
    · rintro (rfl | hy)
      · exact hx
      · exact hy
  · rw [List.mem_append, List.mem_singleton, or_comm]

/-- What was added at one height. -/
structure JournalDiffItem where
  /-- Warm addresses to remove. -/
  addresses : List Bytes := []
  /-- Warm slots to remove, by address. -/
  slots : InsertionMap Bytes (List Bytes) := .empty
  /-- Touched accounts to remove. -/
  touched : List Address := []
  /-- Slots written in this transaction to remove. -/
  storageWrites : List (Address × Bytes) := []

/-- What a transaction warmed, touched and wrote, by depth of call. -/
structure Journal where
  /-- The warm addresses with their warm slots. -/
  journal : InsertionMap Bytes (List Bytes) := .empty
  alwaysWarmJournal : InsertionMap Bytes (List Bytes) := .empty
  touched : List Address := []
  /-- The heights with what was added at them, the newest first. -/
  journalDiff : List (ℤ × JournalDiffItem) := [(0, {})]
  journalHeight : ℤ := 0
  storageWrites : List (Address × Bytes) := []
  /-- The accesses that are reported, when they are. -/
  accessList : Option (InsertionMap Bytes (List Bytes)) := none
  /-- The hashed addresses that are reported, when they are. -/
  preimages : Option (InsertionMap Bytes Bytes) := none

/-- `RIPEMD160_ADDRESS_STRING`. -/
def RIPEMD160_ADDRESS : Address := 3

namespace Journal

/-- Add to the newest additions. -/
def amendDiff (j : Journal) (f : JournalDiffItem → JournalDiffItem) : Journal :=
  match j.journalDiff with
  | [] => j
  | (height, diff) :: rest => { j with journalDiff := (height, f diff) :: rest }

/-- The bytes of an address. -/
def addressBytes (address : Address) : Bytes :=
  (List.range 20).map fun i => UInt8.ofNat (address.val / 256 ^ (19 - i))

/-- Touch an account.  With preimages reported its hashed address is noted first, which needs the
state manager's hash. -/
def touchAccount (getAppliedKey : Option (Bytes → Bytes)) (address : Address) (j : Journal) :
    Except String Unit × Journal :=
  let touch (j : Journal) : Journal :=
    if address ∈ j.touched then j
    else { j with touched := addMember j.touched address }.amendDiff fun diff =>
      { diff with touched := addMember diff.touched address }
  match j.preimages with
  | none => (.ok (), touch j)
  | some preimages =>
    match getAppliedKey with
    | none =>
        (.error ("touchAccount: stateManager.getAppliedKey can not be undefined if preimage " ++
        "storing is enabled"), j)
    | some hash => (.ok (), touch { j with
        preimages := some (preimages.set (hash (addressBytes address)) (addressBytes address)) })

/-- `commit`, and whether the state manager took it. -/
def commit (accepted : Bool) (j : Journal) : Journal :=
  if accepted then
    { j with journalHeight := j.journalHeight - 1
             journalDiff := (j.journalHeight - 1, {}) :: j.journalDiff }
  else j

/-- `checkpoint`, and whether the state manager took it: else the books are put back. -/
def checkpoint (accepted : Bool) (j : Journal) : Journal :=
  let opened := { j with journalHeight := j.journalHeight + 1
                         journalDiff := (j.journalHeight + 1, {}) :: j.journalDiff }
  if accepted then opened
  else { opened with journalDiff := opened.journalDiff.tail
                     journalHeight := opened.journalHeight - 1 }

/-- Delete warm addresses, with all their slots. -/
def removeAddresses (journal : InsertionMap Bytes (List Bytes)) (addresses : List Bytes) :
    InsertionMap Bytes (List Bytes) := addresses.foldl (fun m address => m.delete address) journal

/-- Delete slots of the addresses that are still warm. -/
def removeSlots (journal : InsertionMap Bytes (List Bytes))
    (slots : List (Bytes × List Bytes)) : InsertionMap Bytes (List Bytes) :=
  slots.foldl (fun m entry =>
    match m.get entry.1 with
    | none => m
    | some held => m.set entry.1 (held.filter fun slot => slot ∉ entry.2)) journal

/-- Take out what was added at one height; a touched RIPEMD precompile stays touched. -/
def undoItem (j : Journal) (diff : JournalDiffItem) : Journal :=
  { j with
    storageWrites := j.storageWrites.filter fun key => key ∉ diff.storageWrites
    journal := removeSlots (removeAddresses j.journal diff.addresses) diff.slots.entries
    touched := j.touched.filter fun address =>
      ¬ (address ∈ diff.touched ∧ address ≠ RIPEMD160_ADDRESS) }

/-- The loop of `revert`, and the additions it leaves: it stops below the height; the oldest entry
is kept even if the loop runs past it. -/
def undoAbove (height : ℤ) : Journal → List (ℤ × JournalDiffItem) →
    Journal × List (ℤ × JournalDiffItem)
  | j, [] => (j, [])
  | j, [entry] => if entry.1 < height then (j, [entry]) else (j.undoItem entry.2, [entry])
  | j, entry :: entry' :: rest =>
    if entry.1 < height then (j, entry :: entry' :: rest)
    else undoAbove height (j.undoItem entry.2) (entry' :: rest)

/-- `revert`, and whether the state manager took it. -/
def revert (accepted : Bool) (j : Journal) : Journal :=
  if accepted then
    let (undone, journalDiff) := undoAbove j.journalHeight j j.journalDiff
    { undone with journalDiff, journalHeight := j.journalHeight - 1 }
  else j

/-- Whether a slot was written in the transaction. -/
def hasStorageWrite (j : Journal) (address : Address) (slot : Bytes) : Bool :=
  (address, slot) ∈ j.storageWrites

/-- Notes a slot that is written, for the innermost call to take back. -/
def recordStorageWrite (address : Address) (slot : Bytes) (j : Journal) : Journal :=
  if (address, slot) ∈ j.storageWrites then j
  else { j with storageWrites := addMember j.storageWrites (address, slot) }.amendDiff fun diff =>
    { diff with storageWrites := addMember diff.storageWrites (address, slot) }

/-- Warms an address for good: no revert takes it back. -/
def addAlwaysWarmAddress (address : Bytes) (addToAccessList : Bool) (j : Journal) : Journal :=
  let j := if j.alwaysWarmJournal.has address then j
    else { j with alwaysWarmJournal := j.alwaysWarmJournal.set address [] }
  match j.accessList with
  | none => j
  | some list =>
    if addToAccessList ∧ ¬ list.has address then { j with accessList := some (list.set address []) }
    else j

/-- Warms a slot and its address for good. -/
def addAlwaysWarmSlot (address slot : Bytes) (addToAccessList : Bool) (j : Journal) : Journal :=
  let j := j.addAlwaysWarmAddress address addToAccessList
  let slots := (j.alwaysWarmJournal.get address).getD []
  let j := { j with alwaysWarmJournal := j.alwaysWarmJournal.set address (addMember slots slot) }
  match j.accessList with
  | none => j
  | some list =>
    if addToAccessList then
      { j with accessList := some (list.set address (addMember ((list.get address).getD []) slot)) }
    else j

/-- Whether an address is warm. -/
def isWarmedAddress (j : Journal) (address : Bytes) : Bool :=
  j.journal.has address || j.alwaysWarmJournal.has address

/-- Warms an address, for the innermost call to take back. -/
def addWarmedAddress (address : Bytes) (j : Journal) : Journal :=
  let j := if j.journal.has address then j
    else { j with journal := j.journal.set address [] }.amendDiff fun diff =>
      { diff with addresses := addMember diff.addresses address }
  match j.accessList with
  | none => j
  | some list =>
    if list.has address then j else { j with accessList := some (list.set address []) }

/-- Whether a slot is warm. -/
def isWarmedStorage (j : Journal) (address slot : Bytes) : Bool :=
  let always := match j.alwaysWarmJournal.get address with
    | none => false
    | some slots => slot ∈ slots
  match j.journal.get address with
  | none => always
  | some slots => if slot ∈ slots then true else always

/-- Warm a slot.  With accesses reported the address has to be among them by now. -/
def addWarmedStorage (address slot : Bytes) (j : Journal) : Except String Unit × Journal :=
  let j := if j.journal.has address then j else j.addWarmedAddress address
  let slots := (j.journal.get address).getD []
  let j := if slot ∈ slots then j
    else { j with journal := j.journal.set address (addMember slots slot) }.amendDiff fun diff =>
      let added := addMember ((diff.slots.get address).getD []) slot
      { diff with slots := diff.slots.set address added }
  match j.accessList with
  | none => (.ok (), j)
  | some list =>
    match list.get address with
    | none => (.error "Cannot read properties of undefined (reading 'add')", j)
    | some reported =>
      (.ok (), { j with accessList := some (list.set address (addMember reported slot)) })

end Journal

/-! ### The reference -/

/-- The four sets. -/
@[ext] structure JournalSets where
  warmAddresses : Set Bytes
  warmSlots : Set (Bytes × Bytes)
  touched : Set Address
  storageWrites : Set (Address × Bytes)

/-- The operations on the journal.  The flag of the first three is whether the state manager takes
the call. -/
inductive JournalOp where
  | checkpoint (accepted : Bool)
  | commit (accepted : Bool)
  | revert (accepted : Bool)
  | touch (address : Address)
  | warmAddress (address : Bytes)
  | warmSlot (address slot : Bytes)
  | recordStorageWrite (address : Address) (slot : Bytes)
  | alwaysWarmAddress (address : Bytes) (addToAccessList : Bool)
  | alwaysWarmSlot (address slot : Bytes) (addToAccessList : Bool)
  | startReportingAccessList
  | startReportingPreimages
deriving DecidableEq, Repr

namespace JournalSets

/-- Nothing is warm, touched or written. -/
def empty : JournalSets := ⟨∅, ∅, ∅, ∅⟩

/-- A copy in which a touched RIPEMD precompile stays touched. -/
def keepRipemd (current copy : JournalSets) : JournalSets :=
  { copy with touched := {a | a ∈ copy.touched ∨ a ∈ current.touched ∧ a = RIPEMD160_ADDRESS} }

/-- One operation of the reference.  A touch that throws changes nothing. -/
def step (op : JournalOp) (outcome : Except String Unit) (s : Snapshots JournalSets) :
    Snapshots JournalSets :=
  match op with
  | .checkpoint accepted => if accepted then s.checkpoint else s
  | .commit accepted => if accepted then s.commit else s
  | .revert accepted => if accepted then s.revert.update (keepRipemd s.current) else s
  | .touch address =>
    match outcome with
    | .error _ => s
    | .ok _ => s.update fun sets => { sets with touched := insert address sets.touched }
  | .warmAddress address =>
    s.update fun sets => { sets with warmAddresses := insert address sets.warmAddresses }
  | .warmSlot address slot => s.update fun sets =>
    { sets with warmAddresses := insert address sets.warmAddresses
                warmSlots := insert (address, slot) sets.warmSlots }
  | .recordStorageWrite address slot =>
    s.update fun sets => { sets with storageWrites := insert (address, slot) sets.storageWrites }
  | _ => s

/-- Without the RIPEMD precompile, which is not rolled back. -/
def forget (sets : JournalSets) : JournalSets :=
  { sets with touched := {a | a ∈ sets.touched ∧ a ≠ RIPEMD160_ADDRESS} }

/-- Take out what was added at one height. -/
def undo (diff : JournalDiffItem) (sets : JournalSets) : JournalSets where
  warmAddresses := {a | a ∈ sets.warmAddresses ∧ a ∉ diff.addresses}
  warmSlots := {p | p ∈ sets.warmSlots ∧ p.1 ∉ diff.addresses ∧
    p.2 ∉ (diff.slots.get p.1).getD []}
  touched := {a | a ∈ sets.touched ∧ a ∉ diff.touched}
  storageWrites := {k | k ∈ sets.storageWrites ∧ k ∉ diff.storageWrites}

end JournalSets

namespace Journal

/-- The four sets a journal stands for. -/
def sets (j : Journal) : JournalSets where
  warmAddresses := {a | j.journal.has a}
  warmSlots := {p | p.2 ∈ (j.journal.get p.1).getD []}
  touched := {a | a ∈ j.touched}
  storageWrites := {k | k ∈ j.storageWrites}

/-- One operation of the code, and whether it throws. -/
def step (getAppliedKey : Option (Bytes → Bytes)) (op : JournalOp) (j : Journal) :
    Except String Unit × Journal :=
  match op with
  | .checkpoint accepted => (.ok (), j.checkpoint accepted)
  | .commit accepted => (.ok (), j.commit accepted)
  | .revert accepted => (.ok (), j.revert accepted)
  | .touch address => j.touchAccount getAppliedKey address
  | .warmAddress address => (.ok (), j.addWarmedAddress address)
  | .warmSlot address slot => j.addWarmedStorage address slot
  | .recordStorageWrite address slot => (.ok (), j.recordStorageWrite address slot)
  | .alwaysWarmAddress address addToAccessList =>
    (.ok (), j.addAlwaysWarmAddress address addToAccessList)
  | .alwaysWarmSlot address slot addToAccessList =>
    (.ok (), j.addAlwaysWarmSlot address slot addToAccessList)
  | .startReportingAccessList => (.ok (), { j with accessList := some .empty })
  | .startReportingPreimages => (.ok (), { j with preimages := some .empty })

/-- The code and the reference, step by step; what throws leaves what it has done. -/
def runBoth (getAppliedKey : Option (Bytes → Bytes)) :
    List JournalOp → Journal × Snapshots JournalSets → Journal × Snapshots JournalSets
  | [], both => both
  | op :: ops, (j, s) =>
    let (outcome, j') := j.step getAppliedKey op
    runBoth getAppliedKey ops (j', JournalSets.step op outcome s)

/-- Every commit and revert the state manager takes has a checkpoint. -/
def WellNested : ℕ → List JournalOp → Prop
  | _, [] => True
  | d, .checkpoint accepted :: ops => WellNested (if accepted then d + 1 else d) ops
  | d, .commit accepted :: ops =>
    (accepted = true → 0 < d) ∧ WellNested (if accepted then d - 1 else d) ops
  | d, .revert accepted :: ops =>
    (accepted = true → 0 < d) ∧ WellNested (if accepted then d - 1 else d) ops
  | d, _ :: ops => WellNested d ops

/-! ### Undoing the additions of one height -/

/-- Removed addresses are cold again. -/
private theorem get_removeAddresses (m : InsertionMap Bytes (List Bytes)) (addresses : List Bytes)
    (a : Bytes) :
    (removeAddresses m addresses).get a = if a ∈ addresses then none else m.get a := by
  induction addresses generalizing m with
  | nil => rfl
  | cons address addresses ih =>
    change (removeAddresses (m.delete address) addresses).get a = _
    rw [ih, InsertionMap.get_delete]
    by_cases ha : a = address
    · subst ha
      simp
    · simp [ha]

/-- Removed slots are cold again. -/
private theorem get_removeSlots {slots : List (Bytes × List Bytes)}
    (hnodup : (slots.map Prod.fst).Nodup)
    (m : InsertionMap Bytes (List Bytes)) (a : Bytes) :
    (removeSlots m slots).get a = (m.get a).map fun held =>
      held.filter fun slot => slot ∉ ((slots.find? fun e => e.1 = a).map Prod.snd).getD [] := by
  induction slots generalizing m with
  | nil =>
    change m.get a = _
    cases m.get a <;> simp
  | cons entry slots ih =>
    rw [List.map_cons, List.nodup_cons] at hnodup
    have hstep : (match m.get entry.1 with
        | none => m
        | some held => m.set entry.1 (held.filter fun slot => slot ∉ entry.2)).get a =
        if a = entry.1 then (m.get a).map fun held => held.filter fun slot => slot ∉ entry.2
        else m.get a := by
      by_cases ha : a = entry.1
      · subst ha
        rw [if_pos rfl]
        rcases hm : m.get entry.1 with _ | held
        · exact hm
        · exact InsertionMap.get_set_self ..
      · rw [if_neg ha]
        rcases hm : m.get entry.1 with _ | held
        · rfl
        · exact InsertionMap.get_set_of_ne _ _ ha
    change (removeSlots (match m.get entry.1 with | none => m | some held => _) slots).get a = _
    rw [ih hnodup.2, hstep, List.find?_cons]
    by_cases ha : a = entry.1
    · have hnone : (slots.find? fun e => e.1 = a) = none := by
        rw [List.find?_eq_none]
        intro e he h
        refine hnodup.1 ?_
        rw [← ha, ← of_decide_eq_true h]
        exact List.mem_map_of_mem he
      rw [hnone, if_pos ha, decide_eq_true ha.symm]
      cases m.get a <;> simp
    · rw [if_neg ha, decide_eq_false fun h => ha h.symm]

/-- Undoing takes exactly the additions out, but for a touched RIPEMD precompile. -/
theorem forget_undoItem (j : Journal) (diff : JournalDiffItem) :
    (j.undoItem diff).sets.forget = JournalSets.undo diff j.sets.forget := by
  have hget : ∀ a, (j.undoItem diff).journal.get a = if a ∈ diff.addresses then none
      else (j.journal.get a).map fun held =>
        held.filter fun slot => slot ∉ (diff.slots.get a).getD [] := by
    intro a
    change (removeSlots (removeAddresses j.journal diff.addresses) diff.slots.entries).get a = _
    rw [get_removeSlots diff.slots.nodup, get_removeAddresses]
    split <;> rfl
  refine JournalSets.ext ?_ ?_ ?_ ?_
  · ext a
    change ((j.undoItem diff).journal.get a).isSome ↔ (j.journal.get a).isSome ∧ a ∉ diff.addresses
    rw [hget]
    split
    · simp [*]
    · cases j.journal.get a <;> simp [*]
  · ext ⟨a, slot⟩
    change slot ∈ ((j.undoItem diff).journal.get a).getD [] ↔
      slot ∈ (j.journal.get a).getD [] ∧ a ∉ diff.addresses ∧ slot ∉ (diff.slots.get a).getD []
    rw [hget]
    split
    · simp [*]
    · cases j.journal.get a <;> simp [*]
  · ext a
    change (a ∈ j.touched.filter _ ∧ a ≠ RIPEMD160_ADDRESS) ↔
      ((a ∈ j.touched ∧ a ≠ RIPEMD160_ADDRESS) ∧ a ∉ diff.touched)
    simp only [List.mem_filter, decide_eq_true_eq]
    tauto
  · ext key
    change key ∈ j.storageWrites.filter _ ↔ key ∈ j.storageWrites ∧ key ∉ diff.storageWrites
    simp only [List.mem_filter, decide_eq_true_eq]

/-- An undo leaves the one address touched that stays so. -/
private theorem ripemd_undoItem (j : Journal) (diff : JournalDiffItem) :
    RIPEMD160_ADDRESS ∈ (j.undoItem diff).touched ↔ RIPEMD160_ADDRESS ∈ j.touched := by
  change RIPEMD160_ADDRESS ∈ j.touched.filter _ ↔ _
  simp

/-! ### Heights -/

/-- The additions since each open checkpoint, the newest checkpoint first, above those made before
any: all at least as high as the checkpoint, the last of them exactly as high. -/
def Leveled (base : List (ℤ × JournalDiffItem)) :
    ℤ → List (List (ℤ × JournalDiffItem)) → Prop
  | height, [] => ∃ diff rest, base = (height, diff) :: rest
  | height, seg :: segs => (∃ diff rest, seg = (height, diff) :: rest) ∧
    (∀ entry ∈ seg, height ≤ entry.1) ∧ Leveled base (height - 1) segs

/-- The newest level has an entry. -/
theorem Leveled.head {base : List (ℤ × JournalDiffItem)} {height : ℤ}
    {segs : List (List (ℤ × JournalDiffItem))} (h : Leveled base height segs) :
    ∃ diff rest, segs.flatten ++ base = (height, diff) :: rest := by
  rcases segs with _ | ⟨seg, segs⟩
  · exact h
  · obtain ⟨⟨diff, rest, rfl⟩, -, -⟩ := h
    exact ⟨diff, rest ++ segs.flatten ++ base, by simp⟩

/-- The loop of a revert undoes the newest segment and stops in front of the one below. -/
private theorem undoAbove_eq {height : ℤ} {seg below : List (ℤ × JournalDiffItem)}
    (hseg : ∀ entry ∈ seg, height ≤ entry.1)
    (hbelow : ∃ diff rest, below = (height - 1, diff) :: rest) (j : Journal) :
    undoAbove height j (seg ++ below) = (seg.foldl
      (fun j entry => j.undoItem entry.2) j, below) := by
  obtain ⟨diff, rest, rfl⟩ := hbelow
  have hlow : height - 1 < height := by omega
  induction seg generalizing j with
  | nil =>
    rcases rest with _ | ⟨entry, rest⟩
    · exact if_pos hlow
    · exact if_pos hlow
  | cons entry seg ih =>
    have hhigh : ¬ entry.1 < height := not_lt_of_ge (hseg entry List.mem_cons_self)
    obtain ⟨entry', rest', hrest⟩ :
        ∃ entry' rest', seg ++ (height - 1, diff) :: rest = entry' :: rest' :=
      List.exists_cons_of_ne_nil (by simp)
    have hrec := ih (fun e he => hseg e (List.mem_cons_of_mem _ he)) (j.undoItem entry.2)
    rw [List.cons_append, hrest, undoAbove, if_neg hhigh, ← hrest, hrec]
    rfl

/-- Undoing entry by entry rolls the sets back. -/
private theorem forget_foldl_undoItem (seg : List (ℤ × JournalDiffItem)) (j : Journal) :
    (seg.foldl (fun j entry => j.undoItem entry.2) j).sets.forget =
      rollBack (fun entry => JournalSets.undo entry.2) seg j.sets.forget := by
  induction seg generalizing j with
  | nil => rfl
  | cons entry seg ih => rw [List.foldl_cons, ih, forget_undoItem, rollBack_cons]

/-- And it leaves the one address touched. -/
private theorem ripemd_foldl_undoItem (seg : List (ℤ × JournalDiffItem)) (j : Journal) :
    RIPEMD160_ADDRESS ∈ (seg.foldl (fun j entry => j.undoItem entry.2) j).touched ↔
      RIPEMD160_ADDRESS ∈ j.touched := by
  induction seg generalizing j with
  | nil => rfl
  | cons entry seg ih => rw [List.foldl_cons, ih, ripemd_undoItem]

/-! ### The journal and its reference -/

/-- A journal at a state of the reference. -/
structure Represents (j : Journal) (s : Snapshots JournalSets) : Prop where
  current : j.sets = s.current
  log : ∃ segs base, j.journalDiff = segs.flatten ++ base ∧ Leveled base j.journalHeight segs ∧
    RollsBack (fun entry => JournalSets.undo entry.2) segs s.current.forget
      (s.saved.map JournalSets.forget)
  ripemd : ∀ copy ∈ s.saved, RIPEMD160_ADDRESS ∈ copy.touched →
    RIPEMD160_ADDRESS ∈ s.current.touched

variable {j j' : Journal} {s : Snapshots JournalSets}

/-- What only concerns reports and always-warm entries. -/
theorem Represents.congr (h : Represents j s) (hjournal : j'.journal = j.journal)
    (htouched : j'.touched = j.touched) (hwrites : j'.storageWrites = j.storageWrites)
    (hdiff : j'.journalDiff = j.journalDiff) (hheight : j'.journalHeight = j.journalHeight) :
    Represents j' s := by
  refine ⟨?_, ?_, h.ripemd⟩
  · rw [← h.current, sets, sets, hjournal, htouched, hwrites]
  · rw [hdiff, hheight]
    exact h.log

/-- An addition that the newest entry takes back. -/
theorem Represents.amend (h : Represents j s) {f : JournalDiffItem → JournalDiffItem}
    {g : JournalSets → JournalSets} (hdiff : j'.journalDiff = j.journalDiff)
    (hheight : j'.journalHeight = j.journalHeight) (hsets : j'.sets = g j.sets)
    (hundo : ∀ diff, JournalSets.undo (f diff) (g j.sets).forget =
      JournalSets.undo diff j.sets.forget)
    (hripemd : RIPEMD160_ADDRESS ∈ j.sets.touched → RIPEMD160_ADDRESS ∈ (g j.sets).touched) :
    Represents (j'.amendDiff f) (s.update g) := by
  obtain ⟨segs, base, hlog, hlevel, hrolls⟩ := h.log
  rw [← h.current] at hrolls
  have hshape : ∀ diff rest, j.journalDiff = (j.journalHeight, diff) :: rest →
      j'.amendDiff f = { j' with journalDiff := (j.journalHeight, f diff) :: rest } := by
    intro diff rest hrest
    rw [amendDiff, hdiff, hrest]
  have hcurrent : ∀ diff rest, j.journalDiff = (j.journalHeight, diff) :: rest →
      (j'.amendDiff f).sets = (s.update g).current := by
    intro diff rest hrest
    rw [hshape diff rest hrest, Snapshots.update, ← h.current, ← hsets]
    rfl
  have hsaved : ∀ copy ∈ s.saved, RIPEMD160_ADDRESS ∈ copy.touched →
      RIPEMD160_ADDRESS ∈ (s.update g).current.touched := by
    intro copy hcopy hmem
    have hnow := h.ripemd copy hcopy hmem
    rw [← h.current] at hnow
    rw [Snapshots.update, ← h.current]
    exact hripemd hnow
  -- The entry at the head belongs to the base, or to the segment above the last checkpoint.
  rcases segs with _ | ⟨seg, segs⟩
  · obtain ⟨diff, rest, rfl⟩ := hlevel
    refine ⟨hcurrent diff rest hlog, ⟨[], (j.journalHeight, f diff) :: rest, ?_, ?_, ?_⟩, hsaved⟩
    · rw [hshape diff rest hlog]
      rfl
    · rw [hshape diff rest hlog]
      exact ⟨f diff, rest, congrArg (fun n => (n, f diff) :: rest) hheight.symm⟩
    · have hnil : s.saved.map JournalSets.forget = [] :=
        List.length_eq_zero_iff.1 hrolls.length_eq.symm
      change RollsBack _ [] _ (s.saved.map _)
      rw [hnil]
      exact .nil _
  · obtain ⟨⟨diff, rest, rfl⟩, hhigh, hbelow⟩ := hlevel
    have hwhole : j.journalDiff = (j.journalHeight, diff) :: (rest ++ (segs.flatten ++ base)) := by
      simpa using hlog
    refine ⟨hcurrent diff _ hwhole, ⟨((j.journalHeight, f diff) :: rest) :: segs, base, ?_, ?_, ?_⟩,
      hsaved⟩
    · rw [hshape diff _ hwhole]
      simp
    · rw [hshape diff _ hwhole]
      change Leveled base j'.journalHeight _
      rw [hheight]
      refine ⟨⟨f diff, rest, rfl⟩, ?_, hbelow⟩
      intro entry hentry
      rcases List.mem_cons.1 hentry with rfl | hentry
      · exact le_rfl
      · exact hhigh entry (List.mem_cons_of_mem _ hentry)
    · change RollsBack _ _ (g s.current).forget _
      rw [← h.current]
      exact hrolls.amend (hundo diff)

/-- A change that changes nothing. -/
theorem Represents.same (h : Represents j s) {g : JournalSets → JournalSets}
    (hg : g j.sets = j.sets) : Represents j (s.update g) := by
  have hs : s.update g = s := by
    rw [Snapshots.update, ← h.current, hg, h.current]
  rw [hs]
  exact h

/-- Touching represents the step on sets. -/
theorem Represents.touch (h : Represents j s) (getAppliedKey : Option (Bytes → Bytes))
    (address : Address) :
    Represents (j.touchAccount getAppliedKey address).2
      (JournalSets.step (.touch address) (j.touchAccount getAppliedKey address).1 s) := by
  have htouch : ∀ {j : Journal}, Represents j s → Represents (if address ∈ j.touched then j
      else { j with touched := addMember j.touched address }.amendDiff fun diff =>
        { diff with touched := addMember diff.touched address })
      (s.update fun sets => { sets with touched := insert address sets.touched }) := by
    intro j h
    split
    · rename_i hmem
      refine h.same (JournalSets.ext rfl rfl ?_ rfl)
      exact Set.insert_eq_of_mem hmem
    · rename_i hnot
      refine h.amend rfl rfl ?_ ?_ fun hr => .inr hr
      · refine JournalSets.ext rfl rfl ?_ rfl
        ext a
        exact mem_addMember
      · intro diff
        refine JournalSets.ext rfl rfl ?_ rfl
        ext a
        change ((a = address ∨ a ∈ j.touched) ∧ a ≠ RIPEMD160_ADDRESS) ∧
          a ∉ addMember diff.touched address ↔ (a ∈ j.touched ∧ a ≠ RIPEMD160_ADDRESS) ∧
            a ∉ diff.touched
        rw [mem_addMember]
        constructor
        · rintro ⟨⟨rfl | ha, hne⟩, hd⟩
          · exact absurd (.inl rfl) hd
          · exact ⟨⟨ha, hne⟩, fun h => hd (.inr h)⟩
        · rintro ⟨⟨ha, hne⟩, hd⟩
          refine ⟨⟨.inr ha, hne⟩, ?_⟩
          rintro (rfl | hd')
          · exact hnot ha
          · exact hd hd'
  unfold touchAccount
  split
  · exact htouch h
  · split
    · exact h
    · exact htouch (h.congr rfl rfl rfl rfl rfl)

/-- Noting a write represents the step on sets. -/
theorem Represents.record (h : Represents j s) (address : Address) (slot : Bytes) :
    Represents (j.recordStorageWrite address slot) (s.update fun sets =>
      { sets with storageWrites := insert (address, slot) sets.storageWrites }) := by
  unfold recordStorageWrite
  split
  · rename_i hmem
    refine h.same (JournalSets.ext rfl rfl rfl ?_)
    exact Set.insert_eq_of_mem hmem
  · rename_i hnot
    refine h.amend rfl rfl ?_ ?_ fun hr => hr
    · refine JournalSets.ext rfl rfl rfl ?_
      ext key
      exact mem_addMember
    · intro diff
      refine JournalSets.ext rfl rfl rfl ?_
      ext key
      change ((key = (address, slot) ∨ key ∈ j.storageWrites) ∧
        key ∉ addMember diff.storageWrites (address, slot)) ↔
          key ∈ j.storageWrites ∧ key ∉ diff.storageWrites
      rw [mem_addMember]
      constructor
      · rintro ⟨rfl | hkey, hd⟩
        · exact absurd (.inl rfl) hd
        · exact ⟨hkey, fun h => hd (.inr h)⟩
      · rintro ⟨hkey, hd⟩
        refine ⟨.inr hkey, ?_⟩
        rintro (rfl | hd')
        · exact hnot hkey
        · exact hd hd'

/-- Warming an address, whatever is reported. -/
private theorem Represents.warmAddress (h : Represents j s) (address : Bytes) :
    Represents (j.addWarmedAddress address) (s.update fun sets =>
      { sets with warmAddresses := insert address sets.warmAddresses }) := by
  -- the journal itself, apart from the list that is reported
  have hwarm : Represents (if j.journal.has address then j
      else { j with journal := j.journal.set address [] }.amendDiff fun diff =>
        { diff with addresses := addMember diff.addresses address })
      (s.update fun sets => { sets with warmAddresses := insert address sets.warmAddresses }) := by
    split
    · rename_i hmem
      -- an address that is warm already is noted at no height, so no revert takes it back
      refine h.same (JournalSets.ext ?_ rfl rfl rfl)
      exact Set.insert_eq_of_mem hmem
    · rename_i hnot
      have hnone : j.journal.get address = none := by
        rw [← Option.not_isSome_iff_eq_none]
        exact hnot
      -- a new one is, and undoing its entry makes it cold
      refine h.amend rfl rfl ?_ ?_ fun hr => hr
      · refine JournalSets.ext ?_ ?_ rfl rfl
        · ext a
          change ((j.journal.set address []).get a).isSome ↔ a = address ∨ (j.journal.get a).isSome
          rw [InsertionMap.get_set]
          split
          · simp [*]
          · simp [*]
        · ext ⟨a, slot⟩
          change slot ∈ ((j.journal.set address []).get a).getD [] ↔
            slot ∈ (j.journal.get a).getD []
          rw [InsertionMap.get_set]
          split
          · rename_i ha
            rw [ha, hnone]
            rfl
          · rfl
      · intro diff
        refine JournalSets.ext ?_ ?_ rfl rfl
        · ext a
          change ((a = address ∨ (j.journal.get a).isSome) ∧
            a ∉ addMember diff.addresses address) ↔ (j.journal.get a).isSome ∧ a ∉ diff.addresses
          rw [mem_addMember]
          constructor
          · rintro ⟨rfl | ha, hd⟩
            · exact absurd (.inl rfl) hd
            · exact ⟨ha, fun h => hd (.inr h)⟩
          · rintro ⟨ha, hd⟩
            refine ⟨.inr ha, ?_⟩
            rintro (rfl | hd')
            · rw [hnone] at ha
              cases ha
            · exact hd hd'
        · ext ⟨a, slot⟩
          change (slot ∈ (j.journal.get a).getD [] ∧ a ∉ addMember diff.addresses address ∧
            slot ∉ (diff.slots.get a).getD []) ↔ slot ∈ (j.journal.get a).getD [] ∧
              a ∉ diff.addresses ∧ slot ∉ (diff.slots.get a).getD []
          rw [mem_addMember]
          constructor
          · rintro ⟨hslot, hd, hs⟩
            exact ⟨hslot, fun h => hd (.inr h), hs⟩
          · rintro ⟨hslot, hd, hs⟩
            refine ⟨hslot, ?_, hs⟩
            rintro (rfl | hd')
            · rw [hnone] at hslot
              cases hslot
            · exact hd hd'
  unfold addWarmedAddress
  dsimp only
  split
  · exact hwarm
  · split
    · exact hwarm
    · exact hwarm.congr rfl rfl rfl rfl rfl

/-- An address is warm once it was warmed. -/
private theorem has_addWarmedAddress (j : Journal) (address : Bytes) :
    (j.addWarmedAddress address).journal.has address := by
  have hwarm : (if j.journal.has address then j
      else { j with journal := j.journal.set address [] }.amendDiff fun diff =>
        { diff with addresses := addMember diff.addresses address }).journal.has address := by
    split
    · assumption
    · have hkeep : ∀ (j : Journal) (f : JournalDiffItem → JournalDiffItem),
          (j.amendDiff f).journal = j.journal := by
        intro j f
        unfold amendDiff
        split <;> rfl
      rw [hkeep, InsertionMap.has, InsertionMap.get_set_self]
      rfl
  unfold addWarmedAddress
  dsimp only
  split
  · exact hwarm
  · split
    · exact hwarm
    · exact hwarm

/-- Warming a slot of a warm address. -/
private theorem Represents.warmSlotOf (h : Represents j s) {address : Bytes} (slot : Bytes)
    (hwarm : j.journal.has address) :
    Represents (if slot ∈ (j.journal.get address).getD [] then j
      else { j with journal :=
          j.journal.set address (addMember ((j.journal.get address).getD []) slot) }.amendDiff
          fun diff =>
        let added := addMember ((diff.slots.get address).getD []) slot
        { diff with slots := diff.slots.set address added })
      (s.update fun sets => { sets with warmSlots := insert (address, slot) sets.warmSlots }) := by
  split
  · rename_i hmem
    refine h.same (JournalSets.ext rfl ?_ rfl rfl)
    exact Set.insert_eq_of_mem (a := (address, slot)) hmem
  · -- a slot that is warm only now goes into the last entry as well
    rename_i hnot
    refine h.amend rfl rfl ?_ ?_ fun hr => hr
    · refine JournalSets.ext ?_ ?_ rfl rfl
      · ext a
        change ((j.journal.set address _).get a).isSome ↔ (j.journal.get a).isSome
        rw [InsertionMap.get_set]
        split
        · rename_i ha
          rw [ha]
          exact ⟨fun _ => hwarm, fun _ => rfl⟩
        · rfl
      · ext ⟨a, slot'⟩
        change slot' ∈ ((j.journal.set address _).get a).getD [] ↔
          (a, slot') = (address, slot) ∨ slot' ∈ (j.journal.get a).getD []
        rw [InsertionMap.get_set, Prod.mk.injEq]
        split
        · rename_i ha
          simp [ha]
        · rename_i ha
          simp [ha]
    · intro diff
      refine JournalSets.ext rfl ?_ rfl rfl
      ext ⟨a, slot'⟩
      change (((a, slot') = (address, slot) ∨ slot' ∈ (j.journal.get a).getD []) ∧
        a ∉ diff.addresses ∧ slot' ∉ ((diff.slots.set address
          (addMember ((diff.slots.get address).getD []) slot)).get a).getD []) ↔
        slot' ∈ (j.journal.get a).getD [] ∧ a ∉ diff.addresses ∧
          slot' ∉ (diff.slots.get a).getD []
      rw [InsertionMap.get_set, Prod.mk.injEq]
      -- taking the entry back leaves the slots of the address as they were
      by_cases ha : a = address
      · subst ha
        rw [if_pos rfl, Option.getD_some, mem_addMember]
        constructor
        · rintro ⟨⟨-, rfl⟩ | hslot, hd, hs⟩
          · exact absurd (.inl rfl) hs
          · exact ⟨hslot, hd, fun h => hs (.inr h)⟩
        · rintro ⟨hslot, hd, hs⟩
          refine ⟨.inr hslot, hd, ?_⟩
          rintro (rfl | hs')
          · exact hnot hslot
          · exact hs hs'
      · simp [ha]

/-- Warming a slot represents the step on sets. -/
private theorem Represents.warmSlot (h : Represents j s) (address slot : Bytes) :
    Represents (j.addWarmedStorage address slot).2
      (JournalSets.step (.warmSlot address slot) (j.addWarmedStorage address slot).1 s) := by
  have haddress : ∃ j', j' = (if j.journal.has address then j else j.addWarmedAddress address) ∧
      j'.journal.has address ∧ Represents j' (s.update fun sets =>
        { sets with warmAddresses := insert address sets.warmAddresses }) := by
    refine ⟨_, rfl, ?_, ?_⟩
    · split
      · assumption
      · exact has_addWarmedAddress j address
    · split
      · rename_i hmem
        refine h.same (JournalSets.ext ?_ rfl rfl rfl)
        exact Set.insert_eq_of_mem hmem
      · exact h.warmAddress address
  obtain ⟨j', hj', hwarm, h'⟩ := haddress
  have hslot := h'.warmSlotOf slot hwarm
  unfold addWarmedStorage
  dsimp only
  rw [← hj']
  split
  · exact hslot
  · split
    · exact hslot
    · exact hslot.congr rfl rfl rfl rfl rfl

/-! ### Checkpoints -/

/-- An empty entry undoes nothing. -/
@[simp] theorem undo_nothing (sets : JournalSets) : JournalSets.undo {} sets = sets := by
  refine JournalSets.ext ?_ ?_ ?_ ?_
  · ext a
    exact and_iff_left List.not_mem_nil
  · ext p
    exact and_iff_left ⟨List.not_mem_nil, List.not_mem_nil⟩
  · ext a
    exact and_iff_left List.not_mem_nil
  · ext key
    exact and_iff_left List.not_mem_nil

/-- A checkpoint represents the copy of the sets. -/
theorem Represents.checkpoint (h : Represents j s) (accepted : Bool) :
    Represents (j.checkpoint accepted) (if accepted then s.checkpoint else s) := by
  obtain ⟨segs, base, hlog, hlevel, hrolls⟩ := h.log
  cases accepted with
  | false => exact h.congr rfl rfl rfl rfl (Int.add_sub_cancel ..)
  | true =>
    refine ⟨h.current, ⟨[(j.journalHeight + 1, {})] :: segs, base, ?_, ?_, ?_⟩, ?_⟩
    · exact congrArg (List.cons _) hlog
    · refine ⟨⟨_, _, rfl⟩, ?_, ?_⟩
      · intro entry hentry
        rw [List.mem_singleton.1 hentry]
        exact le_rfl
      · change Leveled base (j.journalHeight + 1 - 1) segs
        rw [Int.add_sub_cancel]
        exact hlevel
    · exact hrolls.checkpoint.record (undo_nothing _)
    · intro copy hcopy hmem
      rcases List.mem_cons.1 hcopy with rfl | hcopy
      · exact hmem
      · exact h.ripemd copy hcopy hmem

/-- A commit joins what was added since the newest checkpoint to what was added below. -/
theorem Represents.commit (h : Represents j s) (hdepth : s.saved ≠ []) :
    Represents (j.commit true) s.commit := by
  obtain ⟨current, saved⟩ := s
  obtain ⟨copy, saved, rfl⟩ := List.exists_cons_of_ne_nil hdepth
  obtain ⟨segs, base, hlog, hlevel, hrolls⟩ := h.log
  have hripemd : ∀ c ∈ saved, RIPEMD160_ADDRESS ∈ c.touched →
      RIPEMD160_ADDRESS ∈ current.touched := fun c hc => h.ripemd c (List.mem_cons_of_mem _ hc)
  change RollsBack _ segs current.forget (copy.forget :: saved.map _) at hrolls
  obtain ⟨seg, segs, rfl⟩ : ∃ seg segs', segs = seg :: segs' :=
    List.exists_cons_of_length_eq_add_one hrolls.length_eq
  obtain ⟨-, hhigh, hbelow⟩ := hlevel
  rcases segs with _ | ⟨seg', segs⟩
  · obtain ⟨-, hrest⟩ := hrolls.revert
    have hnil : saved = [] := by
      have hlength := hrest.length_eq
      rw [List.length_map] at hlength
      exact List.length_eq_zero_iff.1 hlength.symm
    subst hnil
    refine ⟨h.current, ⟨[], (j.journalHeight - 1, {}) :: (seg ++ base), ?_, ⟨_, _, rfl⟩, .nil _⟩,
      nofun⟩
    exact congrArg (List.cons _) (by simpa using hlog)
  · obtain ⟨hhead, hhigh', hbelow'⟩ := hbelow
    refine ⟨h.current, ⟨((j.journalHeight - 1, {}) :: (seg ++ seg')) :: segs, base, ?_, ?_, ?_⟩,
      hripemd⟩
    · exact congrArg (List.cons _) (by simpa using hlog)
    · refine ⟨⟨_, _, rfl⟩, ?_, hbelow'⟩
      intro entry hentry
      change j.journalHeight - 1 ≤ entry.1
      rcases List.mem_cons.1 hentry with rfl | hentry
      · exact le_rfl
      · rcases List.mem_append.1 hentry with hentry | hentry
        · have := hhigh entry hentry
          omega
        · exact hhigh' entry hentry
    · obtain ⟨_⟩ | ⟨hseg, hrest⟩ := hrolls
      cases saved with
      | nil => cases hrest
      | cons copy' saved => exact (RollsBack.cons hseg hrest).commit.record (undo_nothing _)

/-- Apart from the one address the copy comes back. -/
private theorem forget_keepRipemd (current copy : JournalSets) :
    (current.keepRipemd copy).forget = copy.forget := by
  refine JournalSets.ext rfl rfl ?_ rfl
  ext a
  change (a ∈ copy.touched ∨ a ∈ current.touched ∧ a = RIPEMD160_ADDRESS) ∧
    a ≠ RIPEMD160_ADDRESS ↔ a ∈ copy.touched ∧ a ≠ RIPEMD160_ADDRESS
  tauto

/-- A revert takes out exactly what was added since the newest checkpoint. -/
theorem Represents.revert (h : Represents j s) (hdepth : s.saved ≠ []) :
    Represents (j.revert true) (s.revert.update (JournalSets.keepRipemd s.current)) := by
  obtain ⟨current, saved⟩ := s
  obtain ⟨copy, saved, rfl⟩ := List.exists_cons_of_ne_nil hdepth
  obtain ⟨segs, base, hlog, hlevel, hrolls⟩ := h.log
  change RollsBack _ segs current.forget (copy.forget :: saved.map _) at hrolls
  obtain ⟨seg, segs, rfl⟩ : ∃ seg segs', segs = seg :: segs' :=
    List.exists_cons_of_length_eq_add_one hrolls.length_eq
  obtain ⟨-, hhigh, hbelow⟩ := hlevel
  obtain ⟨hseg, hrest⟩ := hrolls.revert
  have hcurrent : j.sets = current := h.current
  -- the entries above the height are those of the last segment
  have hloop : undoAbove j.journalHeight j j.journalDiff =
      (seg.foldl (fun j entry => j.undoItem entry.2) j, segs.flatten ++ base) := by
    rw [hlog, List.flatten_cons, List.append_assoc]
    exact undoAbove_eq hhigh hbelow.head j
  have hrevert : j.revert true = { seg.foldl (fun j entry => j.undoItem entry.2) j with
      journalDiff := segs.flatten ++ base, journalHeight := j.journalHeight - 1 } := by
    rw [Journal.revert, if_pos rfl, hloop]
  -- undoing them gives the copy back, but for the one address that stays touched
  have hforget : (j.revert true).sets.forget = copy.forget := by
    rw [hrevert, ← hseg, ← hcurrent]
    exact forget_foldl_undoItem seg j
  have hripemd : RIPEMD160_ADDRESS ∈ (j.revert true).touched ↔
      RIPEMD160_ADDRESS ∈ current.touched := by
    rw [hrevert, ← hcurrent]
    exact ripemd_foldl_undoItem seg j
  have hcopy : RIPEMD160_ADDRESS ∈ copy.touched → RIPEMD160_ADDRESS ∈ current.touched :=
    h.ripemd copy List.mem_cons_self
  refine ⟨?_, ⟨segs, base, ?_, ?_, ?_⟩, ?_⟩
  · have htouched : ∀ a, a ∈ (j.revert true).touched ↔
        a ∈ copy.touched ∨ a ∈ current.touched ∧ a = RIPEMD160_ADDRESS := by
      intro a
      by_cases ha : a = RIPEMD160_ADDRESS
      · subst ha
        rw [hripemd]
        exact ⟨fun hmem => .inr ⟨hmem, rfl⟩, fun hmem => hmem.elim hcopy And.left⟩
      · have hiff : a ∈ (j.revert true).touched ∧ a ≠ RIPEMD160_ADDRESS ↔
            a ∈ copy.touched ∧ a ≠ RIPEMD160_ADDRESS :=
          Set.ext_iff.1 (congrArg JournalSets.touched hforget) a
        tauto
    have hwarm : (j.revert true).sets.forget.warmAddresses = copy.warmAddresses := by
      rw [hforget]
      rfl
    have hslots : (j.revert true).sets.forget.warmSlots = copy.warmSlots := by
      rw [hforget]
      rfl
    have hwrites : (j.revert true).sets.forget.storageWrites = copy.storageWrites := by
      rw [hforget]
      rfl
    exact JournalSets.ext hwarm hslots (Set.ext htouched) hwrites
  · rw [hrevert]
  · rw [hrevert]
    exact hbelow
  · change RollsBack _ segs (current.keepRipemd copy).forget _
    rw [forget_keepRipemd]
    exact hrest
  · intro c hc hmem
    exact .inr ⟨h.ripemd c (List.mem_cons_of_mem _ hc) hmem, rfl⟩

/-! ### Runs -/

/-- A new journal represents empty sets. -/
theorem represents_create : Represents {} ⟨.empty, []⟩ := by
  refine ⟨?_, ⟨[], [(0, {})], rfl, ⟨_, _, rfl⟩, .nil _⟩, nofun⟩
  refine JournalSets.ext ?_ ?_ ?_ ?_
  · ext a
    exact iff_of_false (by rintro ⟨⟩) id
  · ext p
    exact iff_of_false List.not_mem_nil id
  · ext a
    exact iff_of_false List.not_mem_nil id
  · ext key
    exact iff_of_false List.not_mem_nil id

/-- What is warm for good is beside the sets. -/
private theorem Represents.alwaysWarmAddress (h : Represents j s) (address : Bytes)
    (report : Bool) :
    Represents (j.addAlwaysWarmAddress address report) s := by
  have hadded : Represents (if j.alwaysWarmJournal.has address then j
      else { j with alwaysWarmJournal := j.alwaysWarmJournal.set address [] }) s := by
    split
    · exact h
    · exact h.congr rfl rfl rfl rfl rfl
  unfold addAlwaysWarmAddress
  dsimp only
  split
  · exact hadded
  · split
    · exact hadded.congr rfl rfl rfl rfl rfl
    · exact hadded

/-- So are slots that are warm for good. -/
private theorem Represents.alwaysWarmSlot (h : Represents j s) (address slot : Bytes)
    (report : Bool) :
    Represents (j.addAlwaysWarmSlot address slot report) s := by
  have hadded := h.alwaysWarmAddress address report
  unfold addAlwaysWarmSlot
  dsimp only
  split
  · exact hadded.congr rfl rfl rfl rfl rfl
  · split
    · exact hadded.congr rfl rfl rfl rfl rfl
    · exact hadded.congr rfl rfl rfl rfl rfl

/-- Every operation keeps the journal at the reference. -/
theorem Represents.step (h : Represents j s) (getAppliedKey : Option (Bytes → Bytes))
    (op : JournalOp) (hdepth : op = .commit true ∨ op = .revert true → s.saved ≠ []) :
    Represents (j.step getAppliedKey op).2
      (JournalSets.step op (j.step getAppliedKey op).1 s) := by
  cases op with
  | checkpoint accepted => exact h.checkpoint accepted
  | commit accepted =>
    cases accepted with
    | false => exact h
    | true => exact h.commit (hdepth (.inl rfl))
  | revert accepted =>
    cases accepted with
    | false => exact h
    | true => exact h.revert (hdepth (.inr rfl))
  | touch address => exact h.touch getAppliedKey address
  | warmAddress address => exact h.warmAddress address
  | warmSlot address slot => exact h.warmSlot address slot
  | recordStorageWrite address slot => exact h.record address slot
  | alwaysWarmAddress address report => exact h.alwaysWarmAddress address report
  | alwaysWarmSlot address slot report => exact h.alwaysWarmSlot address slot report
  | startReportingAccessList => exact h.congr rfl rfl rfl rfl rfl
  | startReportingPreimages => exact h.congr rfl rfl rfl rfl rfl

/-- The number of copies is the number of checkpoints that are open. -/
private theorem wellNested_step {op : JournalOp} {ops : List JournalOp}
    (outcome : Except String Unit)
    (h : WellNested s.saved.length (op :: ops)) :
    (op = .commit true ∨ op = .revert true → s.saved ≠ []) ∧
      WellNested (JournalSets.step op outcome s).saved.length ops := by
  obtain ⟨current, saved⟩ := s
  have hpos : 0 < saved.length → saved ≠ [] := List.length_pos_iff.1
  cases op with
  | checkpoint accepted =>
    refine ⟨by simp, ?_⟩
    cases accepted <;> exact h
  | commit accepted =>
    cases accepted with
    | false => exact ⟨by simp, h.2⟩
    | true =>
      refine ⟨fun _ => hpos (h.1 rfl), ?_⟩
      obtain ⟨copy, saved, rfl⟩ := List.exists_cons_of_ne_nil (hpos (h.1 rfl))
      exact h.2
  | revert accepted =>
    cases accepted with
    | false => exact ⟨by simp, h.2⟩
    | true =>
      refine ⟨fun _ => hpos (h.1 rfl), ?_⟩
      obtain ⟨copy, saved, rfl⟩ := List.exists_cons_of_ne_nil (hpos (h.1 rfl))
      exact h.2
  | touch address =>
    refine ⟨by simp, ?_⟩
    cases outcome <;> exact h
  | warmAddress address => exact ⟨by simp, h⟩
  | warmSlot address slot => exact ⟨by simp, h⟩
  | recordStorageWrite address slot => exact ⟨by simp, h⟩
  | alwaysWarmAddress address report => exact ⟨by simp, h⟩
  | alwaysWarmSlot address slot report => exact ⟨by simp, h⟩
  | startReportingAccessList => exact ⟨by simp, h⟩
  | startReportingPreimages => exact ⟨by simp, h⟩

/-- Every well nested run represents the run on sets. -/
theorem Represents.run (h : Represents j s) (getAppliedKey : Option (Bytes → Bytes))
    {ops : List JournalOp} (hnested : WellNested s.saved.length ops) :
    Represents (runBoth getAppliedKey ops (j, s)).1 (runBoth getAppliedKey ops (j, s)).2 := by
  induction ops generalizing j s with
  | nil => exact h
  | cons op ops ih =>
    obtain ⟨hdepth, hrest⟩ := wellNested_step (j.step getAppliedKey op).1 hnested
    exact ih (h.step getAppliedKey op hdepth) hrest

/-- **The journal refines a stack of snapshots**: after every well-nested sequence the four sets are
those of the reference, and the queries answer from them. -/
theorem journal_refines (getAppliedKey : Option (Bytes → Bytes)) {ops : List JournalOp}
    (hnested : WellNested 0 ops) {j : Journal} {s : Snapshots JournalSets}
    (hrun : runBoth getAppliedKey ops ({}, ⟨.empty, []⟩) = (j, s)) :
    j.sets = s.current ∧
      (∀ address, j.isWarmedAddress address = true ↔
        address ∈ s.current.warmAddresses ∨ (j.alwaysWarmJournal.get address).isSome) ∧
      (∀ address slot, j.isWarmedStorage address slot = true ↔
        (address, slot) ∈ s.current.warmSlots ∨
          slot ∈ (j.alwaysWarmJournal.get address).getD []) ∧
      ∀ address slot, j.hasStorageWrite address slot = true ↔
        (address, slot) ∈ s.current.storageWrites := by
  have h : Represents j s := by
    have hrepresents := represents_create.run getAppliedKey hnested
    rw [hrun] at hrepresents
    exact hrepresents
  rw [← h.current]
  refine ⟨rfl, ?_, ?_, ?_⟩
  · intro address
    exact Bool.or_eq_true_iff
  · intro address slot
    change _ ↔ slot ∈ (j.journal.get address).getD [] ∨ _
    unfold isWarmedStorage
    rcases j.journal.get address with _ | slots
    · rcases j.alwaysWarmJournal.get address with _ | always <;> simp
    · rcases j.alwaysWarmJournal.get address with _ | always <;> simp
  · intro address slot
    exact decide_eq_true_iff

/-- The journal warms an address within a checkpoint, reverts it and warms it again. -/
def warmedTwice : List JournalOp :=
  [.touch RIPEMD160_ADDRESS, .checkpoint true, .warmSlot [1] [2], .touch 5, .checkpoint true,
    .warmSlot [1] [3], .commit true, .revert true, .checkpoint true, .warmAddress [1], .commit true]

theorem journal_refines_warmedTwice : ∃ j s,
    runBoth none warmedTwice ({}, ⟨.empty, []⟩) = (j, s) ∧ j.sets = s.current ∧
      (∀ address, j.isWarmedAddress address = true ↔
        address ∈ s.current.warmAddresses ∨ (j.alwaysWarmJournal.get address).isSome) ∧
      (∀ address slot, j.isWarmedStorage address slot = true ↔
        (address, slot) ∈ s.current.warmSlots ∨
          slot ∈ (j.alwaysWarmJournal.get address).getD []) ∧
      ∀ address slot, j.hasStorageWrite address slot = true ↔
        (address, slot) ∈ s.current.storageWrites := by
  have hnested : WellNested 0 warmedTwice := by
    simp [warmedTwice, WellNested]
  exact ⟨_, _, rfl, journal_refines none hnested rfl⟩

end Journal

end Tvmjs
