import Tvmjs.Util.AccessListCanonical

/-!
# Access lists that are read back

The two encodings of an access list are read back to a list with the same encoding, and the encoding
does not depend on the order in which things were recorded.

* `AccountAccesses.toInput_raw`, `accountFromRLP_input` -- an account in RLP and back;
* `accountFromJSON_toJSON` -- an account in JSON and back;
* `AccountAccesses.Reordered` -- the same changes in any order;
* `serialize_roundTrips` -- **both round trips, and the independence of the order**.
-/

namespace Tvmjs

open RLP

/-! ### Loops -/

/-- What is written element by element is read element by element. -/
private theorem mapM_map_eq_some {α β γ : Type} {write : α → β} {read : β → Option γ} {g : α → γ}
    {l : List α} (h : ∀ a ∈ l, read (write a) = some (g a)) :
    (l.map write).mapM read = some (l.map g) := by
  induction l with
  | nil => rfl
  | cons a l ih =>
    rw [List.map_cons, List.mapM_cons, h a List.mem_cons_self,
      ih fun a ha => h a (List.mem_cons_of_mem _ ha)]
    rfl

/-- What reads back element by element reads back as a list. -/
private theorem mapM_map_eq_self {α β : Type} {write : α → β} {read : β → Option α} {l : List α}
    (h : ∀ a ∈ l, read (write a) = some a) : (l.map write).mapM read = some l := by
  have hall := mapM_map_eq_some (g := id) h
  rwa [List.map_id] at hall

/-- A list is encoded element by element. -/
private theorem toInput_list_map {α : Type} {f : α → RawInput} {g : α → Input} {l : List α}
    (h : ∀ a ∈ l, toInput (f a) = .ok (g a)) :
    toInput (.list (l.map f)) = .ok (.list (l.map g)) := by
  refine toInput_list_eq_ok_iff.2 ⟨_, toInputs_eq_ok_iff.2 ?_, rfl⟩
  rw [List.forall₂_map_left_iff, List.forall₂_map_right_iff, List.forall₂_same]
  exact h

/-- Accounts that are read one after the other, each under an address of its own. -/
private theorem foldlM_modify {ι : Type} {read : Accesses → ι → Option Accesses}
    {write : BALAddressHex × AccountAccesses → ι}
    {g : AccountAccesses → AccountAccesses → AccountAccesses}
    {l : List (BALAddressHex × AccountAccesses)} (hnodup : (l.map Prod.fst).Nodup)
    (h : ∀ e ∈ l, ∀ a, read a (write e) = some (a.modify e.1 (g e.2))) :
    (l.map write).foldlM read .empty =
      some (InsertionMap.ofEntries (l.map fun e => (e.1, g e.2 {}))) := by
  have hloop : ∀ (l : List (BALAddressHex × AccountAccesses)) (a : Accesses),
      (∀ e ∈ l, ∀ a, read a (write e) = some (a.modify e.1 (g e.2))) →
      (l.map Prod.fst).Nodup → (∀ e ∈ l, a.get e.1 = none) →
      (l.map write).foldlM read a =
        some ((l.map fun e => (e.1, g e.2 {})).foldl (fun m e => m.set e.1 e.2) a) := by
    intro l
    induction l with
    | nil => exact fun a _ _ _ => rfl
    | cons e l ih =>
      intro a hread hnodup hnew
      obtain ⟨hfirst, hrest⟩ := List.nodup_cons.1 hnodup
      have hmodify : a.modify e.1 (g e.2) = a.set e.1 (g e.2 {}) := by
        rw [Accesses.modify, Accesses.account, hnew e List.mem_cons_self]
        rfl
      rw [List.map_cons, List.foldlM_cons, hread e List.mem_cons_self, hmodify]
      refine ih _ (fun e' he' => hread e' (List.mem_cons_of_mem _ he')) hrest fun e' he' => ?_
      have hne : e'.1 ≠ e.1 := fun heq => hfirst (heq ▸ List.mem_map_of_mem he')
      rw [InsertionMap.get_set_of_ne _ _ hne]
      exact hnew e' (List.mem_cons_of_mem _ he')
  exact hloop l .empty h hnodup fun _ _ => rfl

namespace AccountAccesses

/-- The changes of slots that are read under keys of their own. -/
private theorem foldl_addSlot {l : List (BALStorageKeyHex × List (BALAccessIndexNumber × Bytes))}
    (hnodup : (l.map Prod.fst).Nodup) : l.foldl addSlot .empty = InsertionMap.ofEntries l := by
  have hloop : ∀ (l : List (BALStorageKeyHex × List (BALAccessIndexNumber × Bytes)))
      (m : InsertionMap BALStorageKeyHex (List (BALAccessIndexNumber × Bytes))),
      (l.map Prod.fst).Nodup → (∀ e ∈ l, m.get e.1 = none) →
      l.foldl addSlot m = l.foldl (fun m e => m.set e.1 e.2) m := by
    intro l
    induction l with
    | nil => exact fun m _ _ => rfl
    | cons e l ih =>
      intro m hnodup hnew
      obtain ⟨hfirst, hrest⟩ := List.nodup_cons.1 hnodup
      have hadd : addSlot m e = m.set e.1 e.2 := by
        rw [addSlot, hnew e List.mem_cons_self]
        rfl
      rw [List.foldl_cons, List.foldl_cons, hadd]
      refine ih _ hrest fun e' he' => ?_
      have hne : e'.1 ≠ e.1 := fun heq => hfirst (heq ▸ List.mem_map_of_mem he')
      rw [InsertionMap.get_set_of_ne _ _ hne]
      exact hnew e' (List.mem_cons_of_mem _ he')
  exact hloop l .empty hnodup fun _ _ => rfl

/-- A list of slots becomes the set of them. -/
private theorem get_foldl_reads (l : List BALStorageKeyHex) (slot : BALStorageKeyHex) :
    ((l.foldl (fun reads slot => reads.set slot ()) .empty :
      InsertionMap BALStorageKeyHex Unit).get slot).isSome = true ↔ slot ∈ l := by
  have hloop := InsertionMap.has_foldl_set (fun _ => false) l .empty slot
  refine Iff.trans hloop ⟨fun h => h.elim nofun And.left, fun h => Or.inr ⟨h, rfl⟩⟩

end AccountAccesses

/-! ### Writing twice -/

/-- Sorting looks at the indices only. -/
private theorem sortByIndex_map (f : Bytes → Bytes) (l : List (BALAccessIndexNumber × Bytes)) :
    sortByIndex (l.map fun c => (c.1, f c.2)) = (sortByIndex l).map fun c => (c.1, f c.2) := by
  have hmap := List.map_insertionSort (fun a b : BALAccessIndexNumber × Bytes => a.1 ≤ b.1)
    (fun a b : BALAccessIndexNumber × Bytes => a.1 ≤ b.1) (fun c => (c.1, f c.2)) l
    fun _ _ _ _ => Iff.rfl
  exact hmap.symm

/-- Sorting twice is sorting once. -/
private theorem sortByIndex_idem (l : List (BALAccessIndexNumber × Bytes)) :
    sortByIndex (sortByIndex l) = sortByIndex l :=
  (InsertionMap.sorts_le Set.univ).insertionSort_idem Prod.fst l

/-- The values written do not depend on the order before. -/
private theorem writtenValues_sortByIndex (l : List (BALAccessIndexNumber × Bytes)) :
    writtenValues (sortByIndex l) = writtenValues l := by
  rw [writtenValues, sortByIndex_idem]
  rfl

/-- What is written is written again as it is. -/
private theorem writtenValues_idem (l : List (BALAccessIndexNumber × Bytes)) :
    writtenValues (writtenValues l) = writtenValues l := by
  have hstrip : writtenValues (writtenValues l) = (writtenValues (sortByIndex l)).map
      fun c => (c.1, stripLeadingZeros c.2) := by
    rw [writtenValues, writtenValues, sortByIndex_map]
    rfl
  rw [hstrip, writtenValues_sortByIndex, writtenValues, List.map_map]
  exact List.map_congr_left fun c _ => Prod.ext rfl (stripLeadingZeros_idem c.2)

/-- A quantity is normalised once. -/
private theorem normalizeQuantityHexForRLP_idem {index : BALAccessIndexNumber}
    {value : PrefixedHexString}
    (h : CanonicalQuantity index value) :
    normalizeQuantityHexForRLP (normalizeQuantityHexForRLP value) =
      normalizeQuantityHexForRLP value := by
  obtain ⟨-, b, rfl⟩ := h
  rw [normalizeQuantityHexForRLP_bytesToHex, normalizeQuantityHexForRLP_bytesToHex,
    stripLeadingZeros_idem]

/-! ### RLP -/

/-- A change as it is decoded. -/
def changeInput (c : BALAccessIndexNumber × Bytes) : Input :=
  .list [.bytes (numberToBytes c.1), .bytes c.2]

/-- A change is encoded as index and bytes. -/
private theorem toInput_rawChange {index : BALAccessIndexNumber} {value : RawInput} {b : Bytes}
    (h : toInput value = .ok (.bytes b)) :
    toInput (rawChange index value) = .ok (changeInput (index, b)) := by
  have hindex : toInput (.number index) = .ok (.bytes (numberToBytes index)) := by
    have hbytes : numberBytes index = .ok (numberToBytes index) := by
      rw [numberBytes]
      by_cases h0 : index = 0
      · rw [if_pos (Int.natCast_eq_zero.2 h0), h0]
        rfl
      · rw [if_neg (mt Int.natCast_eq_zero.1 h0), if_neg (by omega)]
        rfl
    rw [toInput, toBytes, hbytes]
    · rfl
    · intro l h
      cases h
  rw [rawChange, toInput_list_eq_ok_iff]
  refine ⟨_, toInputs_eq_ok_iff.2 ?_, rfl⟩
  exact .cons hindex (.cons h .nil)

/-- Encoded changes read back. -/
private theorem changesFromRLP_map {l : List (BALAccessIndexNumber × Bytes)}
    (h : ∀ c ∈ l, (c.1 : ℤ) ≤ MAX_SAFE_INTEGER) :
    changesFromRLP (.list (l.map changeInput)) = some l := by
  have hread : ∀ c ∈ l, changeFromRLP (changeInput c) = some (id c) := by
    intro c hc
    rw [changeInput, changeFromRLP, bytesToNumber_numberToBytes, if_neg (not_lt.2 (h c hc))]
    rfl
  have hall := mapM_map_eq_some hread
  rwa [List.map_id] at hall

/-- The bytes of a balance or a nonce, as they are written. -/
def quantityBytes (value : PrefixedHexString) : Bytes :=
  HexOrBytes.toBytes (.hex (normalizeQuantityHexForRLP value))

namespace AccountAccesses

variable (access : AccountAccesses)

/-- The changed slots in RLP order. -/
def writtenSlots : List (BALStorageKeyHex × List (BALAccessIndexNumber × Bytes)) :=
  (access.storageChanges.sortedBy slotBefore).map fun e => (e.1, writtenValues e.2)

/-- The slots that were only read, in RLP order. -/
def writtenReads : List Bytes :=
  ((access.storageReads.keys.map normalizeHexForRLP).insertionSort fun a b =>
    compareLexicographicHexOrBytes a b ≤ 0).map HexOrBytes.toBytes

/-- Quantities as they are written: by index, as bytes. -/
def writtenQuantities (m : InsertionMap BALAccessIndexNumber PrefixedHexString) :
    List (BALAccessIndexNumber × Bytes) :=
  (m.sortedBy (· ≤ ·)).map fun e => (e.1, quantityBytes e.2)

/-- What the decoder adds to an account. -/
def addRLP (access' : AccountAccesses) : AccountAccesses :=
  access'.extend access.writtenSlots (access.writtenReads.map bytesToHex)
    ((writtenQuantities access.balanceChanges).map quantityFromRLP)
    ((writtenQuantities access.nonceChanges).map quantityFromRLP) (sortByIndex access.codeChanges)

/-- No slot is written twice. -/
private theorem nodup_writtenSlots : (access.writtenSlots.map Prod.fst).Nodup := by
  rw [writtenSlots, List.map_map]
  exact access.storageChanges.nodup_sortedBy slotBefore

/-- An account as it is decoded. -/
def input (address : Bytes) : Input :=
  .list [.bytes address,
    .list (access.writtenSlots.map fun e =>
      .list [.bytes (slotBytes e.1), .list (e.2.map changeInput)]),
    .list (access.writtenReads.map .bytes),
    .list ((writtenQuantities access.balanceChanges).map changeInput),
    .list ((writtenQuantities access.nonceChanges).map changeInput),
    .list ((sortByIndex access.codeChanges).map changeInput)]

variable {access} (h : access.Canonical)

include h

/-- What is encoded as read is a canonical slot. -/
private theorem mem_normalized {s : HexOrBytes}
    (hs : s ∈ (access.storageReads.keys.map normalizeHexForRLP).insertionSort fun a b =>
      compareLexicographicHexOrBytes a b ≤ 0) :
    ∃ slot ∈ access.storageReads.keys, CanonicalSlot slot ∧ s = normalizeHexForRLP slot := by
  obtain ⟨slot, hslot, rfl⟩ := List.mem_map.1 ((List.mem_insertionSort _).1 hs)
  exact ⟨slot, hslot, h.readKeys slot hslot, rfl⟩

/-- What the encoder makes of an account. -/
theorem toInput_raw (address : Bytes) :
    toInput (access.raw (bytesToHex address)) = .ok (access.input address) := by
  -- the text of a slot is read as the bytes it stands for
  have hslot : ∀ slot, CanonicalSlot slot →
      toInput (normalizeHexForRLP slot).raw = .ok (.bytes (slotBytes slot)) := by
    rintro slot ⟨b, rfl, hb⟩
    rw [slotBytes_bytesToHex]
    obtain ⟨hnil, heq⟩ | heq := normalizeHexForRLP_bytesToHex b
    · rw [heq, ← hb, hnil]
      rfl
    · rw [heq, hb]
      exact toInput_hexUnits b
  -- balances and nonces are written as quantities, by index
  have hquantity : ∀ m : InsertionMap BALAccessIndexNumber PrefixedHexString,
      (∀ index value, m.get index = some value → CanonicalQuantity index value) →
      toInput (.list ((m.sortedBy (· ≤ ·)).map fun e =>
        rawChange e.1 (.str (hexUnits (normalizeQuantityHexForRLP e.2))))) =
      .ok (.list ((writtenQuantities m).map changeInput)) := by
    intro m hm
    rw [writtenQuantities, List.map_map]
    refine toInput_list_map fun e he => toInput_rawChange ?_
    obtain ⟨-, b, hb⟩ := hm e.1 e.2 ((InsertionMap.mem_sortedBy _).1 he)
    rw [hb, quantityBytes, normalizeQuantityHexForRLP_bytesToHex, HexOrBytes.toBytes,
      hexToBytes_bytesToHex]
    exact toInput_hexUnits _
  -- the slots in order, each with its changes
  have hslots : toInput (.list ((access.storageChanges.sortedBy slotBefore).map fun e =>
      .list [(normalizeHexForRLP e.1).raw,
        .list ((sortByIndex e.2).map fun c => rawChange c.1 (.bytes (stripLeadingZeros c.2)))])) =
      .ok (.list (access.writtenSlots.map fun e =>
        .list [.bytes (slotBytes e.1), .list (e.2.map changeInput)])) := by
    rw [writtenSlots, List.map_map]
    refine toInput_list_map fun e he => ?_
    have hcanonical := (h.slots e.1 e.2 ((InsertionMap.mem_sortedBy _).1 he)).1
    have hchanges := toInput_list_map (f := fun c : BALAccessIndexNumber × Bytes =>
        rawChange c.1 (.bytes (stripLeadingZeros c.2)))
      (g := fun c => changeInput (c.1, stripLeadingZeros c.2)) (l := sortByIndex e.2)
      fun c _ => toInput_rawChange rfl
    refine toInput_list_eq_ok_iff.2 ⟨_, toInputs_eq_ok_iff.2 ?_, rfl⟩
    dsimp only
    rw [writtenValues, List.map_map]
    exact .cons (hslot e.1 hcanonical) (.cons hchanges .nil)
  -- the reads are sorted once they are normalised
  have hreads : toInput (.list (((access.storageReads.keys.map normalizeHexForRLP).insertionSort
      fun a b => compareLexicographicHexOrBytes a b ≤ 0).map HexOrBytes.raw)) =
      .ok (.list (access.writtenReads.map .bytes)) := by
    rw [writtenReads, List.map_map]
    refine toInput_list_map fun s hs => ?_
    obtain ⟨slot, -, hcanonical, rfl⟩ := mem_normalized h hs
    rw [Function.comp_apply, hcanonical.toBytes_normalizeHexForRLP]
    exact hslot slot hcanonical
  have hcodes : toInput (.list ((sortByIndex access.codeChanges).map fun c =>
      rawChange c.1 (.bytes c.2))) =
        .ok (.list ((sortByIndex access.codeChanges).map changeInput)) :=
    toInput_list_map fun c _ => toInput_rawChange rfl
  refine toInput_list_eq_ok_iff.2 ⟨_, toInputs_eq_ok_iff.2 ?_, rfl⟩
  exact .cons (toInput_hexUnits address) (.cons hslots (.cons hreads
    (.cons (hquantity _ h.balances) (.cons (hquantity _ h.nonces) (.cons hcodes .nil)))))

/-- An account that is read from RLP. -/
theorem accountFromRLP_input (a : Accesses) (address : Bytes) :
    accountFromRLP a (access.input address) =
      some (a.modify (bytesToHex address) access.addRLP) := by
  have hslots : (access.writtenSlots.map fun e : BALStorageKeyHex × _ =>
      Input.list [.bytes (slotBytes e.1), .list (e.2.map changeInput)]).mapM slotFromRLP =
      some access.writtenSlots := by
    have hread : ∀ e ∈ access.writtenSlots, slotFromRLP
        (.list [.bytes (slotBytes e.1), .list (e.2.map changeInput)]) = some (id e) := by
      intro e he
      obtain ⟨e', he', rfl⟩ := List.mem_map.1 he
      obtain ⟨hcanonical, hsafe⟩ := h.slots e'.1 e'.2 ((InsertionMap.mem_sortedBy _).1 he')
      have hchanges : changesFromRLP (.list ((writtenValues e'.2).map changeInput)) =
          some (writtenValues e'.2) := by
        refine changesFromRLP_map fun c hc => ?_
        obtain ⟨c', hc', rfl⟩ := List.mem_map.1 hc
        exact hsafe c' ((List.mem_insertionSort _).1 hc')
      dsimp only
      rw [slotFromRLP, hchanges, normalizeStorageKeyHex_bytesToHex,
        hcanonical.bytesToHex_slotBytes]
      rfl
    have hall := mapM_map_eq_some hread
    rwa [List.map_id] at hall
  have hreads : (access.writtenReads.map Input.bytes).mapM readFromRLP =
      some (access.writtenReads.map bytesToHex) := by
    refine mapM_map_eq_some fun b _ => ?_
    rw [readFromRLP, normalizeStorageKeyHex_bytesToHex]
  have hquantity : ∀ m : InsertionMap BALAccessIndexNumber PrefixedHexString,
      (∀ index value, m.get index = some value → CanonicalQuantity index value) →
      changesFromRLP (.list ((writtenQuantities m).map changeInput)) =
        some (writtenQuantities m) := by
    intro m hm
    refine changesFromRLP_map fun c hc => ?_
    obtain ⟨e, he, rfl⟩ := List.mem_map.1 hc
    exact (hm e.1 e.2 ((InsertionMap.mem_sortedBy _).1 he)).1
  have hcodes : changesFromRLP (.list ((sortByIndex access.codeChanges).map changeInput)) =
      some (sortByIndex access.codeChanges) :=
    changesFromRLP_map fun c hc => h.codes c ((List.mem_insertionSort _).1 hc)
  rw [input, accountFromRLP, rlpItems, rlpItems, hquantity _ h.balances, hquantity _ h.nonces,
    hcodes]
  change (List.mapM slotFromRLP _).bind _ = _
  rw [hslots]
  change (List.mapM readFromRLP _).bind _ = _
  rw [hreads]
  rfl

/-- **An account that was read from RLP** is written alike. -/
theorem same_addRLP : Same access (access.addRLP {}) := by
  have hquantity : ∀ m : InsertionMap BALAccessIndexNumber PrefixedHexString,
      (∀ index value, m.get index = some value → CanonicalQuantity index value) →
      ∀ index, ((((writtenQuantities m).map quantityFromRLP).foldl (fun m e => m.set e.1 e.2)
        InsertionMap.empty).get index).map normalizeQuantityHexForRLP =
          (m.get index).map normalizeQuantityHexForRLP := by
    intro m hm index
    have hwritten : (writtenQuantities m).map quantityFromRLP =
        (m.sortedBy (· ≤ ·)).map fun e => (e.1, normalizeQuantityHexForRLP e.2) := by
      rw [writtenQuantities, List.map_map]
      refine List.map_congr_left fun e he => ?_
      obtain ⟨-, b, hb⟩ := hm e.1 e.2 ((InsertionMap.mem_sortedBy _).1 he)
      rw [Function.comp_apply, quantityFromRLP, hb, quantityBytes,
        normalizeQuantityHexForRLP_bytesToHex, HexOrBytes.toBytes, hexToBytes_bytesToHex]
      exact Prod.ext rfl (padToEvenHex_bytesToHex _)
    have hget := InsertionMap.get_ofEntries_sortedBy (r := (· ≤ ·)) m
      (fun _ => normalizeQuantityHexForRLP) index
    rw [hwritten]
    refine (congrArg _ hget).trans ?_
    cases hvalue : m.get index with
    | none => rfl
    | some value => exact congrArg some (normalizeQuantityHexForRLP_idem (hm index value hvalue))
  refine Same.symm ⟨fun slot => ?_, fun slot => ?_, hquantity _ h.balances,
    hquantity _ h.nonces, ?_⟩
  · have hget := InsertionMap.get_ofEntries_sortedBy (r := slotBefore) access.storageChanges
      (fun _ => writtenValues) slot
    rw [addRLP, extend, foldl_addSlot access.nodup_writtenSlots]
    refine (congrArg _ hget).trans ?_
    rw [Option.map_map]
    exact congrArg (fun f => Option.map f _) (funext writtenValues_idem)
  · have hmem : slot ∈ access.writtenReads.map bytesToHex ↔ slot ∈ access.storageReads.keys := by
      rw [writtenReads, List.map_map, List.mem_map]
      constructor
      · rintro ⟨s, hs, rfl⟩
        obtain ⟨slot, hslot, hcanonical, rfl⟩ := mem_normalized h hs
        rwa [Function.comp_apply, hcanonical.toBytes_normalizeHexForRLP,
          hcanonical.bytesToHex_slotBytes]
      · intro hslot
        have hcanonical := h.readKeys slot hslot
        refine ⟨normalizeHexForRLP slot,
          (List.mem_insertionSort _).2 (List.mem_map_of_mem hslot), ?_⟩
        rw [Function.comp_apply, hcanonical.toBytes_normalizeHexForRLP,
          hcanonical.bytesToHex_slotBytes]
    refine Bool.eq_iff_iff.2 ((get_foldl_reads _ slot).trans (hmem.trans ?_))
    exact InsertionMap.has_iff.symm
  · rw [addRLP, extend, List.nil_append, sortByIndex_idem]

end AccountAccesses

/-! ### JSON -/

namespace AccountAccesses

variable (localeCompare : PrefixedHexString → PrefixedHexString → ℤ) (access : AccountAccesses)

/-- What the decoder adds to an account. -/
def addJSON (access' : AccountAccesses) : AccountAccesses :=
  access'.extend
    ((access.storageChanges.sortedBy fun a b => localeCompare a b ≤ 0).map fun e =>
      (e.1, sortByIndex e.2))
    (access.storageReads.keys.insertionSort fun a b => (hexToBigInt a : ℤ) - hexToBigInt b ≤ 0)
    (access.balanceChanges.sortedBy (· ≤ ·)) (access.nonceChanges.sortedBy (· ≤ ·))
    access.codeChanges

variable {access}

/-- An account that is read from JSON. -/
theorem accountFromJSON_toJSON (h : access.Canonical) (a : Accesses) (address : BALAddressHex) :
    accountFromJSON a (access.toJSON localeCompare address) =
      some (a.modify address (access.addJSON localeCompare)) := by
  have hquantity : ∀ m : InsertionMap BALAccessIndexNumber PrefixedHexString,
      (∀ index value, m.get index = some value → CanonicalQuantity index value) →
      ∀ e ∈ m.sortedBy (· ≤ ·), quantityFromJSON (indexToHex e.1) e.2 = some e := by
    intro m hm e he
    obtain ⟨-, b, hb⟩ := hm e.1 e.2 ((InsertionMap.mem_sortedBy _).1 he)
    rw [quantityFromJSON, parseIndex_indexToHex, hb, padToEvenHex_bytesToHex, ← hb]
    rfl
  have hchange : ∀ c : BALAccessIndexNumber × Bytes,
      changeFromJSON (indexToHex c.1) (bytesToHex c.2) = some c := by
    intro c
    rw [changeFromJSON, parseIndex_indexToHex, hexToBytes_bytesToHex]
    rfl
  have hchanges : ∀ changes : List (BALAccessIndexNumber × Bytes),
      (changes.map fun c => BALJSONStorageChange.mk (indexToHex c.1)
        (padToEvenHex (bytesToHex c.2))).mapM
          (fun c => changeFromJSON c.blockAccessIndex c.postValue) = some changes := by
    intro changes
    refine mapM_map_eq_self fun c _ => ?_
    dsimp only
    rw [padToEvenHex_bytesToHex, hchange]
  have hslots : (access.toJSON localeCompare address).storageChanges.mapM slotFromJSON =
      some ((access.storageChanges.sortedBy fun a b => localeCompare a b ≤ 0).map fun e =>
        (e.1, sortByIndex e.2)) := by
    refine mapM_map_eq_some fun e he => ?_
    obtain ⟨b, hb, -⟩ := (h.slots e.1 e.2 ((InsertionMap.mem_sortedBy _).1 he)).1
    rw [slotFromJSON, hchanges, hb, normalizeStorageKeyHex_bytesToHex]
    rfl
  have hbalances : (access.toJSON localeCompare address).balanceChanges.mapM
      (fun c => quantityFromJSON c.blockAccessIndex c.postBalance) =
        some (access.balanceChanges.sortedBy (· ≤ ·)) :=
    mapM_map_eq_self (hquantity _ h.balances)
  have hnonces : (access.toJSON localeCompare address).nonceChanges.mapM
      (fun c => quantityFromJSON c.blockAccessIndex c.postNonce) =
        some (access.nonceChanges.sortedBy (· ≤ ·)) :=
    mapM_map_eq_self (hquantity _ h.nonces)
  have hcodes : (access.toJSON localeCompare address).codeChanges.mapM
      (fun c => changeFromJSON c.blockAccessIndex c.newCode) = some access.codeChanges :=
    mapM_map_eq_self fun c _ => hchange c
  have hreads : (access.toJSON localeCompare address).storageReads.map normalizeStorageKeyHex =
      (access.toJSON localeCompare address).storageReads := by
    refine (List.map_congr_left fun slot hslot => ?_).trans (List.map_id _)
    obtain ⟨b, hb, -⟩ := h.readKeys slot ((List.mem_insertionSort _).1 hslot)
    rw [hb, normalizeStorageKeyHex_bytesToHex]
    rfl
  rw [accountFromJSON, hslots, hbalances, hnonces, hcodes, hreads]
  rfl

/-- **An account that was read from JSON** is written alike. -/
theorem same_addJSON : Same access (access.addJSON localeCompare {}) := by
  have hquantity : ∀ m : InsertionMap BALAccessIndexNumber PrefixedHexString, ∀ index,
      (((m.sortedBy (· ≤ ·)).foldl (fun m e => m.set e.1 e.2) InsertionMap.empty).get index) =
        m.get index := by
    intro m index
    have hget := InsertionMap.get_ofEntries_sortedBy (r := (· ≤ ·)) m (fun _ => id) index
    have hentries : (m.sortedBy (· ≤ ·)).map (fun e => (e.1, id e.2)) = m.sortedBy (· ≤ ·) :=
      List.map_id _
    rwa [hentries, Option.map_id] at hget
  refine Same.symm ⟨fun slot => ?_, fun slot => ?_, fun index => congrArg _ (hquantity _ index),
    fun index => congrArg _ (hquantity _ index), rfl⟩
  · have hnodup : (((access.storageChanges.sortedBy fun a b => localeCompare a b ≤ 0).map
        fun e => (e.1, sortByIndex e.2)).map Prod.fst).Nodup := by
      rw [List.map_map]
      exact access.storageChanges.nodup_sortedBy _
    have hget := InsertionMap.get_ofEntries_sortedBy (r := fun a b => localeCompare a b ≤ 0)
      access.storageChanges (fun _ => sortByIndex) slot
    rw [addJSON, extend, foldl_addSlot hnodup]
    refine (congrArg _ hget).trans ?_
    rw [Option.map_map]
    exact congrArg (fun f => Option.map f _) (funext writtenValues_sortByIndex)
  · refine Bool.eq_iff_iff.2 ((get_foldl_reads _ slot).trans ?_)
    rw [InsertionMap.has_iff]
    exact List.mem_insertionSort _

end AccountAccesses

/-! ### Lists -/

/-- A function that does not tell related values apart does not tell related options apart. -/
private theorem eq_of_rel {α β : Type} {R : α → α → Prop} {o o' : Option α} (h : Option.Rel R o o')
    (f : Option α → β) (hf : ∀ a b, o = some a → R a b → f (some a) = f (some b)) : f o = f o' := by
  cases h with
  | some hab => exact hf _ _ rfl hab
  | none => rfl

namespace BlockLevelAccessList

/-- The list that operations build. -/
def build (calls : List BALCall) : BlockLevelAccessList := calls.foldl BALCall.run {}

/-- Whatever is built by calls is canonical. -/
private theorem canonical_build (calls : List BALCall) : (build calls).Canonical :=
  canonical_foldl_run canonical_empty calls

/-- The accounts of the first list that are not left out are those of the second, each with the same
slots, reads and changes. -/
def SameAccounts (bal bal' : BlockLevelAccessList) : Prop :=
  ∀ address, Option.Rel AccountAccesses.Same
    ((bal.accesses.get address).filter (shouldIncludeAddress address)) (bal'.accesses.get address)

/-- The accounts that are not left out, each changed. -/
def readBack (bal : BlockLevelAccessList) (r : BALAddressHex → BALAddressHex → Prop)
    [DecidableRel r] (g : AccountAccesses → AccountAccesses) : Accesses :=
  InsertionMap.ofEntries
    (((bal.accesses.sortedBy r).filter fun e => shouldIncludeAddress e.1 e.2).map fun e =>
      (e.1, g e.2))

section Read

variable {bal : BlockLevelAccessList} (h : bal.Canonical)

include h

/-- Accounts that were read back are the same if each of them is. -/
private theorem sameAccounts_readBack (r : BALAddressHex → BALAddressHex → Prop) [DecidableRel r]
    {g : AccountAccesses → AccountAccesses}
    (hg : ∀ access : AccountAccesses, access.Canonical → AccountAccesses.Same access (g access)) :
    SameAccounts bal { accesses := bal.readBack r g } := by
  have hnodup : ((((bal.accesses.sortedBy r).filter fun e => shouldIncludeAddress e.1 e.2).map
      fun e => (e.1, g e.2)).map Prod.fst).Nodup := by
    rw [List.map_map]
    exact (bal.accesses.nodup_sortedBy r).sublist (List.filter_sublist.map _)
  intro address
  have hget : (bal.readBack r g).get address =
      ((bal.accesses.get address).filter (shouldIncludeAddress address)).map g := by
    refine Option.ext fun access => ?_
    rw [readBack, InsertionMap.get_ofEntries hnodup, List.mem_map, Option.map_eq_some_iff]
    constructor
    · rintro ⟨e, he, heq⟩
      obtain ⟨rfl, rfl⟩ := Prod.mk.inj heq
      obtain ⟨hmem, hincluded⟩ := List.mem_filter.1 he
      exact ⟨e.2, Option.filter_eq_some_iff.2 ⟨(InsertionMap.mem_sortedBy r).1 hmem, hincluded⟩,
        rfl⟩
    · rintro ⟨old, hold, rfl⟩
      obtain ⟨hold, hincluded⟩ := Option.filter_eq_some_iff.1 hold
      exact ⟨(address, old),
        List.mem_filter.2 ⟨(InsertionMap.mem_sortedBy r).2 hold, hincluded⟩, rfl⟩
  change Option.Rel _ _ ((bal.readBack r g).get address)
  rw [hget]
  rcases hold : (bal.accesses.get address).filter (shouldIncludeAddress address) with _ | old
  · exact .none
  · obtain ⟨hheld, -⟩ := Option.filter_eq_some_iff.1 hold
    exact .some (hg old (h.accesses address old hheld).2)

/-- Lists of the same accounts are written alike. -/
private theorem SameAccounts.raw {bal' : BlockLevelAccessList} (hsame : SameAccounts bal bal') :
    bal'.raw = bal.raw := by
  refine (raw_congr fun address => ?_).symm
  have hfilter : (bal.accesses.get address).bind (rawIncluded address) =
      ((bal.accesses.get address).filter (shouldIncludeAddress address)).bind
        (rawIncluded address) := by
    -- an account that is left out has no raw format
    rcases bal.accesses.get address with _ | access
    · rfl
    · by_cases hincluded : shouldIncludeAddress address access = true
      · rw [Option.filter_some, if_pos hincluded]
      · rw [Option.filter_some, if_neg hincluded]
        exact if_neg hincluded
  refine hfilter.trans (eq_of_rel (hsame address) (fun o => o.bind (rawIncluded address)) ?_)
  intro access access' hget hab
  obtain ⟨hheld, -⟩ := Option.filter_eq_some_iff.1 hget
  have hcanonical := (h.accesses address access hheld).2
  change rawIncluded address access = rawIncluded address access'
  rw [rawIncluded, rawIncluded, hab.shouldIncludeAddress, hab.raw hcanonical]

/-- What the encoder makes of a list. -/
theorem toInput_raw :
    toInput bal.raw = .ok (.list (bal.included.map fun e => e.2.input (slotBytes e.1))) := by
  refine toInput_list_map fun e he => ?_
  obtain ⟨⟨b, hb⟩, hcanonical⟩ := h.accesses e.1 e.2
    ((InsertionMap.mem_sortedBy _).1 (List.mem_filter.1 he).1)
  rw [hb, slotBytes_bytesToHex]
  exact AccountAccesses.toInput_raw hcanonical b

/-- A list that is read from its serialization. -/
private theorem createBlockLevelAccessListFromRLP_encode
    (h64 : (encode (.list (bal.included.map fun e => e.2.input (slotBytes e.1)))).length < 2 ^ 64) :
    ∃ bal', createBlockLevelAccessListFromRLP
      (encode (.list (bal.included.map fun e => e.2.input (slotBytes e.1)))) = some bal' ∧
        SameAccounts bal bal' := by
  have hread : ∀ e ∈ bal.included, ∀ a, accountFromRLP a (e.2.input (slotBytes e.1)) =
      some (a.modify e.1 e.2.addRLP) := by
    intro e he a
    obtain ⟨⟨b, hb⟩, hcanonical⟩ := h.accesses e.1 e.2
      ((InsertionMap.mem_sortedBy _).1 (List.mem_filter.1 he).1)
    rw [AccountAccesses.accountFromRLP_input hcanonical, hb, slotBytes_bytesToHex]
  have hnodup : (bal.included.map Prod.fst).Nodup :=
    (bal.accesses.nodup_sortedBy _).sublist (List.filter_sublist.map _)
  refine ⟨_, ?_, sameAccounts_readBack h (fun a b => addressBefore a b = true) fun access haccess =>
    AccountAccesses.same_addRLP haccess⟩
  rw [createBlockLevelAccessListFromRLP, decode_encode h64]
  change (List.foldlM accountFromRLP .empty _).bind _ = _
  rw [foldlM_modify hnodup hread]
  rfl

/-- A list that is read from its JSON format. -/
private theorem createBlockLevelAccessListFromJSON_toJSON
    (localeCompare : PrefixedHexString → PrefixedHexString → ℤ) :
    ∃ bal', createBlockLevelAccessListFromJSON (bal.toJSON localeCompare) = some bal' ∧
      SameAccounts bal bal' := by
  have hread : ∀ e ∈ (bal.accesses.sortedBy fun a b => localeCompare a b ≤ 0).filter
      (fun e => shouldIncludeAddress e.1 e.2), ∀ a,
      accountFromJSON a (e.2.toJSON localeCompare e.1) =
        some (a.modify e.1 (e.2.addJSON localeCompare)) := by
    intro e he a
    have hcanonical := (h.accesses e.1 e.2
      ((InsertionMap.mem_sortedBy _).1 (List.mem_filter.1 he).1)).2
    exact AccountAccesses.accountFromJSON_toJSON localeCompare hcanonical a e.1
  have hnodup : (((bal.accesses.sortedBy fun a b => localeCompare a b ≤ 0).filter
      fun e => shouldIncludeAddress e.1 e.2).map Prod.fst).Nodup :=
    (bal.accesses.nodup_sortedBy _).sublist (List.filter_sublist.map _)
  refine ⟨_, ?_, sameAccounts_readBack h (fun a b => localeCompare a b ≤ 0) fun access _ =>
    AccountAccesses.same_addJSON localeCompare⟩
  rw [createBlockLevelAccessListFromJSON, toJSON, foldlM_modify hnodup hread]
  rfl

end Read

end BlockLevelAccessList

/-! ### The order of recording -/

/-- The same reads and changes of an account, in any order. -/
structure AccountAccesses.Reordered (x y : AccountAccesses) : Prop where
  storageChanges : ∀ slot, Option.Rel List.Perm (x.storageChanges.get slot)
    (y.storageChanges.get slot)
  storageReads : ∀ slot, x.storageReads.has slot = y.storageReads.has slot
  balanceChanges : ∀ index, x.balanceChanges.get index = y.balanceChanges.get index
  nonceChanges : ∀ index, x.nonceChanges.get index = y.nonceChanges.get index
  codeChanges : x.codeChanges.Perm y.codeChanges

namespace BlockLevelAccessList

/-- The same accounts with the same reads and changes, in any order. -/
def Reordered (bal bal' : BlockLevelAccessList) : Prop :=
  ∀ address, Option.Rel AccountAccesses.Reordered (bal.accesses.get address)
    (bal'.accesses.get address)

/-- At most one change for each slot and index. -/
def OneChangePerIndex (bal : BlockLevelAccessList) : Prop :=
  ∀ address access, bal.accesses.get address = some access → ∀ slot changes,
    access.storageChanges.get slot = some changes → (changes.map Prod.fst).Nodup

end BlockLevelAccessList

/-- Sorting does not depend on the order before. -/
private theorem sortByIndex_congr {l l' : List (BALAccessIndexNumber × Bytes)} (h : l.Perm l')
    (hnodup : (l.map Prod.fst).Nodup) : sortByIndex l = sortByIndex l' :=
  (InsertionMap.sorts_le Set.univ).insertionSort_congr Prod.fst h hnodup fun _ _ => trivial

/-- Accounts that differ in order are written the same. -/
theorem AccountAccesses.Reordered.same {x y : AccountAccesses} (h : Reordered x y)
    (hx : x.Canonical) (hone : ∀ slot changes, x.storageChanges.get slot = some changes →
      (changes.map Prod.fst).Nodup) : Same x y where
  storageChanges slot := eq_of_rel (h.storageChanges slot) (Option.map writtenValues)
    fun changes changes' hget hperm => by
      rw [Option.map_some, Option.map_some, writtenValues,
        sortByIndex_congr hperm (hone slot changes hget)]
      rfl
  storageReads := h.storageReads
  balanceChanges index := congrArg _ (h.balanceChanges index)
  nonceChanges index := congrArg _ (h.nonceChanges index)
  codeChanges := sortByIndex_congr h.codeChanges hx.nodup_codes

namespace BlockLevelAccessList

/-- Lists that differ in order are encoded the same. -/
theorem Reordered.raw {bal bal' : BlockLevelAccessList} (h : Reordered bal bal')
    (hbal : bal.Canonical) (hone : bal.OneChangePerIndex) : bal.raw = bal'.raw := by
  refine raw_congr fun address => eq_of_rel (h address) (fun o => o.bind (rawIncluded address)) ?_
  intro access access' hget hreordered
  have hcanonical := (hbal.accesses address access hget).2
  have hsame := hreordered.same hcanonical (hone address access hget)
  change rawIncluded address access = rawIncluded address access'
  rw [rawIncluded, rawIncluded, hsame.shouldIncludeAddress, hsame.raw hcanonical]

end BlockLevelAccessList

open BlockLevelAccessList in
/-- **Every access list that the operations build**, under addresses that are the hex form of bytes,
is read back from its serialization and from its JSON format to a list with the same accounts,
slots, reads and changes, and with the same serialization.  No array is as long as the first of
these asks it not to be.  Where there is at most one change for each slot and index, whatever
operations record the same reads and changes in another order lead to the same serialization. -/
theorem serialize_roundTrips (calls : List BALCall) :
    ∃ bytes, (build calls).serialize = .ok bytes ∧
      (bytes.length < 2 ^ 64 → ∃ bal, createBlockLevelAccessListFromRLP bytes = some bal ∧
        SameAccounts (build calls) bal ∧ bal.serialize = .ok bytes) ∧
      (∀ localeCompare, ∃ bal,
        createBlockLevelAccessListFromJSON ((build calls).toJSON localeCompare) = some bal ∧
          SameAccounts (build calls) bal ∧ bal.serialize = .ok bytes) ∧
      ((build calls).OneChangePerIndex → ∀ calls', Reordered (build calls) (build calls') →
        (build calls').serialize = .ok bytes) := by
  have hcanonical := canonical_build calls
  have hbytes : (build calls).serialize =
      .ok (encode (.list ((build calls).included.map fun e => e.2.input (slotBytes e.1)))) := by
    rw [serialize, encodeRaw, toInput_raw hcanonical]
    rfl
  have hraw : ∀ bal : BlockLevelAccessList, bal.raw = (build calls).raw →
      bal.serialize = (build calls).serialize := by
    intro bal heq
    rw [serialize, serialize, heq]
  refine ⟨_, hbytes, fun h64 => ?_, fun localeCompare => ?_, fun hone calls' hreordered => ?_⟩
  · obtain ⟨bal, hread, hsame⟩ := createBlockLevelAccessListFromRLP_encode hcanonical h64
    exact ⟨bal, hread, hsame, (hraw bal (hsame.raw hcanonical)).trans hbytes⟩
  · obtain ⟨bal, hread, hsame⟩ :=
      createBlockLevelAccessListFromJSON_toJSON hcanonical localeCompare
    exact ⟨bal, hread, hsame, (hraw bal (hsame.raw hcanonical)).trans hbytes⟩
  · exact (hraw _ (hreordered.raw hcanonical hone).symm).trans hbytes

open BlockLevelAccessList in
/-- Two writes of a slot in two transactions, recorded in either order. -/
theorem serialize_roundTrips_writes :
    ∃ bytes,
      (build [.addStorageWrite [1] [2] [3] ⟨1, by decide⟩ none,
        .addStorageWrite [1] [2] [4] ⟨2, by decide⟩ none]).serialize = .ok bytes ∧
      (∃ bal, createBlockLevelAccessListFromRLP bytes = some bal ∧
        SameAccounts (build [.addStorageWrite [1] [2] [3] ⟨1, by decide⟩ none,
          .addStorageWrite [1] [2] [4] ⟨2, by decide⟩ none]) bal ∧ bal.serialize = .ok bytes) ∧
      (∃ bal, createBlockLevelAccessListFromJSON
        ((build [.addStorageWrite [1] [2] [3] ⟨1, by decide⟩ none,
          .addStorageWrite [1] [2] [4] ⟨2, by decide⟩ none]).toJSON fun _ _ => 0) = some bal ∧
        SameAccounts (build [.addStorageWrite [1] [2] [3] ⟨1, by decide⟩ none,
          .addStorageWrite [1] [2] [4] ⟨2, by decide⟩ none]) bal ∧ bal.serialize = .ok bytes) ∧
      (build [.addStorageWrite [1] [2] [4] ⟨2, by decide⟩ none,
        .addStorageWrite [1] [2] [3] ⟨1, by decide⟩ none]).serialize = .ok bytes := by
  have hget : ∀ {α : Type} {k k' : PrefixedHexString} {a b : α},
      (InsertionMap.empty.set k a).get k' = some b → a = b := by
    intro α k k' a b h
    rw [InsertionMap.get_set] at h
    split at h
    · exact Option.some.inj h
    · cases h
  have hrel : ∀ {α : Type} {R : α → α → Prop} {k : PrefixedHexString} (k') {a b : α}, R a b →
      Option.Rel R ((InsertionMap.empty.set k a).get k') ((InsertionMap.empty.set k b).get k') := by
    intro α R k k' a b h
    rw [InsertionMap.get_set, InsertionMap.get_set]
    split
    · exact .some h
    · exact .none
  obtain ⟨bytes, hbytes, hrlp, hjson, hreordered⟩ := serialize_roundTrips
    [.addStorageWrite [1] [2] [3] ⟨1, by decide⟩ none,
      .addStorageWrite [1] [2] [4] ⟨2, by decide⟩ none]
  have hconcrete : Except.ok bytes =
      (.ok [208, 207, 1, 201, 200, 2, 198, 194, 1, 3, 194, 2, 4, 192, 192, 192, 192] :
        Except ToBytesError Bytes) := hbytes.symm.trans rfl
  refine ⟨bytes, hbytes, hrlp ?_, hjson _, hreordered ?_ _ ?_⟩
  · rw [Except.ok.inj hconcrete]
    decide
  · intro address access haccess slot changes hchanges
    have haccess : { storageChanges :=
        InsertionMap.empty.set ['0', 'x', '0', '2'] [(1, [3]), (2, [4])] } = access := hget haccess
    rw [← haccess] at hchanges
    have hchanges : [(1, [3]), (2, [4])] = changes := hget hchanges
    rw [← hchanges]
    decide
  · exact fun address => hrel address ⟨fun slot => hrel slot (List.Perm.swap _ _ []), fun _ => rfl,
      fun _ => rfl, fun _ => rfl, .refl _⟩

end Tvmjs
