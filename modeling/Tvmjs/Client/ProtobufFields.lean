import Tvmjs.Base.InsertionMap
import Tvmjs.Base.WireFields
import Tvmjs.Util.AccountRlp

/-!
# Reading a protobuf message

The values of a message by the number of their field, those of one field in the order in which they
stand.

* `protobufFields` -- the reader;
* `fieldMap`, `get_fieldMap` -- what it returns for a sequence of fields;
* `protobufFields_eq_ok_iff` -- **what it accepts**: exactly the sequences of complete fields.
-/

namespace Tvmjs

/-- `Number(n)`: the nearest integer with 53 significant bits, of two the one with an even last
bit. -/
def numberOf (n : ℕ) : ℕ :=
  if n ≤ 2 ^ 53 then n
  else
    let unit := 2 ^ (n.log2 - 52)
    let low := n / unit * unit
    if 2 * (n % unit) > unit ∨ 2 * (n % unit) = unit ∧ n / unit % 2 = 1 then low + unit else low

/-- `Number.isSafeInteger` -/
def isSafeInteger (n : ℕ) : Bool := n ≤ MAX_SAFE_INTEGER

/-- A number that is safe as a `Number` was so before. -/
private theorem isSafeInteger_numberOf (n : ℕ) : isSafeInteger (numberOf n) = isSafeInteger n := by
  rw [isSafeInteger, isSafeInteger, decide_eq_decide, numberOf]
  split
  · rfl
  · rename_i hlarge
    have hlog : 53 ≤ n.log2 := (Nat.le_log2 (by omega)).2 (by omega)
    have hself : 2 ^ n.log2 ≤ n := Nat.log2_self_le (by omega)
    have hunit : 2 ^ n.log2 = 2 ^ 52 * 2 ^ (n.log2 - 52) := by
      rw [← pow_add]
      congr 1
      omega
    have htwo : 2 ^ 1 ≤ 2 ^ (n.log2 - 52) := Nat.pow_le_pow_right (by decide) (by omega)
    have hquotient : 2 ^ 52 ≤ n / 2 ^ (n.log2 - 52) := by
      rw [Nat.le_div_iff_mul_le (by positivity), ← hunit]
      exact hself
    have hlow : 2 ^ 52 * 2 ≤ n / 2 ^ (n.log2 - 52) * 2 ^ (n.log2 - 52) :=
      Nat.mul_le_mul hquotient htwo
    unfold MAX_SAFE_INTEGER
    refine iff_of_false (fun h => ?_) (by omega)
    dsimp only at h
    split at h
    · omega
    · omega

/-- A `bigint` or a byte string. -/
abbrev ProtobufValue := Wire.Value

/-- What reading a message throws. -/
inductive ProtobufError where
  /-- "truncated protobuf" -/
  | truncated
  /-- "invalid protobuf varint" -/
  | invalidVarint
  /-- "unsupported protobuf wire type" -/
  | unsupportedWireType
deriving DecidableEq

/-- The values of a message by field, each field with all its occurrences. -/
abbrev ProtobufFields := InsertionMap ℕ (List ProtobufValue)

namespace Protobuf

/-- `varint`: the number and what is left. -/
def varint : Bytes → ℕ → ℕ → Except ProtobufError (ℕ × Bytes)
  | [], _, _ => .error .truncated
  | byte :: bytes, value, shift =>
    let value := value ||| ((byte &&& 0x7f).toNat <<< shift)
    if byte &&& 0x80 = 0 then .ok (value, bytes)
    else if shift + 7 > 63 then .error .invalidVarint
    else varint bytes value (shift + 7)

/-- The next `length` bytes and what is left. -/
def slice (length : ℕ) (bytes : Bytes) : Except ProtobufError (Bytes × Bytes) :=
  if length > bytes.length then .error .truncated
  else .ok (bytes.take length, bytes.drop length)

/-- The value of a field of some kind. -/
def readValue (wire : ℕ) (bytes : Bytes) : Except ProtobufError (ProtobufValue × Bytes) :=
  if wire = 0 then do
    let (value, rest) ← varint bytes 0 0
    return (.number value, rest)
  else if wire = 2 then do
    let (length, rest) ← varint bytes 0 0
    if isSafeInteger (numberOf length) then do
      let (value, rest) ← slice (numberOf length) rest
      return (.bytes value, rest)
    else .error .truncated
  else if wire = 1 then do
    let (value, rest) ← slice 8 bytes
    return (.bytes value, rest)
  else if wire = 5 then do
    let (value, rest) ← slice 4 bytes
    return (.bytes value, rest)
  else .error .unsupportedWireType

/-- A field: the key's upper bits are its number, its lower ones the kind of its value. -/
def readField (bytes : Bytes) : Except ProtobufError ((ℕ × ProtobufValue) × Bytes) := do
  let (key, rest) ← varint bytes 0 0
  let (value, rest) ← readValue (key &&& 7) rest
  return ((numberOf (key >>> 3), value), rest)

open Wire

/-- Seven bits in front of those that have been read. -/
private theorem or_shiftLeft {value shift : ℕ} (hvalue : value < 2 ^ shift) (low : ℕ) :
    value ||| (low <<< shift) = value + 2 ^ shift * low := by
  rw [Nat.shiftLeft_eq, Nat.mul_comm, Nat.or_comm, Nat.add_comm]
  exact (Nat.two_pow_add_eq_or_of_lt hvalue low).symm

private theorem toNat_and_low (byte : UInt8) : (byte &&& 0x7f).toNat = byte.toNat % 128 := by
  rw [UInt8.toNat_and]
  exact Nat.and_two_pow_sub_one_eq_mod _ 7

private theorem and_high_eq_zero_iff (byte : UInt8) : byte &&& 0x80 = 0 ↔ byte.toNat < 128 := by
  have hbit : ∀ n < 256, n &&& 128 = 0 ↔ n < 128 := by decide +kernel
  rw [← UInt8.toNat_inj, UInt8.toNat_and]
  exact hbit byte.toNat byte.toNat_lt

/-- **A number that is read**: at most as many bytes as are left of ten. -/
theorem varint_eq_ok_iff {bytes rest : Bytes} {value shift k n : ℕ} (hvalue : value < 2 ^ shift)
    (hshift : shift = 7 * (9 - k)) (hk : k ≤ 9) :
    varint bytes value shift = .ok (n, rest) ↔
      ∃ front m, bytes = front ++ rest ∧ IsVarint (k + 1) front m ∧ n = value + 2 ^ shift * m := by
  -- On the bytes; `k` counts how many more the loop takes before the shift passes 63.
  induction bytes generalizing value shift k with
  | nil =>
    refine iff_of_false (by rw [varint]; exact nofun) ?_
    rintro ⟨front, m, happend, hfront, -⟩
    exact hfront.ne_nil (List.append_eq_nil_iff.1 happend.symm).1
  | cons byte bytes ih =>
    have hbyte : byte.toNat < 256 := byte.toNat_lt
    rw [varint, toNat_and_low, or_shiftLeft hvalue]
    simp only [and_high_eq_zero_iff]
    -- the last byte of the number has its high bit clear
    by_cases hlow : byte.toNat < 128
    · rw [if_pos hlow, Except.ok.injEq, Prod.mk.injEq, Nat.mod_eq_of_lt hlow]
      constructor
      · rintro ⟨rfl, rfl⟩
        exact ⟨[byte], byte.toNat, rfl, .last hlow, rfl⟩
      · rintro ⟨front, m, happend, hfront, rfl⟩
        obtain ⟨rfl, rfl⟩ := (IsVarint.last (k := k) hlow).append_inj hfront
          (x := bytes) (y := rest) happend
        exact ⟨rfl, rfl⟩
    · rw [if_neg hlow]
      have hmod : byte.toNat % 128 = byte.toNat - 128 := by omega
      -- a tenth byte with its high bit set is refused
      by_cases hlast : shift + 7 > 63
      · rw [if_pos hlast]
        refine iff_of_false nofun ?_
        rintro ⟨front, m, happend, hfront, -⟩
        have hzero : k = 0 := by omega
        subst hzero
        cases hfront with
        | last hb =>
          obtain ⟨rfl, -⟩ := List.cons.inj happend
          exact hlow hb
        | more _ hbs => cases hbs
      · obtain ⟨k, rfl⟩ : ∃ k', k = k' + 1 := ⟨k - 1, by omega⟩
        have hpow : 2 ^ (shift + 7) = 2 ^ shift * 128 := pow_add 2 shift 7
        have hnext : value + 2 ^ shift * (byte.toNat % 128) < 2 ^ (shift + 7) := by
          have hle : 2 ^ shift * (byte.toNat % 128) ≤ 2 ^ shift * 127 :=
            Nat.mul_le_mul_left _ (by omega)
          omega
        rw [if_neg hlast, ih (k := k) hnext (by omega) (by omega)]
        constructor
        · rintro ⟨front, m, rfl, hfront, rfl⟩
          refine ⟨byte :: front, _, rfl, .more (by omega) hfront, ?_⟩
          rw [hpow, hmod]
          ring
        · rintro ⟨front, m, happend, hfront, rfl⟩
          cases hfront with
          | last hb =>
            obtain ⟨rfl, -⟩ := List.cons.inj happend
            exact absurd hb hlow
          | more hb hbs =>
            obtain ⟨rfl, rfl⟩ := List.cons.inj happend
            refine ⟨_, _, rfl, hbs, ?_⟩
            rw [hpow, hmod]
            ring

private theorem varint_iff {bytes rest : Bytes} {n : ℕ} : varint bytes 0 0 = .ok (n, rest) ↔
    ∃ front, bytes = front ++ rest ∧ IsVarint maxVarint front n := by
  rw [varint_eq_ok_iff (k := 9) (by decide) (by decide) le_rfl]
  constructor
  · rintro ⟨front, m, happend, hfront, rfl⟩
    rw [pow_zero, Nat.one_mul, Nat.zero_add]
    exact ⟨front, happend, hfront⟩
  · rintro ⟨front, happend, hfront⟩
    exact ⟨front, n, happend, hfront, by rw [pow_zero, Nat.one_mul, Nat.zero_add]⟩

private theorem slice_iff {length : ℕ} {bytes data rest : Bytes} :
    slice length bytes = .ok (data, rest) ↔ bytes = data ++ rest ∧ data.length = length := by
  rw [slice]
  split
  · rename_i hlong
    refine iff_of_false nofun ?_
    rintro ⟨rfl, rfl⟩
    rw [List.length_append] at hlong
    omega
  · rename_i hlong
    rw [Except.ok.injEq, Prod.mk.injEq]
    constructor
    · rintro ⟨rfl, rfl⟩
      exact ⟨(List.take_append_drop _ _).symm, by rw [List.length_take]; omega⟩
    · rintro ⟨rfl, rfl⟩
      exact ⟨List.take_left' rfl, List.drop_left' rfl⟩

theorem bind_eq_ok {α β : Type} {x : Except ProtobufError α} {f : α → Except ProtobufError β}
    {b : β} :
    x >>= f = .ok b ↔ ∃ a, x = .ok a ∧ f a = .ok b := by
  cases x with
  | error e => exact iff_of_false nofun fun ⟨_, h, _⟩ => nomatch h
  | ok a => exact ⟨fun h => ⟨a, rfl, h⟩, fun ⟨_, h, h'⟩ => Except.ok.inj h ▸ h'⟩

/-- A number of bytes that a message holds is safe. -/
private theorem isSafeInteger_length {bytes : Bytes} (hlength : bytes.length ≤ MAX_SAFE_INTEGER) :
    isSafeInteger (numberOf bytes.length) = true ∧ numberOf bytes.length = bytes.length := by
  refine ⟨?_, ?_⟩
  · rw [isSafeInteger_numberOf]
    exact decide_eq_true hlength
  · rw [MAX_SAFE_INTEGER] at hlength
    exact if_pos (by omega)

private theorem numberOf_of_isSafeInteger {n : ℕ} (h : isSafeInteger (numberOf n) = true) :
    numberOf n = n := by
  rw [isSafeInteger_numberOf, isSafeInteger, decide_eq_true_eq, MAX_SAFE_INTEGER] at h
  exact if_pos (by omega)

/-- **A value that is read** stands in front. -/
theorem isValue_of_readValue {wire : ℕ} {bytes rest : Bytes} {value : ProtobufValue}
    (h : readValue wire bytes = .ok (value, rest)) :
    ∃ front, bytes = front ++ rest ∧ IsValue wire front value := by
  rw [readValue] at h
  split at h
  · rename_i hwire
    obtain ⟨⟨n, rest'⟩, hread, hret⟩ := bind_eq_ok.1 h
    cases hret
    obtain ⟨front, happend, hfront⟩ := varint_iff.1 hread
    exact ⟨front, happend, hwire ▸ .number hfront⟩
  split at h
  · rename_i hwire
    obtain ⟨⟨length, middle⟩, hread, h⟩ := bind_eq_ok.1 h
    dsimp only at h
    split at h
    · rename_i hsafe
      obtain ⟨⟨data, rest'⟩, hslice, hret⟩ := bind_eq_ok.1 h
      cases hret
      obtain ⟨l, rfl, hl⟩ := varint_iff.1 hread
      obtain ⟨rfl, hdata⟩ := slice_iff.1 hslice
      rw [numberOf_of_isSafeInteger hsafe] at hdata
      exact ⟨l ++ data, (List.append_assoc _ _ _).symm, hwire ▸ .delimited (hdata ▸ hl)⟩
    · cases h
  split at h
  · rename_i hwire
    obtain ⟨⟨data, rest'⟩, hslice, hret⟩ := bind_eq_ok.1 h
    cases hret
    obtain ⟨happend, hdata⟩ := slice_iff.1 hslice
    exact ⟨data, happend, hwire ▸ .fixed64 hdata⟩
  split at h
  · rename_i hwire
    obtain ⟨⟨data, rest'⟩, hslice, hret⟩ := bind_eq_ok.1 h
    cases hret
    obtain ⟨happend, hdata⟩ := slice_iff.1 hslice
    exact ⟨data, happend, hwire ▸ .fixed32 hdata⟩
  · cases h

/-- **A value that stands in front** is read, if its length is a safe number. -/
theorem readValue_append {wire : ℕ} {front rest : Bytes} {value : ProtobufValue}
    (hlength : front.length ≤ MAX_SAFE_INTEGER) (hvalue : IsValue wire front value) :
    readValue wire (front ++ rest) = .ok (value, rest) := by
  cases hvalue with
  | number hbs => exact bind_eq_ok.2 ⟨_, varint_iff.2 ⟨front, rfl, hbs⟩, rfl⟩
  | fixed64 hdata => exact bind_eq_ok.2 ⟨_, slice_iff.2 ⟨rfl, hdata⟩, rfl⟩
  | @delimited l data hl =>
    have hshort : (data.length : ℤ) ≤ MAX_SAFE_INTEGER := by
      rw [List.length_append] at hlength
      omega
    obtain ⟨hsafe, hnumber⟩ := isSafeInteger_length hshort
    refine bind_eq_ok.2 ⟨(data.length, data ++ rest),
      varint_iff.2 ⟨l, List.append_assoc _ _ _, hl⟩, ?_⟩
    dsimp only
    rw [if_pos hsafe, hnumber]
    exact bind_eq_ok.2 ⟨_, slice_iff.2 ⟨rfl, rfl⟩, rfl⟩
  | fixed32 hdata => exact bind_eq_ok.2 ⟨_, slice_iff.2 ⟨rfl, hdata⟩, rfl⟩

private theorem and_seven (key : ℕ) : key &&& 7 = key % 8 := Nat.and_two_pow_sub_one_eq_mod key 3

private theorem shiftRight_three (key : ℕ) : key >>> 3 = key / 8 := Nat.shiftRight_eq_div_pow key 3

/-- A field that is read stands in front. -/
private theorem isField_of_readField {bytes rest : Bytes} {field : ℕ} {value : ProtobufValue}
    (h : readField bytes = .ok ((field, value), rest)) :
    ∃ k v key, bytes = k ++ (v ++ rest) ∧ IsVarint maxVarint k key ∧ IsValue (key % 8) v value ∧
      field = numberOf (key / 8) := by
  obtain ⟨⟨key, middle⟩, hkey, h⟩ := bind_eq_ok.1 h
  obtain ⟨⟨value', rest'⟩, hvalue, hret⟩ := bind_eq_ok.1 h
  obtain ⟨k, rfl, hk⟩ := varint_iff.1 hkey
  rw [and_seven] at hvalue
  obtain ⟨v, rfl, hv⟩ := isValue_of_readValue hvalue
  cases hret
  exact ⟨k, v, key, rfl, hk, hv, by rw [shiftRight_three]⟩

private theorem readField_append {k v rest : Bytes} {key : ℕ} {value : ProtobufValue}
    (hlength : v.length ≤ MAX_SAFE_INTEGER) (hk : IsVarint maxVarint k key)
    (hv : IsValue (key % 8) v value) :
    readField (k ++ (v ++ rest)) = .ok ((numberOf (key / 8), value), rest) := by
  refine bind_eq_ok.2 ⟨(key, v ++ rest), varint_iff.2 ⟨k, rfl, hk⟩, ?_⟩
  refine bind_eq_ok.2 ⟨(value, rest), ?_, by rw [shiftRight_three]; rfl⟩
  rw [and_seven]
  exact readValue_append hlength hv

/-- A field takes at least one byte. -/
private theorem length_lt_of_readField {bytes rest : Bytes} {field : ℕ × ProtobufValue}
    (h : readField bytes = .ok (field, rest)) : rest.length < bytes.length := by
  obtain ⟨k, v, key, rfl, hk, -⟩ := isField_of_readField h
  have hpos := List.length_pos_iff.2 hk.ne_nil
  rw [List.length_append, List.length_append]
  omega

/-- The loop of `protobufFields`. -/
def readFields (bytes : Bytes) (fields : ProtobufFields) : Except ProtobufError ProtobufFields :=
  if bytes = [] then .ok fields
  else
    match _h : readField bytes with
    | .error e => .error e
    | .ok (field, rest) => readFields rest (fields.push field.1 field.2)
termination_by bytes.length
decreasing_by exact length_lt_of_readField _h

end Protobuf

/-- `protobufFields` -/
def protobufFields (bytes : Bytes) : Except ProtobufError ProtobufFields :=
  Protobuf.readFields bytes .empty

/-- The values of a sequence of fields, filed under the numbers that the keys hold. -/
def fieldMap (fields : List (ℕ × ProtobufValue)) : ProtobufFields :=
  fields.foldl (fun m e => m.push (numberOf (e.1 / 8)) e.2) .empty

/-- The values of one field. -/
def fieldValues (field : ℕ) (fields : List (ℕ × ProtobufValue)) : List ProtobufValue :=
  (fields.filter fun e => numberOf (e.1 / 8) = field).map Prod.snd

namespace Protobuf

open Wire

/-- **What is returned** for a number: the values of its fields, in order. -/
theorem get_fieldMap (fields : List (ℕ × ProtobufValue)) (field : ℕ) :
    ((fieldMap fields).get field).getD [] = fieldValues field fields :=
  InsertionMap.getD_foldl_push _ _ fields .empty field

private theorem fieldValues_append (field : ℕ) (fields fields' : List (ℕ × ProtobufValue)) :
    fieldValues field (fields ++ fields') =
      fieldValues field fields ++ fieldValues field fields' := by
  rw [fieldValues, List.filter_append, List.map_append]
  rfl

/-- The values that are written under one number. -/
private theorem fieldValues_fieldEntries {slot : ℕ × List ProtobufValue} (hslot : slot.1 ≤ 2 ^ 53)
    (field : ℕ) :
    fieldValues field (fieldEntries slot) = if slot.1 = field then slot.2 else [] := by
  obtain ⟨number, values⟩ := slot
  induction values with
  | nil => exact (ite_self _).symm
  | cons value values ih =>
    have hkey : numberOf (keyOf number value.wire / 8) = number := by
      have hwire : value.wire < 8 := by
        cases value with
        | number n => exact (by decide : 0 < 8)
        | bytes bytes => exact (by decide : 2 < 8)
      rw [keyOf, show (number * 8 + value.wire) / 8 = number by omega]
      exact if_pos hslot
    have hcons : fieldEntries (number, value :: values) =
        [(keyOf number value.wire, value)] ++ fieldEntries (number, values) := rfl
    rw [hcons, fieldValues_append, ih hslot, fieldValues, List.filter_singleton, hkey]
    by_cases hfield : number = field
    · rw [decide_eq_true hfield, if_pos hfield, if_pos hfield]
      rfl
    · rw [decide_eq_false hfield, if_neg hfield, if_neg hfield]
      rfl

/-- What stands under a number of a message in which each is written in one place. -/
private theorem fieldValues_flatten {slots : List (ℕ × List ProtobufValue)}
    (hslots : ∀ slot ∈ slots, slot.1 ≤ 2 ^ 53) (hnodup : (slots.map Prod.fst).Nodup) (field : ℕ) :
    fieldValues field (slots.map fieldEntries).flatten = (slots.lookup field).getD [] := by
  induction slots with
  | nil => rfl
  | cons slot slots ih =>
    rw [List.map_cons, List.nodup_cons] at hnodup
    rw [List.map_cons, List.flatten_cons, fieldValues_append,
      fieldValues_fieldEntries (hslots slot List.mem_cons_self),
      ih (fun s hs => hslots s (List.mem_cons_of_mem _ hs)) hnodup.2, List.lookup_cons]
    by_cases hfield : slot.1 = field
    · have hnone : slots.lookup field = none := by
        rw [List.lookup_eq_none_iff]
        intro s hs
        rw [bne_iff_ne]
        rintro rfl
        exact hnodup.1 (hfield ▸ List.mem_map_of_mem hs)
      rw [if_pos hfield, hnone, hfield, beq_self_eq_true]
      exact List.append_nil _
    · rw [if_neg hfield, beq_eq_false_iff_ne.2 (Ne.symm hfield)]
      rfl

/-- The loop accepts what is left exactly if it is a sequence of complete fields. -/
private theorem readFields_eq_ok_iff {bytes : Bytes} (hlength : bytes.length ≤ MAX_SAFE_INTEGER)
    {m result : ProtobufFields} : readFields bytes m = .ok result ↔
      ∃ fields, IsFields bytes fields ∧
        result = fields.foldl (fun m e => m.push (numberOf (e.1 / 8)) e.2) m := by
  -- On the length, since a field takes at least one byte.
  induction hn : bytes.length using Nat.strong_induction_on generalizing bytes m with
  | h n ih =>
    subst hn
    rw [readFields]
    by_cases hempty : bytes = []
    · subst hempty
      rw [if_pos rfl, Except.ok.injEq]
      constructor
      · rintro rfl
        exact ⟨[], .nil, rfl⟩
      · rintro ⟨fields, hfields, rfl⟩
        generalize hbytes : ([] : Bytes) = bytes at hfields
        cases hfields with
        | nil => rfl
        | cons hk => exact absurd (List.append_eq_nil_iff.1 hbytes.symm).1 hk.ne_nil
    · rw [if_neg hempty]
      split
      · rename_i e herror
        refine iff_of_false nofun ?_
        rintro ⟨fields, hfields, -⟩
        cases hfields with
        | nil => exact hempty rfl
        | cons hk hv _ =>
          rw [List.length_append, List.length_append] at hlength
          rw [readField_append (by omega) hk hv] at herror
          cases herror
      · rename_i field rest hfield
        have hlt := length_lt_of_readField hfield
        rw [ih rest.length hlt (by omega) rfl]
        -- a field was read, so it is the first of the sequence
        obtain ⟨k, v, key, rfl, hk, hv, hnumber⟩ := isField_of_readField hfield
        constructor
        · rintro ⟨fields, hfields, rfl⟩
          refine ⟨(key, field.2) :: fields, .cons hk hv hfields, ?_⟩
          rw [List.foldl_cons, ← hnumber]
        · rintro ⟨fields, hfields, rfl⟩
          generalize hbytes : k ++ (v ++ rest) = bytes at hfields
          cases hfields with
          | nil => exact absurd (List.append_eq_nil_iff.1 hbytes).1 hk.ne_nil
          | @cons k' v' rest' key' value' fields hk' hv' hrest =>
            rw [hbytes, List.length_append, List.length_append] at hlength
            rw [hbytes, readField_append (by omega) hk' hv'] at hfield
            obtain ⟨rfl, rfl⟩ : (numberOf (key' / 8), value') = field ∧ rest' = rest := by
              rw [Except.ok.injEq, Prod.mk.injEq] at hfield
              exact hfield
            exact ⟨fields, hrest, rfl⟩

end Protobuf

/-- **What is accepted**: the sequences of complete fields, whose values are returned in order. -/
theorem protobufFields_eq_ok_iff {bytes : Bytes} (hlength : bytes.length ≤ MAX_SAFE_INTEGER)
    {result : ProtobufFields} : protobufFields bytes = .ok result ↔
      ∃ fields, Wire.IsFields bytes fields ∧ result = fieldMap fields :=
  Protobuf.readFields_eq_ok_iff hlength

/-- **What is read of a message** in which each number is written in one place. -/
theorem protobufFields_slots {bytes : Bytes} (hlength : bytes.length ≤ MAX_SAFE_INTEGER)
    {slots : List (ℕ × List ProtobufValue)}
    (hbytes : Wire.IsFields bytes (slots.map Wire.fieldEntries).flatten)
    (hslots : ∀ slot ∈ slots, slot.1 ≤ 2 ^ 53) (hnodup : (slots.map Prod.fst).Nodup) :
    ∃ m, protobufFields bytes = .ok m ∧
      ∀ field, (m.get field).getD [] = (slots.lookup field).getD [] := by
  refine ⟨_, (protobufFields_eq_ok_iff hlength).2 ⟨_, hbytes, rfl⟩, fun field => ?_⟩
  rw [Protobuf.get_fieldMap, Protobuf.fieldValues_flatten hslots hnodup]

end Tvmjs
