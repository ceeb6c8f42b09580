import Tvmjs.Base.Utf
import Tvmjs.Client.ProtobufFields
import Tvmjs.Client.RawHeader

/-!
# The wire form of an asset issue
The bundled helper cannot encode an `AssetIssueContract`, so that the wallet writes its bytes itself
and reads them itself where a transaction is printed.

* `encodeAssetIssue`, `assetIssueValue` -- the writer and the reader;
* `assetIssueValue_encode` -- what comes back: the value without its defaults, and the id as the
  text decoder reads it;
* `assetIssue_roundTrip` -- **when it is the value**: exactly if the id has no byte order mark in
  front.
-/

namespace Tvmjs

/-- An integer as the language holds it. -/
inductive JSInteger where
  | number (n : ℤ)
  | bigint (n : ℤ)
deriving DecidableEq

/-- The integer, whichever type holds it. -/
def JSInteger.toInt : JSInteger → ℤ
  | number n => n
  | bigint n => n

/-- A `number` where it is safe, else a `bigint`. -/
def JSInteger.ofInt (integer : ℤ) : JSInteger :=
  if -MAX_SAFE_INTEGER ≤ integer ∧ integer ≤ MAX_SAFE_INTEGER then .number integer
  else .bigint integer

/-- An entry of `frozen_supply`. -/
structure FrozenRow where
  frozenAmount : Option JSInteger := none
  frozenDays : Option JSInteger := none
deriving DecidableEq

/-- The value of an `AssetIssueContract`.  Byte fields are hex strings. -/
structure AssetIssueValue where
  ownerAddress : Option HexString := none
  name : Option HexString := none
  abbr : Option HexString := none
  totalSupply : Option JSInteger := none
  frozenSupply : Option (List FrozenRow) := none
  trxNum : Option JSInteger := none
  precision : Option JSInteger := none
  num : Option JSInteger := none
  startTime : Option JSInteger := none
  endTime : Option JSInteger := none
  order : Option JSInteger := none
  voteScore : Option JSInteger := none
  description : Option HexString := none
  url : Option HexString := none
  freeAssetNetLimit : Option JSInteger := none
  publicFreeAssetNetLimit : Option JSInteger := none
  publicFreeAssetNetUsage : Option JSInteger := none
  publicLatestFreeNetTime : Option JSInteger := none
  id : Option JSString := none
deriving DecidableEq

namespace AssetIssue

/-! ### Writing -/

/-- The loop of `varint`. -/
def varintLoop (held : ℕ) : Bytes :=
  if held > 0x7f then UInt8.ofNat (held &&& 0x7f ||| 0x80) :: varintLoop (held >>> 7)
  else [UInt8.ofNat held]
termination_by held
decreasing_by
  rw [Nat.shiftRight_eq_div_pow]
  omega

/-- `varint`: negatives as their two's complement.  Below -2^64 the one byte wraps around. -/
def varint (raw : ℤ) : Bytes :=
  let held := if raw < 0 then raw + 2 ^ 64 else raw
  if held < 0 then [UInt8.ofNat (held % 256).toNat] else varintLoop held.toNat

/-- The key of a field: its number and its wire type. -/
def key (field wire : ℕ) : Bytes := varint (field * 8 + wire)

/-- `bytesField`; there is none if the digits cannot be read. -/
def bytesField (hex : NobleHex) (field : ℕ) (raw : Option HexString) : Option Bytes :=
  let digits := raw.getD []
  if digits = [] then some []
  else (bytesOf hex digits).map fun data => key field 2 ++ varint data.length ++ data

/-- `BigInt(String(raw ?? 0))` -/
def held (raw : Option JSInteger) : ℤ := (raw.map JSInteger.toInt).getD 0

/-- An integer field, left out where it is zero or absent. -/
def intField (field : ℕ) (raw : Option JSInteger) : Bytes :=
  if held raw = 0 then [] else key field 0 ++ varint (held raw)

/-- An entry of `frozen_supply`. -/
def tranche (row : FrozenRow) : Bytes := intField 1 row.frozenAmount ++ intField 2 row.frozenDays

/-- The frozen tranches, each a message of its own. -/
def frozenField (rows : Option (List FrozenRow)) : Bytes :=
  (rows.getD []).flatMap fun row => key 5 2 ++ varint (tranche row).length ++ tranche row

/-- The id, left out where it is empty. -/
def idField (raw : Option JSString) : Bytes :=
  let id := raw.getD []
  if id = [] then []
  else
    let data := TextEncoder.encode id
    key 41 2 ++ varint data.length ++ data

end AssetIssue

open AssetIssue in
/-- The bytes of an `AssetIssueContract`. -/
def encodeAssetIssue (hex : NobleHex) (value : AssetIssueValue) : Option Bytes := do
  let ownerAddress ← bytesField hex 1 value.ownerAddress
  let name ← bytesField hex 2 value.name
  let abbr ← bytesField hex 3 value.abbr
  let description ← bytesField hex 20 value.description
  let url ← bytesField hex 21 value.url
  return [ownerAddress, name, abbr, intField 4 value.totalSupply, frozenField value.frozenSupply,
    intField 6 value.trxNum, intField 7 value.precision, intField 8 value.num,
    intField 9 value.startTime, intField 10 value.endTime, intField 11 value.order,
    intField 16 value.voteScore, description, url, intField 22 value.freeAssetNetLimit,
    intField 23 value.publicFreeAssetNetLimit, intField 24 value.publicFreeAssetNetUsage,
    intField 25 value.publicLatestFreeNetTime, idField value.id].flatten

/-! ### Reading -/

/-- `BigInt.asIntN(64, value)` -/
def asIntN64 (value : ℕ) : ℤ := (value + 2 ^ 63) % 2 ^ 64 - 2 ^ 63

/-- A varint read as an integer of 64 bits with a sign. -/
def protobufInteger (value : ℕ) : JSInteger := .ofInt (asIntN64 value)

/-- An integer entry; none for zero. -/
def stateInteger : Option ProtobufValue → Option JSInteger
  | some (.number value) =>
    let integer := protobufInteger value
    if integer.toInt = 0 then none else some integer
  | _ => none

/-- An entry of bytes, as hex; none for no bytes. -/
def stateBytes (hex : NobleHex) : Option ProtobufValue → Option HexString
  | some (.bytes bytes) => if bytes.length > 0 then some (hex.bytesToHex bytes) else none
  | _ => none

/-- The last value of a field. -/
def lastValue (fields : ProtobufFields) (field : ℕ) : Option ProtobufValue :=
  (fields.get field).bind List.getLast?

/-- A frozen tranche as it is read back. -/
def frozenTranche (entry : ProtobufValue) : Except ProtobufError FrozenRow := do
  let values ← match entry with
    | .bytes bytes => protobufFields bytes
    | .number _ => pure .empty
  return { frozenAmount := stateInteger (lastValue values 1)
           frozenDays := stateInteger (lastValue values 2) }

/-- The id, as text. -/
def stateId : Option ProtobufValue → Option JSString
  | some (.bytes bytes) => if bytes.length > 0 then some (TextDecoder.decode bytes) else none
  | _ => none

/-- Decode every field. -/
def assetIssueValue (hex : NobleHex) (bytes : Bytes) : Except ProtobufError AssetIssueValue := do
  let fields ← protobufFields bytes
  let frozen ← ((fields.get 5).getD []).mapM frozenTranche
  return {
    ownerAddress := stateBytes hex (lastValue fields 1)
    name := stateBytes hex (lastValue fields 2)
    abbr := stateBytes hex (lastValue fields 3)
    totalSupply := stateInteger (lastValue fields 4)
    frozenSupply := if frozen.length > 0 then some frozen else none
    trxNum := stateInteger (lastValue fields 6)
    precision := stateInteger (lastValue fields 7)
    num := stateInteger (lastValue fields 8)
    startTime := stateInteger (lastValue fields 9)
    endTime := stateInteger (lastValue fields 10)
    order := stateInteger (lastValue fields 11)
    voteScore := stateInteger (lastValue fields 16)
    description := stateBytes hex (lastValue fields 20)
    url := stateBytes hex (lastValue fields 21)
    freeAssetNetLimit := stateInteger (lastValue fields 22)
    publicFreeAssetNetLimit := stateInteger (lastValue fields 23)
    publicFreeAssetNetUsage := stateInteger (lastValue fields 24)
    publicLatestFreeNetTime := stateInteger (lastValue fields 25)
    id := stateId (lastValue fields 41) }

/-! ### What the writer writes -/

/-- What a value is when its default-valued fields are dropped. -/
def dropInteger (raw : Option JSInteger) : Option JSInteger :=
  if AssetIssue.held raw = 0 then none else some (.ofInt (AssetIssue.held raw))

/-- A field that is left out where it holds nothing. -/
def dropEmpty {α : Type} (raw : Option (List α)) : Option (List α) :=
  if raw.getD [] = [] then none else some (raw.getD [])

/-- The value without its defaults: integers are the numbers they stand for. -/
def AssetIssueValue.dropDefaults (value : AssetIssueValue) : AssetIssueValue where
  ownerAddress := dropEmpty value.ownerAddress
  name := dropEmpty value.name
  abbr := dropEmpty value.abbr
  totalSupply := dropInteger value.totalSupply
  frozenSupply := (dropEmpty value.frozenSupply).map fun rows => rows.map fun row =>
    ⟨dropInteger row.frozenAmount, dropInteger row.frozenDays⟩
  trxNum := dropInteger value.trxNum
  precision := dropInteger value.precision
  num := dropInteger value.num
  startTime := dropInteger value.startTime
  endTime := dropInteger value.endTime
  order := dropInteger value.order
  voteScore := dropInteger value.voteScore
  description := dropEmpty value.description
  url := dropEmpty value.url
  freeAssetNetLimit := dropInteger value.freeAssetNetLimit
  publicFreeAssetNetLimit := dropInteger value.publicFreeAssetNetLimit
  publicFreeAssetNetUsage := dropInteger value.publicFreeAssetNetUsage
  publicLatestFreeNetTime := dropInteger value.publicLatestFreeNetTime
  id := dropEmpty value.id

namespace AssetIssue

open Wire

/-- The loop writes the varint of the number. -/
theorem varintLoop_eq (held : ℕ) : varintLoop held = Wire.varint held := by
  induction held using Nat.strong_induction_on with
  | h held ih =>
    have hlow : held &&& 0x7f = held % 128 := Nat.and_two_pow_sub_one_eq_mod held 7
    have hshift : held >>> 7 = held / 128 := Nat.shiftRight_eq_div_pow held 7
    have hor : held % 128 ||| 0x80 = held % 128 + 128 := by
      have hlt : held % 128 < 2 ^ 7 := Nat.mod_lt _ (by decide)
      rw [Nat.or_comm, Nat.add_comm]
      exact (Nat.two_pow_add_eq_or_of_lt hlt 1).symm
    rw [varintLoop, hlow, hshift, hor]
    by_cases hlarge : held > 0x7f
    · rw [if_pos hlarge, ih (held / 128) (by omega), Wire.varint.eq_def held, if_neg (by omega)]
    · rw [if_neg hlarge, varint_of_lt (by omega)]

/-- An integer of 64 bits is written as the residue it stands for. -/
private theorem varint_eq {raw : ℤ} (hraw : -2 ^ 63 ≤ raw) :
    varint raw = Wire.varint (wireNumber raw) := by
  have hheld : ¬ (if raw < 0 then raw + 2 ^ 64 else raw) < 0 := by
    split
    · omega
    · omega
  rw [varint, if_neg hheld, varintLoop_eq]
  rfl

/-- A natural number is written as itself. -/
private theorem varint_natCast (n : ℕ) : varint n = Wire.varint n := by
  rw [varint_eq (by omega), wireNumber, if_neg (by omega), Int.toNat_natCast]

/-- A key is the tag of the format. -/
private theorem key_eq (field wire : ℕ) : key field wire = tag field wire := by
  have hkey : ((field : ℤ) * 8 + wire) = ((field * 8 + wire : ℕ) : ℤ) := by
    push_cast
    rfl
  rw [key, hkey, varint_natCast]
  rfl

/-- Key, length and bytes are a field of the format. -/
private theorem key_varint_append (field : ℕ) (data : Bytes) :
    key field 2 ++ varint data.length ++ data = Wire.lenDelim field data := by
  rw [key_eq, varint_natCast, Wire.lenDelim]

/-- The values of a field of bytes. -/
def bytesSlot (data : Bytes) : List ProtobufValue := if data = [] then [] else [.bytes data]

/-- The values of an integer field. -/
def intSlot (raw : Option JSInteger) : List ProtobufValue :=
  if held raw = 0 then [] else [.number (wireNumber (held raw))]

/-- The values of the tranches. -/
def frozenSlot (rows : Option (List FrozenRow)) : List ProtobufValue :=
  (rows.getD []).map fun row => .bytes (tranche row)

/-- An int64. -/
def IsInt64 (n : ℤ) : Prop := -2 ^ 63 ≤ n ∧ n < 2 ^ 63

/-- What is written fits into 64 bits. -/
private theorem wireNumber_lt {n : ℤ} (h : IsInt64 n) : wireNumber n < 2 ^ 64 := by
  have hlow := h.1
  have hhigh := h.2
  unfold wireNumber
  split
  · omega
  · omega

/-- What an int64 is read back as. -/
private theorem protobufInteger_wireNumber {n : ℤ} (h : IsInt64 n) :
    protobufInteger (wireNumber n) = .ofInt n := by
  have hlow := h.1
  have hhigh := h.2
  have hback : asIntN64 (wireNumber n) = n := by
    unfold asIntN64 wireNumber
    split
    · omega
    · omega
  rw [protobufInteger, hback]

/-- An integer field reads back as one number, or as none. -/
private theorem isFields_intField {field : ℕ} {raw : Option JSInteger} (hfield : field < 2 ^ 32)
    (hraw : IsInt64 (held raw)) :
    IsFields (intField field raw) (fieldEntries (field, intSlot raw)) := by
  rw [intField, intSlot]
  by_cases hzero : held raw = 0
  · rw [if_pos hzero, if_pos hzero]
    exact .nil
  · have hlt := wireNumber_lt hraw
    rw [if_neg hzero, if_neg hzero, key_eq, varint_eq hraw.1]
    have hmax : 2 ^ 64 < 128 ^ maxVarint := by decide
    refine isFields_number ?_ ?_
    · rw [keyOf]
      omega
    · omega

/-- Bytes behind a key. -/
private theorem isFields_lenDelim {field : ℕ} {data : Bytes} (hfield : field < 2 ^ 32)
    (hdata : (Wire.lenDelim field data).length ≤ MAX_SAFE_INTEGER) :
    IsFields (Wire.lenDelim field data) [(keyOf field 2, .bytes data)] := by
  have hmax : 2 ^ 64 < 128 ^ maxVarint := by decide
  rw [Wire.lenDelim, List.length_append, MAX_SAFE_INTEGER] at hdata
  refine isFields_bytes ?_ ?_
  · rw [keyOf]
    omega
  · omega

/-- The frozen tranches read back one by one. -/
private theorem isFields_frozenField {rows : Option (List FrozenRow)}
    (hrows : (frozenField rows).length ≤ MAX_SAFE_INTEGER) :
    IsFields (frozenField rows) (fieldEntries (5, frozenSlot rows)) := by
  rw [frozenField] at hrows ⊢
  rw [frozenSlot]
  generalize rows.getD [] = rows at hrows ⊢
  induction rows with
  | nil => exact .nil
  | cons row rows ih =>
    rw [List.flatMap_cons, key_varint_append] at hrows ⊢
    rw [List.length_append] at hrows
    exact isFields_append (isFields_lenDelim (by decide) (by omega)) (ih (by omega))

/-- A field of bytes as it is written. -/
def dataField (field : ℕ) (data : Bytes) : Bytes :=
  if data = [] then [] else Wire.lenDelim field data

/-- A field of bytes that is written as hex. -/
private theorem bytesField_eq {hex : NobleHex} (hhex : hex.Lawful) (field : ℕ)
    {raw : Option HexString}
    {data : Bytes} (hraw : raw.getD [] = hex.bytesToHex data) :
    bytesField hex field raw = some (dataField field data) := by
  have hlength := hhex.length_bytesToHex data
  have hempty : raw.getD [] = [] ↔ data = [] := by
    rw [hraw, ← List.length_eq_zero_iff, hlength, ← List.length_eq_zero_iff]
    omega
  rw [bytesField, dataField]
  by_cases hdata : data = []
  · rw [if_pos (hempty.2 hdata), if_pos hdata]
  · have heven : padToEven (hex.bytesToHex data) = hex.bytesToHex data := by
      rw [padToEven, hlength, if_neg (by omega)]
    rw [if_neg (mt hempty.1 hdata), if_neg hdata, hraw, bytesOf, heven, hhex.hexToBytes_bytesToHex,
      Option.map_some, key_varint_append]

/-- A field of bytes reads back as its bytes. -/
private theorem isFields_bytesSlot {field : ℕ} {data : Bytes} (hfield : field < 2 ^ 32)
    (hdata : (dataField field data).length ≤ MAX_SAFE_INTEGER) :
    IsFields (dataField field data) (fieldEntries (field, bytesSlot data)) := by
  rw [dataField] at hdata ⊢
  rw [bytesSlot]
  split
  · exact .nil
  · rename_i hne
    rw [if_neg hne] at hdata
    exact isFields_lenDelim hfield hdata

/-- The id is a field of bytes. -/
private theorem idField_eq (raw : Option JSString) :
    idField raw = dataField 41 (TextEncoder.encode (raw.getD [])) := by
  rw [idField, key_varint_append, dataField]
  refine if_congr ?_ rfl rfl
  rw [TextEncoder.encode_eq_nil_iff]

/-- So it reads back as the bytes of its text. -/
private theorem isFields_idField {raw : Option JSString}
    (hraw : (idField raw).length ≤ MAX_SAFE_INTEGER) :
    IsFields (idField raw) (fieldEntries (41, bytesSlot (TextEncoder.encode (raw.getD [])))) := by
  rw [idField_eq] at hraw ⊢
  exact isFields_bytesSlot (by decide) hraw

/-- Of several values the last one counts. -/
private theorem lastValue_eq (m : ProtobufFields) (field : ℕ) :
    lastValue m field = ((m.get field).getD []).getLast? := by
  rw [lastValue]
  cases m.get field with
  | none => rfl
  | some values => rfl

/-- An integer comes back, zero as absent. -/
private theorem stateInteger_intSlot {raw : Option JSInteger} (hraw : IsInt64 (held raw)) :
    stateInteger (intSlot raw).getLast? = dropInteger raw := by
  have hinteger : (JSInteger.ofInt (held raw)).toInt = held raw := by
    rw [JSInteger.ofInt]
    split
    · rfl
    · rfl
  rw [intSlot, dropInteger]
  by_cases hzero : held raw = 0
  · rw [if_pos hzero, if_pos hzero]
    rfl
  · rw [if_neg hzero, if_neg hzero, List.getLast?_singleton, stateInteger,
      protobufInteger_wireNumber hraw, hinteger, if_neg hzero]

/-- Bytes come back as their hex form, none as absent. -/
private theorem stateBytes_bytesSlot {hex : NobleHex} (hhex : hex.Lawful) {raw : Option HexString}
    {data : Bytes} (hraw : raw.getD [] = hex.bytesToHex data) :
    stateBytes hex (bytesSlot data).getLast? = dropEmpty raw := by
  have hlength := hhex.length_bytesToHex data
  rw [bytesSlot, dropEmpty, hraw]
  by_cases hdata : data = []
  · have hnil : hex.bytesToHex data = [] := by
      rw [← List.length_eq_zero_iff, hlength, hdata]
      rfl
    rw [if_pos hdata, if_pos hnil]
    rfl
  · have hpos := List.length_pos_iff.2 hdata
    have hcons : hex.bytesToHex data ≠ [] := by
      rw [← List.length_pos_iff, hlength]
      omega
    rw [if_neg hdata, if_neg hcons, List.getLast?_singleton, stateBytes, if_pos hpos]

/-- An integer field has at most 20 bytes. -/
private theorem length_intField_le {field : ℕ} {raw : Option JSInteger} (hfield : field < 2 ^ 32)
    (hraw : IsInt64 (held raw)) : (intField field raw).length ≤ 20 := by
  have hmax : 2 ^ 64 < 128 ^ maxVarint := by decide
  have hlt := wireNumber_lt hraw
  rw [intField]
  split
  · exact Nat.zero_le _
  · have hkey : (tag field 0).length ≤ 10 := (isVarint_varint (by omega)).length_le
    have hnumber : (Wire.varint (wireNumber (held raw))).length ≤ 10 :=
      (isVarint_varint (by omega)).length_le
    rw [key_eq, varint_eq hraw.1, List.length_append]
    omega

/-- A tranche is read back. -/
private theorem frozenTranche_tranche {row : FrozenRow}
    (hamount : IsInt64 (held row.frozenAmount)) (hdays : IsInt64 (held row.frozenDays)) :
    frozenTranche (.bytes (tranche row)) =
      .ok ⟨dropInteger row.frozenAmount, dropInteger row.frozenDays⟩ := by
  have hshort : ((tranche row).length : ℤ) ≤ MAX_SAFE_INTEGER := by
    have hfirst := length_intField_le (show 1 < 2 ^ 32 by decide) hamount
    have hsecond := length_intField_le (show 2 < 2 ^ 32 by decide) hdays
    rw [tranche, List.length_append, MAX_SAFE_INTEGER]
    omega
  have hfields := isFields_flatten (.cons (isFields_intField (show 1 < 2 ^ 32 by decide) hamount)
    (.cons (isFields_intField (show 2 < 2 ^ 32 by decide) hdays) .nil))
  rw [List.flatten_cons, List.flatten_singleton] at hfields
  obtain ⟨m, hread, hget⟩ := @protobufFields_slots _ hshort
    [(1, intSlot row.frozenAmount), (2, intSlot row.frozenDays)] hfields
    (by simp) (by simp)
  have hfirst : lastValue m 1 = (intSlot row.frozenAmount).getLast? := by
    rw [lastValue_eq, hget]
    rfl
  have hsecond : lastValue m 2 = (intSlot row.frozenDays).getLast? := by
    rw [lastValue_eq, hget]
    rfl
  refine Protobuf.bind_eq_ok.2 ⟨m, hread, ?_⟩
  dsimp only
  rw [hfirst, hsecond, stateInteger_intSlot hamount, stateInteger_intSlot hdays]
  rfl

end AssetIssue

/-- The byte fields of a value. -/
def AssetIssueValue.byteFields (value : AssetIssueValue) : List (Option HexString) :=
  [value.ownerAddress, value.name, value.abbr, value.description, value.url]

/-- The integer fields of a value, those of its tranches among them. -/
def AssetIssueValue.intFields (value : AssetIssueValue) : List (Option JSInteger) :=
  [value.totalSupply, value.trxNum, value.precision, value.num, value.startTime, value.endTime,
    value.order, value.voteScore, value.freeAssetNetLimit, value.publicFreeAssetNetLimit,
    value.publicFreeAssetNetUsage, value.publicLatestFreeNetTime] ++
    (value.frozenSupply.getD []).flatMap fun row => [row.frozenAmount, row.frozenDays]

/-- Byte fields are bytes in hex, integers are int64s, and the id is text. -/
structure AssetIssueValue.Valid (hex : NobleHex) (value : AssetIssueValue) : Prop where
  bytes : ∀ raw ∈ value.byteFields, ∃ data, raw.getD [] = hex.bytesToHex data
  int64 : ∀ raw ∈ value.intFields, AssetIssue.IsInt64 (AssetIssue.held raw)
  text : JSString.IsWellFormed (value.id.getD [])

namespace AssetIssue

open Wire

/-- The fields of a value with the bytes of its byte fields. -/
def slots (value : AssetIssueValue) (owner name abbr description url : Bytes) :
    List (ℕ × List ProtobufValue) :=
  [(1, bytesSlot owner), (2, bytesSlot name), (3, bytesSlot abbr), (4, intSlot value.totalSupply),
    (5, frozenSlot value.frozenSupply), (6, intSlot value.trxNum), (7, intSlot value.precision),
    (8, intSlot value.num), (9, intSlot value.startTime), (10, intSlot value.endTime),
    (11, intSlot value.order), (16, intSlot value.voteScore), (20, bytesSlot description),
    (21, bytesSlot url), (22, intSlot value.freeAssetNetLimit),
    (23, intSlot value.publicFreeAssetNetLimit), (24, intSlot value.publicFreeAssetNetUsage),
    (25, intSlot value.publicLatestFreeNetTime),
    (41, bytesSlot (TextEncoder.encode (value.id.getD [])))]

/-- The fields of a value as they are written. -/
def pieces (value : AssetIssueValue) (owner name abbr description url : Bytes) : List Bytes :=
  [dataField 1 owner, dataField 2 name, dataField 3 abbr, intField 4 value.totalSupply,
    frozenField value.frozenSupply, intField 6 value.trxNum, intField 7 value.precision,
    intField 8 value.num, intField 9 value.startTime, intField 10 value.endTime,
    intField 11 value.order, intField 16 value.voteScore, dataField 20 description,
      dataField 21 url,
    intField 22 value.freeAssetNetLimit, intField 23 value.publicFreeAssetNetLimit,
    intField 24 value.publicFreeAssetNetUsage, intField 25 value.publicLatestFreeNetTime,
    idField value.id]

/-- **The bytes of a value** are a message with its fields. -/
theorem isFields_pieces {hex : NobleHex} {value : AssetIssueValue} (h : value.Valid hex)
    {owner name abbr description url : Bytes}
    (hlength : ((pieces value owner name abbr description url).flatten.length : ℤ) ≤
      MAX_SAFE_INTEGER) :
    IsFields (pieces value owner name abbr description url).flatten
      ((slots value owner name abbr description url).map fieldEntries).flatten := by
  -- each piece is no longer than the whole
  have hmem : ∀ {piece : Bytes}, piece ∈ pieces value owner name abbr description url →
      (piece.length : ℤ) ≤ MAX_SAFE_INTEGER := by
    intro piece hpiece
    have hsub := (List.sublist_flatten_of_mem hpiece).length_le
    omega
  have hint : ∀ {field : ℕ} {raw : Option JSInteger}, field < 2 ^ 32 → raw ∈ value.intFields →
      IsFields (intField field raw) (fieldEntries (field, intSlot raw)) :=
    fun hfield hraw => isFields_intField hfield (h.int64 _ hraw)
  refine isFields_flatten ?_
  refine .cons (isFields_bytesSlot (by decide) (hmem (by simp [pieces]))) ?_
  refine .cons (isFields_bytesSlot (by decide) (hmem (by simp [pieces]))) ?_
  refine .cons (isFields_bytesSlot (by decide) (hmem (by simp [pieces]))) ?_
  refine .cons (hint (by decide) (by simp [AssetIssueValue.intFields])) ?_
  refine .cons (isFields_frozenField (hmem (by simp [pieces]))) ?_
  refine .cons (hint (by decide) (by simp [AssetIssueValue.intFields])) ?_
  refine .cons (hint (by decide) (by simp [AssetIssueValue.intFields])) ?_
  refine .cons (hint (by decide) (by simp [AssetIssueValue.intFields])) ?_
  refine .cons (hint (by decide) (by simp [AssetIssueValue.intFields])) ?_
  refine .cons (hint (by decide) (by simp [AssetIssueValue.intFields])) ?_
  refine .cons (hint (by decide) (by simp [AssetIssueValue.intFields])) ?_
  refine .cons (hint (by decide) (by simp [AssetIssueValue.intFields])) ?_
  refine .cons (isFields_bytesSlot (by decide) (hmem (by simp [pieces]))) ?_
  refine .cons (isFields_bytesSlot (by decide) (hmem (by simp [pieces]))) ?_
  refine .cons (hint (by decide) (by simp [AssetIssueValue.intFields])) ?_
  refine .cons (hint (by decide) (by simp [AssetIssueValue.intFields])) ?_
  refine .cons (hint (by decide) (by simp [AssetIssueValue.intFields])) ?_
  refine .cons (hint (by decide) (by simp [AssetIssueValue.intFields])) ?_
  exact .cons (isFields_idField (hmem (by simp [pieces]))) .nil

/-- The tranches come back, zeros as absent. -/
private theorem mapM_frozenTranche {rows : List FrozenRow}
    (hrows : ∀ row ∈ rows, IsInt64 (held row.frozenAmount) ∧ IsInt64 (held row.frozenDays)) :
    (rows.map fun row => .bytes (tranche row)).mapM frozenTranche =
      .ok (rows.map fun row => ⟨dropInteger row.frozenAmount, dropInteger row.frozenDays⟩) := by
  induction rows with
  | nil => rfl
  | cons row rows ih =>
    obtain ⟨hamount, hdays⟩ := hrows row List.mem_cons_self
    rw [List.map_cons, List.mapM_cons, frozenTranche_tranche hamount hdays,
      ih fun r hr => hrows r (List.mem_cons_of_mem _ hr)]
    rfl

/-- The id comes back as its text is decoded. -/
private theorem stateId_bytesSlot (raw : Option JSString) :
    stateId (bytesSlot (TextEncoder.encode (raw.getD []))).getLast? =
      (dropEmpty raw).map fun id => TextDecoder.decode (TextEncoder.encode id) := by
  have hempty := TextEncoder.encode_eq_nil_iff (raw.getD [])
  rw [bytesSlot, dropEmpty]
  by_cases hid : raw.getD [] = []
  · rw [if_pos (hempty.2 hid), if_pos hid]
    rfl
  · have hpos := List.length_pos_iff.2 (mt hempty.1 hid)
    rw [if_neg (mt hempty.1 hid), if_neg hid, List.getLast?_singleton, stateId, if_pos hpos]
    rfl

end AssetIssue

open AssetIssue in
/-- **What comes back** of a value: its defaults are dropped, and the id is read as the text decoder
reads it. -/
theorem assetIssueValue_encode {hex : NobleHex} (hhex : hex.Lawful) {value : AssetIssueValue}
    (h : value.Valid hex) : ∃ bytes, encodeAssetIssue hex value = some bytes ∧
      (bytes.length ≤ MAX_SAFE_INTEGER → assetIssueValue hex bytes = .ok
        { value.dropDefaults with
          id := (dropEmpty value.id).map
            fun id => TextDecoder.decode (TextEncoder.encode id) }) := by
  obtain ⟨owner, howner⟩ := h.bytes value.ownerAddress (by simp [AssetIssueValue.byteFields])
  obtain ⟨name, hname⟩ := h.bytes value.name (by simp [AssetIssueValue.byteFields])
  obtain ⟨abbr, habbr⟩ := h.bytes value.abbr (by simp [AssetIssueValue.byteFields])
  obtain ⟨description, hdescription⟩ :=
    h.bytes value.description (by simp [AssetIssueValue.byteFields])
  obtain ⟨url, hurl⟩ := h.bytes value.url (by simp [AssetIssueValue.byteFields])
  refine ⟨(pieces value owner name abbr description url).flatten, ?_, fun hlength => ?_⟩
  · rw [encodeAssetIssue, bytesField_eq hhex 1 howner, bytesField_eq hhex 2 hname,
      bytesField_eq hhex 3 habbr, bytesField_eq hhex 20 hdescription, bytesField_eq hhex 21 hurl]
    rfl
  -- what the reader finds is what was written, field by field
  obtain ⟨m, hread, hget⟩ := protobufFields_slots hlength (isFields_pieces h hlength)
    (by simp [slots]) (by simp [slots])
  have hlast : ∀ field, lastValue m field =
      (((slots value owner name abbr description url).lookup field).getD []).getLast? := by
    intro field
    rw [lastValue_eq, hget]
  have hrows : ∀ row ∈ value.frozenSupply.getD [],
      IsInt64 (held row.frozenAmount) ∧ IsInt64 (held row.frozenDays) := by
    intro row hrow
    have hmem : ∀ raw ∈ [row.frozenAmount, row.frozenDays], raw ∈ value.intFields := fun raw hraw =>
      List.mem_append_right _ (List.mem_flatMap.2 ⟨row, hrow, hraw⟩)
    exact ⟨h.int64 _ (hmem _ (by simp)), h.int64 _ (hmem _ (by simp))⟩
  have hfrozen : ((m.get 5).getD []).mapM frozenTranche = .ok ((value.frozenSupply.getD []).map
      fun row => ⟨dropInteger row.frozenAmount, dropInteger row.frozenDays⟩) := by
    rw [hget]
    exact mapM_frozenTranche hrows
  have hdata : ∀ (field : ℕ) {raw : Option HexString} {data : Bytes},
      raw.getD [] = hex.bytesToHex data →
      ((slots value owner name abbr description url).lookup field).getD [] = bytesSlot data →
      stateBytes hex (lastValue m field) = dropEmpty raw := by
    intro field raw data hraw hslot
    rw [hlast, hslot, stateBytes_bytesSlot hhex hraw]
  have hint : ∀ (field : ℕ) {raw : Option JSInteger}, raw ∈ value.intFields →
      ((slots value owner name abbr description url).lookup field).getD [] = intSlot raw →
      stateInteger (lastValue m field) = dropInteger raw := by
    intro field raw hraw hslot
    rw [hlast, hslot, stateInteger_intSlot (h.int64 raw hraw)]
  have hid : stateId (lastValue m 41) =
      (dropEmpty value.id).map fun id => TextDecoder.decode (TextEncoder.encode id) := by
    rw [hlast]
    exact stateId_bytesSlot value.id
  -- no tranche at all is read as an absent list
  have htranches : (if ((value.frozenSupply.getD []).map fun row => (⟨dropInteger row.frozenAmount,
        dropInteger row.frozenDays⟩ : FrozenRow)).length > 0 then
        some ((value.frozenSupply.getD []).map fun row => ⟨dropInteger row.frozenAmount,
          dropInteger row.frozenDays⟩) else none) =
      (dropEmpty value.frozenSupply).map fun rows => rows.map fun row =>
        (⟨dropInteger row.frozenAmount, dropInteger row.frozenDays⟩ : FrozenRow) := by
    rw [dropEmpty, List.length_map]
    cases value.frozenSupply.getD [] with
    | nil => rfl
    | cons row rows => rfl
  refine Protobuf.bind_eq_ok.2 ⟨m, hread, Protobuf.bind_eq_ok.2 ⟨_, hfrozen, ?_⟩⟩
  dsimp only
  rw [hdata 1 howner rfl, hdata 2 hname rfl, hdata 3 habbr rfl, hdata 20 hdescription rfl,
    hdata 21 hurl rfl, hint 4 (by simp [AssetIssueValue.intFields]) rfl,
    hint 6 (by simp [AssetIssueValue.intFields]) rfl,
    hint 7 (by simp [AssetIssueValue.intFields]) rfl,
    hint 8 (by simp [AssetIssueValue.intFields]) rfl,
    hint 9 (by simp [AssetIssueValue.intFields]) rfl,
    hint 10 (by simp [AssetIssueValue.intFields]) rfl,
    hint 11 (by simp [AssetIssueValue.intFields]) rfl,
    hint 16 (by simp [AssetIssueValue.intFields]) rfl,
    hint 22 (by simp [AssetIssueValue.intFields]) rfl,
    hint 23 (by simp [AssetIssueValue.intFields]) rfl,
    hint 24 (by simp [AssetIssueValue.intFields]) rfl,
    hint 25 (by simp [AssetIssueValue.intFields]) rfl, hid, htranches]
  rfl

/-- **The wire format of an asset issue**: the value comes back, without its defaults, exactly if no
byte order mark stands in front of its id; and the reader accepts exactly the sequences of complete
fields, whose values it returns in order. -/
theorem assetIssue_roundTrip {hex : NobleHex} (hhex : hex.Lawful) {value : AssetIssueValue}
    (h : value.Valid hex) :
    (∃ bytes, encodeAssetIssue hex value = some bytes ∧ (bytes.length ≤ MAX_SAFE_INTEGER →
      (assetIssueValue hex bytes = .ok value.dropDefaults ↔
        (value.id.getD []).head? ≠ some 0xfeff))) ∧
    ∀ bytes : Bytes, bytes.length ≤ MAX_SAFE_INTEGER → ∀ result,
      protobufFields bytes = .ok result ↔
        ∃ fields, Wire.IsFields bytes fields ∧ result = fieldMap fields ∧
          ∀ number, (result.get number).getD [] = fieldValues number fields := by
  refine ⟨?_, fun bytes hlength result => ?_⟩
  · obtain ⟨bytes, hencode, hback⟩ := assetIssueValue_encode hhex h
    refine ⟨bytes, hencode, fun hlength => ?_⟩
    have hdecode := TextDecoder.decode_encode_iff (value.id.getD [])
    rw [hback hlength, Except.ok.injEq]
    by_cases hid : value.id.getD [] = []
    · have hdrop : dropEmpty value.id = none := if_pos hid
      rw [hid, AssetIssueValue.dropDefaults, hdrop]
      exact iff_of_true rfl nofun
    · have hdrop : dropEmpty value.id = some (value.id.getD []) := if_neg hid
      constructor
      · intro heq
        have hids := congrArg AssetIssueValue.id heq
        rw [AssetIssueValue.dropDefaults, hdrop] at hids
        exact (hdecode.1 (Option.some.inj hids)).2
      · intro hmark
        rw [AssetIssueValue.dropDefaults, hdrop, Option.map_some, hdecode.2 ⟨h.text, hmark⟩]
  · rw [protobufFields_eq_ok_iff hlength]
    constructor
    · rintro ⟨fields, hfields, rfl⟩
      exact ⟨fields, hfields, rfl, Protobuf.get_fieldMap fields⟩
    · rintro ⟨fields, hfields, hresult, -⟩
      exact ⟨fields, hfields, hresult⟩

/-- An asset with an id alone. -/
def assetWithId (id : JSString) : AssetIssueValue := { id := some id }

private theorem valid_assetWithId {id : JSString} (hid : id.IsWellFormed) :
    (assetWithId id).Valid lowerHex := by
  refine ⟨fun raw hraw => ⟨[], ?_⟩, fun raw hraw => ?_, hid⟩
  · simp only [AssetIssueValue.byteFields, assetWithId, List.mem_cons, List.not_mem_nil, or_false,
      or_self] at hraw
    rw [hraw]
    rfl
  · simp only [AssetIssueValue.intFields, assetWithId, Option.getD_none, List.flatMap_nil,
      List.append_nil, List.mem_cons, List.not_mem_nil, or_false, or_self] at hraw
    rw [hraw]
    exact ⟨by decide, by decide⟩

/-- An asset with fields of every kind, some of them with their default values. -/
def sampleAsset : AssetIssueValue where
  ownerAddress := some ['4', '1', 'f', 'f']
  name := some []
  abbr := some ['6', '1']
  totalSupply := some (.number (-1))
  frozenSupply := some [⟨some (.number 300), some (.bigint 2)⟩, ⟨none, some (.number 0)⟩]
  precision := some (.bigint 6)
  num := some (.number 0)
  id := some [0x31, 0xe9]

private theorem valid_sampleAsset : sampleAsset.Valid lowerHex where
  bytes := by
    intro raw hraw
    simp only [AssetIssueValue.byteFields, sampleAsset, List.mem_cons, List.not_mem_nil,
      or_false] at hraw
    rcases hraw with rfl | rfl | rfl | rfl | rfl
    · exact ⟨[0x41, 0xff], by decide⟩
    · exact ⟨[], rfl⟩
    · exact ⟨[0x61], by decide⟩
    · exact ⟨[], rfl⟩
    · exact ⟨[], rfl⟩
  int64 := by
    intro raw hraw
    have hheld : AssetIssue.held raw ∈ ([-1, 300, 2, 0, 6] : List ℤ) := by
      have hall : ∀ raw ∈ sampleAsset.intFields,
          AssetIssue.held raw ∈ ([-1, 300, 2, 0, 6] : List ℤ) := by decide
      exact hall raw hraw
    have hsmall : ∀ n ∈ ([-1, 300, 2, 0, 6] : List ℤ), -2 ^ 63 ≤ n ∧ n < 2 ^ 63 := by decide
    exact hsmall _ hheld
  text := ⟨by decide, show ¬ _ by decide⟩

/-- The asset is read back without its defaults; and no bytes at all are a message without
fields. -/
theorem assetIssue_roundTrip_sample : (∃ bytes, encodeAssetIssue lowerHex sampleAsset = some bytes ∧
      assetIssueValue lowerHex bytes = .ok sampleAsset.dropDefaults) ∧
    protobufFields [] = .ok (fieldMap []) := by
  obtain ⟨⟨bytes, hencode, hback⟩, haccepts⟩ :=
    assetIssue_roundTrip lawful_lowerHex valid_sampleAsset
  have hlength : (encodeAssetIssue lowerHex sampleAsset).map List.length = some 35 := by
    decide +kernel
  rw [hencode] at hlength
  have hbound : bytes.length ≤ MAX_SAFE_INTEGER := by
    rw [Option.some.inj hlength]
    decide
  refine ⟨⟨bytes, hencode, (hback hbound).2 (by decide)⟩, ?_⟩
  exact (haccepts [] (by decide) _).2 ⟨[], .nil, rfl, Protobuf.get_fieldMap []⟩

/-- An id loses its byte order mark. -/
theorem assetIssueValue_drops_mark :
    encodeAssetIssue lowerHex (assetWithId [0xfeff, 0x61]) =
        some [0xca, 0x02, 0x04, 0xef, 0xbb, 0xbf, 0x61] ∧
      assetIssueValue lowerHex [0xca, 0x02, 0x04, 0xef, 0xbb, 0xbf, 0x61] =
        .ok (assetWithId [0x61]) := by
  have hencode : encodeAssetIssue lowerHex (assetWithId [0xfeff, 0x61]) =
      some [0xca, 0x02, 0x04, 0xef, 0xbb, 0xbf, 0x61] := by decide +kernel
  refine ⟨hencode, ?_⟩
  obtain ⟨bytes, hbytes, hback⟩ := assetIssueValue_encode lawful_lowerHex
    (@valid_assetWithId [0xfeff, 0x61] ⟨by decide, show ¬ _ by decide⟩)
  rw [hencode, Option.some.injEq] at hbytes
  subst hbytes
  rw [hback (by decide)]
  decide

end Tvmjs
