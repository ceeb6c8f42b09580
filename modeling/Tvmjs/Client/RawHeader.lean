import Tvmjs.Base.Wire
import Tvmjs.Util.Hex
import Mathlib.Tactic.NormNum

/-!
# Raw block headers

The identity of a block is the hash of its raw header in the wire format of protobuf, with default
values left out.

* `HeaderFields` -- what a header says on the wire: three numbers, byte strings, one of them
  optional; `HeaderFields.wire_injective` by reading one field after the other;
* `encodeRawHeader_eq` -- a header is encoded by the wire form of its fields;
* `encodeRawHeader_commits` -- equal encodings are equal contents: an explicit version 0 counts as
  an absent one and hex digits by the bytes they spell;
* `HeaderRecord.rawHeaderOf_commits` -- of the headers the block store hashes nothing is lost.
-/

namespace Tvmjs

/-- Block header version, bumped with each chain upgrade. -/
def BLOCK_VERSION : ℤ := 36

/-- The fields of a raw block header. -/
structure TronRawHeader where
  timestampMs : ℤ
  /-- 64 hex chars; an empty block carries all zeros. -/
  txTrieRoot : HexString
  parentHash : HexString
  number : ℤ
  /-- Hex bytes: a 21-byte address, or the founding sentence on block 0. -/
  witnessAddress : HexString
  /-- Absent on block 0, which predates block versioning. -/
  version : Option ℤ := none
  /-- Only block 0 carries it, committing to the genesis state. -/
  accountStateRoot : Option HexString := none
deriving DecidableEq, Repr

/-- The loop of `varint`, for what is held from 0 on. -/
def varintLoop (held : ℕ) : Bytes :=
  let low := held &&& 0x7f
  if held >>> 7 = 0 then [UInt8.ofNat low]
  else UInt8.ofNat (low ||| 0x80) :: varintLoop (held >>> 7)
termination_by held
decreasing_by
  rw [Nat.shiftRight_eq_div_pow] at *
  omega

/-- `varint`; there are no bytes below -2^64, where the loop would not end. -/
def varint (raw : ℤ) : Option Bytes :=
  let held := if raw < 0 then raw + 2 ^ 64 else raw
  if held < 0 then none else some (varintLoop held.toNat)

/-- The key of a field: its number and its wire type. -/
def key (field wire : ℕ) : Bytes := varintLoop (field * 8 + wire)

/-- A field of bytes: key, length, bytes. -/
def lenDelim (field : ℕ) (bytes : Bytes) : Bytes := key field 2 ++ varintLoop bytes.length ++ bytes

/-- `hexToBytes` of the digits with `0x` in front. -/
def bytesOf (hex : NobleHex) (digits : HexString) : Option Bytes :=
  hex.hexToBytes (padToEven digits)

/-- A number field; the default is left out. -/
def varintField (field : ℕ) (raw : ℤ) : Option Bytes :=
  if raw ≠ 0 then (key field 0 ++ ·) <$> varint raw else some []

/-- The version, left out where it is absent or zero. -/
def versionField : Option ℤ → Option Bytes
  | none => some []
  | some version => varintField 10 version

/-- The state root, left out where it is absent. -/
def accountStateRootField (hex : NobleHex) : Option HexString → Option Bytes
  | none => some []
  | some root => lenDelim 11 <$> bytesOf hex root

/-- The wire bytes of a raw header; there are none if a hex field cannot be read. -/
def encodeRawHeader (hex : NobleHex) (header : TronRawHeader) : Option Bytes := do
  let timestamp ← varintField 1 header.timestampMs
  let txTrieRoot ← bytesOf hex header.txTrieRoot
  let parentHash ← bytesOf hex header.parentHash
  let number ← varintField 7 header.number
  let witnessAddress ← bytesOf hex header.witnessAddress
  let version ← versionField header.version
  let accountStateRoot ← accountStateRootField hex header.accountStateRoot
  return timestamp ++ lenDelim 2 txTrieRoot ++ lenDelim 3 parentHash ++ number ++
    lenDelim 9 witnessAddress ++ version ++ accountStateRoot

/-! ### The fields on the wire -/

/-- What a raw header says on the wire. -/
structure HeaderFields where
  timestamp : ℕ
  txTrieRoot : Bytes
  parentHash : Bytes
  number : ℕ
  witnessAddress : Bytes
  version : ℕ
  accountStateRoot : Option Bytes

/-- The message with these fields. -/
def HeaderFields.wire (f : HeaderFields) : Bytes :=
  Wire.numberField 1 f.timestamp ++ (Wire.lenDelim 2 f.txTrieRoot ++
    (Wire.lenDelim 3 f.parentHash ++ (Wire.numberField 7 f.number ++
      (Wire.lenDelim 9 f.witnessAddress ++ (Wire.numberField 10 f.version ++
        Wire.optionalBytes 11 f.accountStateRoot)))))

/-- The fields can be read off one after the other. -/
theorem HeaderFields.wire_injective {f g : HeaderFields} (h : f.wire = g.wire) : f = g := by
  obtain ⟨htimestamp, h⟩ := Wire.numberField_append_inj (Wire.past_lenDelim _ _ _ _)
    (Wire.past_lenDelim _ _ _ _) h
  obtain ⟨hroot, h⟩ := Wire.lenDelim_append_inj h
  obtain ⟨hparent, h⟩ := Wire.lenDelim_append_inj h
  obtain ⟨hnumber, h⟩ := Wire.numberField_append_inj (Wire.past_lenDelim _ _ _ _)
    (Wire.past_lenDelim _ _ _ _) h
  obtain ⟨hwitness, h⟩ := Wire.lenDelim_append_inj h
  obtain ⟨hversion, h⟩ := Wire.numberField_append_inj (Wire.past_optionalBytes _ _ _)
    (Wire.past_optionalBytes _ _ _) h
  have hstate := Wire.optionalBytes_inj h
  obtain ⟨⟩ := f
  obtain ⟨⟩ := g
  exact HeaderFields.mk.injEq .. ▸ ⟨htimestamp, hroot, hparent, hnumber, hwitness, hversion, hstate⟩

/-! ### The encoder writes the fields -/

theorem varintLoop_eq (held : ℕ) : varintLoop held = Wire.varint held := by
  induction held using Nat.strong_induction_on with
  | h held ih =>
    have hlow : held &&& 0x7f = held % 128 := Nat.and_two_pow_sub_one_eq_mod held 7
    have hshift : held >>> 7 = held / 128 := Nat.shiftRight_eq_div_pow held 7
    have hor : held % 128 ||| 0x80 = held % 128 + 128 := by
      have hlt : held % 128 < 2 ^ 7 := Nat.mod_lt _ (by decide)
      rw [Nat.or_comm, Nat.add_comm]
      exact (Nat.two_pow_add_eq_or_of_lt hlt 1).symm
    rw [varintLoop, Wire.varint, hlow, hshift, hor]
    split
    · rfl
    · rw [ih (held / 128) (by omega)]

private theorem lenDelim_eq (field : ℕ) (bytes : Bytes) :
    lenDelim field bytes = Wire.lenDelim field bytes := by
  rw [lenDelim, key, varintLoop_eq, varintLoop_eq]
  rfl

/-- A signed 64-bit number as the wire carries it. -/
def wireNumber (raw : ℤ) : ℕ := (if raw < 0 then raw + 2 ^ 64 else raw).toNat

/-- A field for a number which is left out when it is zero. -/
private theorem varintField_eq (field : ℕ) {raw : ℤ} (hraw : -2 ^ 63 ≤ raw) :
    varintField field raw = some (Wire.numberField field (wireNumber raw)) := by
  rw [varintField]
  by_cases h0 : raw = 0
  · subst h0
    rfl
  · have hheld : ¬ (if raw < 0 then raw + 2 ^ 64 else raw) < 0 := by
      split <;> omega
    have hne : wireNumber raw ≠ 0 := by
      unfold wireNumber
      split <;> omega
    have hvarint : varint raw = some (Wire.varint (wireNumber raw)) := by
      rw [varint]
      change (if _ then _ else _) = _
      rw [if_neg hheld, varintLoop_eq]
      rfl
    rw [if_pos h0, hvarint, Wire.numberField, if_neg hne, key, varintLoop_eq]
    rfl

/-- What the claim of a header ranges over. -/
structure TronRawHeader.Valid (header : TronRawHeader) : Prop where
  timestamp : 0 ≤ header.timestampMs
  number : 0 ≤ header.number
  version : ∀ version, header.version = some version → -2 ^ 63 ≤ version ∧ version < 2 ^ 63

/-- The account state root in bytes, if it is absent or can be read. -/
def rootBytes (hex : NobleHex) : Option HexString → Option (Option Bytes)
  | none => some none
  | some root => some <$> bytesOf hex root

/-- The fields of a header, if its hex fields can be read. -/
def TronRawHeader.fields (hex : NobleHex) (header : TronRawHeader) : Option HeaderFields := do
  let txTrieRoot ← bytesOf hex header.txTrieRoot
  let parentHash ← bytesOf hex header.parentHash
  let witnessAddress ← bytesOf hex header.witnessAddress
  let accountStateRoot ← rootBytes hex header.accountStateRoot
  return ⟨wireNumber header.timestampMs, txTrieRoot, parentHash, wireNumber header.number,
    witnessAddress, wireNumber (header.version.getD 0), accountStateRoot⟩

/-- A header is encoded by the wire form of its fields. -/
theorem encodeRawHeader_eq (hex : NobleHex) {header : TronRawHeader} (h : header.Valid) :
    encodeRawHeader hex header = (header.fields hex).map HeaderFields.wire := by
  have hpos := h.timestamp
  have hpos' := h.number
  have htimestamp := varintField_eq 1 (show -2 ^ 63 ≤ header.timestampMs by omega)
  have hnumber := varintField_eq 7 (show -2 ^ 63 ≤ header.number by omega)
  have hversion : versionField header.version =
      some (Wire.numberField 10 (wireNumber (header.version.getD 0))) := by
    rcases hv : header.version with _ | version
    · rfl
    · exact varintField_eq 10 (h.version version hv).1
  have hstate : accountStateRootField hex header.accountStateRoot =
      (rootBytes hex header.accountStateRoot).map (Wire.optionalBytes 11) := by
    rcases header.accountStateRoot with _ | root
    · rfl
    · rw [accountStateRootField, rootBytes]
      rcases bytesOf hex root with _ | bytes
      · rfl
      · exact congrArg some (lenDelim_eq 11 bytes)
  rw [encodeRawHeader, TronRawHeader.fields, htimestamp, hnumber, hversion, hstate]
  rcases bytesOf hex header.txTrieRoot with _ | root
  · rfl
  rcases bytesOf hex header.parentHash with _ | parent
  · rfl
  rcases bytesOf hex header.witnessAddress with _ | witness
  · rfl
  rcases rootBytes hex header.accountStateRoot with _ | state
  · rfl
  simp [HeaderFields.wire, lenDelim_eq]

/-! ### What an encoding commits to -/

/-- Two headers that say the same: an explicit version 0 counts as an absent one, and hex digits by
the bytes they spell. -/
structure TronRawHeader.SameContent (hex : NobleHex) (header header' : TronRawHeader) : Prop where
  timestamp : header.timestampMs = header'.timestampMs
  txTrieRoot : bytesOf hex header.txTrieRoot = bytesOf hex header'.txTrieRoot
  parentHash : bytesOf hex header.parentHash = bytesOf hex header'.parentHash
  number : header.number = header'.number
  witnessAddress : bytesOf hex header.witnessAddress = bytesOf hex header'.witnessAddress
  version : header.version.getD 0 = header'.version.getD 0
  accountStateRoot : rootBytes hex header.accountStateRoot = rootBytes hex header'.accountStateRoot

/-- A header in its own spelling: no explicit version 0, digits as the byte printer writes them. -/
structure TronRawHeader.Canonical (hex : NobleHex) (header : TronRawHeader) : Prop where
  txTrieRoot : ∃ b, header.txTrieRoot = hex.bytesToHex b
  parentHash : ∃ b, header.parentHash = hex.bytesToHex b
  witnessAddress : ∃ b, header.witnessAddress = hex.bytesToHex b
  version : header.version ≠ some 0
  accountStateRoot : ∀ root, header.accountStateRoot = some root → ∃ b, root = hex.bytesToHex b

private theorem wireNumber_inj {m n : ℤ} (h : wireNumber m = wireNumber n)
    (hm : -2 ^ 63 ≤ m ∧ m < 2 ^ 63) (hn : -2 ^ 63 ≤ n ∧ n < 2 ^ 63) : m = n := by
  unfold wireNumber at h
  split at h <;> split at h <;> omega

private theorem wireNumber_inj_of_nonneg {m n : ℤ} (h : wireNumber m = wireNumber n) (hm : 0 ≤ m)
    (hn : 0 ≤ n) : m = n := by
  rw [wireNumber, wireNumber, if_neg (not_lt_of_ge hm), if_neg (not_lt_of_ge hn)] at h
  omega

/-- What the fields of a header were read from. -/
private theorem TronRawHeader.fields_eq {hex : NobleHex} {header : TronRawHeader} {f : HeaderFields}
    (h : header.fields hex = some f) :
    bytesOf hex header.txTrieRoot = some f.txTrieRoot ∧
      bytesOf hex header.parentHash = some f.parentHash ∧
      bytesOf hex header.witnessAddress = some f.witnessAddress ∧
      rootBytes hex header.accountStateRoot = some f.accountStateRoot ∧
      f.timestamp = wireNumber header.timestampMs ∧ f.number = wireNumber header.number ∧
      f.version = wireNumber (header.version.getD 0) := by
  unfold TronRawHeader.fields at h
  rcases hroot : bytesOf hex header.txTrieRoot with _ | root
  · rw [hroot] at h
    cases h
  rcases hparent : bytesOf hex header.parentHash with _ | parent
  · rw [hroot, hparent] at h
    cases h
  rcases hwitness : bytesOf hex header.witnessAddress with _ | witness
  · rw [hroot, hparent, hwitness] at h
    cases h
  rcases hstate : rootBytes hex header.accountStateRoot with _ | state
  · rw [hroot, hparent, hwitness, hstate] at h
    cases h
  rw [hroot, hparent, hwitness, hstate] at h
  cases h
  exact ⟨rfl, rfl, rfl, rfl, rfl, rfl, rfl⟩

/-- The default version lies in the range of the others. -/
private theorem TronRawHeader.Valid.version_range {header : TronRawHeader} (h : header.Valid) :
    -2 ^ 63 ≤ header.version.getD 0 ∧ header.version.getD 0 < 2 ^ 63 := by
  rcases hv : header.version with _ | version
  · exact ⟨by decide, by decide⟩
  · exact h.version version hv

/-- In its own spelling a header is determined by what it says. -/
theorem TronRawHeader.SameContent.eq {hex : NobleHex} (hhex : hex.Lawful)
    {header header' : TronRawHeader} (h : header.SameContent hex header')
    (hc : header.Canonical hex) (hc' : header'.Canonical hex) : header = header' := by
  have hbytes : ∀ b, bytesOf hex (hex.bytesToHex b) = some b := by
    intro b
    rw [bytesOf, padToEven, hhex.length_bytesToHex, if_neg (by omega),
      hhex.hexToBytes_bytesToHex]
  have hspelled : ∀ {s s' : HexString}, (∃ b, s = hex.bytesToHex b) → (∃ b, s' = hex.bytesToHex b) →
      bytesOf hex s = bytesOf hex s' → s = s' := by
    rintro s s' ⟨b, rfl⟩ ⟨b', rfl⟩ heq
    rw [hbytes, hbytes, Option.some.injEq] at heq
    rw [heq]
  have hdefault : ∀ {v v' : Option ℤ}, v ≠ some 0 → v' ≠ some 0 → v.getD 0 = v'.getD 0 →
      v = v' := by
    rintro (_ | v) (_ | v') hne hne' heq
    · rfl
    · exact absurd (congrArg some heq.symm) hne'
    · exact absurd (congrArg some heq) hne
    · exact congrArg some heq
  have hoptional : ∀ {o o' : Option HexString}, (∀ s, o = some s → ∃ b, s = hex.bytesToHex b) →
      (∀ s, o' = some s → ∃ b, s = hex.bytesToHex b) → rootBytes hex o = rootBytes hex o' →
      o = o' := by
    rintro (_ | s) (_ | s') hs hs' heq
    · rfl
    · obtain ⟨b, rfl⟩ := hs' s' rfl
      rw [rootBytes, rootBytes, hbytes] at heq
      cases heq
    · obtain ⟨b, rfl⟩ := hs s rfl
      rw [rootBytes, rootBytes, hbytes] at heq
      cases heq
    · obtain ⟨b, rfl⟩ := hs s rfl
      obtain ⟨b', rfl⟩ := hs' s' rfl
      rw [rootBytes, rootBytes, hbytes, hbytes] at heq
      cases heq
      rfl
  have hversion := hdefault hc.version hc'.version h.version
  have hstate := hoptional hc.accountStateRoot hc'.accountStateRoot h.accountStateRoot
  have htimestamp := h.timestamp
  have hnumber := h.number
  have hroot := hspelled hc.txTrieRoot hc'.txTrieRoot h.txTrieRoot
  have hparent := hspelled hc.parentHash hc'.parentHash h.parentHash
  have hwitness := hspelled hc.witnessAddress hc'.witnessAddress h.witnessAddress
  obtain ⟨⟩ := header
  obtain ⟨⟩ := header'
  exact TronRawHeader.mk.injEq .. ▸
    ⟨htimestamp, hroot, hparent, hnumber, hwitness, hversion, hstate⟩

/-- Encodings are equal when the contents are. -/
private theorem encodeRawHeader_eq_iff {hex : NobleHex} {header header' : TronRawHeader}
    (hvalid : header.Valid) (hvalid' : header'.Valid) {bytes bytes' : Bytes}
    (h : encodeRawHeader hex header = some bytes)
    (h' : encodeRawHeader hex header' = some bytes') :
    bytes = bytes' ↔ header.SameContent hex header' := by
  rw [encodeRawHeader_eq hex hvalid, Option.map_eq_some_iff] at h
  rw [encodeRawHeader_eq hex hvalid', Option.map_eq_some_iff] at h'
  obtain ⟨f, hf, rfl⟩ := h
  obtain ⟨g, hg, rfl⟩ := h'
  obtain ⟨hroot, hparent, hwitness, hstate, htimestamp, hnumber, hversion⟩ :=
    TronRawHeader.fields_eq hf
  obtain ⟨hroot', hparent', hwitness', hstate', htimestamp', hnumber', hversion'⟩ :=
    TronRawHeader.fields_eq hg
  constructor
  · intro hwire
    obtain rfl := HeaderFields.wire_injective hwire
    refine ⟨?_, hroot.trans hroot'.symm, hparent.trans hparent'.symm, ?_,
      hwitness.trans hwitness'.symm, ?_, hstate.trans hstate'.symm⟩
    · exact wireNumber_inj_of_nonneg (htimestamp.symm.trans htimestamp') hvalid.timestamp
        hvalid'.timestamp
    · exact wireNumber_inj_of_nonneg (hnumber.symm.trans hnumber') hvalid.number hvalid'.number
    · exact wireNumber_inj (hversion.symm.trans hversion') hvalid.version_range
        hvalid'.version_range
  · intro hcontent
    have hfg : header.fields hex = header'.fields hex := by
      rw [TronRawHeader.fields, TronRawHeader.fields, hcontent.timestamp, hcontent.txTrieRoot,
        hcontent.parentHash, hcontent.number, hcontent.witnessAddress, hcontent.version,
        hcontent.accountStateRoot]
    rw [hf, hg, Option.some.injEq] at hfg
    rw [hfg]

/-- **An encoding commits to all a header says.**  Headers in their own spelling are equal when
their encodings are. -/
theorem encodeRawHeader_commits {hex : NobleHex} (hhex : hex.Lawful)
    {header header' : TronRawHeader} (hvalid : header.Valid) (hvalid' : header'.Valid)
    {bytes bytes' : Bytes} (h : encodeRawHeader hex header = some bytes)
    (h' : encodeRawHeader hex header' = some bytes') :
    (bytes = bytes' ↔ header.SameContent hex header') ∧
      (header.Canonical hex → header'.Canonical hex → (bytes = bytes' ↔ header = header')) := by
  have hsame := encodeRawHeader_eq_iff hvalid hvalid' h h'
  refine ⟨hsame, fun hc hc' => ?_⟩
  constructor
  · intro hwire
    exact (hsame.1 hwire).eq hhex hc hc'
  · rintro rfl
    exact hsame.2 ⟨rfl, rfl, rfl, rfl, rfl, rfl, rfl⟩

/-- Block 1 with an explicit version. -/
def headerWithVersion (version : Option ℤ) : TronRawHeader where
  timestampMs := 0
  txTrieRoot := List.replicate 64 '0'
  parentHash := List.replicate 64 'f'
  number := 0
  witnessAddress := ['4', '1']
  version

theorem valid_headerWithVersion {version : Option ℤ}
    (h : ∀ v, version = some v → -2 ^ 63 ≤ v ∧ v < 2 ^ 63) : (headerWithVersion version).Valid :=
  ⟨le_rfl, le_rfl, h⟩

private theorem valid_headerWithVersion_none : (headerWithVersion none).Valid :=
  valid_headerWithVersion fun _ h => nomatch h

/-- A version 0 is not written, as no version at all is not. -/
theorem version_zero_collides :
    ¬ ∀ (hex : NobleHex), hex.Lawful → ∀ header header' : TronRawHeader, header.Valid →
      header'.Valid → ∀ bytes, encodeRawHeader hex header = some bytes →
        encodeRawHeader hex header' = some bytes → header = header' := by
  intro h
  have hvalid : (headerWithVersion (some 0)).Valid := by
    refine valid_headerWithVersion fun v hv => ?_
    obtain rfl := Option.some.inj hv
    exact ⟨by decide, by decide⟩
  have heq := h lowerHex lawful_lowerHex (headerWithVersion none) (headerWithVersion (some 0))
    valid_headerWithVersion_none hvalid _ rfl rfl
  exact absurd (congrArg TronRawHeader.version heq) (by decide)

/-- Headers with such versions are in their own spelling. -/
private theorem canonical_headerWithVersion {version : Option ℤ} (h : version ≠ some 0) :
    (headerWithVersion version).Canonical lowerHex where
  txTrieRoot := ⟨List.replicate 32 0, rfl⟩
  parentHash := ⟨List.replicate 32 0xff, rfl⟩
  witnessAddress := ⟨[0x41], rfl⟩
  version := h
  accountStateRoot _ hroot := nomatch hroot

/-- The headers of block 0 with and without a version differ, and so do their encodings. -/
theorem encodeRawHeader_commits_sample : ∃ bytes bytes',
    encodeRawHeader lowerHex (headerWithVersion (some 36)) = some bytes ∧
      encodeRawHeader lowerHex (headerWithVersion none) = some bytes' ∧ bytes ≠ bytes' ∧
      ¬ (headerWithVersion (some 36)).SameContent lowerHex (headerWithVersion none) := by
  have hvalid : (headerWithVersion (some 36)).Valid := by
    refine valid_headerWithVersion fun v hv => ?_
    obtain rfl := Option.some.inj hv
    exact ⟨by decide, by decide⟩
  obtain ⟨hcontent, hequal⟩ :=
    encodeRawHeader_commits lawful_lowerHex hvalid valid_headerWithVersion_none rfl rfl
  have hne : headerWithVersion (some 36) ≠ headerWithVersion none := by decide
  have hbytes := (hequal (canonical_headerWithVersion (by decide))
    (canonical_headerWithVersion (by decide))).not.2 hne
  exact ⟨_, _, rfl, rfl, hbytes, hcontent.not.1 hbytes⟩

/-! ### The headers of the block store -/

/-- What a block id and signature are computed over. -/
structure HeaderRecord where
  number : ℤ
  timestampMs : ℤ
  txTrieRoot : Option HexString := none
  parentBlockID : HexString
  accountStateRoot : Option HexString := none

/-- The address of the witness that signs the genesis block. -/
def WITNESS_ADDRESS : HexString := "417e5f4552091a69125d5dfcb7b8c2659029395bdf".toList

/-- The witness field of a header: the founding text on block 0. -/
def witnessFieldOf (genesisWitness : HexString) (number : ℤ) : HexString :=
  if number = 0 then genesisWitness else WITNESS_ADDRESS

/-- The raw header of a stored header; the defaults are those of an empty block. -/
def HeaderRecord.rawHeaderOf (genesisWitness : HexString) (record : HeaderRecord) :
    TronRawHeader where
  timestampMs := record.timestampMs
  txTrieRoot := record.txTrieRoot.getD (List.replicate 64 '0')
  parentHash := record.parentBlockID
  number := record.number
  witnessAddress := witnessFieldOf genesisWitness record.number
  version := if record.number = 0 then none else some BLOCK_VERSION
  accountStateRoot := record.accountStateRoot

/-- A record whose hex fields are spelled as the byte printer writes them. -/
structure HeaderRecord.Spelled (hex : NobleHex) (record : HeaderRecord) : Prop where
  number : 0 ≤ record.number
  timestamp : 0 ≤ record.timestampMs
  txTrieRoot : ∃ b, record.txTrieRoot.getD (List.replicate 64 '0') = hex.bytesToHex b
  parentBlockID : ∃ b, record.parentBlockID = hex.bytesToHex b
  accountStateRoot : ∀ root, record.accountStateRoot = some root → ∃ b, root = hex.bytesToHex b

/-- Of the headers the store hashes nothing is lost: equal bytes come from records which differ at
most in whether an empty block leaves its root out. -/
theorem HeaderRecord.rawHeaderOf_commits {hex : NobleHex} (hhex : hex.Lawful)
    {genesisWitness : HexString} (hgenesis : ∃ b, genesisWitness = hex.bytesToHex b)
    (hwitness : ∃ b, WITNESS_ADDRESS = hex.bytesToHex b) {record record' : HeaderRecord}
    (h : record.Spelled hex) (h' : record'.Spelled hex) {bytes : Bytes}
    (henc : encodeRawHeader hex (HeaderRecord.rawHeaderOf genesisWitness record) = some bytes)
    (henc' : encodeRawHeader hex (HeaderRecord.rawHeaderOf genesisWitness record') = some bytes) :
    record.number = record'.number ∧ record.timestampMs = record'.timestampMs ∧
      record.txTrieRoot.getD (List.replicate 64 '0') =
        record'.txTrieRoot.getD (List.replicate 64 '0') ∧
      record.parentBlockID = record'.parentBlockID ∧
      record.accountStateRoot = record'.accountStateRoot := by
  have hheader : ∀ {record : HeaderRecord}, record.Spelled hex →
      (HeaderRecord.rawHeaderOf genesisWitness record).Valid ∧
        (HeaderRecord.rawHeaderOf genesisWitness record).Canonical hex := by
    intro record h
    refine ⟨⟨h.timestamp, h.number, ?_⟩, ⟨h.txTrieRoot, h.parentBlockID, ?_, ?_,
      h.accountStateRoot⟩⟩
    · intro version hversion
      change (if record.number = 0 then none else some BLOCK_VERSION) = some version at hversion
      split at hversion
      · cases hversion
      · cases hversion
        exact ⟨by decide, by decide⟩
    · change ∃ b, (if record.number = 0 then genesisWitness else WITNESS_ADDRESS) = _
      split
      · exact hgenesis
      · exact hwitness
    · change (if record.number = 0 then none else some BLOCK_VERSION) ≠ some 0
      split
      · exact nofun
      · exact fun hversion => absurd (Option.some.inj hversion) (by decide)
  obtain ⟨hvalid, hcanonical⟩ := hheader h
  obtain ⟨hvalid', hcanonical'⟩ := hheader h'
  have heq := ((encodeRawHeader_eq_iff hvalid hvalid' henc henc').1 rfl).eq hhex hcanonical
    hcanonical'
  exact ⟨congrArg TronRawHeader.number heq, congrArg TronRawHeader.timestampMs heq,
    congrArg TronRawHeader.txTrieRoot heq, congrArg TronRawHeader.parentHash heq,
    congrArg TronRawHeader.accountStateRoot heq⟩

end Tvmjs
