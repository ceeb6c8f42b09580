import Mathlib.Data.FinEnum
import Mathlib.Data.List.Sort
import Tvmjs.Base.InsertionMap
import Tvmjs.Rlp.ToBytes

/-!
# The encoding of accounts

An account is stored as the RLP list of its nonce, balance, storage root, code hash, TRC-10 balances
in ascending order of the token ids, and permissions.

* `StoredAccount.serialize`, `createAccountFromRLP` -- the two directions;
* `StoredAccount.serialize_congr` -- the encoding does not depend on the order in which balances
  were inserted;
* `StoredAccount.roundTrips_iff` -- **the round trip** gives back every account but those with a
  permission that loses something on the way (`Permission.Storable`).
-/

namespace Tvmjs

open RLP

/-- A key of a permission. -/
structure Key where
  address : Bytes
  weight : ℤ

/-- The kinds of permissions. -/
def PermissionType.Owner : ℤ := 0

/-- The type of a witness permission. -/
def PermissionType.Witness : ℤ := 1

/-- The type of an active permission. -/
def PermissionType.Active : ℤ := 2

/-- A permission.  The operations are anything that stands for bytes. -/
structure Permission where
  type : ℤ
  id : ℤ
  permissionName : JSString
  threshold : ℤ
  parentId : ℤ
  operations : RawInput
  keys : List Key

/-- A full account: no negative nonce or balance, and hashes of 32 bytes.  The balances of tokens
stand in the order in which they were inserted. -/
structure StoredAccount where
  nonce : ℕ
  balance : ℕ
  storageRoot : Bytes
  codeHash : Bytes
  asset : InsertionMap ℕ ℕ
  activePermissions : List Permission
  length_storageRoot : storageRoot.length = 32
  length_codeHash : codeHash.length = 32

/-! ### Numbers -/

/-- The greatest integer that a number represents exactly together with all below it. -/
def MAX_SAFE_INTEGER : ℤ := 9007199254740991

/-- The bytes of a number, at least one. -/
def bigIntToBytes (num : ℕ) : Bytes := if num = 0 then [0] else numberToBytes num

/-- Trims leading zeros. -/
def unpadBytes (a : Bytes) : Bytes := a.dropWhile (· = 0)

/-- The bytes of a number, none for 0. -/
def bigIntToUnpaddedBytes (value : ℕ) : Bytes := unpadBytes (bigIntToBytes value)

/-! ### Encoding -/

/-- The keys of a permission, each with its weight. -/
def keysToRlp (keys : List Key) : RawInput :=
  .list (keys.map fun ele => .list [.bytes ele.address, .number ele.weight])

/-- A permission as it is handed to the encoder. -/
def permissionToRlp (permission : Permission) : RawInput :=
  .list [.number permission.type, .number permission.id, .str permission.permissionName,
    .number permission.threshold, .number permission.parentId, permission.operations,
    keysToRlp permission.keys]

namespace StoredAccount

/-- The token ids and balances, in ascending order of the ids. -/
def assetItems (asset : InsertionMap ℕ ℕ) : List Bytes :=
  (asset.keys.insertionSort (· ≤ ·)).flatMap fun key =>
    [bigIntToUnpaddedBytes key, bigIntToUnpaddedBytes ((asset.get key).getD 0)]

/-- The items of the encoding. -/
def raw (a : StoredAccount) : RawInput :=
  .list [.bytes (bigIntToUnpaddedBytes a.nonce), .bytes (bigIntToUnpaddedBytes a.balance),
    .bytes a.storageRoot, .bytes a.codeHash, .list ((assetItems a.asset).map .bytes),
    .list (a.activePermissions.map permissionToRlp)]

/-- The encoded account; it throws where the encoder does, such as on a negative balance. -/
def serialize (a : StoredAccount) : Except ToBytesError Bytes := encodeRaw a.raw

end StoredAccount

/-! ### Decoding -/

/-- Why an encoding is no account.  Lists where the code expects bytes are refused here; the code
lets them pass as an address, a storage root or a code hash. -/
inductive AccountError where
  | rlp (e : RLPError)
  | notArray
  | notBytes
  | exceeds53Bits
  | storageRootLength
  | codeHashLength
  deriving DecidableEq

/-- The texts of the errors. -/
def AccountError.message : AccountError → String
  | rlp e => e.message
  | notArray => "Invalid serialized account input. Must be array"
  | notBytes => "This method only supports Uint8Array"
  | exceeds53Bits => "Number exceeds 53 bits"
  | storageRootLength => "storageRoot must have a length of 32"
  | codeHashLength => "codeHash must have a length of 32"

/-- An item that has to be there and to be bytes. -/
def assertIsBytes : Option Input → Except AccountError Bytes
  | some (.bytes b) => .ok b
  | _ => .error .notBytes

/-- Bytes read as a number; a list throws. -/
def bytesToBigInt (item : Option Input) : Except AccountError ℕ := do
  return bytesToNumber (← assertIsBytes item)

/-- Bytes read as a number that 53 bits hold; a larger one throws. -/
def bytesToInt (item : Option Input) : Except AccountError ℤ := do
  let res ← bytesToBigInt item
  if (res : ℤ) > MAX_SAFE_INTEGER then .error .exceeds53Bits else .ok res

/-- A key and its weight as they are read back. -/
def keyFromRlp : Input → Except AccountError Key
  | .bytes _ => .error .notBytes
  | .list ele => do
    let address ← assertIsBytes ele[0]?
    let weight ← bytesToInt ele[1]?
    return { address, weight }

/-- The keys of a permission; an empty byte string passes for an empty list. -/
def keysFromRlp : Option Input → Except AccountError (List Key)
  | some (.list arr) => arr.mapM keyFromRlp
  | some (.bytes []) => .ok []
  | _ => .error .notBytes

/-- The name of a permission; a missing one is empty. -/
def nameFromRlp : Option Input → Except AccountError JSString
  | none => .ok []
  | item => do return TextDecoder.decode (← assertIsBytes item)

/-- A permission as it is read back. -/
def permissionFromRlp : Input → Except AccountError Permission
  | .bytes _ => .error .notBytes
  | .list arr => do
    let type ← bytesToInt arr[0]?
    let id ← bytesToInt arr[1]?
    let permissionName ← nameFromRlp arr[2]?
    let threshold ← bytesToInt arr[3]?
    let parentId ← bytesToInt arr[4]?
    let operations := (arr[5]?.map ofInput).getD .null
    let keys ← keysFromRlp arr[6]?
    return { type, id, permissionName, threshold, parentId, operations, keys }

/-- Token ids and balances, alternating; a later balance of a token replaces an earlier one. -/
def assetFromRlp : List Input → InsertionMap ℕ ℕ → Except AccountError (InsertionMap ℕ ℕ)
  | [], asset => .ok asset
  | [_], _ => .error .notBytes
  | tokenId :: tokenValue :: rest, asset => do
    let id ← bytesToBigInt (some tokenId)
    let value ← bytesToBigInt (some tokenValue)
    assetFromRlp rest (asset.set id value)

/-- The members of an optional list; an empty byte string passes for an empty one. -/
def itemsOf : Option Input → Except AccountError (List Input)
  | none => .ok []
  | some (.list l) => .ok l
  | some (.bytes []) => .ok []
  | some (.bytes _) => .error .notBytes

/-- An optional hash. -/
def hashOf (default : Bytes) : Option Input → Except AccountError Bytes
  | none => .ok default
  | item => assertIsBytes item

/-- An account from its decoded fields, read in the order of the source. -/
def createAccountFromBytesArray (values : List Input) : Except AccountError StoredAccount := do
  let asset ← assetFromRlp (← itemsOf values[4]?) .empty
  let activePermissions ← (← itemsOf values[5]?).mapM permissionFromRlp
  let nonce ← bytesToBigInt values[0]?
  let balance ← bytesToBigInt values[1]?
  let storageRoot ← hashOf KECCAK256_RLP values[2]?
  let codeHash ← hashOf KECCAK256_NULL values[3]?
  if hs : storageRoot.length = 32 then
    if hc : codeHash.length = 32 then
      return ⟨nonce, balance, storageRoot, codeHash, asset, activePermissions, hs, hc⟩
    else .error .codeHashLength
  else .error .storageRootLength

/-- An account from its encoding. -/
def createAccountFromRLP (serialized : Bytes) : Except AccountError StoredAccount :=
  match decode serialized with
  | .error e => .error (.rlp e)
  | .ok (.bytes _) => .error .notArray
  | .ok (.list values) => createAccountFromBytesArray values

/-! ### Which permissions survive -/

/-- The number of a byte in an array of numbers. -/
def byteOf : RawInput → Option UInt8
  | .number n => if 0 ≤ n ∧ n < 256 then some (UInt8.ofNat n.toNat) else none
  | _ => none

/-- The bytes that a value stands for. -/
def denotes : RawInput → Option Bytes
  | .bytes b => some b
  | .object b => some b
  | .null => some []
  | .str s =>
    if isHexString s ∧ ∀ u ∈ s.drop 2, (asciiToBase16 u).isSome then
      (hexPairs (RLP.padToEven (s.drop 2)) 0).toOption
    else none
  | .number n => if 0 ≤ n ∧ n ≤ MAX_SAFE_INTEGER then some (bigIntToBytes n.toNat) else none
  | .bigint n => if 0 ≤ n then some (bigIntToBytes n.toNat) else none
  | .list l => l.mapM byteOf

/-- A number that is an integer from zero to the greatest safe one. -/
def IsSafe (n : ℤ) : Prop := 0 ≤ n ∧ n ≤ MAX_SAFE_INTEGER

/-- A name that does not begin with `0x` or a byte order mark and whose surrogates stand in
pairs. -/
def IsPlainName (s : JSString) : Prop :=
  isHexString s = false ∧ s.IsWellFormed ∧ s.head? ≠ some 0xfeff

/-- Operations whose bytes come back: bytes, a hex string, a positive number, or an empty array. -/
def IsPlainOperations : RawInput → Prop
  | .bytes _ => True
  | .null => True
  | .str s => isHexString s ∧ ∀ u ∈ s.drop 2, (asciiToBase16 u).isSome
  | .number n => 0 < n ∧ n ≤ MAX_SAFE_INTEGER
  | .bigint n => 0 < n
  | .object _ => False
  | .list l => l = []

/-- Operations that stand for the same bytes. -/
def SameBytes (x y : RawInput) : Prop := ∃ b, denotes x = some b ∧ denotes y = some b

namespace Permission

/-- Permissions that differ only in how their operations are given. -/
structure Same (p q : Permission) : Prop where
  type : p.type = q.type
  id : p.id = q.id
  permissionName : p.permissionName = q.permissionName
  threshold : p.threshold = q.threshold
  parentId : p.parentId = q.parentId
  operations : SameBytes p.operations q.operations
  keys : p.keys = q.keys

/-- A permission of which nothing is lost. -/
structure Storable (p : Permission) : Prop where
  type : IsSafe p.type
  id : IsSafe p.id
  permissionName : IsPlainName p.permissionName
  threshold : IsSafe p.threshold
  parentId : IsSafe p.parentId
  operations : IsPlainOperations p.operations
  keys : ∀ key ∈ p.keys, IsSafe key.weight

end Permission

private theorem exceptBind_eq_ok {ε α β : Type} {x : Except ε α} {f : α → Except ε β} {b : β} :
    (x >>= f) = .ok b ↔ ∃ a, x = .ok a ∧ f a = .ok b := by
  cases x with
  | error e => exact ⟨fun h => (by cases h), fun ⟨_, h, _⟩ => (by cases h)⟩
  | ok a => exact ⟨fun h => ⟨a, rfl, h⟩, fun ⟨_, h, h'⟩ => (by cases h; exact h')⟩

private theorem numberBytes_eq_ok_iff {n : ℤ} {b : Bytes} :
    numberBytes n = .ok b ↔ 0 ≤ n ∧ b = numberToBytes n.toNat := by
  unfold numberBytes
  by_cases h0 : n = 0
  · rw [if_pos h0, h0]
    constructor
    · intro h
      cases h
      exact ⟨le_rfl, rfl⟩
    · rintro ⟨-, rfl⟩
      rfl
  rw [if_neg h0]
  by_cases hneg : n < 0
  · rw [if_pos hneg]
    constructor
    · intro h
      cases h
    · rintro ⟨h, -⟩
      omega
  · rw [if_neg hneg, Except.ok.injEq]
    exact ⟨fun h => ⟨by omega, h.symm⟩, fun h => h.2.symm⟩

/-- A number comes back exactly when it is safe. -/
private theorem number_roundTrip_iff {n m : ℤ} {x : Input} (hx : toInput (.number n) = .ok x) :
    bytesToInt (some x) = .ok m ↔ m = n ∧ IsSafe n := by
  rw [toInput, exceptBind_eq_ok] at hx
  swap
  · exact fun l h => (by cases h)
  obtain ⟨b, hb, hx⟩ := hx
  obtain rfl : Input.bytes b = x := Except.ok.inj hx
  obtain ⟨hn, rfl⟩ := numberBytes_eq_ok_iff.1 hb
  have hvalue : bytesToBigInt (some (.bytes (numberToBytes n.toNat))) = .ok n.toNat := by
    rw [bytesToBigInt, assertIsBytes]
    exact congrArg Except.ok (bytesToNumber_numberToBytes n.toNat)
  rw [bytesToInt, hvalue]
  change (if ((n.toNat : ℕ) : ℤ) > MAX_SAFE_INTEGER then _ else _) = _ ↔ _
  rw [Int.toNat_of_nonneg hn]
  by_cases hsafe : n > MAX_SAFE_INTEGER
  · rw [if_pos hsafe]
    exact ⟨fun h => (by cases h), fun h => absurd h.2.2 (not_le.2 hsafe)⟩
  · rw [if_neg hsafe]
    exact ⟨fun h => ⟨(Except.ok.inj h).symm, hn, not_lt.1 hsafe⟩, fun h => by rw [h.1]⟩

private theorem number_isOk {n : ℤ} (hn : 0 ≤ n) :
    toInput (.number n) = .ok (.bytes (numberToBytes n.toNat)) := by
  have hb := numberBytes_eq_ok_iff.2 ⟨hn, rfl⟩
  rw [toInput, toBytes, hb]
  · rfl
  · exact fun l h => (by cases h)

private theorem toInput_str (s : JSString) :
    toInput (.str s) = (toBytes (.str s)).map Input.bytes := by
  rw [toInput]
  · cases toBytes (.str s) <;> rfl
  · exact fun l h => (by cases h)

/-- **A name comes back** exactly when it is plain. -/
theorem name_roundTrip_iff {s t : JSString} {x : Input} (hx : toInput (.str s) = .ok x) :
    (nameFromRlp (some x) = .ok t ∧ s = t) ↔ s = t ∧ IsPlainName s := by
  rw [toInput_str] at hx
  cases hb : toBytes (.str s) with
  | error e =>
    rw [hb] at hx
    cases hx
  | ok b =>
    rw [hb] at hx
    obtain rfl : Input.bytes b = x := Except.ok.inj hx
    have hname : nameFromRlp (some (.bytes b)) = .ok (TextDecoder.decode b) := rfl
    rw [hname, Except.ok.injEq, IsPlainName]
    cases hhex : isHexString s with
    | true =>
      -- half as many bytes as characters cannot give the characters back
      have hlen := length_toBytes_hex hhex hb
      have hdecode := TextDecoder.length_decode_le b
      constructor
      · rintro ⟨h, rfl⟩
        rw [h] at hdecode
        omega
      · rintro ⟨-, h, -⟩
        cases h
    | false =>
      have hencode : TextEncoder.encode s = b := by
        rw [toBytes, hhex] at hb
        exact Except.ok.inj hb
      have hiff := TextDecoder.decode_encode_iff s
      rw [hencode] at hiff
      constructor
      · rintro ⟨h, rfl⟩
        exact ⟨rfl, rfl, hiff.1 h⟩
      · rintro ⟨rfl, -, h⟩
        exact ⟨hiff.2 h, rfl⟩

private theorem name_isOk {s : JSString} (hs : isHexString s = false) :
    toInput (.str s) = .ok (.bytes (TextEncoder.encode s)) := by
  rw [toInput_str, toBytes, hs]
  rfl

private theorem padToEven_digits {s : JSString} (hs : ∀ u ∈ s, (asciiToBase16 u).isSome) :
    ∀ u ∈ RLP.padToEven s, (asciiToBase16 u).isSome := by
  intro u hu
  unfold RLP.padToEven at hu
  split at hu
  · rcases List.mem_cons.1 hu with rfl | hu
    · decide
    · exact hs u hu
  · exact hs u hu

/-- The digits of a hex string of even length are read pair by pair. -/
private theorem toBytes_hex {s : JSString} (hs : isHexString s = true)
    (hdigits : ∀ u ∈ s.drop 2, (asciiToBase16 u).isSome) :
    toBytes (.str s) = hexPairs (RLP.padToEven (s.drop 2)) 0 := by
  have hpad := padToEven_digits hdigits
  have heven : (RLP.padToEven (s.drop 2)).length % 2 = 0 := by
    unfold RLP.padToEven
    split
    · rw [List.length_cons]
      omega
    · omega
  have hno : (RLP.padToEven (s.drop 2)).take 2 ≠ [48, 120] := by
    intro h
    have hx := List.mem_of_mem_take (show (120 : UInt16) ∈ _ by rw [h]; decide)
    exact absurd (hpad 120 hx) (by decide)
  rw [toBytes, if_pos hs, stripHexPrefix, if_pos hs, hexToBytes, if_neg hno, if_neg (by omega)]

private theorem denotes_ofInput (x : Input) : denotes (ofInput x) = match x with
    | .bytes b => some b
    | .list l => if l = [] then some [] else none := by
  cases x with
  | bytes b => rw [ofInput, denotes]
  | list l =>
    cases l with
    | nil => rfl
    | cons y l =>
      change denotes (ofInput (.list (y :: l))) = if y :: l = [] then some [] else none
      rw [ofInput, ofInputs, denotes, List.mapM_cons, if_neg (List.cons_ne_nil y l)]
      cases y <;> rfl

/-- **Operations come back** as the same bytes exactly when they are plain. -/
theorem operations_roundTrip_iff {x : RawInput} :
    (∃ y, toInput x = .ok y ∧ SameBytes x (ofInput y)) ↔ IsPlainOperations x := by
  have hleaf : ∀ b, toInput x = .ok (.bytes b) →
      ((∃ y, toInput x = .ok y ∧ SameBytes x (ofInput y)) ↔ denotes x = some b) := by
    intro b hb
    rw [hb]
    constructor
    · rintro ⟨y, hy, c, hx, hc⟩
      obtain rfl : Input.bytes b = y := Except.ok.inj hy
      rw [denotes_ofInput] at hc
      rw [hx, ← hc]
    · intro h
      exact ⟨_, rfl, b, h, denotes_ofInput _⟩
  have hfail : (∀ y, toInput x ≠ .ok y) →
      ¬ ∃ y, toInput x = .ok y ∧ SameBytes x (ofInput y) := fun h ⟨y, hy, _⟩ => h y hy
  have hnumber : ∀ n : ℤ, 0 < n → bigIntToBytes n.toNat = numberToBytes n.toNat := fun n hn => by
    rw [bigIntToBytes, if_neg (by omega)]
  -- A case for each type that `operations` can have at run time.
  cases x with
  | bytes b => exact (hleaf b rfl).trans (iff_of_true (by rw [denotes]) trivial)
  | null => exact (hleaf [] rfl).trans (iff_of_true (by rw [denotes]) trivial)
  | object b => exact iff_of_false (hfail fun y h => (by cases h)) id
  | str s =>
    rw [IsPlainOperations]
    -- a string is its bytes where all of its digits are
    by_cases hplain : isHexString s ∧ ∀ u ∈ s.drop 2, (asciiToBase16 u).isSome
    · refine iff_of_true ?_ hplain
      obtain ⟨b, hb⟩ := hexPairs_isOk (padToEven_digits hplain.2) 0
      have hbytes := toBytes_hex hplain.1 hplain.2
      refine (hleaf b (by rw [toInput_str, hbytes, hb]; rfl)).2 ?_
      rw [denotes, if_pos hplain, hb, Except.toOption]
    · refine iff_of_false ?_ hplain
      rintro ⟨y, -, b, hb, -⟩
      rw [denotes, if_neg hplain] at hb
      cases hb
  | number n =>
    rw [IsPlainOperations]
    by_cases hn : 0 ≤ n
    · refine (hleaf _ (number_isOk hn)).trans ?_
      rw [denotes]
      -- a larger number has lost digits before it is encoded
      by_cases hsafe : n ≤ MAX_SAFE_INTEGER
      · rw [if_pos ⟨hn, hsafe⟩, Option.some.injEq]
        by_cases h0 : n = 0
        · rw [h0]
          exact iff_of_false (by decide) (by omega)
        · exact iff_of_true (hnumber n (by omega)) ⟨by omega, hsafe⟩
      · rw [if_neg fun h => hsafe h.2]
        exact iff_of_false (by simp) fun h => hsafe h.2
    · refine iff_of_false ?_ (by omega)
      rintro ⟨y, -, b, hb, -⟩
      rw [denotes, if_neg fun h => hn h.1] at hb
      cases hb
  | bigint n =>
    rw [IsPlainOperations]
    by_cases hn : 0 ≤ n
    · have hbytes : toInput (.bigint n) = .ok (.bytes (numberToBytes n.toNat)) := number_isOk hn
      refine (hleaf _ hbytes).trans ?_
      rw [denotes, if_pos hn, Option.some.injEq]
      by_cases h0 : n = 0
      · rw [h0]
        exact iff_of_false (by decide) (by omega)
      · exact iff_of_true (hnumber n (by omega)) (by omega)
    · refine iff_of_false ?_ (by omega)
      rintro ⟨y, -, b, hb, -⟩
      rw [denotes, if_neg hn] at hb
      cases hb
  | list l =>
    rw [IsPlainOperations]
    constructor
    · -- a list comes back as bytes only where it is empty
      rintro ⟨y, hy, b, -, hb⟩
      obtain ⟨ys, hys, rfl⟩ := toInput_list_eq_ok_iff.1 hy
      rw [denotes_ofInput] at hb
      by_cases hnil : ys = []
      · subst hnil
        exact List.forall₂_nil_right_iff.1 (toInputs_eq_ok_iff.1 hys)
      · simp only [if_neg hnil] at hb
        cases hb
    · rintro rfl
      exact ⟨.list [], rfl, [], rfl, rfl⟩

namespace Permission

/-- The encoding of a permission is read back as the same permission. -/
def RoundTrips (p : Permission) : Prop :=
  ∃ x q, toInput (permissionToRlp p) = .ok x ∧ permissionFromRlp x = .ok q ∧ Same p q

private theorem toInput_key_iff {key : Key} {x : Input} :
    toInput (.list [.bytes key.address, .number key.weight]) = .ok x ↔
      ∃ w, toInput (.number key.weight) = .ok w ∧ x = .list [.bytes key.address, w] := by
  rw [toInput_list_eq_ok_iff]
  simp only [toInputs_eq_ok_iff, List.forall₂_cons_left_iff, List.forall₂_nil_left_iff]
  constructor
  · rintro ⟨ys, ⟨a, rest, ha, ⟨w, rest', hw, rfl, rfl⟩, rfl⟩, rfl⟩
    obtain rfl : Input.bytes key.address = a := Except.ok.inj ha
    exact ⟨w, hw, rfl⟩
  · rintro ⟨w, hw, rfl⟩
    exact ⟨_, ⟨_, _, rfl, ⟨w, [], hw, rfl, rfl⟩, rfl⟩, rfl⟩

/-- Keys come back exactly when their weights are safe. -/
private theorem keys_roundTrip_iff {keys : List Key} {x : Input}
    (hx : toInput (keysToRlp keys) = .ok x) :
    keysFromRlp (some x) = .ok keys ↔ ∀ key ∈ keys, IsSafe key.weight := by
  obtain ⟨ys, hys, rfl⟩ := toInput_list_eq_ok_iff.1 hx
  rw [keysFromRlp]
  clear hx
  induction keys generalizing ys with
  | nil =>
    rw [List.map_nil, toInputs] at hys
    obtain rfl : [] = ys := Except.ok.inj hys
    exact iff_of_true rfl fun key h => absurd h List.not_mem_nil
  | cons key keys ih =>
    rw [List.map_cons, toInputs_eq_ok_iff, List.forall₂_cons_left_iff] at hys
    obtain ⟨y, ys', hy, hys', rfl⟩ := hys
    obtain ⟨w, hw, rfl⟩ := toInput_key_iff.1 hy
    have hrest := ih _ (toInputs_eq_ok_iff.2 hys')
    have hkey : keyFromRlp (.list [.bytes key.address, w]) = .ok key ↔ IsSafe key.weight := by
      have hnumber := number_roundTrip_iff (m := key.weight) hw
      have hfrom : keyFromRlp (.list [.bytes key.address, w]) =
          (bytesToInt (some w)).map fun weight => { address := key.address, weight } := by
        cases h : bytesToInt (some w) <;> simp [keyFromRlp, assertIsBytes, h] <;> rfl
      rw [hfrom]
      cases hint : bytesToInt (some w) with
      | error e =>
        rw [hint] at hnumber
        exact ⟨fun h => (by cases h), fun h => (by cases hnumber.2 ⟨rfl, h⟩)⟩
      | ok m =>
        rw [hint, Except.ok.injEq] at hnumber
        rw [Except.map, Except.ok.injEq]
        constructor
        · intro h
          exact (hnumber.1 (congrArg Key.weight h)).2
        · intro h
          rw [hnumber.2 ⟨rfl, h⟩]
    rw [List.mapM_cons, exceptBind_eq_ok, List.forall_mem_cons, ← hkey, ← hrest]
    constructor
    · rintro ⟨k, hk, h⟩
      obtain ⟨ks, hks, h⟩ := exceptBind_eq_ok.1 h
      obtain ⟨rfl, rfl⟩ := List.cons.inj (Except.ok.inj h)
      exact ⟨hk, hks⟩
    · rintro ⟨hk, hks⟩
      exact ⟨key, hk, exceptBind_eq_ok.2 ⟨keys, hks, rfl⟩⟩

private theorem toInput_permission_iff {p : Permission} {x : Input} :
    toInput (permissionToRlp p) = .ok x ↔ ∃ t i n h a o k, toInput (.number p.type) = .ok t ∧
      toInput (.number p.id) = .ok i ∧ toInput (.str p.permissionName) = .ok n ∧
      toInput (.number p.threshold) = .ok h ∧ toInput (.number p.parentId) = .ok a ∧
      toInput p.operations = .ok o ∧ toInput (keysToRlp p.keys) = .ok k ∧
      x = .list [t, i, n, h, a, o, k] := by
  rw [permissionToRlp, toInput_list_eq_ok_iff]
  simp only [toInputs_eq_ok_iff, List.forall₂_cons_left_iff, List.forall₂_nil_left_iff]
  constructor
  · rintro ⟨_, ⟨t, _, ht, ⟨i, _, hi, ⟨n, _, hn, ⟨h, _, hh, ⟨a, _, ha, ⟨o, _, ho, ⟨k, _, hk,
      rfl, rfl⟩, rfl⟩, rfl⟩, rfl⟩, rfl⟩, rfl⟩, rfl⟩, rfl⟩
    exact ⟨t, i, n, h, a, o, k, ht, hi, hn, hh, ha, ho, hk, rfl⟩
  · rintro ⟨t, i, n, h, a, o, k, ht, hi, hn, hh, ha, ho, hk, rfl⟩
    exact ⟨_, ⟨t, _, ht, ⟨i, _, hi, ⟨n, _, hn, ⟨h, _, hh, ⟨a, _, ha, ⟨o, _, ho, ⟨k, _, hk,
      rfl, rfl⟩, rfl⟩, rfl⟩, rfl⟩, rfl⟩, rfl⟩, rfl⟩, rfl⟩

/-- Reading the seven items of a permission. -/
private theorem permissionFromRlp_iff {t i n h a o k : Input} {q : Permission} :
    permissionFromRlp (.list [t, i, n, h, a, o, k]) = .ok q ↔
      bytesToInt (some t) = .ok q.type ∧ bytesToInt (some i) = .ok q.id ∧
      nameFromRlp (some n) = .ok q.permissionName ∧ bytesToInt (some h) = .ok q.threshold ∧
      bytesToInt (some a) = .ok q.parentId ∧ q.operations = ofInput o ∧
      keysFromRlp (some k) = .ok q.keys := by
  rw [permissionFromRlp]
  simp only [exceptBind_eq_ok]
  constructor
  · rintro ⟨type, ht, id, hi, name, hn, threshold, hh, parentId, ha, keys, hk, hq⟩
    obtain rfl := Except.ok.inj hq
    exact ⟨ht, hi, hn, hh, ha, rfl, hk⟩
  · rintro ⟨ht, hi, hn, hh, ha, ho, hk⟩
    refine ⟨_, ht, _, hi, _, hn, _, hh, _, ha, _, hk, ?_⟩
    obtain ⟨type, id, name, threshold, parentId, operations, keys⟩ := q
    obtain rfl : operations = ofInput o := ho
    rfl

/-- **A permission comes back** exactly when it is storable. -/
theorem roundTrips_iff_storable (p : Permission) : p.RoundTrips ↔ p.Storable := by
  constructor
  · rintro ⟨x, q, hx, hq, hsame⟩
    obtain ⟨t, i, n, h, a, o, k, ht, hi, hn, hh, ha, ho, hk, rfl⟩ := toInput_permission_iff.1 hx
    obtain ⟨hqt, hqi, hqn, hqh, hqa, hqo, hqk⟩ := permissionFromRlp_iff.1 hq
    refine ⟨((number_roundTrip_iff ht).1 hqt).2, ((number_roundTrip_iff hi).1 hqi).2,
      ((name_roundTrip_iff hn).1 ⟨hqn, hsame.permissionName⟩).2,
      ((number_roundTrip_iff hh).1 hqh).2, ((number_roundTrip_iff ha).1 hqa).2, ?_, ?_⟩
    · have hbytes := hsame.operations
      rw [hqo] at hbytes
      exact operations_roundTrip_iff.1 ⟨o, ho, hbytes⟩
    · rw [← hsame.keys] at hqk
      exact (keys_roundTrip_iff hk).1 hqk
  · intro hp
    obtain ⟨o, ho, hbytes⟩ := operations_roundTrip_iff.2 hp.operations
    have hn := name_isOk hp.permissionName.1
    have hkeys : ∃ k, toInput (keysToRlp p.keys) = .ok k := by
      have hall : ∀ keys : List Key, (∀ key ∈ keys, IsSafe key.weight) →
          ∃ ys, toInputs (keys.map fun ele =>
            .list [.bytes ele.address, .number ele.weight]) = .ok ys := by
        intro keys
        induction keys with
        | nil => exact fun _ => ⟨[], rfl⟩
        | cons key keys ih =>
          intro hsafe
          obtain ⟨ys, hys⟩ := ih fun key hkey => hsafe key (List.mem_cons_of_mem _ hkey)
          have hkey := toInput_key_iff.2 ⟨_, number_isOk (hsafe key List.mem_cons_self).1, rfl⟩
          refine ⟨_, toInputs_eq_ok_iff.2 (List.Forall₂.cons hkey (toInputs_eq_ok_iff.1 hys))⟩
      obtain ⟨ys, hys⟩ := hall p.keys hp.keys
      exact ⟨.list ys, toInput_list_eq_ok_iff.2 ⟨ys, hys, rfl⟩⟩
    obtain ⟨k, hk⟩ := hkeys
    have ht := number_isOk hp.type.1
    have hi := number_isOk hp.id.1
    have hh := number_isOk hp.threshold.1
    have ha := number_isOk hp.parentId.1
    refine ⟨_, { p with operations := ofInput o }, toInput_permission_iff.2
      ⟨_, _, _, _, _, o, k, ht, hi, hn, hh, ha, ho, hk, rfl⟩, permissionFromRlp_iff.2
      ⟨?_, ?_, ?_, ?_, ?_, rfl, ?_⟩, ⟨rfl, rfl, rfl, rfl, rfl, hbytes, rfl⟩⟩
    · exact (number_roundTrip_iff ht).2 ⟨rfl, hp.type⟩
    · exact (number_roundTrip_iff hi).2 ⟨rfl, hp.id⟩
    · exact ((name_roundTrip_iff hn).2 ⟨rfl, hp.permissionName⟩).1
    · exact (number_roundTrip_iff hh).2 ⟨rfl, hp.threshold⟩
    · exact (number_roundTrip_iff ha).2 ⟨rfl, hp.parentId⟩
    · exact (keys_roundTrip_iff hk).2 hp.keys

end Permission

/-! ### Balances -/

theorem bigIntToUnpaddedBytes_eq (n : ℕ) : bigIntToUnpaddedBytes n = numberToBytes n := by
  rw [bigIntToUnpaddedBytes, bigIntToBytes]
  by_cases h0 : n = 0
  · rw [h0]
    rfl
  · rw [if_neg h0, unpadBytes]
    have hlength := decodeLength_numberToBytes (Nat.pos_of_ne_zero h0)
    cases hbytes : numberToBytes n with
    | nil => rfl
    | cons x v =>
      have hx : x ≠ 0 := by
        rintro rfl
        rw [hbytes, decodeLength, if_pos rfl] at hlength
        cases hlength
      rw [List.dropWhile_cons_of_neg (by simpa using hx)]

private theorem bytesToBigInt_unpadded (n : ℕ) :
    bytesToBigInt (some (.bytes (bigIntToUnpaddedBytes n))) = .ok n := by
  rw [bigIntToUnpaddedBytes_eq]
  exact congrArg Except.ok (bytesToNumber_numberToBytes n)

/-- Alternating ids and balances are read back one by one. -/
private theorem assetFromRlp_items (f : ℕ → ℕ) (keys : List ℕ) (asset : InsertionMap ℕ ℕ) :
    assetFromRlp ((keys.flatMap fun key =>
        [bigIntToUnpaddedBytes key, bigIntToUnpaddedBytes (f key)]).map .bytes) asset =
      .ok (keys.foldl (fun m key => m.set key (f key)) asset) := by
  induction keys generalizing asset with
  | nil =>
    rw [List.flatMap_nil, List.map_nil, assetFromRlp]
    rfl
  | cons key keys ih =>
    rw [List.flatMap_cons, List.map_append, List.foldl_cons, ← ih]
    simp only [List.map_cons, List.map_nil, List.cons_append, List.nil_append]
    rw [assetFromRlp, bytesToBigInt_unpadded, bytesToBigInt_unpadded]
    rfl

private theorem get_foldl_set_keys (f : ℕ → ℕ) (keys : List ℕ) (asset : InsertionMap ℕ ℕ) (id : ℕ) :
    (keys.foldl (fun m key => m.set key (f key)) asset).get id =
      if id ∈ keys then some (f id) else asset.get id := by
  induction keys generalizing asset with
  | nil => rfl
  | cons key keys ih =>
    rw [List.foldl_cons, ih, InsertionMap.get_set]
    by_cases hmem : id ∈ keys
    · rw [if_pos hmem, if_pos (List.mem_cons_of_mem _ hmem)]
    · rw [if_neg hmem]
      by_cases hid : id = key
      · rw [if_pos hid, if_pos (by rw [hid]; exact List.mem_cons_self), hid]
      · rw [if_neg hid, if_neg fun h => (List.mem_cons.1 h).elim hid hmem]

namespace StoredAccount

/-- **Balances come back**, in ascending order of the token ids. -/
theorem exists_assetFromRlp (asset : InsertionMap ℕ ℕ) :
    ∃ asset', assetFromRlp ((assetItems asset).map .bytes) .empty = .ok asset' ∧
      ∀ id, asset.get id = asset'.get id := by
  refine ⟨_, assetFromRlp_items _ _ _, fun id => ?_⟩
  rw [get_foldl_set_keys]
  by_cases hid : id ∈ asset.keys
  · obtain ⟨v, hv⟩ := Option.isSome_iff_exists.1 (InsertionMap.get_isSome_iff.2 hid)
    rw [if_pos ((List.mem_insertionSort _).2 hid), hv]
    rfl
  · rw [if_neg fun h => hid ((List.mem_insertionSort _).1 h), InsertionMap.get_eq_none_iff.2 hid,
      InsertionMap.get_empty]

/-- The items do not depend on the order of insertion. -/
private theorem assetItems_congr {asset asset' : InsertionMap ℕ ℕ}
    (h : ∀ id, asset.get id = asset'.get id) : assetItems asset = assetItems asset' := by
  have hkeys : asset.keys.Perm asset'.keys := by
    refine (List.perm_ext_iff_of_nodup asset.nodup asset'.nodup).2 fun id => ?_
    change id ∈ asset.keys ↔ id ∈ asset'.keys
    rw [← InsertionMap.get_isSome_iff, ← InsertionMap.get_isSome_iff, h id]
  have hsorted : asset.keys.insertionSort (· ≤ ·) = asset'.keys.insertionSort (· ≤ ·) :=
    List.Perm.eq_of_pairwise (fun a b _ _ => Nat.le_antisymm) (List.pairwise_insertionSort _ _)
      (List.pairwise_insertionSort _ _)
      ((List.perm_insertionSort _ _).trans (hkeys.trans (List.perm_insertionSort _ _).symm))
  rw [assetItems, assetItems, hsorted]
  exact congrArg List.flatten (List.map_congr_left fun key _ => by rw [h key])

/-- The same account, but for the order of its balances. -/
structure Reordered (a b : StoredAccount) : Prop where
  nonce : a.nonce = b.nonce
  balance : a.balance = b.balance
  storageRoot : a.storageRoot = b.storageRoot
  codeHash : a.codeHash = b.codeHash
  asset : ∀ id, a.asset.get id = b.asset.get id
  activePermissions : a.activePermissions = b.activePermissions

/-- The encoding does not depend on the order in which the balances were inserted. -/
theorem serialize_congr {a b : StoredAccount} (h : Reordered a b) : a.serialize = b.serialize := by
  rw [serialize, serialize, raw, raw, h.nonce, h.balance, h.storageRoot, h.codeHash,
    assetItems_congr h.asset, h.activePermissions]

/-- The same account, but for the order of its balances and the form of its operations. -/
structure Same (a b : StoredAccount) : Prop where
  nonce : a.nonce = b.nonce
  balance : a.balance = b.balance
  storageRoot : a.storageRoot = b.storageRoot
  codeHash : a.codeHash = b.codeHash
  asset : ∀ id, a.asset.get id = b.asset.get id
  activePermissions : List.Forall₂ Permission.Same a.activePermissions b.activePermissions

/-- The encoding of an account is read back as the same account. -/
def RoundTrips (a : StoredAccount) : Prop :=
  ∃ bytes a', a.serialize = .ok bytes ∧ createAccountFromRLP bytes = .ok a' ∧ Same a a'

private theorem toInput_raw_iff {a : StoredAccount} {x : Input} :
    toInput a.raw = .ok x ↔ ∃ ps, toInputs (a.activePermissions.map permissionToRlp) = .ok ps ∧
      x = .list [.bytes (bigIntToUnpaddedBytes a.nonce), .bytes (bigIntToUnpaddedBytes a.balance),
        .bytes a.storageRoot, .bytes a.codeHash, .list ((assetItems a.asset).map .bytes),
        .list ps] := by
  have hleaf : ∀ b, toInput (.bytes b) = .ok (.bytes b) := fun b => rfl
  have hassets : toInput (.list ((assetItems a.asset).map .bytes)) =
      .ok (.list ((assetItems a.asset).map .bytes)) :=
    toInput_list_eq_ok_iff.2 ⟨_, toInputs_bytes _, rfl⟩
  rw [raw, toInput_list_eq_ok_iff]
  simp only [toInputs_eq_ok_iff, List.forall₂_cons_left_iff, List.forall₂_nil_left_iff, hleaf,
    hassets]
  constructor
  · rintro ⟨_, ⟨_, _, h1, ⟨_, _, h2, ⟨_, _, h3, ⟨_, _, h4, ⟨_, _, h5, ⟨_, _, h6,
      rfl, rfl⟩, rfl⟩, rfl⟩, rfl⟩, rfl⟩, rfl⟩, rfl⟩
    cases h1; cases h2; cases h3; cases h4; cases h5
    obtain ⟨ps, hps, rfl⟩ := toInput_list_eq_ok_iff.1 h6
    exact ⟨ps, toInputs_eq_ok_iff.1 hps, rfl⟩
  · rintro ⟨ps, hps, rfl⟩
    exact ⟨_, ⟨_, _, rfl, ⟨_, _, rfl, ⟨_, _, rfl, ⟨_, _, rfl, ⟨_, _, rfl, ⟨_, _,
      toInput_list_eq_ok_iff.2 ⟨ps, toInputs_eq_ok_iff.2 hps, rfl⟩, rfl, rfl⟩, rfl⟩, rfl⟩, rfl⟩,
      rfl⟩, rfl⟩, rfl⟩

/-- Reading the six items of an account. -/
private theorem createAccountFromBytesArray_items (a : StoredAccount) (ps : List Input) :
    ∃ asset', (∀ id, a.asset.get id = asset'.get id) ∧ createAccountFromBytesArray
        [.bytes (bigIntToUnpaddedBytes a.nonce), .bytes (bigIntToUnpaddedBytes a.balance),
          .bytes a.storageRoot, .bytes a.codeHash, .list ((assetItems a.asset).map .bytes),
          .list ps] =
      (ps.mapM permissionFromRlp).map fun activePermissions =>
        { a with asset := asset', activePermissions } := by
  obtain ⟨asset', hasset, hget⟩ := exists_assetFromRlp a.asset
  refine ⟨asset', hget, ?_⟩
  rw [createAccountFromBytesArray]
  simp only [List.getElem?_cons_succ, List.getElem?_cons_zero, itemsOf]
  change ((assetFromRlp _ _).bind fun asset => _) = _
  rw [hasset]
  change ((ps.mapM permissionFromRlp).bind fun activePermissions => _) = _
  cases ps.mapM permissionFromRlp with
  | error e => rfl
  | ok qs =>
    simp only [Except.bind, bytesToBigInt_unpadded, hashOf, assertIsBytes, a.length_storageRoot,
      a.length_codeHash, bind, dif_pos]
    rfl

/-- A list of permissions comes back exactly when each permission does. -/
private theorem permissions_roundTrip_iff (l : List Permission) :
    (∃ ps qs, toInputs (l.map permissionToRlp) = .ok ps ∧ ps.mapM permissionFromRlp = .ok qs ∧
      List.Forall₂ Permission.Same l qs) ↔ ∀ p ∈ l, p.RoundTrips := by
  induction l with
  | nil => exact iff_of_true ⟨[], [], rfl, rfl, .nil⟩ fun p h => absurd h List.not_mem_nil
  | cons p l ih =>
    rw [List.forall_mem_cons, ← ih]
    constructor
    · rintro ⟨ps, qs, hps, hqs, hsame⟩
      rw [List.map_cons, toInputs_eq_ok_iff, List.forall₂_cons_left_iff] at hps
      obtain ⟨x, ps, hx, hps, rfl⟩ := hps
      rw [List.mapM_cons] at hqs
      obtain ⟨q, hq, hqs⟩ := exceptBind_eq_ok.1 hqs
      obtain ⟨qs', hqs', hcons⟩ := exceptBind_eq_ok.1 hqs
      obtain rfl : q :: qs' = qs := Except.ok.inj hcons
      rw [List.forall₂_cons] at hsame
      exact ⟨⟨x, q, hx, hq, hsame.1⟩, ps, qs', toInputs_eq_ok_iff.2 hps, hqs', hsame.2⟩
    · rintro ⟨⟨x, q, hx, hq, hpq⟩, ps, qs, hps, hqs, hsame⟩
      refine ⟨x :: ps, q :: qs, ?_, ?_, List.Forall₂.cons hpq hsame⟩
      · exact toInputs_eq_ok_iff.2 (List.Forall₂.cons hx (toInputs_eq_ok_iff.1 hps))
      · rw [List.mapM_cons]
        exact exceptBind_eq_ok.2 ⟨q, hq, exceptBind_eq_ok.2 ⟨qs, hqs, rfl⟩⟩

private theorem serialize_eq_ok_iff {a : StoredAccount} {bytes : Bytes} :
    a.serialize = .ok bytes ↔ ∃ x, toInput a.raw = .ok x ∧ encode x = bytes := by
  rw [serialize, encodeRaw, exceptBind_eq_ok]
  refine exists_congr fun x => and_congr_right fun _ => ?_
  exact Except.ok.injEq _ _ |>.to_iff

/-- Reading an encoding back is reading its items. -/
private theorem createAccountFromRLP_encode {a : StoredAccount} {x : Input}
    (hx : toInput a.raw = .ok x)
    (hlen : (encode x).length < 2 ^ 53) :
    ∃ ps asset', toInputs (a.activePermissions.map permissionToRlp) = .ok ps ∧
      (∀ id, a.asset.get id = asset'.get id) ∧ createAccountFromRLP (encode x) =
        (ps.mapM permissionFromRlp).map fun activePermissions =>
          { a with asset := asset', activePermissions } := by
  obtain ⟨ps, hps, rfl⟩ := toInput_raw_iff.1 hx
  obtain ⟨asset', hget, hcreate⟩ := createAccountFromBytesArray_items a ps
  refine ⟨ps, asset', hps, hget, ?_⟩
  have h64 : (2 : ℕ) ^ 53 < 2 ^ 64 := by norm_num
  rw [createAccountFromRLP, decode_encode (hlen.trans h64)]
  exact hcreate

/-- **Storing an account.**  The encoding of an account is read back as the same account exactly
when all its permissions are storable, and it does not depend on the order in which the balances
were inserted.  (No byte string has `2 ^ 53` bytes or more.) -/
theorem roundTrips_iff (a : StoredAccount)
    (hlen : ∀ bytes, a.serialize = .ok bytes → bytes.length < 2 ^ 53) :
    (a.RoundTrips ↔ ∀ p ∈ a.activePermissions, p.Storable) ∧
      ∀ b, Reordered a b → a.serialize = b.serialize := by
  refine ⟨?_, fun b => serialize_congr⟩
  have hpermissions := permissions_roundTrip_iff a.activePermissions
  simp only [Permission.roundTrips_iff_storable] at hpermissions
  rw [← hpermissions]
  constructor
  · rintro ⟨bytes, a', hbytes, ha', hsame⟩
    obtain ⟨x, hx, rfl⟩ := serialize_eq_ok_iff.1 hbytes
    obtain ⟨ps, asset', hps, -, hread⟩ := createAccountFromRLP_encode hx (hlen _ hbytes)
    rw [hread] at ha'
    cases hqs : ps.mapM permissionFromRlp with
    | error e =>
      rw [hqs] at ha'
      cases ha'
    | ok qs =>
      rw [hqs] at ha'
      obtain rfl := Except.ok.inj ha'
      exact ⟨ps, qs, hps, hqs, hsame.activePermissions⟩
  · rintro ⟨ps, qs, hps, hqs, hsame⟩
    have hx := toInput_raw_iff.2 ⟨ps, hps, rfl⟩
    have hbytes := serialize_eq_ok_iff.2 ⟨_, hx, rfl⟩
    obtain ⟨ps', asset', hps', hget, hread⟩ := createAccountFromRLP_encode hx (hlen _ hbytes)
    obtain rfl : ps = ps' := Except.ok.inj (hps.symm.trans hps')
    rw [hqs] at hread
    exact ⟨_, _, hbytes, hread, rfl, rfl, rfl, rfl, hget, hsame⟩

/-! ### Two accounts -/

/-- An account with two tokens and one permission of a given name. -/
def sample (permissionName : JSString) : StoredAccount where
  nonce := 1
  balance := 1000
  storageRoot := KECCAK256_RLP
  codeHash := KECCAK256_NULL
  asset := (InsertionMap.empty.set 1000016 5).set 7 0
  activePermissions := [{ type := PermissionType.Active, id := 2, permissionName, threshold := 1
                          parentId := 0, operations := .bytes [0x7f, 0xff]
                          keys := [{ address := [1, 2, 3], weight := 1 }] }]
  length_storageRoot := rfl
  length_codeHash := rfl

/-- The round trip of a permission named `owner`. -/
theorem roundTrips_iff_owner : (sample [111, 119, 110, 101, 114]).RoundTrips := by
  have hlen : ∀ bytes, (sample [111, 119, 110, 101, 114]).serialize = .ok bytes →
      bytes.length < 2 ^ 53 := by
    intro bytes h
    have hlength : (sample [111, 119, 110, 101, 114]).serialize.toOption.map List.length =
        some 102 := by decide +kernel
    rw [h] at hlength
    obtain hlength : bytes.length = 102 := Option.some.inj hlength
    rw [hlength]
    norm_num
  refine (roundTrips_iff _ hlen).1.2 fun p hp => ?_
  obtain rfl := List.mem_singleton.1 hp
  have hname : IsPlainName [111, 119, 110, 101, 114] :=
    ⟨rfl, (JSString.ofScalars_toScalars_iff _).1 (by decide), by decide⟩
  have hsafe : ∀ n : ℤ, n ∈ [0, 1, 2] → IsSafe n := by
    unfold IsSafe MAX_SAFE_INTEGER
    decide
  refine ⟨hsafe 2 (by decide), hsafe 2 (by decide), hname, hsafe 1 (by decide), hsafe 0 (by decide),
    trivial, fun key hkey => ?_⟩
  obtain rfl := List.mem_singleton.1 hkey
  exact hsafe 1 (by decide)

/-- **A name that looks like hex is lost**: `0x41` comes back as `A`. -/
theorem hexName_lost : ¬ (sample [48, 120, 52, 49]).RoundTrips := by
  rintro ⟨bytes, a', hbytes, ha', hsame⟩
  have hread : ((sample [48, 120, 52, 49]).serialize.toOption.bind fun bytes =>
      (createAccountFromRLP bytes).toOption.map fun a =>
        a.activePermissions.map Permission.permissionName) = some [[65]] := by decide +kernel
  rw [hbytes] at hread
  change (createAccountFromRLP bytes).toOption.map _ = _ at hread
  rw [ha'] at hread
  have hnames : a'.activePermissions.map Permission.permissionName = [[65]] :=
    Option.some.inj hread
  obtain ⟨q, qs, hq, -, hqs⟩ := List.forall₂_cons_left_iff.1 hsame.activePermissions
  rw [hqs, List.map_cons, ← hq.permissionName] at hnames
  exact absurd (List.cons.inj hnames).1 (by decide)

end StoredAccount

end Tvmjs
