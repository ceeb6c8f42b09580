import Tvmjs.Rlp.Codec
import Tvmjs.Util.Bits
import Tvmjs.Util.Hex

/-!
# Nodes of the binary tree

An internal node has up to two children, given by their hashes and their paths from the root; a
stem node has a stem and 256 values.

* `BinaryNode.serialize`, `decodeBinaryNode` -- the form of a node in the database and in a proof;
* `BinaryNode.decode_serialize` -- a node reads back as it was written, if its parts have the
  sizes of a tree's own nodes.
-/

namespace Tvmjs

open RLP (Input)

/-- A JavaScript number: an integer, or any other one by the text it is shown as. -/
inductive JSNumber where
  | integer (n : ℤ)
  | other (text : String)
  deriving DecidableEq

/-- The text of a number in an error. -/
def JSNumber.toText : JSNumber → String
  | integer n => toString n
  | other text => text

/-- What the functions of a tree throw. -/
inductive BinaryTreeError where
  | getStemLength (length : ℕ)
  | putStemLength (length : ℕ)
  | valuesLength (values suffixes : ℕ)
  | suffixIndex (index : JSNumber)
  | rootLength
  | rootNotFound
  | expectedInternal (path : List Bool)
  | rootNode
  | missingNodeAt (path : List Bool)
  | missingNode (hash : Bytes)
  | invalidNode
  | invalidNodeType
  | invalidNodeLength
  | childPath
  | pathLength
  | dataLength
  | inputLength (length : ℕ)
  | rlp (e : RLP.RLPError)
  | rootHash
  | invalidProof
  /-- A value of the wrong kind is used. -/
  | typeError
  /-- A walk takes more steps than it was given. -/
  | fuel
  deriving DecidableEq

/-- The bits of a path in an error. -/
def pathText (path : List Bool) : String :=
  ",".intercalate (path.map fun b => if b then "1" else "0")

/-- The texts of the errors, as far as they are the source's own. -/
def BinaryTreeError.message : BinaryTreeError → String
  | getStemLength length => s!"expected stem with length 31; got {length}"
  | putStemLength length => s!"expected stem with length 31, got {length}"
  | valuesLength values suffixes =>
    s!"expected number of values ({values}) to equal number of suffixes ({suffixes})"
  | suffixIndex index =>
    s!"Invalid suffix index: {index.toText}. Must be an integer between 0 and 255."
  | rootLength => "Invalid root length. Roots are 32 bytes"
  | rootNotFound => "Root node not found in trie"
  | expectedInternal path => s!"Expected internal node at path {pathText path}, got [object Object]"
  | rootNode => "root node should exist"
  | missingNodeAt path => s!"missing node at {pathText path}"
  | missingNode hash => s!"missing node {String.ofList (bytesToHex hash)}"
  | invalidNode => "Invalid node"
  | invalidNodeType => "Invalid node type"
  | invalidNodeLength => "Invalid node length"
  | childPath => "Invalid RLP encoding for child path"
  | pathLength => "Invalid path length encoding"
  | dataLength => "Data must be 32 or 64 bytes"
  | inputLength length =>
    s!"Input length {length} exceeds target length 32. Use allowTruncate option to truncate."
  | rlp e => e.message
  | rootHash => "rootHash does not match proof root"
  | invalidProof => "Proof is invalid"
  | typeError => ""
  | fuel => ""

/-- The number of values of a stem node. -/
abbrev NODE_WIDTH : ℕ := 256

/-- The values of a stem node. -/
abbrev StemValues := Fin NODE_WIDTH → Option Bytes

/-- A child of an internal node.  A hash that was decoded may be a list. -/
structure ChildBinaryNode where
  /-- The hash of the child node. -/
  hash : Input
  /-- The path to the child node, in bits. -/
  path : List Bool

/-- A node of the tree; the left child of an internal node is that of the bit 0. -/
inductive BinaryNode where
  | internal (children : Bool → Option ChildBinaryNode)
  | stem (stem : Bytes) (values : StemValues)

namespace BinaryNode

/-- What stands for a child's hash. -/
def rawHash : Option ChildBinaryNode → Input
  | some child => child.hash
  | none => .bytes []

/-- What stands for a child's path: its length and its packed bits. -/
def rawPath : Option ChildBinaryNode → Bytes
  | some child =>
    RLP.encode (.list [.bytes [UInt8.ofNat child.path.length], .bytes (bitsToBytes child.path)])
  | none => []

/-- The raw representation of a node, its type first. -/
def raw : BinaryNode → List Input
  | internal children =>
    [.bytes [0], rawHash (children false), rawHash (children true),
      .bytes (rawPath (children false)), .bytes (rawPath (children true))]
  | stem s values =>
    .bytes [1] :: .bytes s :: List.ofFn fun i => .bytes ((values i).getD [])

/-- The node as it is written to the database. -/
def serialize (n : BinaryNode) : Bytes := RLP.encode (.list n.raw)

end BinaryNode

/-! ### Decoding -/

/-- An array in the place of a number: the text of its only member counts, and what is not a
number counts as 0 wherever bits are taken of it. -/
def toNumber : Input → ℕ
  | .bytes [b] => b.toNat
  | .list [x] => toNumber x
  | _ => 0

/-- The bytes that are read from a byte string, or from a list in the place of one. -/
def asBytes : Input → Bytes
  | .bytes b => b
  | .list l => l.map fun x => UInt8.ofNat (toNumber x)

/-- A child of a decoded internal node; an empty hash says that there is none. -/
def decodeChild (hash rawPath : Input) : Except BinaryTreeError (Option ChildBinaryNode) :=
  match hash with
  | .bytes [] => .ok none
  | .list [] => .ok none
  | hash =>
    match rawPath with
    | .list (_ :: _) => .error .typeError
    -- what is empty decodes to an empty byte string
    | .list [] => .error .childPath
    | .bytes rawPath =>
      match RLP.decode rawPath with
      | .error e => .error (.rlp e)
      | .ok (.list [.bytes [pathLength], encodedPath]) =>
        .ok (some ⟨hash, bytesToBits (asBytes encodedPath) pathLength.toNat⟩)
      | .ok (.list [.list [pathLength], encodedPath]) =>
        .ok (some ⟨hash, bytesToBits (asBytes encodedPath) (toNumber pathLength)⟩)
      | .ok (.list [_, _]) => .error .pathLength
      | .ok _ => .error .childPath

/-- A value of a decoded stem node.  A list in the place of a value is refused when the node is
hashed, which every node from outside is at once. -/
def decodeValue : Input → Except BinaryTreeError (Option Bytes)
  | .bytes [] => .ok none
  | .bytes value => .ok (some value)
  | .list [] => .ok none
  | .list _ => .error .typeError

/-- `InternalBinaryNode.fromRawNode` -/
def internalFromRawNode (rawNode : List Input) : Except BinaryTreeError BinaryNode :=
  match rawNode with
  | [_, leftChildHash, rightChildHash, leftChildRawPath, rightChildRawPath] => do
    let left ← decodeChild leftChildHash leftChildRawPath
    let right ← decodeChild rightChildHash rightChildRawPath
    pure (.internal fun b => if b then right else left)
  | _ => .error .invalidNodeLength

/-- `StemBinaryNode.fromRawNode`.  A list in the place of the stem is refused as one in the place
of a value is. -/
def stemFromRawNode (rawNode : List Input) : Except BinaryTreeError BinaryNode :=
  if rawNode.length ≠ NODE_WIDTH + 2 then .error .invalidNodeLength
  else
    match rawNode with
    | _ :: .bytes stem :: rawValues => do
      let values ← rawValues.mapM decodeValue
      pure (.stem stem fun i => values.getD i none)
    | _ => .error .typeError

/-- The node of a raw representation. -/
def decodeRawBinaryNode (raw : List Input) : Except BinaryTreeError BinaryNode :=
  match raw with
  | [] => .error .typeError
  | .bytes (nodeType :: _) :: _ =>
    if nodeType = 0 then internalFromRawNode raw
    else if nodeType = 1 then stemFromRawNode raw
    else .error .invalidNodeType
  | _ => .error .invalidNodeType

/-- The node of a byte string. -/
def decodeBinaryNode (raw : Bytes) : Except BinaryTreeError BinaryNode :=
  match RLP.decode raw with
  | .error e => .error (.rlp e)
  | .ok (.bytes _) => .error .invalidNode
  | .ok (.list decoded) => decodeRawBinaryNode decoded

/-! ### The round trip -/

namespace BinaryNode

/-- A child as a tree makes it. -/
structure SoundChild (child : ChildBinaryNode) : Prop where
  hash : ∃ h : Bytes, child.hash = .bytes h ∧ h.length = 32
  path : child.path.length < 256

/-- The parts of a node have the sizes of a tree's own nodes. -/
def Sound : BinaryNode → Prop
  | internal children => ∀ b, ∀ child ∈ children b, SoundChild child
  | stem s values => s.length = 31 ∧ ∀ i, ∀ value ∈ values i, value.length = 32

/-- The path of a child is short. -/
private theorem length_rawPath_le {child : Option ChildBinaryNode} (h : ∀ c ∈ child, SoundChild c) :
    (rawPath child).length < 256 := by
  rcases child with _ | child
  · exact Nat.zero_lt_succ _
  · have hpath := (h child rfl).path
    have hbits : (bitsToBytes child.path).length ≤ 32 := by
      rw [length_bitsToBytes]
      omega
    have hone : (RLP.encode (.bytes [UInt8.ofNat child.path.length])).length ≤ 10 :=
      RLP.length_encodeBytes_le (b := [UInt8.ofNat child.path.length]) (by simp)
    have htwo : (RLP.encode (.bytes (bitsToBytes child.path))).length ≤ 41 := by
      have hle := RLP.length_encodeBytes_le (b := bitsToBytes child.path) (by omega)
      rw [RLP.encode]
      omega
    have hall : (RLP.encodeAll [.bytes [UInt8.ofNat child.path.length],
        .bytes (bitsToBytes child.path)]).length ≤ 51 := by
      rw [RLP.encodeAll, RLP.encodeAll, RLP.encodeAll, List.append_nil, List.length_append]
      omega
    have hlist := RLP.length_encode_list_le (l := [.bytes [UInt8.ofNat child.path.length],
      .bytes (bitsToBytes child.path)]) (by omega)
    rw [rawPath]
    omega

/-- A child reads back as it was written. -/
private theorem decodeChild_raw {child : Option ChildBinaryNode} (h : ∀ c ∈ child, SoundChild c) :
    decodeChild (rawHash child) (.bytes (rawPath child)) = .ok child := by
  have hlen := length_rawPath_le h
  rcases child with _ | ⟨hash, path⟩
  · rfl
  · obtain ⟨⟨x, hx, hx32⟩, hpath⟩ := h ⟨hash, path⟩ rfl
    simp only at hx hpath
    obtain ⟨b, bs, rfl⟩ := List.exists_cons_of_length_pos (l := x) (by omega)
    have hdecode := RLP.decode_encode (x := .list [.bytes [UInt8.ofNat path.length],
      .bytes (bitsToBytes path)]) (by
        change (rawPath (some ⟨hash, path⟩)).length < _
        omega)
    have hnat : (UInt8.ofNat path.length).toNat = path.length := UInt8.toNat_ofNat_of_lt' hpath
    simp only [decodeChild, rawHash, rawPath, hx, hdecode, asBytes, hnat,
      bytesToBits_bitsToBytes]

private theorem length_raw_stem (s : Bytes) (values : StemValues) :
    (stem s values).raw.length = NODE_WIDTH + 2 := by
  rw [raw, List.length_cons, List.length_cons, List.length_ofFn]

/-- The members of a raw node are short. -/
private theorem length_encode_raw {n : BinaryNode} (h : n.Sound) :
    n.raw.length ≤ 258 ∧ ∀ x ∈ n.raw, (RLP.encode x).length ≤ 300 := by
  have hbytes : ∀ {b : Bytes}, b.length < 256 → (RLP.encode (.bytes b)).length ≤ 300 := by
    intro b hb
    have hle := RLP.length_encodeBytes_le (b := b) (by omega)
    rw [RLP.encode]
    omega
  rcases n with children | ⟨stem, values⟩
  · have hhash : ∀ b, (RLP.encode (rawHash (children b))).length ≤ 300 := by
      intro b
      rcases hc : children b with _ | child
      · exact hbytes (by simp)
      · obtain ⟨⟨x, hx, hx32⟩, -⟩ := h b child hc
        rw [rawHash, hx]
        exact hbytes (by omega)
    refine ⟨by simp [raw], fun x hx => ?_⟩
    simp only [raw, List.mem_cons, List.not_mem_nil, or_false] at hx
    rcases hx with rfl | rfl | rfl | rfl | rfl
    · exact hbytes (by simp)
    · exact hhash false
    · exact hhash true
    · exact hbytes (length_rawPath_le (h false))
    · exact hbytes (length_rawPath_le (h true))
  · refine ⟨(length_raw_stem stem values).le, fun x hx => ?_⟩
    rw [raw, List.mem_cons, List.mem_cons, List.mem_ofFn] at hx
    rcases hx with rfl | rfl | ⟨i, rfl⟩
    · exact hbytes (by simp)
    · exact hbytes (by rw [h.1]; decide)
    · refine hbytes ?_
      rcases hv : values i with _ | v
      · simp
      · rw [Option.getD_some, h.2 i v hv]
        decide

private theorem length_serialize {n : BinaryNode} (h : n.Sound) : n.serialize.length < 2 ^ 64 := by
  obtain ⟨hcount, hsize⟩ := length_encode_raw h
  have hall := RLP.length_encodeAll_le hsize
  have hle : n.raw.length * 300 ≤ 258 * 300 := Nat.mul_le_mul_right 300 hcount
  have hlist := RLP.length_encode_list_le (l := n.raw) (by omega)
  rw [serialize]
  omega

/-- The values of a stem node read back. -/
private theorem mapM_decodeValue {values : StemValues}
    (h : ∀ i, ∀ value ∈ values i, value.length = 32) :
    (List.ofFn fun i => Input.bytes ((values i).getD [])).mapM decodeValue =
      .ok (List.ofFn values) := by
  have hone : ∀ i, decodeValue (.bytes ((values i).getD [])) = .ok (values i) := by
    intro i
    rcases hv : values i with _ | v
    · rfl
    · obtain ⟨b, bs, rfl⟩ := List.exists_cons_of_length_pos (l := v) (by
        rw [h i v hv]
        decide)
      rfl
  have hall : ∀ l : List (Fin NODE_WIDTH),
      (l.map fun i => Input.bytes ((values i).getD [])).mapM decodeValue = .ok (l.map values) := by
    intro l
    induction l with
    | nil => rfl
    | cons i l ih =>
      rw [List.map_cons, List.mapM_cons, hone, ih]
      rfl
  rw [List.ofFn_eq_map, List.ofFn_eq_map]
  exact hall _

/-- **A node reads back as it was written.** -/
theorem decode_serialize {n : BinaryNode} (h : n.Sound) :
    decodeBinaryNode n.serialize = .ok n := by
  rw [decodeBinaryNode, serialize, RLP.decode_encode (length_serialize h)]
  rcases n with children | ⟨stem, values⟩
  · have hchildren : (fun b => if b then children true else children false) = children := by
      funext b
      cases b <;> rfl
    change internalFromRawNode (internal children).raw = _
    rw [raw, internalFromRawNode, decodeChild_raw (h false), decodeChild_raw (h true)]
    change Except.ok (internal fun b => if b then children true else children false) = _
    rw [hchildren]
  · change stemFromRawNode (BinaryNode.stem stem values).raw = _
    unfold stemFromRawNode
    rw [if_neg (not_not.2 (length_raw_stem stem values))]
    change ((List.ofFn fun i => Input.bytes ((values i).getD [])).mapM decodeValue >>= fun values =>
      pure (BinaryNode.stem stem fun i => values.getD i none)) = _
    rw [mapM_decodeValue h.2]
    change Except.ok (BinaryNode.stem stem fun i => (List.ofFn values).getD i none) = _
    congr 2
    funext i
    rw [List.getD_eq_getElem?_getD, List.getElem?_ofFn]
    simp

theorem serialize_injective {m n : BinaryNode} (hm : m.Sound) (hn : n.Sound)
    (h : m.serialize = n.serialize) : m = n := by
  have hread := decode_serialize hm
  rw [h, decode_serialize hn] at hread
  exact (Except.ok.inj hread).symm

end BinaryNode

end Tvmjs
