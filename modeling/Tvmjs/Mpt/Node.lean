import Mathlib.Data.List.OfFn
import Tvmjs.Rlp.Codec
import Tvmjs.Mpt.Nibbles

/-!
# Nodes of the Merkle Patricia trie

Branch, extension and leaf nodes, and how they are written to the database and read back.

* `decodeRawMPTNode_rawList`, `decode_serialize` -- **a node reads back as it was written**;
* `MPTNode.serialize_injective` -- two nodes with one serialization are equal.
-/

namespace Tvmjs

open RLP (Input)

/-- What can go wrong in a trie. -/
inductive MPTError where
  /-- A node the trie refers to is not in the database. -/
  | missingNode
  | invalidNode
  | stackUnderflow
  | missingLastNode
  | expectedBranch
  | expectedExtension
  | saveStackMissing
  | rootLength (hashLen length : ℕ)
  | notCheckpointed
  | rlp (e : RLP.RLPError)
  /-- A decoded item has not the shape its use is declared with. -/
  | shape
  /-- The walk went on after the key was used up. -/
  | depth
  deriving DecidableEq

/-- The texts of the errors. -/
def MPTError.message : MPTError → String
  | missingNode => "Missing node in DB"
  | invalidNode => "Invalid node"
  | stackUnderflow => "Stack underflow"
  | missingLastNode => "missing last node"
  | expectedBranch => "Expected branch node"
  | expectedExtension => "Expected extension node"
  | saveStackMissing => "saveStack: missing node"
  | rootLength hashLen length =>
    "Invalid root length. Roots are " ++ toString hashLen ++ " bytes, got " ++ toString length ++
      " bytes"
  | notCheckpointed => "trying to revert when not checkpointed"
  | rlp e => e.message
  | shape => ""
  | depth => ""

/-- A node.  The slots of a branch and the target of an extension are hashes or, for short nodes,
the raw nodes themselves; the empty string stands for an empty slot and for no value. -/
inductive MPTNode where
  | branch (branches : Nibble → Input) (value : Bytes)
  | extension (nibbles : Nibbles) (value : Input)
  | leaf (nibbles : Nibbles) (value : Bytes)

namespace MPTNode

/-- A node with nothing in it. -/
def emptyBranch : MPTNode := branch (fun _ => .bytes []) []

/-- The path bytes of an extension or a leaf. -/
def encodedKey (nibbles : Nibbles) (isLeaf : Bool) : Bytes :=
  nibblesTypeToPackedBytes (addHexPrefix nibbles isLeaf)

/-- The members of the node's raw form. -/
def rawList : MPTNode → List Input
  | branch branches value => List.ofFn branches ++ [.bytes value]
  | extension nibbles value => [.bytes (encodedKey nibbles false), value]
  | leaf nibbles value => [.bytes (encodedKey nibbles true), .bytes value]

/-- The raw form of a node. -/
def raw (n : MPTNode) : Input := .list n.rawList

/-- The node as it is written to the database. -/
def serialize (n : MPTNode) : Bytes := RLP.encode n.raw

end MPTNode

/-- What a slot of a branch holds, if anything (`getBranch`). -/
def slotRef : Input → Option Input
  | .bytes [] => none
  | .list [] => none
  | b => some b

/-- The occupied slots of a branch, in order (`getChildren`). -/
def getChildren (branches : Nibble → Input) : List (Nibble × Input) :=
  (List.finRange 16).filterMap fun i => (slotRef (branches i)).map fun b => (i, b)

/-- Read a raw node. -/
def decodeRawMPTNode (raw : List Input) : Except MPTError MPTNode :=
  if raw.length = 17 then
    match raw.getD 16 (.bytes []) with
    | .bytes value => .ok (.branch (fun i => raw.getD i (.bytes [])) value)
    | .list _ => .error .shape
  else
    match raw with
    | [.bytes key, value] =>
      let nibbles := bytesToNibbles key
      if isTerminator nibbles then
        match value with
        | .bytes value => .ok (.leaf (removeHexPrefix nibbles) value)
        | .list _ => .error .shape
      else .ok (.extension (removeHexPrefix nibbles) value)
    | [.list _, _] => .error .shape
    | _ => .error .invalidNode

/-- Read a node of the database. -/
def decodeMPTNode (node : Bytes) : Except MPTError MPTNode :=
  match RLP.decode node with
  | .error e => .error (.rlp e)
  | .ok (.bytes _) => .error .invalidNode
  | .ok (.list raw) => decodeRawMPTNode raw

/-! ### The round trip -/

/-- A raw node reads back as the node. -/
theorem decodeRawMPTNode_rawList (n : MPTNode) : decodeRawMPTNode n.rawList = .ok n := by
  cases n with
  | branch branches value =>
    have hlen : (MPTNode.branch branches value).rawList.length = 17 := by simp [MPTNode.rawList]
    have hvalue : (MPTNode.branch branches value).rawList.getD 16 (.bytes []) = .bytes value := by
      simp [MPTNode.rawList, List.getD_eq_getElem?_getD]
    have hslots : (fun i : Nibble => (MPTNode.branch branches value).rawList.getD i (.bytes [])) =
        branches := by
      funext i
      rw [MPTNode.rawList, List.getD_eq_getElem?_getD, List.getElem?_append_left (by simp),
        List.getElem?_ofFn]
      simp
    unfold decodeRawMPTNode
    rw [if_pos hlen, hvalue, hslots]
  | extension nibbles value =>
    have hnib := bytesToNibbles_packed_addHexPrefix nibbles false
    have hterm := isTerminator_addHexPrefix nibbles false
    change (if _ then _ else _) = _
    rw [if_neg (by simp [MPTNode.rawList])]
    change (if isTerminator (bytesToNibbles (MPTNode.encodedKey nibbles false)) then _ else _) = _
    rw [MPTNode.encodedKey, hnib, hterm, removeHexPrefix_addHexPrefix]
    rfl
  | leaf nibbles value =>
    have hnib := bytesToNibbles_packed_addHexPrefix nibbles true
    have hterm := isTerminator_addHexPrefix nibbles true
    change (if _ then _ else _) = _
    rw [if_neg (by simp [MPTNode.rawList])]
    change (if isTerminator (bytesToNibbles (MPTNode.encodedKey nibbles true)) then _ else _) = _
    rw [MPTNode.encodedKey, hnib, hterm, removeHexPrefix_addHexPrefix]
    rfl

namespace MPTNode

theorem raw_injective : Function.Injective raw := by
  intro m n h
  have hlist : m.rawList = n.rawList := RLP.Input.list.inj h
  have hm := decodeRawMPTNode_rawList m
  rw [hlist, decodeRawMPTNode_rawList] at hm
  exact (Except.ok.inj hm).symm

/-- **A node reads back as it was written.** -/
theorem decode_serialize {n : MPTNode} (h64 : n.serialize.length < 2 ^ 64) :
    decodeMPTNode n.serialize = .ok n := by
  rw [decodeMPTNode, serialize, RLP.decode_encode h64]
  exact decodeRawMPTNode_rawList n

theorem serialize_injective {m n : MPTNode} (h64 : m.serialize.length < 2 ^ 64)
    (h : m.serialize = n.serialize) : m = n :=
  raw_injective (RLP.encode_injective h64 h)

end MPTNode

end Tvmjs
