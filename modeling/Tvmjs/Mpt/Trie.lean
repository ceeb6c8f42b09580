import Tvmjs.Base.Prog
import Tvmjs.Mpt.CheckpointDB
import Tvmjs.Mpt.Node

/-!
# The Merkle Patricia trie

`get`, `put` and `del` with the functions they are made of.  A stack of nodes is a list whose
first member is the node pushed last.
-/

namespace Tvmjs

/-- The options of a trie. -/
structure MPTOpts where
  /-- The hash function. -/
  useKeyHashingFunction : Bytes → Bytes
  /-- Whether keys are hashed before they are looked up. -/
  useKeyHashing : Bool := false
  /-- Whether replaced nodes are deleted from the database. -/
  useNodePruning : Bool := false
  /-- What stands before every hash in the database; empty where the option is not given. -/
  keyPrefix : Bytes := []

/-- A trie: its root and its database. -/
structure MerklePatriciaTrie where
  root : Bytes
  db : CheckpointDB

/-- A method of a trie. -/
abbrev TrieM := Prog MerklePatriciaTrie MPTError

/-- The result of a walk along a key. -/
structure Path where
  /-- The node of the key, if it was found. -/
  node : Option MPTNode
  /-- The part of the key the walk did not use up. -/
  remaining : Nibbles
  /-- The nodes on the way. -/
  stack : List MPTNode

/-- The encoding of the empty trie. -/
def RLP_EMPTY_STRING : Bytes := [0x80]

namespace MPTOpts

variable (opts : MPTOpts)

/-- The hash of the trie. -/
def hash (inputBytes : Bytes) : Bytes := opts.useKeyHashingFunction inputBytes

/-- The root of the empty trie. -/
def EMPTY_TRIE_ROOT : Bytes := opts.hash RLP_EMPTY_STRING

/-- The key of a node in the database. -/
def getDbKey (hash : Bytes) : Bytes := opts.keyPrefix ++ hash

/-- The key under which a key is kept: its hash where keys are hashed. -/
def appliedKey (key : Bytes) : Bytes := if opts.useKeyHashing then opts.hash key else key

end MPTOpts

namespace MPTNode

/-- What `value()` returns for a node that was found. -/
def value : MPTNode → Option Bytes
  | branch _ value => if value = [] then none else some value
  | leaf _ value => some value
  | extension _ (.bytes value) => some value
  | extension _ (.list _) => none

/-- The path of an extension or leaf; a branch has none. -/
def key : MPTNode → Nibbles
  | branch _ _ => []
  | extension nibbles _ => nibbles
  | leaf nibbles _ => nibbles

/-- How much of a key a node on the way takes. -/
def keyOffset : MPTNode → ℕ
  | branch _ _ => 1
  | n => n.key.length

end MPTNode

/-- `arr.splice(arr.length - n)`; a negative start counts from the end once more. -/
def spliceLast (arr : Nibbles) (n : ℕ) : Nibbles :=
  arr.take (if n ≤ arr.length then arr.length - n else 2 * arr.length - n)

namespace MerklePatriciaTrie

variable (opts : MPTOpts)

/-- An empty trie over a database. -/
def create (db : CheckpointDB) : MerklePatriciaTrie := ⟨opts.EMPTY_TRIE_ROOT, db⟩

/-- Sets the root. -/
def setRoot (value : Bytes) : TrieM Unit :=
  if value.length ≠ opts.EMPTY_TRIE_ROOT.length then
    Prog.throw (.rootLength opts.EMPTY_TRIE_ROOT.length value.length)
  else Prog.modify fun t => { t with root := value }

/-- Read the database. -/
def dbGet (key : Bytes) : TrieM (Option Bytes) := fun t =>
  (.ok (t.db.get key).1, { t with db := (t.db.get key).2 })

/-- Write a batch to the database. -/
def dbBatch (opStack : List BatchDBOp) : TrieM Unit :=
  Prog.modify fun t => { t with db := t.db.batch opStack }

/-! ### Finding a path -/

/-- Retrieves a node, from the database where it is given by its hash. -/
def lookupNode (node : RLP.Input) : TrieM MPTNode :=
  match node with
  | .list raw => Prog.ofExcept (decodeRawMPTNode raw)
  | .bytes hash => do
    match ← dbGet (opts.getDbKey hash) with
    | none => Prog.throw .missingNode
    | some value => Prog.ofExcept (decodeMPTNode value)

/-- `lookupNode` in a walk: unless told to throw, a walk ends at a missing node. -/
def walkLookup (throwIfMissing : Bool) (node : RLP.Input) : TrieM (Option MPTNode) :=
  Prog.tryCatch (some <$> lookupNode opts node) fun e =>
    if e = .missingNode ∧ throwIfMissing = false then pure none else Prog.throw e

/-- Walks from the node `nodeRef` along what is left of a key.  A walk takes at most one more
step than the key has nibbles where no extension is empty. -/
def walkFrom (throwIfMissing : Bool) :
    ℕ → RLP.Input → Nibbles → List MPTNode → TrieM Path
  | 0, _, _, _ => Prog.throw .depth
  | fuel + 1, nodeRef, rest, stack => do
    match ← walkLookup opts throwIfMissing nodeRef with
    | none => pure ⟨none, [], stack⟩
    | some (.branch branches value) =>
      let stack := MPTNode.branch branches value :: stack
      match rest with
      | [] => pure ⟨some (.branch branches value), [], stack⟩
      | branchIndex :: rest' =>
        match slotRef (branches branchIndex) with
        | none => pure ⟨none, rest, stack⟩
        | some branchNode => walkFrom throwIfMissing fuel branchNode rest' stack
    | some (.leaf nibbles value) =>
      let stack := MPTNode.leaf nibbles value :: stack
      if rest.length ≤ nibbles.length ∧ nibbles <+: rest then
        pure ⟨some (.leaf nibbles value), [], stack⟩
      else pure ⟨none, rest, stack⟩
    | some (.extension nibbles value) =>
      let stack := MPTNode.extension nibbles value :: stack
      if nibbles <+: rest then
        walkFrom throwIfMissing fuel value (rest.drop nibbles.length) stack
      else pure ⟨none, rest, stack⟩

/-- Finds the path from the root to the node of a key. -/
def findPath (key : Bytes) (throwIfMissing : Bool) : TrieM Path := do
  let root ← Prog.gets MerklePatriciaTrie.root
  let targetKey := bytesToNibbles key
  walkFrom opts throwIfMissing (targetKey.length + 1) (.bytes root) targetKey []

/-- Gets the value of a key. -/
def get (key : Bytes) (throwIfMissing : Bool) : TrieM (Option Bytes) := do
  let path ← findPath opts (opts.appliedKey key) throwIfMissing
  match path.node with
  | some node => pure (if path.remaining.length = 0 then node.value else none)
  | none => pure none

/-! ### Writing nodes -/

/-- The reference to a node, with the database operation that stores it: a node of 32 bytes or
more, and the root, is stored under its hash, a shorter one stands in its parent. -/
def formatNode (node : MPTNode) (topLevel remove : Bool) : RLP.Input × List BatchDBOp :=
  let encoded := node.serialize
  if 32 ≤ encoded.length ∨ topLevel then
    let nodeHash := opts.hash encoded
    let dbKey := opts.getDbKey nodeHash
    (.bytes nodeHash,
      if remove then if opts.useNodePruning then [.del dbKey] else []
      else [.put dbKey encoded])
  else (node.raw, [])

/-- One turn of `saveStack`: the node with the reference to its child put in, and the path to the
node. -/
def linkChild (pathNibbles : Nibbles) (node : MPTNode) (childHash : Option RLP.Input) :
    MPTNode × Nibbles :=
  match node, childHash with
  | .leaf nibbles value, _ => (.leaf nibbles value, spliceLast pathNibbles nibbles.length)
  | .extension nibbles _, some h =>
    (.extension nibbles h, spliceLast pathNibbles nibbles.length)
  | .extension nibbles value, none =>
    (.extension nibbles value, spliceLast pathNibbles nibbles.length)
  | .branch branches value, some h =>
    match pathNibbles.getLast? with
    | some branchIndex =>
      (.branch (Function.update branches branchIndex h) value, pathNibbles.dropLast)
    | none => (.branch branches value, pathNibbles)
  | .branch branches value, none => (.branch branches value, pathNibbles)

/-- The loop of `saveStack`: the reference to the last node and the operations. -/
def saveNodes : Nibbles → List MPTNode → Option RLP.Input → List BatchDBOp →
    Option RLP.Input × List BatchDBOp
  | _, [], childHash, opStack => (childHash, opStack)
  | pathNibbles, node :: stack, childHash, opStack =>
    let (node, pathNibbles) := linkChild pathNibbles node childHash
    let (ref, ops) := formatNode opts node stack.isEmpty false
    saveNodes pathNibbles stack (some ref) (opStack ++ ops)

/-- Writes the nodes of a stack, from the last one up, and sets the root. -/
def saveStack (pathNibbles : Nibbles) (stack : List MPTNode) (opStack : List BatchDBOp) :
    TrieM Unit := do
  let (childHash, opStack) := saveNodes opts pathNibbles stack none opStack
  match childHash with
  | some (.bytes root) => setRoot opts root
  | some (.list root) => Prog.throw (.rootLength opts.EMPTY_TRIE_ROOT.length root.length)
  | none => pure ()
  dbBatch opStack

/-- Creates the leaf of the first key. -/
def createInitialNode (key value : Bytes) : TrieM Unit := do
  let encoded := (MPTNode.leaf (bytesToNibbles key) value).serialize
  setRoot opts (opts.hash encoded)
  dbBatch [.put (opts.getDbKey (opts.hash encoded)) encoded]

/-- The operations which delete the nodes of a stack. -/
def createPruneDeleteOps (stack : List MPTNode) : List BatchDBOp :=
  stack.map fun node => .del (opts.getDbKey (opts.hash node.serialize))

/-! ### Putting -/

/-- Whether the last node is the leaf of the key. -/
def isMatchingLeafUpdate (lastNode : MPTNode) (stack : List MPTNode)
    (fullKeyNibbles keyRemainder : Nibbles) : Bool :=
  match lastNode with
  | .leaf nibbles _ =>
    let keyOffset := (stack.map MPTNode.keyOffset).sum
    keyRemainder.length = 0 ∧
      matchingNibbleLength nibbles (fullKeyNibbles.drop keyOffset) = nibbles.length
  | _ => false

/-- What takes the place of an extension or leaf which the key leaves: the new branch with what
the old node held, and the operation that stores the shortened node. -/
def splitNode (lastNode : MPTNode) (lastKey : Nibbles) :
    (Nibble → RLP.Input) × Bytes × List BatchDBOp :=
  let none : Nibble → RLP.Input := fun _ => .bytes []
  match lastKey, lastNode with
  | [], .leaf _ value => (none, value, [])
  | [], .extension _ (.bytes value) => (none, value, [])
  | [], _ => (none, [], [])
  | branchKey :: lastKey, .leaf _ value =>
    let (ref, ops) := formatNode opts (.leaf lastKey value) false false
    (Function.update none branchKey ref, [], ops)
  | branchKey :: lastKey, .extension nibbles value =>
    if lastKey.length ≠ 0 then
      let (ref, ops) := formatNode opts (.extension lastKey value) false false
      (Function.update none branchKey ref, [], ops)
    else
      let (_, ops) := formatNode opts (.extension nibbles value) false true
      (Function.update none branchKey value, [], ops)
  | _ :: _, .branch _ _ => (none, [], [])

/-- An update where the key leaves the path of the last node, an extension or a leaf: a branch is
put at the point of divergence. -/
def divergeFrom (fullKeyNibbles : Nibbles) (value : Bytes) (keyRemainder : Nibbles)
    (lastNode : MPTNode) (stack : List MPTNode) : TrieM Unit :=
  let matchingLength := matchingNibbleLength lastNode.key keyRemainder
  let stack :=
    if matchingLength ≠ 0 then
      .extension (lastNode.key.take matchingLength) (.bytes value) :: stack
    else stack
  let (branches, v, opStack) := splitNode opts lastNode (lastNode.key.drop matchingLength)
  match keyRemainder.drop matchingLength with
  | _ :: keyRemainder =>
    saveStack opts fullKeyNibbles (.leaf keyRemainder value :: .branch branches v :: stack) opStack
  | [] => saveStack opts fullKeyNibbles (.branch branches value :: stack) opStack

/-- Applies an update at the end of a path and saves the path. -/
def updateNode (keyBytes value : Bytes) (keyRemainder : Nibbles) (stack : List MPTNode) :
    TrieM Unit :=
  match stack with
  | [] => Prog.throw .stackUnderflow
  | lastNode :: stack =>
    let fullKeyNibbles := bytesToNibbles keyBytes
    if isMatchingLeafUpdate lastNode stack fullKeyNibbles keyRemainder then
      saveStack opts fullKeyNibbles (.leaf lastNode.key value :: stack) []
    else
      match lastNode with
      | .branch branches v =>
        match keyRemainder with
        | _ :: keyRemainder =>
          saveStack opts fullKeyNibbles
            (.leaf keyRemainder value :: .branch branches v :: stack) []
        | [] => saveStack opts fullKeyNibbles (.branch branches value :: stack) []
      | lastNode => divergeFrom opts fullKeyNibbles value keyRemainder lastNode stack

/-! ### Deleting -/

/-- The stack and its path when a branch with one child is replaced by what is left of it. -/
def collapseBranchWithOneChild (pathNibbles : Nibbles) (branchIndex : Nibble)
    (childNode : MPTNode) (parentNode : Option MPTNode) (nodeStack : List MPTNode) :
    Except MPTError (Nibbles × List MPTNode) :=
  match parentNode with
  | some (.leaf _ _) => .error .expectedExtension
  | some (.extension parentKey parentValue) =>
    match childNode with
    | .branch _ _ =>
      .ok (pathNibbles ++ [branchIndex],
        childNode :: .extension (parentKey ++ [branchIndex]) parentValue :: nodeStack)
    | .leaf childNodeKey value =>
      .ok (pathNibbles ++ branchIndex :: childNodeKey,
        .leaf (parentKey ++ branchIndex :: childNodeKey) value :: nodeStack)
    | .extension childNodeKey value =>
      .ok (pathNibbles ++ branchIndex :: childNodeKey,
        .extension (parentKey ++ branchIndex :: childNodeKey) value :: nodeStack)
  | _ =>
    let nodeStack := parentNode.toList ++ nodeStack
    match childNode with
    | .branch _ _ =>
      .ok (pathNibbles ++ [branchIndex],
        childNode :: .extension [branchIndex] (.bytes []) :: nodeStack)
    | .leaf childNodeKey value =>
      .ok (pathNibbles ++ branchIndex :: childNodeKey,
        .leaf (branchIndex :: childNodeKey) value :: nodeStack)
    | .extension childNodeKey value =>
      .ok (pathNibbles ++ branchIndex :: childNodeKey,
        .extension (branchIndex :: childNodeKey) value :: nodeStack)

/-- The key under which a child is stored, or would be if it was not embedded. -/
def childDbKey (branchNode : RLP.Input) : Bytes :=
  match branchNode with
  | .bytes hash => opts.getDbKey hash
  | .list raw => opts.getDbKey (opts.hash (RLP.encode (.list raw)))

/-- Save a branch whose value or child was taken out, below `stack`. -/
def saveBranch (pathNibbles : Nibbles) (branches : Nibble → RLP.Input) (value : Bytes)
    (parentNode : Option MPTNode) (stack : List MPTNode) (opStack : List BatchDBOp) :
    TrieM Unit := do
  match getChildren branches with
  | [(branchNodeKey, branchNode)] =>
    let opStack :=
      if opts.useNodePruning then opStack ++ [.del (childDbKey opts branchNode)] else opStack
    let foundNode ← lookupNode opts branchNode
    let (pathNibbles, stack) ← Prog.ofExcept
      (collapseBranchWithOneChild pathNibbles branchNodeKey foundNode parentNode stack)
    saveStack opts pathNibbles stack opStack
  | _ =>
    saveStack opts pathNibbles (.branch branches value :: (parentNode.toList ++ stack)) opStack

/-- Removes the key at the end of a path and saves the path.  The value of a branch stays: its
setter takes `null` for no argument. -/
def deleteNode (keyBytes : Bytes) (stack : List MPTNode) : TrieM Unit :=
  match stack with
  | [] => Prog.throw .missingLastNode
  | [_] => setRoot opts opts.EMPTY_TRIE_ROOT
  | lastNode :: parentNode :: stack =>
    let pathNibbles := bytesToNibbles keyBytes
    match lastNode with
    | .branch branches value =>
      saveBranch opts pathNibbles branches value (some parentNode) stack []
    | lastNode =>
      match parentNode with
      | .branch branches value =>
        let pathNibbles := spliceLast pathNibbles lastNode.key.length
        let (_, opStack) := formatNode opts lastNode false true
        let branches :=
          match pathNibbles.getLast? with
          | some branchIndex => Function.update branches branchIndex (.bytes [])
          | none => branches
        saveBranch opts pathNibbles.dropLast branches value stack.head? stack.tail opStack
      | _ => Prog.throw .expectedBranch

/-- Deletes a key. -/
def del (key : Bytes) : TrieM Unit := do
  let appliedKey := opts.appliedKey key
  let path ← findPath opts appliedKey false
  match path.node with
  | some _ =>
    deleteNode opts appliedKey path.stack
    if opts.useNodePruning then dbBatch (createPruneDeleteOps opts path.stack) else pure ()
  | none => if opts.useNodePruning then dbBatch [] else pure ()

/-- The nodes to delete once a value is stored. -/
def putPruneOps (key value : Bytes) (stack : List MPTNode) : TrieM (List BatchDBOp) := do
  let val ← get opts key false
  pure (if val = some value then [] else createPruneDeleteOps opts stack)

/-- Stores a value at a key, or deletes the key where the value is empty. -/
def put (key value : Bytes) : TrieM Unit := do
  if value.length = 0 then del opts key
  else do
    let root ← Prog.gets MerklePatriciaTrie.root
    let appliedKey := opts.appliedKey key
    if root = opts.EMPTY_TRIE_ROOT then createInitialNode opts appliedKey value
    else do
      let path ← findPath opts appliedKey true
      if opts.useNodePruning then do
        let ops ← putPruneOps opts key value path.stack
        updateNode opts appliedKey value path.remaining path.stack
        dbBatch ops
      else updateNode opts appliedKey value path.remaining path.stack

end MerklePatriciaTrie

end Tvmjs
