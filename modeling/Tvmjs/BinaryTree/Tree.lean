import Tvmjs.BinaryTree.Node
import Tvmjs.Mpt.CheckpointDB

/-!
# The binary tree

`get`, `put` and `del` with the functions they are made of.  A stack is a list whose first member
is the one pushed last.  A tree without checkpoints is not changed by a read, and a write that
throws has changed nothing: the root is set once, when nothing can throw any more.
-/

namespace Tvmjs

open RLP (Input)

/-- The options of a tree. -/
structure BinaryTreeOpts where
  /-- Hash function used for hashing the tree nodes. -/
  hashFunction : Bytes → Bytes
  /-- Whether the root is stored inside the database after every write. -/
  useRootPersistence : Bool := false

/-- A tree: its root and its database. -/
structure BinaryTree where
  root : Bytes
  db : CheckpointDB

/-- The result of a walk along a key. -/
structure BinaryPath where
  /-- The node of the key, if it was found. -/
  node : Option BinaryNode
  /-- The bits of the key that were not matched. -/
  remaining : List Bool
  /-- The nodes on the way with their paths. -/
  stack : List (BinaryNode × List Bool)

namespace BinaryNode

/-- An internal node without children. -/
def empty : BinaryNode := internal fun _ => none

/-- The children with one of them set; what is set at no index is not one of them. -/
def setChildren (children : Bool → Option ChildBinaryNode) (index : Option Bool)
    (child : Option ChildBinaryNode) : Bool → Option ChildBinaryNode :=
  match index with
  | some b => Function.update children b child
  | none => children

end BinaryNode

private theorem toNat_lt_width {n : ℤ} (h : 0 ≤ n ∧ n < NODE_WIDTH) :
    n.toNat < NODE_WIDTH := by omega

/-- The numbers that are indices of values (`assertValidSuffixIndex`). -/
def suffixOf (index : JSNumber) : Except BinaryTreeError (Fin NODE_WIDTH) :=
  match index with
  | .integer n =>
    if h : 0 ≤ n ∧ n < NODE_WIDTH then .ok ⟨n.toNat, toNat_lt_width h⟩
      else .error (.suffixIndex index)
  | .other _ => .error (.suffixIndex index)

/-- `setValue` for one index after the other. -/
def setValues (values : StemValues) (writes : List (Fin NODE_WIDTH × Option Bytes)) : StemValues :=
  writes.foldl (fun values write => Function.update values write.1 write.2) values

/-- `setLengthRight` to 32 bytes. -/
def setLengthRight32 (msg : Bytes) : Except BinaryTreeError Bytes :=
  if msg.length > 32 then .error (.inputLength msg.length)
  else .ok (msg ++ List.replicate (32 - msg.length) 0)

namespace BinaryTree

/-- The root for an empty tree. -/
def EMPTY_TREE_ROOT : Bytes := List.replicate 32 0

/-- The key under which the root is stored. -/
def ROOT_DB_KEY : Bytes := [0x5f, 0x5f, 0x72, 0x6f, 0x6f, 0x74, 0x5f, 0x5f]

/-- Create empty root node for initializing an empty tree: there is no node to be stored. -/
def createRootNode (t : BinaryTree) : BinaryTree :=
  { t with root := EMPTY_TREE_ROOT, db := t.db.batch [.del EMPTY_TREE_ROOT] }

/-- An empty tree over an empty database. -/
def create : BinaryTree := createRootNode ⟨EMPTY_TREE_ROOT, CheckpointDB.ofEntries []⟩

variable (opts : BinaryTreeOpts)

/-! ### Hashing -/

/-- The hash of nothing, or of 64 zero bytes, is 32 zero bytes. -/
def hash (msg : Option Bytes) : Except BinaryTreeError Bytes :=
  match msg with
  | none => .ok EMPTY_TREE_ROOT
  | some msg =>
    if msg = List.replicate 64 0 then .ok EMPTY_TREE_ROOT
    else if msg.length ≠ 32 ∧ msg.length ≠ 64 then .error .dataLength
    else .ok (opts.hashFunction msg)

/-- One layer of hashes from the one below. -/
def newLayerHashes : List Bytes → Except BinaryTreeError (List Bytes)
  | [] => .ok []
  | [_] => .error .typeError
  | a :: b :: currentLayerHashes => do
    let h ← hash opts (some (a ++ b))
    let rest ← newLayerHashes currentLayerHashes
    pure (h :: rest)

/-- While there is more than one hash at the current layer, combine them pairwise; as many layers
as there are hashes are enough. -/
def combineLayers : ℕ → List Bytes → Except BinaryTreeError Bytes
  | fuel + 1, a :: b :: currentLayerHashes => do
    let layer ← newLayerHashes opts (a :: b :: currentLayerHashes)
    combineLayers fuel layer
  | _, [h] => .ok h
  | _, _ => .error .typeError

/-- What a child adds to the hash of its parent. -/
def childHash : Option ChildBinaryNode → Bytes
  | some child => asBytes child.hash
  | none => EMPTY_TREE_ROOT

/-- The hash of a node. -/
def merkelize : BinaryNode → Except BinaryTreeError Bytes
  | .internal children => hash opts (some (childHash (children false) ++ childHash (children true)))
  | .stem stem values => do
    let currentLayerHashes ← (List.ofFn values).mapM (hash opts)
    let layerHash ← combineLayers opts currentLayerHashes.length currentLayerHashes
    let padded ← setLengthRight32 stem
    hash opts (some (padded ++ layerHash))

/-! ### Finding a path -/

/-- The node stored under a hash; a list is no key of the database. -/
def loadNode (db : CheckpointDB) (missing : Bytes → BinaryTreeError) (hash : Input) :
    Except BinaryTreeError BinaryNode :=
  match hash with
  | .list _ => .error .typeError
  | .bytes key =>
    match db.view key with
    | none => .error (missing key)
    | some rawNode => decodeBinaryNode rawNode

/-- The walk from a child on.  In a tree every step goes down one bit at least. -/
def walk (db : CheckpointDB) (keyInBits : List Bool) :
    ℕ → Option ChildBinaryNode → List Bool → List (BinaryNode × List Bool) →
      Except BinaryTreeError BinaryPath
  | _, none, remaining, stack => .ok ⟨none, remaining, stack⟩
  | 0, some _, _, _ => .error .fuel
  | fuel + 1, some childNode, _, stack => do
    let decodedNode ← loadNode db (fun _ => .missingNodeAt childNode.path) childNode.hash
    -- how many bits match between the key and the path stored with the child
    let matchingKeyLength := matchingBitsLength keyInBits childNode.path
    match decodedNode with
    | .stem .. =>
      if matchingKeyLength = childNode.path.length then
        if matchingKeyLength = keyInBits.length ∧ keyInBits = childNode.path then
          pure ⟨some decodedNode, [], stack⟩
        else
          pure ⟨none, keyInBits.drop matchingKeyLength, (decodedNode, childNode.path) :: stack⟩
      else
        pure ⟨none, keyInBits.drop matchingKeyLength,
          (decodedNode, keyInBits.take matchingKeyLength) :: stack⟩
    | .internal children =>
      if matchingKeyLength = childNode.path.length ∧ matchingKeyLength = keyInBits.length then
        if keyInBits = childNode.path then pure ⟨some decodedNode, [], stack⟩
        else
          pure ⟨none, keyInBits.drop matchingKeyLength, (decodedNode, childNode.path) :: stack⟩
      else
        match keyInBits[matchingKeyLength]? with
        -- past the end of the key there is no child, not even a missing one
        | none => .error .typeError
        | some childIndex =>
          walk db keyInBits fuel (children childIndex) (keyInBits.drop matchingKeyLength)
            ((decodedNode, keyInBits.take matchingKeyLength) :: stack)

/-- Tries to find a path to the node for the given key. -/
def findPath (fuel : ℕ) (t : BinaryTree) (keyInBytes : Bytes) :
    Except BinaryTreeError BinaryPath :=
  let keyInBits := allBits keyInBytes
  if t.root = EMPTY_TREE_ROOT then .ok ⟨none, keyInBits, []⟩
  else do
    let rootNode ← loadNode t.db (fun _ => .rootNode) (.bytes t.root)
    match rootNode with
    | .stem stem _ =>
      if keyInBytes = stem then pure ⟨some rootNode, [], [(rootNode, [])]⟩
      else pure ⟨none, keyInBits, [(rootNode, [])]⟩
    | .internal children =>
      match keyInBits[0]? with
      | none => .error .typeError
      | some childIndex =>
        walk t.db keyInBits fuel (children childIndex) keyInBits [(rootNode, [])]

/-! ### Reading -/

/-- Gets values at a given stem and set of suffixes; nothing if the stem is not found. -/
def get (fuel : ℕ) (t : BinaryTree) (stem : Bytes) (suffixes : List JSNumber) :
    Except BinaryTreeError (List (Option Bytes)) := do
  if stem.length ≠ 31 then .error (.getStemLength stem.length)
  let suffixes ← suffixes.mapM suffixOf
  let stemPath ← findPath fuel t stem
  match stemPath.node with
  | some (.stem _ values) => pure (suffixes.map values)
  | _ => pure []

/-! ### Writing -/

/-- Sets the root. -/
def setRoot (t : BinaryTree) (value : Bytes) : Except BinaryTreeError BinaryTree :=
  if value.length ≠ 32 then .error .rootLength else .ok { t with root := value }

/-- Persists the root hash in the underlying database. -/
def persistRoot (t : BinaryTree) : BinaryTree :=
  if opts.useRootPersistence then { t with db := t.db.put ROOT_DB_KEY t.root } else t

/-- Saves a stack of nodes to the database, the one pushed first at first. -/
def saveStack (t : BinaryTree) (putStack : List (Bytes × BinaryNode)) : BinaryTree :=
  { t with db := t.db.batch (putStack.reverse.map fun e => .put e.1 e.2.serialize) }

/-- Creates the initial node of an empty tree. -/
def createInitialNode (t : BinaryTree) (stem : Bytes)
    (writes : List (Fin NODE_WIDTH × Option Bytes)) : Except BinaryTreeError BinaryTree := do
  let initialNode := BinaryNode.stem stem (setValues (fun _ => none) writes)
  let t ← t.setRoot (← merkelize opts initialNode)
  pure (persistRoot opts { t with db := t.db.put t.root initialNode.serialize })

/-- An internal node at a depth above a node on the way of a stem. -/
def parentOf (stemBits : List Bool) (depth : ℕ) (child : BinaryNode) :
    Except BinaryTreeError BinaryNode := do
  let hash ← merkelize opts child
  pure (.internal (BinaryNode.setChildren (fun _ => none) stemBits[depth]?
    (some ⟨.bytes hash, stemBits.take (depth + 1)⟩)))

/-- The node at which two stems part. -/
def splitNode (stemNode : BinaryNode) (stemBits : List Bool) (otherNode : BinaryNode)
    (otherBits : List Bool) (depth : ℕ) : Except BinaryTreeError BinaryNode := do
  let stemHash ← merkelize opts stemNode
  let otherHash ← merkelize opts otherNode
  pure (.internal (BinaryNode.setChildren
    (BinaryNode.setChildren (fun _ => none) stemBits[depth]? (some ⟨.bytes stemHash, stemBits⟩))
    otherBits[depth]? (some ⟨.bytes otherHash, otherBits⟩)))

/-- The internal nodes between a split and the parent above it, from the split on. -/
def branchChain (stemBits : List Bool) (parentDiffIndex : ℕ) :
    ℕ → BinaryNode → Except BinaryTreeError (List (BinaryNode × List Bool))
  | 0, _ => pure []
  | depth + 1, parent =>
    if depth > parentDiffIndex then do
      let newParent ← parentOf opts stemBits depth parent
      let rest ← branchChain stemBits parentDiffIndex depth newParent
      pure ((newParent, stemBits.take depth) :: rest)
    else pure []

/-- Updates or creates the parent internal nodes for a stem node; the nodes are returned with
their paths, the deepest first. -/
def updateBranch (stem : Bytes) (stemNode nearestNode : BinaryNode)
    (pathToNode pathToParent : List Bool) :
    Except BinaryTreeError (List (BinaryNode × List Bool)) :=
  let stemBits := allBits stem
  match nearestNode with
  | .stem nearestStem _ => do
    let nearestNodeStemBits := allBits nearestStem
    let diffIndex := matchingBitsLength stemBits nearestNodeStemBits
    let parentDiffIndex := matchingBitsLength pathToNode pathToParent
    let newInternal ← splitNode opts stemNode stemBits nearestNode nearestNodeStemBits diffIndex
    let chain ← branchChain opts stemBits parentDiffIndex diffIndex newInternal
    pure ((newInternal, stemBits.take diffIndex) :: chain)
  | .internal children => do
    let hash ← merkelize opts stemNode
    pure [(.internal (BinaryNode.setChildren children stemBits[pathToNode.length]?
      (some ⟨.bytes hash, stemBits⟩)), pathToNode)]

/-- Pushes updated nodes; the path of the last one is the path of the last update. -/
def pushUpdates (putStack : List (Bytes × BinaryNode)) (lastUpdatedParentPath : List Bool) :
    List (BinaryNode × List Bool) →
      Except BinaryTreeError (List (Bytes × BinaryNode) × List Bool)
  | [] => pure (putStack, lastUpdatedParentPath)
  | (node, parentPath) :: updated => do
    let hash ← merkelize opts node
    pushUpdates ((hash, node) :: putStack) parentPath updated

/-- Updates the remaining parents: the hash of each is that of the node pushed last.  What is left
is the entry of the root. -/
def updateParents (stemBits : List Bool) :
    List (BinaryNode × List Bool) → List (Bytes × BinaryNode) → List Bool →
      Except BinaryTreeError (BinaryNode × List (Bytes × BinaryNode) × List Bool)
  | [], _, _ => .error .typeError
  | [(rootNode, _)], putStack, lastUpdatedParentPath =>
    pure (rootNode, putStack, lastUpdatedParentPath)
  | (.stem .., path) :: _ :: _, _, _ => .error (.expectedInternal path)
  | (.internal children, path) :: above :: stack, putStack, lastUpdatedParentPath =>
    match putStack with
    | [] => .error .typeError
    | (hash, _) :: _ => do
      let node := BinaryNode.internal (BinaryNode.setChildren children stemBits[path.length]?
        (some ⟨.bytes hash, lastUpdatedParentPath⟩))
      let nodeHash ← merkelize opts node
      updateParents stemBits (above :: stack) ((nodeHash, node) :: putStack) path

/-- Internal nodes for a common prefix: the nodes below the new root are pushed. -/
def rootChain (stemBits : List Bool) :
    ℕ → BinaryNode → List (Bytes × BinaryNode) →
      Except BinaryTreeError (BinaryNode × List (Bytes × BinaryNode))
  | 0, newRoot, putStack => pure (newRoot, putStack)
  | depth + 1, newRoot, putStack => do
    let hash ← merkelize opts newRoot
    let parent ← parentOf opts stemBits depth newRoot
    rootChain stemBits depth parent ((hash, newRoot) :: putStack)

/-- The new root node and the nodes to be stored below it. -/
def updateRoot (stem : Bytes) (stemNode rootNode : BinaryNode)
    (putStack : List (Bytes × BinaryNode)) (lastUpdatedParentPath : List Bool) :
    Except BinaryTreeError (BinaryNode × List (Bytes × BinaryNode)) :=
  let stemBits := allBits stem
  match rootNode with
  | .stem rootStem _ =>
    if rootStem = stem then pure (stemNode, putStack)
    else do
      -- the root is split where the stems part
      let rootBits := allBits rootStem
      let commonPrefixLength := matchingBitsLength rootBits stemBits
      let split ← splitNode opts stemNode stemBits rootNode rootBits commonPrefixLength
      rootChain opts stemBits commonPrefixLength split putStack
  | .internal children =>
    match putStack with
    | [] => .error .typeError
    | (_, childReference) :: _ => do
      let hash ← merkelize opts childReference
      let path := match childReference with
        | .stem .. => stemBits
        | .internal _ => lastUpdatedParentPath
      pure (.internal (BinaryNode.setChildren children stemBits[0]? (some ⟨.bytes hash, path⟩)),
        putStack)

/-- What may be lifted in the place of an internal node: nothing if no child is left, the child if
it is the only one and a stem.  Otherwise the node stays. -/
def liftChild (db : CheckpointDB) (children : Bool → Option ChildBinaryNode) :
    Except BinaryTreeError (Option (Option ChildBinaryNode)) :=
  match children false, children true with
  | none, none => pure (some none)
  | some _, some _ => pure none
  | some remaining, none | none, some remaining => do
    match ← loadNode db .missingNode remaining.hash with
    | .stem siblingStem _ => pure (some (some ⟨remaining.hash, allBits siblingStem⟩))
    | .internal _ => pure none

/-- The way up of a deletion: what replaces the subtree below, whether it may still be lifted
further up, and the nodes to be stored. -/
def deleteUp (db : CheckpointDB) (stemBits : List Bool) :
    List (BinaryNode × List Bool) → Option ChildBinaryNode → Bool → List (Bytes × BinaryNode) →
      Except BinaryTreeError (Option ChildBinaryNode × List (Bytes × BinaryNode))
  | [], replacement, _, putStack => pure (replacement, putStack)
  | (.stem .., path) :: _, _, _, _ => .error (.expectedInternal path)
  | (.internal children, path) :: stack, replacement, collapsing, putStack => do
    let children := BinaryNode.setChildren children stemBits[path.length]? replacement
    match ← (if collapsing then liftChild db children else pure none) with
    | some replacement => deleteUp db stemBits stack replacement true putStack
    | none =>
      let hash ← merkelize opts (.internal children)
      deleteUp db stemBits stack (some ⟨.bytes hash, path⟩) false
        ((hash, .internal children) :: putStack)

/-- The root that a deletion leaves. -/
def replacementRoot : Option ChildBinaryNode → Except BinaryTreeError Bytes
  | none => .ok EMPTY_TREE_ROOT
  | some ⟨.bytes hash, _⟩ => .ok hash
  | some ⟨.list _, _⟩ => .error .typeError

/-- Removes an emptied stem and collapses branches left with a single stem. -/
def deleteStem (t : BinaryTree) (stem : Bytes) (stack : List (BinaryNode × List Bool)) :
    Except BinaryTreeError BinaryTree := do
  let stemBits := allBits stem
  -- a stem root is the stem being deleted itself
  let stack := match stack with
    | [(.stem .., _)] => []
    | stack => stack
  let (replacement, putStack) ← deleteUp opts t.db stemBits stack none true []
  let t ← t.setRoot (← replacementRoot replacement)
  pure (persistRoot opts (t.saveStack putStack))

/-- The values of the stem node that a put starts from. -/
def valuesFrom (node : Option BinaryNode) (stem : Bytes) : StemValues :=
  match node with
  | some (.stem foundStem values) => if foundStem = stem then values else fun _ => none
  | _ => fun _ => none

/-- The internal nodes that a stem needs: what is left of the stack, the nodes to be stored and the
path of the last one. -/
def addInternals (stem : Bytes) (stemNode : BinaryNode) (stemHash : Bytes) :
    List (BinaryNode × List Bool) →
      Except BinaryTreeError (List (BinaryNode × List Bool) × List (Bytes × BinaryNode) × List Bool)
  | (nearestNode, nearestNodePath) :: (parent, parentPath) :: above => do
    let updated ← updateBranch opts stem stemNode nearestNode nearestNodePath parentPath
    let (putStack, path) ← pushUpdates opts [(stemHash, stemNode)] (allBits stem) updated
    pure ((parent, parentPath) :: above, putStack, path)
  | stack => pure (stack, [(stemHash, stemNode)], allBits stem)

/-- Updates the remaining parents and the root, and saves all nodes. -/
def saveUpdates (t : BinaryTree) (stem : Bytes) (stemNode : BinaryNode)
    (stack : List (BinaryNode × List Bool)) (putStack : List (Bytes × BinaryNode))
    (lastUpdatedParentPath : List Bool) : Except BinaryTreeError BinaryTree := do
  let (rootNode, putStack, lastUpdatedParentPath) ←
    updateParents opts (allBits stem) stack putStack lastUpdatedParentPath
  let (rootNode, putStack) ← updateRoot opts stem stemNode rootNode putStack lastUpdatedParentPath
  let t ← t.setRoot (← merkelize opts rootNode)
  pure (persistRoot opts (t.saveStack ((t.root, rootNode) :: putStack)))

/-- Updates the tree. -/
def putStem (fuel : ℕ) (t : BinaryTree) (stem : Bytes)
    (writes : List (Fin NODE_WIDTH × Option Bytes)) : Except BinaryTreeError BinaryTree := do
  -- if the tree is empty, initialize it
  if t.root = EMPTY_TREE_ROOT then createInitialNode opts t stem writes
  else
    let foundPath ← findPath fuel t stem
    if foundPath.stack = [] then .error .rootNotFound
    else
      let values := setValues (valuesFrom foundPath.node stem) writes
      if values = fun _ => none then
        match foundPath.node with
        | none => pure t
        | some _ => deleteStem opts t stem foundPath.stack
      else
        let stemNode := BinaryNode.stem stem values
        let stemHash ← merkelize opts stemNode
        let (stack, putStack, lastUpdatedParentPath) ←
          addInternals opts stem stemNode stemHash foundPath.stack
        saveUpdates opts t stem stemNode stack putStack lastUpdatedParentPath

/-- Stores values at a stem, or deletes them where they are null.  Values may be left out, but then
what is written is undefined, which is no value of a node: hashing it throws. -/
def put (fuel : ℕ) (t : BinaryTree) (stem : Bytes) (suffixes : List JSNumber)
    (values : List (Option Bytes)) : Except BinaryTreeError BinaryTree := do
  if stem.length ≠ 31 then .error (.putStemLength stem.length)
  if values.length > 0 ∧ values.length ≠ suffixes.length then
    .error (.valuesLength values.length suffixes.length)
  let suffixes ← suffixes.mapM suffixOf
  if values = [] ∧ suffixes ≠ [] then .error .typeError
  putStem opts fuel t stem (suffixes.zip values)

/-- Deletes the values at some suffixes. -/
def del (fuel : ℕ) (t : BinaryTree) (stem : Bytes) (suffixes : List JSNumber) :
    Except BinaryTreeError BinaryTree :=
  put opts fuel t stem suffixes (List.replicate suffixes.length none)

end BinaryTree

end Tvmjs
