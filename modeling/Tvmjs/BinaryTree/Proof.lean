import Tvmjs.BinaryTree.Runs

/-!
# Proofs of the binary tree

A proof of a key is the list of the nodes on the way of its stem.  The verifier decodes the nodes,
stores each under its hash and reads the key from that.

* `verify_own` -- the proof a tree makes is accepted with the value of the key;
* `verify_faithful` -- an accepted proof tells what the tree has, if no entry of it has the hash of
  a node on the way without being this node.

The hash of a node does not commit to all that is read of it: not to the paths of the children,
the length of the stem or the values of 64 zero bytes.
-/

namespace Tvmjs

open RLP (Input)

namespace BinaryTree

open BitTrie

/-! ### The functions -/

/-- The nodes of a walk, from the root on. -/
def proofNodes (path : BinaryPath) : List BinaryNode :=
  (path.stack.map Prod.fst).reverse ++ path.node.toList

/-- Creates a proof from a tree and key. -/
def createBinaryProof (fuel : ℕ) (t : BinaryTree) (key : Bytes) :
    Except BinaryTreeError (List Bytes) := do
  let path ← findPath fuel t (key.take 31)
  pure ((proofNodes path).map BinaryNode.serialize)

/-- An entry of a proof with its hash. -/
def proofEntry (opts : BinaryTreeOpts) (bytes : Bytes) :
    Except BinaryTreeError (Bytes × BinaryNode) := do
  let node ← decodeBinaryNode bytes
  let hash ← merkelize opts node
  pure (hash, node)

/-- Saves the nodes from a proof into a tree of the default options. -/
def binaryTreeFromProof (defaults : BinaryTreeOpts) (proof : List Bytes) :
    Except BinaryTreeError BinaryTree := do
  let putStack ← proof.mapM (proofEntry defaults)
  let proofTrie := create.saveStack putStack.reverse
  match putStack with
  | [] => .error .typeError
  | (root, _) :: _ => proofTrie.setRoot root

/-- The last byte of a key as a number; what a shorter key has there is none. -/
def suffixOfKey (key : Bytes) : JSNumber :=
  match key[31]? with
  | some suffix => .integer suffix.toNat
  | none => .other "undefined"

/-- The last byte of a key as an index. -/
def suffixIndex (key : Bytes) : Fin NODE_WIDTH := ⟨(key.getD 31 0).toNat, (key.getD 31 0).toNat_lt⟩

/-- The value that the last node of a proof has for a key. -/
def expectedValue (lastNode : BinaryNode) (stem : Bytes) (suffix : Fin NODE_WIDTH) :
    Option Bytes :=
  match lastNode with
  | .stem lastStem values => if lastStem = stem then values suffix else none
  | .internal _ => none

/-- The value read against the one of the last node; null is falsy. -/
def checkValue (expected value : Option Bytes) : Except BinaryTreeError (Option Bytes) :=
  match expected, value with
  | none, some _ => .error .invalidProof
  | some expectedValue, some found =>
    if found ≠ expectedValue then .error .invalidProof else .ok value
  | _, none => .ok value

/-- Verifies a proof: the value from the key, or nothing if it is a valid proof of non-existence. -/
def verifyBinaryProof (defaults : BinaryTreeOpts) (fuel : ℕ) (rootHash key : Bytes)
    (proof : List Bytes) : Except BinaryTreeError (Option Bytes) :=
  match proof.getLast? with
  | none => if rootHash ≠ EMPTY_TREE_ROOT then .error .rootHash else .ok none
  | some lastBytes => do
    let proofTrie ← binaryTreeFromProof defaults proof
    if proofTrie.root ≠ rootHash then .error .rootHash
    else
      let stem := key.take 31
      let values ← get fuel proofTrie stem [suffixOfKey key]
      let lastNode ← decodeBinaryNode lastBytes
      checkValue (expectedValue lastNode stem (suffixIndex key)) (readAt values 0)

variable {opts : BinaryTreeOpts}

/-! ### The nodes on the way -/

section Nodes

variable (opts) in
/-- What holds of all nodes of a trie holds of those on a way. -/
private theorem forall_descend {Q : BinaryNode → Prop} {k : List Bool} (hk : k.length = 248)
    {t : StemTrie} (cs : List (Bool → StemTrie)) (hcs : cs.length ≤ 248)
    (hplace : PlacedTrie (k.take cs.length) t) (hframes : ∀ e ∈ frameStack opts k cs, Q e.1)
    (h : t.Each (fun q v => Q (trieNode opts q v)) (k.take cs.length)) :
    (∀ node ∈ foundStem k (t.descend k cs).2, Q node) ∧
      ∀ e ∈ endStack k (t.descend k cs).2 ++ frameStack opts k (t.descend k cs).1, Q e.1 := by
  induction t generalizing cs with
  | nil => exact ⟨fun node h => absurd h (Option.not_mem_none node), hframes⟩
  | leaf w values =>
    rw [descend, foundStem, endStack]
    split
    · rename_i hsame
      refine ⟨fun node hnode => ?_, hframes⟩
      cases hnode
      exact h
    · refine ⟨fun node h => absurd h (Option.not_mem_none node), fun e he => ?_⟩
      rcases List.mem_cons.1 he with rfl | he
      · exact h
      · exact hframes e he
  | branch c ih =>
    have hlt := hplace.lt_length hk hcs
    have hnext := take_succ_eq hlt
    rw [descend]
    refine ih (bit k cs.length) (c :: cs) ?_ ?_ (fun e he => ?_) ?_
    · rw [List.length_cons]
      omega
    · rw [List.length_cons, hnext]
      exact hplace.child _
    · rcases List.mem_cons.1 he with rfl | he
      · exact h.1
      · exact hframes e he
    · rw [List.length_cons, hnext]
      exact h.2 _

/-- What a database says of a node. -/
def Shows (opts : BinaryTreeOpts) (db : CheckpointDB) (P : Prop) (node : BinaryNode) : Prop :=
  ∀ hash, merkelize opts node = .ok hash →
    db.view hash = some node.serialize ∨ db.view hash = none ∧ ¬ P

variable (opts) in
private theorem mem_frameStack_descend (k : List Bool) (t : StemTrie)
    (cs : List (Bool → StemTrie)) :
    frameStack opts k cs <:+ frameStack opts k (t.descend k cs).1 := by
  induction t generalizing cs with
  | nil => exact List.suffix_refl _
  | leaf w values => exact List.suffix_refl _
  | branch c ih => exact (List.suffix_cons _ _).trans (ih _ (c :: cs))

/-- If the database shows the nodes on a way, the way can be walked. -/
private theorem along_descend (hlen : ∀ msg, (opts.hashFunction msg).length = 32)
    {db : CheckpointDB}
    {P : Prop} {k : List Bool} (hk : k.length = 248)
    {t : StemTrie} (cs : List (Bool → StemTrie)) (hcs : cs.length ≤ 248)
    (hplace : PlacedTrie (k.take cs.length) t)
    (hfound : ∀ node ∈ foundStem k (t.descend k cs).2, Shows opts db P node)
    (hstack : ∀ e ∈ endStack k (t.descend k cs).2 ++ frameStack opts k (t.descend k cs).1,
      Shows opts db P e.1) : Along opts db P k cs.length t := by
  induction t generalizing cs with
  | nil => trivial
  | leaf w values =>
    have hmerkle := merkelize_trieNode hlen (p := k.take cs.length) (t := .leaf w values)
      (leaf_ne_nil w values) hplace.canonical hplace.sized
    rw [descend, foundStem] at hfound
    rw [descend, endStack] at hstack
    by_cases hsame : k = w
    · rw [if_pos hsame] at hfound
      exact hfound _ rfl _ hmerkle
    · rw [if_neg hsame] at hstack
      exact hstack _ List.mem_cons_self _ hmerkle
  | branch c ih =>
    have hlt := hplace.lt_length hk hcs
    have hnext := take_succ_eq hlt
    have hmerkle := merkelize_trieNode hlen (p := k.take cs.length) (t := .branch c)
      (branch_ne_nil c)
      hplace.canonical hplace.sized
    refine ⟨hstack (trieNode opts (k.take cs.length) (.branch c), k.take cs.length)
      (List.mem_append_right _ ?_) _ hmerkle, ?_⟩
    · exact (mem_frameStack_descend opts k _ (c :: cs)).subset List.mem_cons_self
    · refine ih (bit k cs.length) (c :: cs) ?_ ?_ hfound hstack
      · rw [List.length_cons]
        omega
      · rw [List.length_cons, hnext]
        exact hplace.child _

/-- What holds of all nodes of a trie holds of those in a proof. -/
private theorem forall_proofNodes {Q : BinaryNode → Prop} {k : List Bool} (hk : k.length = 248)
    {t : StemTrie} (hplace : PlacedTrie [] t) (h : t.Each (fun q v => Q (trieNode opts q v)) [])
    (r : List Bool) :
    ∀ node ∈ proofNodes ⟨foundStem k (t.descend k []).2, r, pathStack opts k t⟩, Q node := by
  obtain ⟨hfound, hstack⟩ := forall_descend opts hk [] (Nat.zero_le _) hplace nofun h
  intro node hnode
  rcases List.mem_append.1 hnode with hnode | hnode
  · obtain ⟨e, he, rfl⟩ := List.mem_map.1 (List.mem_reverse.1 hnode)
    rcases t with _ | ⟨w, values⟩ | c
    · exact hstack e he
    · cases List.mem_singleton.1 he
      exact h
    · exact hstack e he
  · exact hfound node (Option.mem_toList.1 hnode)

private theorem along_proofNodes (hlen : ∀ msg, (opts.hashFunction msg).length = 32)
    {db : CheckpointDB}
    {P : Prop} {k : List Bool} (hk : k.length = 248) {t : StemTrie} (hplace : PlacedTrie [] t)
    {r : List Bool}
    (h : ∀ node ∈ proofNodes ⟨foundStem k (t.descend k []).2, r, pathStack opts k t⟩,
      Shows opts db P node) : Along opts db P k 0 t := by
  have hstack : ∀ e ∈ pathStack opts k t, Shows opts db P e.1 := fun e he =>
    h _ (List.mem_append_left _ (List.mem_reverse.2 (List.mem_map.2 ⟨e, he, rfl⟩)))
  have hfound : ∀ node ∈ foundStem k (t.descend k []).2, Shows opts db P node := fun node hnode =>
    h _ (List.mem_append_right _ (Option.mem_toList.2 hnode))
  rcases t with _ | ⟨w, values⟩ | c
  · trivial
  · exact hstack _ List.mem_cons_self _
      (merkelize_trieNode hlen (p := []) (t := .leaf w values) nofun hplace.canonical hplace.sized)
  · exact along_descend hlen hk [] (Nat.zero_le _) hplace hfound hstack

/-- What the tree made from a proof has under a hash. -/
private theorem view_saveStack (ps : List (Bytes × BinaryNode)) (hash : Bytes) :
    (∃ e ∈ ps, e.1 = hash ∧ (create.saveStack ps).db.view hash = some e.2.serialize) ∨
      (∀ e ∈ ps, e.1 ≠ hash) ∧ (create.saveStack ps).db.view hash = none := by
  have hview : (create.saveStack ps).db.view hash =
      (((ps.map nodeEntry).lookup hash).or (create.db.entries.lookup hash)).join := by
    rw [CheckpointDB.view, entries_saveStack, CheckpointDB.lookup_append]
  rw [hview]
  rcases hlookup : (ps.map nodeEntry).lookup hash with _ | raw
  · refine .inr ⟨fun e he heq => ?_, ?_⟩
    · rw [List.lookup_eq_none_iff] at hlookup
      have hno := hlookup _ (List.mem_map.2 ⟨e, he, rfl⟩)
      rw [← heq] at hno
      simp [nodeEntry] at hno
    · change (List.lookup hash [(EMPTY_TREE_ROOT, none)]).join = none
      rw [List.lookup_cons]
      split
      · rfl
      · rfl
  · obtain ⟨l₁, l₂, hl, -⟩ := List.lookup_eq_some_iff.1 hlookup
    have hraw : (hash, raw) ∈ ps.map nodeEntry := by
      rw [hl]
      simp
    obtain ⟨e, he, heq⟩ := List.mem_map.1 hraw
    obtain ⟨rfl, rfl⟩ := Prod.mk.inj heq
    exact .inl ⟨e, he, rfl, rfl⟩

end Nodes

/-! ### Accepted proofs -/

private theorem exists_of_mapM {ε α β : Type} {f : α → Except ε β} {l : List α} {l' : List β}
    (h : l.mapM f = .ok l') : ∀ b ∈ l', ∃ a ∈ l, f a = .ok b := by
  induction l generalizing l' with
  | nil =>
    cases h
    exact nofun
  | cons a l ih =>
    rw [List.mapM_cons] at h
    rcases ha : f a with e | b
    · rw [ha] at h
      cases h
    · rcases hl : l.mapM f with e | bs
      · rw [ha, hl] at h
        cases h
      · rw [ha, hl] at h
        cases h
        intro b' hb'
        rcases List.mem_cons.1 hb' with rfl | hb'
        · exact ⟨a, List.mem_cons_self, ha⟩
        · obtain ⟨a', ha', hfa⟩ := ih hl b' hb'
          exact ⟨a', List.mem_cons_of_mem _ ha', hfa⟩

private theorem eq_of_checkValue {expected value v : Option Bytes}
    (h : checkValue expected value = .ok v) :
    v = value := by
  rw [checkValue.eq_def] at h
  split at h
  · cases h
  · split at h
    · cases h
    · cases h
      rfl
  · cases h
    rfl

private theorem binaryTreeFromProof_eq {defaults : BinaryTreeOpts} {proof : List Bytes}
    {s : BinaryTree}
    (h : binaryTreeFromProof defaults proof = .ok s) :
    ∃ putStack, proof.mapM (proofEntry defaults) = .ok putStack ∧
      s = { create.saveStack putStack.reverse with root := s.root } := by
  rw [binaryTreeFromProof] at h
  rcases hps : proof.mapM (proofEntry defaults) with e | putStack
  · rw [hps] at h
    cases h
  · refine ⟨putStack, rfl, ?_⟩
    rw [hps] at h
    rcases putStack with _ | ⟨⟨root, node⟩, rest⟩
    · cases h
    · change setRoot _ root = .ok s at h
      rw [setRoot] at h
      split at h
      · cases h
      · cases h
        rfl

/-- What an accepted proof reports is what is read from the tree made of it. -/
private theorem of_verify {defaults : BinaryTreeOpts} {fuel : ℕ} {rootHash key : Bytes}
    {proof : List Bytes}
    {value : Option Bytes}
    (h : verifyBinaryProof defaults fuel rootHash key proof = .ok value) :
    (rootHash = EMPTY_TREE_ROOT ∧ value = none) ∨
      ∃ putStack values, proof.mapM (proofEntry defaults) = .ok putStack ∧
        get fuel { create.saveStack putStack.reverse with root := rootHash } (key.take 31)
          [suffixOfKey key] = .ok values ∧ value = readAt values 0 := by
  rw [verifyBinaryProof] at h
  split at h
  · split at h
    · cases h
    · rename_i hroot
      cases h
      exact .inl ⟨not_not.1 hroot, rfl⟩
  · rename_i lastBytes hlast
    rcases htree : binaryTreeFromProof defaults proof with e | s
    · rw [htree] at h
      cases h
    · obtain ⟨putStack, hps, hs⟩ := binaryTreeFromProof_eq htree
      rw [htree] at h
      change (if s.root ≠ rootHash then _ else get fuel s (key.take 31) [suffixOfKey key] >>=
        fun values => decodeBinaryNode lastBytes >>= fun lastNode =>
          checkValue _ (readAt values 0)) = _ at h
      split at h
      · cases h
      · rename_i hroot
        rw [not_not.1 hroot] at hs
        rcases hget : get fuel s (key.take 31) [suffixOfKey key] with e | values
        · rw [hget] at h
          cases h
        · rcases hlastNode : decodeBinaryNode lastBytes with e | lastNode
          · rw [hget, hlastNode] at h
            cases h
          · rw [hget, hlastNode] at h
            exact .inr ⟨putStack, values, hps, hs ▸ hget, eq_of_checkValue h⟩

/-- The last byte of a key is an index. -/
private theorem mapM_suffixOfKey {key : Bytes} (hkey : key.length = 32) :
    [suffixOfKey key].mapM suffixOf = .ok [suffixIndex key] := by
  have hlt : 31 < key.length := by omega
  have hget : key[31]? = some key[31] := List.getElem?_eq_getElem hlt
  have hsuffix : suffixOf (suffixOfKey key) = .ok (suffixIndex key) := by
    have hbyte := key[31].toNat_lt
    have hgetD : key.getD 31 0 = key[31] := by
      rw [List.getD_eq_getElem?_getD, hget]
      rfl
    have hsuffix : suffixOfKey key = .integer key[31].toNat := by
      rw [suffixOfKey, hget]
    rw [hsuffix, suffixOf, dif_pos ⟨Int.natCast_nonneg _, by exact_mod_cast hbyte⟩]
    refine congrArg Except.ok (Fin.ext ?_)
    change key[31].toNat = (key.getD 31 0).toNat
    rw [hgetD]
  rw [List.mapM_cons, hsuffix]
  rfl

variable {s : BinaryTree} {t : StemTrie} {key : Bytes} {fuel : ℕ}
variable (hlen : ∀ msg, (opts.hashFunction msg).length = 32)

/-- Entries of a proof that have the hash of a node are that node. -/
def Faithful (opts : BinaryTreeOpts) (proof : List Bytes) (nodes : List BinaryNode) : Prop :=
  ∀ raw ∈ proof, ∀ node, decodeBinaryNode raw = .ok node → ∀ own ∈ nodes,
    merkelize opts node = merkelize opts own → node = own

private theorem proofEntry_eq {raw : Bytes} {e : Bytes × BinaryNode}
    (h : proofEntry opts raw = .ok e) :
    decodeBinaryNode raw = .ok e.2 ∧ merkelize opts e.2 = .ok e.1 := by
  rw [proofEntry] at h
  rcases hnode : decodeBinaryNode raw with err | node
  · rw [hnode] at h
    cases h
  · rcases hhash : merkelize opts node with err | hash
    · rw [hnode] at h
      change (merkelize opts node >>= _) = _ at h
      rw [hhash] at h
      cases h
    · rw [hnode] at h
      change (merkelize opts node >>= _) = _ at h
      rw [hhash] at h
      cases h
      exact ⟨rfl, hhash⟩

/-- The stem of another word is another stem. -/
private theorem expectedValue_of_ne {stem : Bytes} {w : List Bool} (hword : w.length = 248)
    (hne : allBits stem ≠ w) (values : StemValues) (i : Fin NODE_WIDTH) :
    expectedValue (.stem (bitsToBytes w) values) stem i = none := by
  refine if_neg fun heq => hne ?_
  rw [← heq, allBits_bitsToBytes (by rw [hword])]

/-- **The last node of a proof** has the value of the tree. -/
theorem expectedValue_last (h : Holds opts s t) (ht : t ≠ .nil) {stem : Bytes}
    (hstem : stem.length = 31) (r : List Bool) :
    ∃ init last, proofNodes ⟨foundStem (allBits stem) (t.descend (allBits stem) []).2, r,
        pathStack opts (allBits stem) t⟩ = init ++ [last] ∧
      ∀ i, expectedValue last stem i = trieValue t stem i := by
  have hk : (allBits stem).length = 248 := by rw [length_allBits, hstem]
  have hfound : foundStem (allBits stem) (t.descend (allBits stem) []).2 =
      (t.find 0 (allBits stem)).map fun values => .stem stem values := by
    rw [foundStem_descend h.placed, bitsToBytes_allBits]
    rfl
  rcases hfind : t.find 0 (allBits stem) with _ | values
  · -- the node pushed last is not that of the stem
    have hhead : ∃ e rest, pathStack opts (allBits stem) t = e :: rest ∧
        ∀ i, expectedValue e.1 stem i = none := by
      rcases hcase : t with _ | ⟨w, values⟩ | c
      · exact absurd hcase ht
      · rw [hcase, find_leaf] at hfind
        have hcanonical := h.placed.canonical
        rw [hcase] at hcanonical
        cases hcanonical with
        | leaf _ _ hword =>
          refine ⟨_, [], rfl, expectedValue_of_ne hword (fun heq => ?_) values⟩
          rw [if_pos heq] at hfind
          cases hfind
      · have hdescended := descended_descend hk (t := t) [] trivial (Nat.zero_le _) h.placed
          h.stored
        have hfocus : (t.descend (allBits stem) []).2.find (t.descend (allBits stem) []).1.length
            (allBits stem) = none := by
          rw [find_descend]
          exact hfind
        have hcs : (t.descend (allBits stem) []).1 ≠ [] := by
          rw [hcase]
          exact descend_branch_ne_nil _ c
        have hstack : pathStack opts (allBits stem) t =
            endStack (allBits stem) (t.descend (allBits stem) []).2 ++
              frameStack opts (allBits stem) (t.descend (allBits stem) []).1 := by
          rw [hcase]
          rfl
        rw [← hcase, hstack]
        rcases hend : (t.descend (allBits stem) []).2 with _ | ⟨w, values⟩ | c'
        · rcases hframes : (t.descend (allBits stem) []).1 with _ | ⟨c', cs⟩
          · exact absurd hframes hcs
          · exact ⟨_, _, rfl, fun i => rfl⟩
        · have hplaced := hdescended.placed.canonical
          rw [hend] at hplaced hfocus
          rw [find_leaf] at hfocus
          have hne : allBits stem ≠ w := by
            intro heq
            rw [if_pos heq] at hfocus
            cases hfocus
          rw [endStack, if_neg hne]
          cases hplaced with
          | leaf _ _ hword => exact ⟨_, _, rfl, expectedValue_of_ne hword hne values⟩
        · exact absurd hend (descend_ne_branch _ t [] c')
    obtain ⟨e, rest, hstack, hnone⟩ := hhead
    refine ⟨(rest.map Prod.fst).reverse, e.1, ?_, fun i => ?_⟩
    · rw [proofNodes, hfound, hfind, hstack, List.map_cons, List.reverse_cons]
      exact List.append_nil _
    · rw [hnone, trieValue, hfind]
      rfl
  · refine ⟨((pathStack opts (allBits stem) t).map Prod.fst).reverse, .stem stem values, ?_,
      fun i => ?_⟩
    · rw [proofNodes, hfound, hfind]
      rfl
    · rw [expectedValue, if_pos rfl, trieValue, hfind]
      rfl

variable (opts) in
/-- The first node of a proof is the one under the root. -/
private theorem proofNodes_eq_cons (ht : t ≠ .nil) (k : List Bool) (r : List Bool) :
    ∃ rest, proofNodes ⟨foundStem k (t.descend k []).2, r, pathStack opts k t⟩ =
      trieNode opts [] t :: rest := by
  have hlast : ∃ stack, pathStack opts k t = stack ++ [(trieNode opts [] t, [])] := by
    rcases t with _ | ⟨w, values⟩ | c
    · exact absurd rfl ht
    · exact ⟨[], rfl⟩
    · obtain ⟨l, hl⟩ := mem_frameStack_descend opts k (c (bit k 0)) [c]
      refine ⟨endStack k ((c (bit k 0)).descend k [c]).2 ++ l, ?_⟩
      rw [List.append_assoc]
      exact congrArg _ hl.symm
  obtain ⟨stack, hstack⟩ := hlast
  refine ⟨(stack.map Prod.fst).reverse ++ (foundStem k (t.descend k []).2).toList, ?_⟩
  rw [proofNodes, hstack, List.map_append, List.reverse_append]
  rfl

/-- A node as a tree has it: it reads back, and its string is in the database under its hash. -/
structure OwnNode (opts : BinaryTreeOpts) (db : CheckpointDB) (node : BinaryNode) : Prop where
  decode : decodeBinaryNode node.serialize = .ok node
  stored : ∃ hash, merkelize opts node = .ok hash ∧ db.view hash = some node.serialize

/-- The entries of a proof of such nodes. -/
private theorem mapM_proofEntry {db : CheckpointDB} {nodes : List BinaryNode}
    (h : ∀ node ∈ nodes, OwnNode opts db node) :
    ∃ putStack, (nodes.map BinaryNode.serialize).mapM (proofEntry opts) = .ok putStack ∧
      putStack.map Prod.snd = nodes ∧
      ∀ e ∈ putStack, merkelize opts e.2 = .ok e.1 ∧ db.view e.1 = some e.2.serialize := by
  induction nodes with
  | nil => exact ⟨[], rfl, rfl, nofun⟩
  | cons node nodes ih =>
    obtain ⟨putStack, hmap, hsnd, hall⟩ := ih fun n hn => h n (List.mem_cons_of_mem _ hn)
    obtain ⟨hdecode, hash, hmerkle, hview⟩ := h node List.mem_cons_self
    have hentry : proofEntry opts node.serialize = .ok (hash, node) := by
      rw [proofEntry, hdecode]
      change (merkelize opts node >>= _) = _
      rw [hmerkle]
      rfl
    refine ⟨(hash, node) :: putStack, ?_, by rw [List.map_cons, hsnd], fun e he => ?_⟩
    · rw [List.map_cons, List.mapM_cons, hentry, hmap]
      rfl
    · rcases List.mem_cons.1 he with rfl | he
      · exact ⟨hmerkle, hview⟩
      · exact hall e he

include hlen

/-- **An accepted proof tells what the tree has**, if no entry of it has the hash of a node on the
way without being this node. -/
theorem verify_faithful (h : Holds opts s t) (hkey : key.length = 32) (hfuel : 248 ≤ fuel)
    {own : BinaryPath} (hown : findPath fuel s (key.take 31) = .ok own) {proof : List Bytes}
    (hfaithful : Faithful opts proof (proofNodes own)) {value : Option Bytes}
    (hok : verifyBinaryProof opts fuel s.root key proof = .ok value) :
    value = trieValue t (key.take 31) (suffixIndex key) := by
  have hstem : (key.take 31).length = 31 := by rw [List.length_take, hkey]; rfl
  have hk : (allBits (key.take 31)).length = 248 := by rw [length_allBits, hstem]
  rcases of_verify hok with ⟨hempty, rfl⟩ | ⟨putStack, values, hps, hget, rfl⟩
  · rw [h.empty hempty]
    rfl
  · obtain ⟨path, hpath⟩ := path_of_get hget
    have hnode : path.node =
        (t.find 0 (allBits (key.take 31))).map fun values => .stem (key.take 31) values := by
      by_cases hempty : s.root = EMPTY_TREE_ROOT
      · rw [findPath, if_pos hempty] at hpath
        cases hpath
        rw [h.empty hempty]
        rfl
      · obtain ⟨r, hr⟩ := findPath_stored hlen hstem hempty h.root h.placed h.stored hfuel
        cases hown.symm.trans hr
        have hshows : ∀ node ∈ proofNodes ⟨foundStem (allBits (key.take 31))
            (t.descend (allBits (key.take 31)) []).2, r,
            pathStack opts (allBits (key.take 31)) t⟩,
            Shows opts (create.saveStack putStack.reverse).db False node := by
          intro node hnode hash hmerkle
          rcases view_saveStack putStack.reverse hash with ⟨e, he, rfl, hview⟩ | ⟨-, hview⟩
          · obtain ⟨raw, hraw, hentry⟩ := exists_of_mapM hps e (List.mem_reverse.1 he)
            obtain ⟨hdecode, hhash⟩ := proofEntry_eq hentry
            have hsame := hfaithful raw hraw e.2 hdecode node hnode (hhash.trans hmerkle.symm)
            exact .inl (hsame ▸ hview)
          · exact .inr ⟨hview, not_false⟩
        have halong := along_proofNodes hlen hk h.placed hshows
        rcases findPath_along hlen (s := { create.saveStack putStack.reverse with root := s.root })
          hstem hempty h.root h.placed halong hfuel with ⟨r', hr'⟩ | ⟨-, e, he⟩
        · cases hpath.symm.trans hr'
          change foundStem _ _ = _
          rw [foundStem_descend h.placed, bitsToBytes_allBits]
          rfl
        · rw [he] at hpath
          cases hpath
    have hvalues := get_of_path hstem (mapM_suffixOfKey hkey) hpath hnode
    cases hget.symm.trans hvalues
    exact readAt_find (key.take 31) [suffixIndex key] 0

omit hlen in
/-- The proof a tree makes has no entry in the place of another one. -/
private theorem faithful_own {db : CheckpointDB} {nodes : List BinaryNode}
    (h : ∀ node ∈ nodes, OwnNode opts db node) :
    Faithful opts (nodes.map BinaryNode.serialize) nodes := by
  intro raw hraw node hdecode own hown hhash
  obtain ⟨node', hnode', rfl⟩ := List.mem_map.1 hraw
  cases hdecode.symm.trans (h node' hnode').decode
  obtain ⟨hdecode', hash, hmerkle, hview⟩ := h node hnode'
  obtain ⟨hdecode'', hash', hmerkle', hview'⟩ := h own hown
  rw [hmerkle, hmerkle'] at hhash
  cases hhash
  rw [← hview'.symm.trans hview |> Option.some.inj] at hdecode'
  cases hdecode'.symm.trans hdecode''
  rfl

/-- **The proof a tree makes is accepted** with the value of the key. -/
theorem verify_own (h : Holds opts s t) (hkey : key.length = 32) (hfuel : 248 ≤ fuel) :
    ∃ own proof, findPath fuel s (key.take 31) = .ok own ∧
      createBinaryProof fuel s key = .ok proof ∧ Faithful opts proof (proofNodes own) ∧
      verifyBinaryProof opts fuel s.root key proof =
        .ok (trieValue t (key.take 31) (suffixIndex key)) := by
  have hstem : (key.take 31).length = 31 := by rw [List.length_take, hkey]; rfl
  have hk : (allBits (key.take 31)).length = 248 := by rw [length_allBits, hstem]
  by_cases hempty : s.root = EMPTY_TREE_ROOT
  · have hpath : findPath fuel s (key.take 31) = .ok ⟨none, allBits (key.take 31), []⟩ := by
      rw [findPath, if_pos hempty]
    refine ⟨_, [], hpath, ?_, fun e he => absurd he List.not_mem_nil, ?_⟩
    · rw [createBinaryProof, hpath]
      rfl
    · rw [h.empty hempty]
      exact if_neg (not_not.2 hempty)
  have ht : t ≠ .nil := by
    rintro rfl
    exact hempty h.root
  obtain ⟨r, hr⟩ := findPath_stored hlen hstem hempty h.root h.placed h.stored hfuel
  -- the nodes of the proof are nodes of the tree
  have hown : t.Each (fun q v => OwnNode opts s.db (trieNode opts q v)) [] := by
    refine Each.of_within fun q v hv hw => ?_
    have hplaced : PlacedTrie q v := ⟨hw.canonical h.placed.canonical, hw.all h.placed.sized⟩
    exact ⟨decode_trieNode hlen hplaced, trieHash opts v,
      merkelize_trieNode hlen hv hplaced.canonical hplaced.sized, (hw.each h.stored).top hv⟩
  have hnodes := forall_proofNodes (Q := OwnNode opts s.db) hk h.placed hown r
  refine ⟨_, _, hr, by rw [createBinaryProof, hr]; rfl, faithful_own hnodes, ?_⟩
  obtain ⟨putStack, hmap, hsnd, hall⟩ := mapM_proofEntry hnodes
  obtain ⟨rest, hcons⟩ := proofNodes_eq_cons opts ht (allBits (key.take 31)) r
  obtain ⟨init, last, hlast, hexpected⟩ := expectedValue_last h ht hstem r
  have htree : binaryTreeFromProof opts
      ((proofNodes ⟨foundStem (allBits (key.take 31)) (t.descend (allBits (key.take 31)) []).2, r,
        pathStack opts (allBits (key.take 31)) t⟩).map BinaryNode.serialize) =
        .ok { create.saveStack putStack.reverse with root := s.root } := by
    rw [binaryTreeFromProof, hmap]
    rw [hcons] at hsnd
    rcases putStack with _ | ⟨⟨root, node⟩, putStack⟩
    · cases hsnd
    · obtain ⟨rfl, -⟩ := List.cons.inj hsnd
      have hroot := (hall _ List.mem_cons_self).1
      rw [merkelize_trieNode hlen ht h.placed.canonical h.placed.sized] at hroot
      cases hroot
      rw [h.root]
      exact setRoot_trieHash hlen _ t
  -- each of them is found under its hash
  have hshows : ∀ node ∈ proofNodes ⟨foundStem (allBits (key.take 31))
      (t.descend (allBits (key.take 31)) []).2, r, pathStack opts (allBits (key.take 31)) t⟩,
      Shows opts (create.saveStack putStack.reverse).db True node := by
    intro node hnode hash hmerkle
    rcases view_saveStack putStack.reverse hash with ⟨e, he, rfl, hview⟩ | ⟨hno, -⟩
    · have hstored := (hall e (List.mem_reverse.1 he)).2
      obtain ⟨-, hash', hmerkle', hview'⟩ := hnodes node hnode
      cases hmerkle.symm.trans hmerkle'
      rw [hview, ← hstored]
      exact .inl hview'
    · rw [← hsnd] at hnode
      obtain ⟨e, he, rfl⟩ := List.mem_map.1 hnode
      have hhash := (hall e he).1
      cases hmerkle.symm.trans hhash
      exact absurd rfl (hno e (List.mem_reverse.2 he))
  have halong := along_proofNodes hlen hk h.placed hshows
  rcases findPath_along hlen (s := { create.saveStack putStack.reverse with root := s.root })
    hstem hempty h.root h.placed halong hfuel with ⟨r', hr'⟩ | ⟨hno, -⟩
  · have hget := get_of_path hstem (mapM_suffixOfKey hkey) hr' (by
      change foundStem _ _ = _
      rw [foundStem_descend h.placed, bitsToBytes_allBits]
      rfl)
    have hread := readAt_find (t := t) (key.take 31) [suffixIndex key] 0
    change readAt _ 0 = trieValue t (key.take 31) (suffixIndex key) at hread
    have hlastNode : decodeBinaryNode last.serialize = .ok last := by
      refine (hnodes last ?_).decode
      rw [hlast]
      exact List.mem_append_right _ List.mem_cons_self
    have hgetLast : ((proofNodes ⟨foundStem (allBits (key.take 31))
        (t.descend (allBits (key.take 31)) []).2, r,
        pathStack opts (allBits (key.take 31)) t⟩).map BinaryNode.serialize).getLast? =
        some last.serialize := by
      rw [hlast, List.map_append]
      exact List.getLast?_concat
    rw [verifyBinaryProof, hgetLast]
    change (binaryTreeFromProof opts _ >>= _) = _
    rw [htree]
    change (if s.root ≠ s.root then _ else get fuel _ (key.take 31) [suffixOfKey key] >>= _) = _
    rw [if_neg (not_not.2 rfl), hget]
    change (decodeBinaryNode last.serialize >>= fun lastNode =>
      checkValue (expectedValue lastNode (key.take 31) (suffixIndex key)) (readAt _ 0)) = _
    rw [hlastNode, hread]
    change checkValue (expectedValue last _ _) _ = _
    rw [hexpected]
    rcases trieValue t (key.take 31) (suffixIndex key) with _ | value
    · rfl
    · exact if_neg (not_not.2 rfl)
  · exact absurd trivial hno

/-! ### Trees and the verifier's options -/

section Options

variable {opts' : BinaryTreeOpts} (h : opts.hashFunction = opts'.hashFunction)

include h

omit hlen

private theorem digest_congr : digest opts = digest opts' := by
  funext msg
  rw [digest, digest, h]

private theorem layerHash_congr (f : ℕ → Option Bytes) :
    ∀ j i, layerHash opts f j i = layerHash opts' f j i
  | 0, i => by
    rw [layerHash, layerHash]
    rcases f i with _ | value
    · rfl
    · exact congrFun (digest_congr h) value
  | j + 1, i => by
    rw [layerHash, layerHash, layerHash_congr f j, layerHash_congr f j, digest_congr h]

private theorem trieHash_congr (t : StemTrie) : trieHash opts t = trieHash opts' t := by
  induction t with
  | nil => rfl
  | leaf w values =>
    rw [trieHash, trieHash, digest_congr h, valuesHash, valuesHash, layerHash_congr h]
  | branch c ih => rw [trieHash, trieHash, ih, ih, digest_congr h]

private theorem trieNode_congr (p : List Bool) (t : StemTrie) :
    trieNode opts p t = trieNode opts' p t := by
  have hchild : ∀ p t, trieChild opts p t = trieChild opts' p t := by
    intro p t
    rcases t with _ | ⟨w, values⟩ | c
    · rfl
    · exact congrArg (fun hash => some (ChildBinaryNode.mk (.bytes hash) w)) (trieHash_congr h _)
    · exact congrArg (fun hash => some (ChildBinaryNode.mk (.bytes hash) p)) (trieHash_congr h _)
  cases t with
  | nil => rfl
  | leaf w values => rfl
  | branch c =>
    rw [trieNode, trieNode]
    congr 1
    funext b
    exact hchild _ _

/-- Whether a tree holds a trie depends on its hash function only. -/
theorem Holds.congr (ht : Holds opts s t) : Holds opts' s t where
  placed := ht.placed
  root := by rw [ht.root, trieHash_congr h]
  stored := ht.stored.mono fun q v hv => by
    rwa [NodeHeld, ← trieHash_congr h, ← trieNode_congr h]
  empty := ht.empty

end Options

omit hlen

/-- **Proofs of a tree.**  In every state a run from the empty tree reaches in which no first
write writes only nulls, if the tree has the hash function of the verifier: the proof made for a
key is accepted with the value of the key or its absence, and no proof is accepted with another
one in which every entry that has the hash of a node on the way is that node. -/
theorem verifyBinaryProof_correct {S : Set Bytes} (hS : HashOn opts S) (hfuel : 248 ≤ fuel)
    {ops : List BinaryTreeOp} (h : FairRun opts fuel S ops) {defaults : BinaryTreeOpts}
    (hhash : opts.hashFunction = defaults.hashFunction) (stem : Stem) (suffix : UInt8) :
    (∃ own proof, findPath fuel (runOps opts fuel create ops) stem.1 = .ok own ∧
      createBinaryProof fuel (runOps opts fuel create ops) (stem.1 ++ [suffix]) = .ok proof ∧
      Faithful defaults proof (proofNodes own) ∧
      verifyBinaryProof defaults fuel (runOps opts fuel create ops).root (stem.1 ++ [suffix])
        proof = .ok (mapOf ops stem (suffixIndex (stem.1 ++ [suffix])))) ∧
    ∀ own, findPath fuel (runOps opts fuel create ops) stem.1 = .ok own →
      ∀ proof, Faithful defaults proof (proofNodes own) → ∀ value,
        verifyBinaryProof defaults fuel (runOps opts fuel create ops).root (stem.1 ++ [suffix])
          proof = .ok value → value = mapOf ops stem (suffixIndex (stem.1 ++ [suffix])) := by
  obtain ⟨t, ht⟩ := h.describes hS hfuel
  have hholds := ht.holds.congr hhash
  have hlen' : ∀ msg, (defaults.hashFunction msg).length = 32 := hhash ▸ hS.length
  have hkey : (stem.1 ++ [suffix]).length = 32 := by
    rw [List.length_append, stem.2]
    rfl
  have htake : (stem.1 ++ [suffix]).take 31 = stem.1 := List.take_left' stem.2
  have hvalue : ∀ i, trieValue t stem.1 i = mapOf ops stem i := by
    intro i
    rw [← ht.values stem, trieValue, stemValues]
    rcases t.find 0 (allBits stem.1) with _ | values
    · rfl
    · rfl
  refine ⟨?_, fun own hown proof hfaithful value hok => ?_⟩
  · obtain ⟨own, proof, hown, hcreate, hfaithful, hverify⟩ := verify_own hlen' hholds hkey hfuel
    rw [htake] at hown
    rw [htake, hvalue] at hverify
    exact ⟨own, proof, hown, hcreate, hfaithful, hverify⟩
  · rw [← htake] at hown
    rw [verify_faithful hlen' hholds hkey hfuel hown hfaithful hok, htake, hvalue]

/-! ### A stem of 32 bytes -/

/-- The stem node of `putFirst` with a zero byte after the stem. -/
def longStem : BinaryNode :=
  .stem (sampleStem.1 ++ [0]) (setValues noValues [(0, some sampleValue.1)])

/-- **A key that is present is proved absent** by the stem node with a longer stem, whose hash is
the same. -/
theorem longStem_absent : HashOn sampleOpts {m | m ∈ firstMessages} ∧
    FairRun sampleOpts 248 {m | m ∈ firstMessages} [putFirst] ∧
    verifyBinaryProof sampleOpts 248 (runOps sampleOpts 248 create [putFirst]).root
      (sampleStem.1 ++ [0]) [longStem.serialize] = .ok none ∧
    mapOf [putFirst] sampleStem (suffixIndex (sampleStem.1 ++ [0])) = some sampleValue.1 :=
  ⟨hashOn_firstMessages, fairRun_putFirst, by decide +kernel, mapOf_putFirst⟩

/-- The proofs made for the key that was put and for one of another stem. -/
theorem verifyBinaryProof_correct_putFirst :
    (∃ proof, createBinaryProof 248 (runOps sampleOpts 248 create [putFirst])
        (sampleStem.1 ++ [0]) = .ok proof ∧
      verifyBinaryProof sampleOpts 248 (runOps sampleOpts 248 create [putFirst]).root
        (sampleStem.1 ++ [0]) proof = .ok (some sampleValue.1)) ∧
    ∃ proof, createBinaryProof 248 (runOps sampleOpts 248 create [putFirst])
        (absentStem.1 ++ [7]) = .ok proof ∧
      verifyBinaryProof sampleOpts 248 (runOps sampleOpts 248 create [putFirst]).root
        (absentStem.1 ++ [7]) proof = .ok none := by
  have hhash : sampleOpts.hashFunction = sampleOpts.hashFunction := rfl
  obtain ⟨-, proof, -, hcreate, -, hverify⟩ := (verifyBinaryProof_correct hashOn_firstMessages
    le_rfl fairRun_putFirst hhash sampleStem 0).1
  obtain ⟨-, proof', -, hcreate', -, hverify'⟩ := (verifyBinaryProof_correct hashOn_firstMessages
    le_rfl fairRun_putFirst hhash absentStem 7).1
  exact ⟨⟨proof, hcreate, hverify.trans (congrArg Except.ok mapOf_putFirst)⟩,
    proof', hcreate', hverify'.trans (congrArg Except.ok (mapOf_absentStem _))⟩

end BinaryTree

end Tvmjs
