import Tvmjs.Base.TrieWalk
import Tvmjs.Mpt.Proof
import Tvmjs.Util.Hex

/-!
# Walking a trie of the database
`walkTrie` follows the references of a trie from its root on, in the order of the nibbles, and
passes over nodes it has seen before.  A node that stands embedded in a branch is looked up by its
hash, as if it stood in the database by itself.

* `walksLike` -- **the walk of the nodes is a walk of the trie they stand for**;
* `run_walkAllValueNodes` -- the value nodes that are found are those of that walk;
* `listsAll_entries`, `map_valuePair` -- what they are to list are the entries of the trie.
-/

namespace Tvmjs

open RLP (Input)

open PathTrie MerklePatriciaTrie

/-- A node a walk comes by, and the nibbles that lead to it. -/
abbrev FoundNode := MPTNode × Nibbles

namespace MerklePatriciaTrie

variable (opts : MPTOpts)

/-- Whether a reference is the root of the empty trie. -/
def isEmptyRoot : Input → Bool
  | .bytes nodeHash => nodeHash = opts.EMPTY_TRIE_ROOT
  | .list _ => false

/-- `lookupNode` within `try`: an error ends the walk here. -/
def foundNodeOf (nodeHash : Input) : TrieM (Option MPTNode) :=
  Prog.tryCatch (some <$> lookupNode opts nodeHash) fun _ => pure none

/-- Where the walk looks for the child in a slot of a branch. -/
def childHash : Input → Input
  | .bytes childNode => .bytes childNode
  | .list childNode => .bytes (opts.hash (RLP.encode (.list childNode)))

/-- The children of a branch, one after the other. -/
def walkBranches (walk : Nibble → Input → List Bytes → TrieM (List FoundNode × List Bytes))
    (branches : Nibble → Input) :
    List Nibble → List Bytes → TrieM (List FoundNode × List Bytes)
  | [], visited => pure ([], visited)
  | nibble :: nibbles, visited => do
    let here ← walk nibble (childHash opts (branches nibble)) visited
    let rest ← walkBranches walk branches nibbles here.2
    pure (here.1 ++ rest.1, rest.2)

/-- What `_walkTrie` does with a node it has found; `walk` goes on below. -/
def visitNode (walk : Input → Nibbles → List Bytes → TrieM (List FoundNode × List Bytes))
    (filter : MPTNode → Nibbles → Bool) (node : MPTNode) (currentKey : Nibbles)
    (visited : List Bytes) : TrieM (List FoundNode × List Bytes) :=
  let nodeKey := opts.hash node.serialize
  if nodeKey ∈ visited then pure ([], visited)
  else
    let yielded := [(node, currentKey)].filter fun found => filter found.1 found.2
    match node with
    | .branch branches _ => do
      let below ← walkBranches opts
        (fun nibble child visited => walk child (currentKey ++ [nibble]) visited)
        branches (List.finRange 16) (nodeKey :: visited)
      pure (yielded ++ below.1, below.2)
    | .extension nibbles value => do
      let below ← walk value (currentKey ++ nibbles) (nodeKey :: visited)
      pure (yielded ++ below.1, below.2)
    | .leaf _ _ => pure (yielded, nodeKey :: visited)

/-- `_walkTrie`: the nodes it yields, and the hashes of the nodes visited.  It comes to an end where
no node refers to itself. -/
def walkTrie (filter : MPTNode → Nibbles → Bool) :
    ℕ → Input → Nibbles → List Bytes → TrieM (List FoundNode × List Bytes)
  | 0, _, _, _ => Prog.throw .depth
  | fuel + 1, nodeHash, currentKey, visited =>
    if isEmptyRoot opts nodeHash then pure ([], visited)
    else do
      match ← foundNodeOf opts nodeHash with
      | none => pure ([], visited)
      | some node => visitNode opts (walkTrie filter fuel) filter node currentKey visited

/-- Whether a node holds a value. -/
def isValueNode : MPTNode → Bool
  | .leaf _ _ => true
  | .branch branches value => (MPTNode.branch branches value).value ≠ none
  | .extension _ _ => false

/-- Every value node of the trie with the nibbles that lead to it, in the order in which
`walkAllValueNodes` hands them to its callback. -/
def walkAllValueNodes (fuel : ℕ) : TrieM (List FoundNode) := do
  let root ← Prog.gets MerklePatriciaTrie.root
  let found ← walkTrie opts (fun node _ => isValueNode node) fuel (.bytes root) [] []
  pure found.1

end MerklePatriciaTrie

variable {opts : MPTOpts}

/-! ### The trie that is walked -/

/-- What the walk knows a subtrie by. -/
def treeMark (opts : MPTOpts) (t : Tree) : Bytes := opts.hash (treeNode opts t).serialize

/-- The node at the top of a subtrie stands in the database by itself. -/
def Stands (opts : MPTOpts) (d : CheckpointDB) (t : Tree) : Prop :=
  Holds opts d (treeNode opts t).serialize

instance (d : CheckpointDB) : DecidablePred (Stands opts d) := fun t =>
  inferInstanceAs (Decidable (d.view (opts.getDbKey (treeMark opts t)) =
    some (treeNode opts t).serialize))

/-- The nodes at some places, as the walk yields them. -/
def foundAt (opts : MPTOpts) (filter : MPTNode → Nibbles → Bool) (key : Nibbles)
    (l : List (Nibbles × Tree)) : List FoundNode :=
  (l.map fun e => (treeNode opts e.2, key ++ e.1)).filter fun found => filter found.1 found.2

private theorem foundAt_cons (filter : MPTNode → Nibbles → Bool) (key : Nibbles) (u : Tree)
    (l : List (Nibbles × Tree)) :
    foundAt opts filter key (([], u) :: l) =
      ([(treeNode opts u, key)].filter fun found => filter found.1 found.2) ++
        foundAt opts filter key l := by
  rw [foundAt, List.map_cons, List.append_nil, ← List.singleton_append, List.filter_append]
  rfl

theorem foundAt_append (filter : MPTNode → Nibbles → Bool) (key : Nibbles)
    (l l' : List (Nibbles × Tree)) :
    foundAt opts filter key (l ++ l') = foundAt opts filter key l ++
      foundAt opts filter key l' := by
  rw [foundAt, List.map_append, List.filter_append]
  rfl

private theorem foundAt_under (filter : MPTNode → Nibbles → Bool) (key p : Nibbles)
    (l : List (Nibbles × Tree)) :
    foundAt opts filter key (under p l) = foundAt opts filter (key ++ p) l := by
  rw [foundAt, under, List.map_map, foundAt]
  congr 2
  funext e
  simp

/-- What a walk of a trie rests on: the database holds its long nodes, and the strings that are
hashed lie in `S`. -/
structure Walkable (opts : MPTOpts) (S : Set Bytes) (d : CheckpointDB) (t : Tree) : Prop where
  stores : StoresIn opts S d
  stored : Stored opts d t
  nodes : ∀ e, NodeOf opts t e → e ∈ S
  short : t.Short (2 ^ 60)
  /-- No string stands under an empty hash. -/
  vacant : d.view (opts.getDbKey []) = none

/-- A reference that leads to a trie. -/
def Leads (opts : MPTOpts) (d : CheckpointDB) (ref : Input) (t : Tree) : Prop :=
  t = .nil ∧ ref = .bytes [] ∨ t ≠ .nil ∧ Resolves opts d ref (treeNode opts t)

/-! ### Single steps -/

section Steps

variable {S : Set Bytes} {d : CheckpointDB} {s : MerklePatriciaTrie} {t : Tree}

private theorem run_foundNodeOf_of_resolves {ref : Input} {n : MPTNode}
    (h : Resolves opts s.db ref n) :
    ∃ s', s.Reads s' ∧ (foundNodeOf opts ref).run s = (.ok (some n), s') := by
  obtain ⟨s', hs', hrun⟩ := run_lookupNode_of_resolves h
  have hmap : (some <$> lookupNode opts ref : TrieM (Option MPTNode)).run s =
      (.ok (some n), s') := by
    rw [map_eq_pure_bind, Prog.run_bind_of_ok hrun, Prog.run_pure]
  exact ⟨s', hs', by rw [foundNodeOf, Prog.run_tryCatch, hmap]⟩

private theorem run_foundNodeOf_of_dangling {ref : Input} (h : Dangling opts s.db ref) :
    ∃ s', s.Reads s' ∧ (foundNodeOf opts ref).run s = (.ok none, s') := by
  obtain ⟨s', hs', hrun⟩ := run_lookupNode_of_dangling h
  have hmap : (some <$> lookupNode opts ref : TrieM (Option MPTNode)).run s =
      (.error .missingNode, s') := by
    rw [map_eq_pure_bind, Prog.run_bind_of_error hrun]
  refine ⟨s', hs', ?_⟩
  rw [foundNodeOf, Prog.run_tryCatch, hmap]
  rfl

/-- A walk from a reference that leads nowhere. -/
private theorem run_walkTrie_of_dangling (filter : MPTNode → Nibbles → Bool) {ref : Input}
    (h : Dangling opts s.db ref) (fuel : ℕ) (key : Nibbles) (visited : List Bytes) :
    ∃ s', s.Reads s' ∧
      (walkTrie opts filter (fuel + 1) ref key visited).run s = (.ok ([], visited), s') := by
  rw [walkTrie]
  split
  · exact ⟨s, .refl s, rfl⟩
  · obtain ⟨s', hs', hrun⟩ := run_foundNodeOf_of_dangling h
    refine ⟨s', hs', ?_⟩
    rw [Prog.run_bind_of_ok hrun]
    rfl

variable (hlen : ∀ v, (opts.hash v).length = 32) (hS : Set.InjOn opts.hash S)
  (hempty : RLP_EMPTY_STRING ∈ S)

/-- The walk looks for an embedded node under its hash, too. -/
private theorem childHash_treeRef (ht : t ≠ .nil) :
    childHash opts (treeRef opts t) = .bytes (treeMark opts t) := by
  rw [treeRef_of_ne_nil ht, nodeRef]
  split
  · rfl
  · rfl

include hlen hS hempty in
/-- What is found is not the root of the empty trie. -/
private theorem isEmptyRoot_of_resolves (h : StoresIn opts S d) {ref : Input} {n : MPTNode}
    (hn : Resolves opts d ref n) : isEmptyRoot opts ref = false := by
  cases ref with
  | list raw => rfl
  | bytes nodeHash =>
    obtain ⟨hview, h64⟩ := hn
    rw [isEmptyRoot, decide_eq_false_iff_not]
    rintro rfl
    exact serialize_ne_empty h64 (h.addressed.eq_of_view hlen hS h.contents hempty hview)

theorem Walkable.child {c : Nibble → Tree} {v : Option Value}
    (h : Walkable opts S d (.branch c v)) (i : Nibble) : Walkable opts S d (c i) where
  stores := h.stores
  stored e he := h.stored e (Or.inr (Set.mem_iUnion.2 ⟨i, he⟩))
  nodes e he := by
    refine h.nodes e ?_
    have hfill := he.fill (.branch c v i)
    rwa [Frame.fill, Function.update_eq_self] at hfill
  short := h.short i
  vacant := h.vacant

theorem Walkable.of_ext {p : Nibbles} {c : Tree} (h : Walkable opts S d (.ext p c)) :
    Walkable opts S d c where
  stores := h.stores
  stored e he := h.stored e (Or.inr he)
  nodes e he := h.nodes e (he.fill (.ext p))
  short := h.short.2
  vacant := h.vacant

include hlen in
/-- The end of a path can be looked up: the node itself stands in the extension, or it is long. -/
theorem Walkable.leads (h : Walkable opts S d t) : Leads opts d (treeRef opts t) t := by
  by_cases ht : t = .nil
  · subst ht
    exact Or.inl ⟨rfl, rfl⟩
  · refine Or.inr ⟨ht, ?_⟩
    rw [treeRef_of_ne_nil ht, nodeRef]
    split
    · rename_i hlong
      exact ⟨h.stored _ (longString_subset opts ht ⟨rfl, hlong⟩),
        length_serialize_treeNode hlen h.short⟩
    · exact rfl

include hlen hS in
/-- A child of a branch is found if its node stands in the database. -/
private theorem Walkable.child_leads_or (h : Walkable opts S d t) :
    (t ≠ .nil → Stands opts d t) ∧ Leads opts d (childHash opts (treeRef opts t)) t ∨
      ¬ Stands opts d t ∧ Dangling opts d (childHash opts (treeRef opts t)) := by
  by_cases ht : t = .nil
  · subst ht
    exact Or.inl ⟨fun hne => absurd rfl hne, Or.inl ⟨rfl, rfl⟩⟩
  · rw [childHash_treeRef ht]
    obtain hview | hview := h.stores.view_or hlen hS (h.nodes _ (nodeOf_self ht))
    · exact Or.inl ⟨fun _ => hview, Or.inr ⟨ht, hview, length_serialize_treeNode hlen h.short⟩⟩
    · refine Or.inr ⟨fun hstands => ?_, _, rfl, hview⟩
      have hsame := hstands.symm.trans hview
      cases hsame

end Steps

/-! ### The walk -/

section Walk

variable {S : Set Bytes} {s₀ : MerklePatriciaTrie} {t : Tree}
  (hlen : ∀ v, (opts.hash v).length = 32) (hS : Set.InjOn opts.hash S)
  (hempty : RLP_EMPTY_STRING ∈ S) (filter : MPTNode → Nibbles → Bool)

/-- What a walk from a reference to `t` comes to, with enough fuel. -/
def WalksLike (opts : MPTOpts) (filter : MPTNode → Nibbles → Bool) (s₀ : MerklePatriciaTrie)
    (t : Tree) (fuel : ℕ) : Prop :=
  ∀ ref key visited s, s₀.Reads s → Leads opts s₀.db ref t → ∃ s', s₀.Reads s' ∧
    (walkTrie opts filter fuel ref key visited).run s =
      (.ok (foundAt opts filter key
          (t.walk (treeMark opts) (Stands opts s₀.db) visited).1,
        (t.walk (treeMark opts) (Stands opts s₀.db) visited).2), s')

theorem Leads.reads {d d' : CheckpointDB} {ref : Input} (h : Leads opts d ref t)
    (hr : d.Reads d') : Leads opts d' ref t := by
  obtain h | ⟨ht, h⟩ := h
  · exact Or.inl h
  · exact Or.inr ⟨ht, h.reads hr⟩

include hlen hS in
/-- The children of a branch. -/
private theorem run_walkBranches {c : Nibble → Tree} (hc : ∀ i, Walkable opts S s₀.db (c i))
    {fuel : ℕ}
    (h : ∀ i, WalksLike opts filter s₀ (c i) (fuel + 1)) (key : Nibbles) (nibbles : List Nibble)
    (visited : List Bytes) {s : MerklePatriciaTrie} (hs : s₀.Reads s) :
    ∃ s', s₀.Reads s' ∧ (walkBranches opts
        (fun nibble child visited => walkTrie opts filter (fuel + 1) child
          (key ++ [nibble]) visited)
        (fun i => treeRef opts (c i)) nibbles visited).run s =
      (.ok (foundAt opts filter key
          (walkChildren (treeMark opts) (Stands opts s₀.db) c nibbles visited).1,
        (walkChildren (treeMark opts) (Stands opts s₀.db) c nibbles visited).2), s') := by
  induction nibbles generalizing visited s with
  | nil => exact ⟨s, hs, rfl⟩
  | cons i nibbles ih =>
    have hslot : ∃ s', s₀.Reads s' ∧ (walkTrie opts filter (fuel + 1)
        (childHash opts (treeRef opts (c i))) (key ++ [i]) visited).run s =
        (.ok (foundAt opts filter (key ++ [i]) (if Stands opts s₀.db (c i) then
            (c i).walk (treeMark opts) (Stands opts s₀.db) visited else ([], visited)).1,
          (if Stands opts s₀.db (c i) then
            (c i).walk (treeMark opts) (Stands opts s₀.db) visited else ([], visited)).2), s') := by
      obtain ⟨hstands, hleads⟩ | ⟨hnot, hdangling⟩ := (hc i).child_leads_or hlen hS
      · obtain ⟨s', hs', hrun⟩ := h i _ (key ++ [i]) visited s hs hleads
        refine ⟨s', hs', ?_⟩
        by_cases hnil : c i = .nil
        · rw [hrun, hnil]
          split
          · rfl
          · rfl
        · rw [hrun, if_pos (hstands hnil)]
      · obtain ⟨s', hs', hrun⟩ := run_walkTrie_of_dangling filter (hdangling.reads hs.db) fuel
          (key ++ [i]) visited
        refine ⟨s', hs.trans hs', ?_⟩
        rw [hrun, if_neg hnot]
        rfl
    obtain ⟨s₁, hs₁, hrun₁⟩ := hslot
    obtain ⟨s₂, hs₂, hrun₂⟩ := ih _ hs₁
    refine ⟨s₂, hs₂, ?_⟩
    rw [walkBranches, Prog.run_bind_of_ok hrun₁, Prog.run_bind_of_ok hrun₂, walkChildren, walkSlots,
      foundAt_append, foundAt_under]
    rfl

include hlen hS hempty in
/-- A walk that comes to a node. -/
private theorem run_walkTrie_node (hstores : StoresIn opts S s₀.db) {ref : Input} {n : MPTNode}
    (hn : Resolves opts s₀.db ref n) (fuel : ℕ) (key : Nibbles) (visited : List Bytes)
    {s : MerklePatriciaTrie} (hs : s₀.Reads s) :
    ∃ s₁, s₀.Reads s₁ ∧ (walkTrie opts filter (fuel + 1) ref key visited).run s =
      (visitNode opts (walkTrie opts filter fuel) filter n key visited).run s₁ := by
  obtain ⟨s₁, hs₁, hrun⟩ := run_foundNodeOf_of_resolves (hn.reads hs.db)
  refine ⟨s₁, hs.trans hs₁, ?_⟩
  rw [walkTrie, if_neg (by rw [isEmptyRoot_of_resolves hlen hS hempty hstores hn]; decide),
    Prog.run_bind_of_ok hrun]

/-- A node that has been visited before. -/
private theorem run_visitNode_seen
    {walk : Input → Nibbles → List Bytes → TrieM (List FoundNode × List Bytes)}
    {key : Nibbles} {visited : List Bytes} (hseen : treeMark opts t ∈ visited)
    (s : MerklePatriciaTrie) :
    (visitNode opts walk filter (treeNode opts t) key visited).run s = (.ok ([], visited), s) := by
  rw [treeMark] at hseen
  rw [visitNode]
  simp only [if_pos hseen]
  rfl

include hlen hS hempty in
/-- **The walk of the nodes is a walk of the trie they stand for.** -/
theorem walksLike (h : Walkable opts S s₀.db t) :
    ∃ N, ∀ fuel ≥ N, WalksLike opts filter s₀ t fuel := by
  -- On the trie, with as much fuel for a node as its children need and one more.
  induction t with
  | nil =>
    refine ⟨1, fun fuel hfuel ref key visited s hs hleads => ?_⟩
    obtain ⟨fuel, rfl⟩ := Nat.exists_eq_add_of_le' hfuel
    obtain ⟨-, rfl⟩ | ⟨hne, -⟩ := hleads
    · have hdangling : Dangling opts s.db (.bytes []) := ⟨_, rfl, (hs.db.view _).trans h.vacant⟩
      obtain ⟨s', hs', hrun⟩ := run_walkTrie_of_dangling filter hdangling fuel key visited
      exact ⟨s', hs.trans hs', hrun⟩
    · exact absurd rfl hne
  | leaf p v =>
    refine ⟨1, fun fuel hfuel ref key visited s hs hleads => ?_⟩
    obtain ⟨fuel, rfl⟩ := Nat.exists_eq_add_of_le' hfuel
    obtain ⟨hnil, -⟩ | ⟨-, hn⟩ := hleads
    · cases hnil
    · obtain ⟨s₁, hs₁, hrun⟩ := run_walkTrie_node hlen hS hempty filter h.stores hn fuel key
        visited hs
      refine ⟨s₁, hs₁, ?_⟩
      rw [hrun, walk]
      -- a node that looks like one before it is passed over
      by_cases hseen : treeMark opts (.leaf p v) ∈ visited
      · rw [run_visitNode_seen filter hseen, if_pos hseen]
        rfl
      · have hseen' : opts.hash (MPTNode.leaf p v.1).serialize ∉ visited := hseen
        rw [if_neg hseen, foundAt_cons, treeNode, visitNode]
        simp only [if_neg hseen']
        rw [Prog.run_pure, foundAt, List.map_nil, List.filter_nil, List.append_nil]
        rfl
  | ext p c ih =>
    obtain ⟨N, hN⟩ := ih h.of_ext
    refine ⟨N + 1, fun fuel hfuel ref key visited s hs hleads => ?_⟩
    obtain ⟨fuel, rfl⟩ := Nat.exists_eq_add_of_le' (show 1 ≤ fuel by omega)
    obtain ⟨hnil, -⟩ | ⟨-, hn⟩ := hleads
    · cases hnil
    · obtain ⟨s₁, hs₁, hrun⟩ := run_walkTrie_node hlen hS hempty filter h.stores hn fuel key
        visited hs
      by_cases hseen : treeMark opts (.ext p c) ∈ visited
      · refine ⟨s₁, hs₁, ?_⟩
        rw [hrun, walk, run_visitNode_seen filter hseen, if_pos hseen]
        rfl
      · obtain ⟨s₂, hs₂, hbelow⟩ := hN fuel (by omega) _ (key ++ p)
          (treeMark opts (.ext p c) :: visited) s₁ hs₁ (h.of_ext.leads hlen)
        refine ⟨s₂, hs₂, ?_⟩
        have hseen' : opts.hash (MPTNode.extension p (treeRef opts c)).serialize ∉ visited := hseen
        rw [hrun, walk, if_neg hseen, foundAt_cons, foundAt_under, treeNode, visitNode]
        simp only [if_neg hseen']
        exact Prog.run_bind_of_ok hbelow
  | branch c v ih =>
    -- the children share their fuel, so they need the largest amount
    choose N hN using fun i => ih i (h.child i)
    refine ⟨Finset.univ.sup N + 2, fun fuel hfuel ref key visited s hs hleads => ?_⟩
    obtain ⟨fuel, rfl⟩ := Nat.exists_eq_add_of_le' (show 2 ≤ fuel by omega)
    obtain ⟨hnil, -⟩ | ⟨-, hn⟩ := hleads
    · cases hnil
    · obtain ⟨s₁, hs₁, hrun⟩ := run_walkTrie_node hlen hS hempty filter h.stores hn (fuel + 1) key
        visited hs
      by_cases hseen : treeMark opts (.branch c v) ∈ visited
      · refine ⟨s₁, hs₁, ?_⟩
        rw [hrun, walk, run_visitNode_seen filter hseen, if_pos hseen]
        rfl
      · have hchildren : ∀ i, WalksLike opts filter s₀ (c i) (fuel + 1) := fun i =>
          hN i (fuel + 1) (by have := Finset.le_sup (f := N) (Finset.mem_univ i); omega)
        obtain ⟨s₂, hs₂, hbelow⟩ := run_walkBranches hlen hS filter h.child hchildren key
          (List.finRange 16) (treeMark opts (.branch c v) :: visited) hs₁
        refine ⟨s₂, hs₂, ?_⟩
        have hseen' : opts.hash (MPTNode.branch (fun i => treeRef opts (c i))
            (valueBytes v)).serialize ∉ visited := hseen
        rw [hrun, walk, if_neg hseen, foundAt_cons, treeNode, visitNode]
        simp only [if_neg hseen']
        exact Prog.run_bind_of_ok hbelow

/-- The walk of a trie from its root. -/
def rootWalk (opts : MPTOpts) (d : CheckpointDB) (t : Tree) : List (Nibbles × Tree) :=
  (t.walk (treeMark opts) (Stands opts d) []).1

include hlen hS hempty in
/-- `walkAllValueNodes` finds the value nodes of that walk. -/
theorem run_walkAllValueNodes (h : Walkable opts S s₀.db t) (hroot : s₀.root = rootHash opts t)
    (htop : t ≠ .nil → Stands opts s₀.db t) :
    ∃ N, ∀ fuel ≥ N, ∀ s, s₀.Reads s → ∃ s', s₀.Reads s' ∧ (walkAllValueNodes opts fuel).run s =
      (.ok (foundAt opts (fun node _ => isValueNode node) [] (rootWalk opts s₀.db t)), s') := by
  obtain ⟨N, hN⟩ := walksLike hlen hS hempty (fun node _ => isValueNode node) h
  refine ⟨N + 1, fun fuel hfuel s hs => ?_⟩
  have hwalk : ∃ s', s₀.Reads s' ∧
      (walkTrie opts (fun node _ => isValueNode node) fuel (.bytes s.root) [] []).run s =
        (.ok (foundAt opts (fun node _ => isValueNode node) [] (rootWalk opts s₀.db t),
          (t.walk (treeMark opts) (Stands opts s₀.db) []).2), s') := by
    rw [hs.root, hroot]
    by_cases ht : t = .nil
    · subst ht
      obtain ⟨fuel, rfl⟩ := Nat.exists_eq_add_of_le' (show 1 ≤ fuel by omega)
      refine ⟨s, hs, ?_⟩
      rw [walkTrie, if_pos (by simp [isEmptyRoot, rootHash, PathTrie.isNil])]
      rfl
    · refine hN fuel (by omega) _ [] [] s hs (Or.inr ⟨ht, ?_⟩)
      rw [rootHash_of_ne_nil ht]
      exact ⟨htop ht, length_serialize_treeNode hlen h.short⟩
  obtain ⟨s', hs', hrun⟩ := hwalk
  refine ⟨s', hs', ?_⟩
  rw [walkAllValueNodes, Prog.run_bind_of_ok (Prog.run_gets _ _), Prog.run_bind_of_ok hrun]
  rfl

end Walk

/-! ### What the walk lists -/

/-- The pair of key and value a value node stands for. -/
def valuePair : FoundNode → Option (Nibbles × Bytes)
  | (.leaf nibbles value, key) => some (key ++ nibbles, value)
  | (.branch _ value, key) => some (key, value)
  | (.extension _ _, _) => none

/-- A list holds every pair of a trie once, and ascends. -/
structure ListsAll (l : List (Nibbles × Bytes)) (t : Tree) : Prop where
  ascending : l.Pairwise fun p q => p.1 < q.1
  mem : ∀ w value, (w, value) ∈ l ↔ (t.get w).map Subtype.val = some value

/-- The entries of a trie, as the code has them. -/
def pairsOf (l : List (Nibbles × Value)) : List (Nibbles × Bytes) := l.map fun e => (e.1, e.2.1)

theorem pairsOf_injective : Function.Injective pairsOf := by
  refine List.map_injective_iff.2 fun e e' h => ?_
  obtain ⟨hword, hvalue⟩ := Prod.mk.inj h
  exact Prod.ext hword (Subtype.ext hvalue)

theorem listsAll_entries (t : Tree) : ListsAll (pairsOf t.entries) t where
  ascending := List.pairwise_map.2 (sorted_entries t)
  mem w value := by
    rw [pairsOf, List.mem_map, Option.map_eq_some_iff]
    constructor
    · rintro ⟨e, he, heq⟩
      obtain ⟨rfl, rfl⟩ := Prod.mk.inj heq
      exact ⟨e.2, mem_entries.1 he, rfl⟩
    · rintro ⟨v, hv, rfl⟩
      exact ⟨(w, v), mem_entries.2 hv, rfl⟩

/-- Two such lists are equal. -/
theorem ListsAll.unique {l l' : List (Nibbles × Bytes)} {t : Tree} (h : ListsAll l t)
    (h' : ListsAll l' t) : l = l' := by
  have hnodup : ∀ {l : List (Nibbles × Bytes)}, ListsAll l t → l.Nodup := by
    intro l h
    refine h.ascending.imp ?_
    rintro p q hlt rfl
    exact lt_irrefl _ hlt
  have hperm : l.Perm l' := (List.perm_ext_iff_of_nodup (hnodup h) (hnodup h')).2 fun p => by
    rw [← Prod.mk.eta (p := p), h.mem, h'.mem]
  refine hperm.eq_of_pairwise (fun p q _ _ hlt hlt' => ?_) h.ascending h'.ascending
  exact absurd hlt (lt_asymm hlt')

/-- The pairs of the value nodes at some places are the entries these hold. -/
theorem map_valuePair (opts : MPTOpts) (l : List (Nibbles × Tree)) :
    (foundAt opts (fun node _ => isValueNode node) [] l).map valuePair =
      (pairsOf (entriesOf l)).map some := by
  induction l with
  | nil => rfl
  | cons e l ih =>
    obtain ⟨w, u⟩ := e
    have hhere : ([(treeNode opts u, w)].filter fun found => isValueNode found.1).map valuePair =
        (pairsOf (entryAt (w, u))).map some := by
      cases u with
      | nil => rfl
      | leaf p v => rfl
      | ext p c => rfl
      | branch c v =>
        cases v with
        | none => rfl
        | some v =>
          have hvalue : isValueNode (treeNode opts (.branch c (some v))) = true := by
            simp [isValueNode, treeNode, MPTNode.value, valueBytes, v.2.1]
          have hfilter : [(treeNode opts (.branch c (some v)), w)].filter
              (fun found => isValueNode found.1) = [(treeNode opts (.branch c (some v)), w)] :=
            List.filter_eq_self.2 (by simpa using hvalue)
          rw [hfilter]
          rfl
    have hcons : foundAt opts (fun node _ => isValueNode node) [] ((w, u) :: l) =
        ([(treeNode opts u, w)].filter fun found => isValueNode found.1) ++
          foundAt opts (fun node _ => isValueNode node) [] l := foundAt_append _ [] [(w, u)] l
    rw [hcons, List.map_append, ih, hhere, entriesOf_cons, pairsOf, pairsOf, pairsOf,
      List.map_append, List.map_append]

end Tvmjs
