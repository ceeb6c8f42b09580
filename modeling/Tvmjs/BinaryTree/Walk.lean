import Tvmjs.BinaryTree.Commitment

/-!
# The walk along a stem

`findPath` is `BitTrie.descend` on the trie the root stands for.

* `Stored` -- the database holds every node of a trie;
* `findPath_along` -- on a database that holds the nodes on the way of a key, or lacks some, a walk
  finds the path or throws; if it holds them all the path is found;
* `readAt_get` -- `get` is the lookup of the trie.
-/

namespace Tvmjs

open RLP (Input)

namespace BinaryTree

open BitTrie

/-- Values are strings of 32 bytes. -/
def SizedValues (values : StemValues) : Prop := ∀ i, ∀ value ∈ values i, value.length = 32

/-- A trie in its place, with values of 32 bytes. -/
structure PlacedTrie (p : List Bool) (t : StemTrie) : Prop where
  canonical : Canonical 248 p t
  sized : t.All SizedValues

theorem PlacedTrie.child {p : List Bool} {c : Bool → StemTrie} (h : PlacedTrie p (.branch c))
    (b : Bool) : PlacedTrie (p ++ [b]) (c b) :=
  ⟨h.canonical.child b, h.sized b⟩

variable {opts : BinaryTreeOpts}

variable (hlen : ∀ msg, (opts.hashFunction msg).length = 32)

section Sound

include hlen

/-- How a node refers to a trie has the right sizes. -/
private theorem soundChild_trieChild {p : List Bool} {t : StemTrie} (h : Canonical 248 p t) :
    ∀ child ∈ trieChild opts p t, BinaryNode.SoundChild child := by
  intro child hchild
  cases h with
  | nil => cases hchild
  | leaf values hstart hword =>
    cases hchild
    exact ⟨⟨_, rfl, length_trieHash hlen _⟩, by rw [hword]; decide⟩
  | branch hsides hsettled =>
    cases hchild
    have hplace := (Canonical.branch hsides hsettled).lt_length
    exact ⟨⟨_, rfl, length_trieHash hlen _⟩, by change p.length < 256; omega⟩

/-- The node at the top of a trie has the right sizes. -/
private theorem sound_trieNode {p : List Bool} {t : StemTrie} (h : PlacedTrie p t) :
    (trieNode opts p t).Sound := by
  obtain ⟨hc, hsized⟩ := h
  cases hc with
  | nil => exact nofun
  | leaf values hstart hword =>
    exact ⟨by rw [length_bitsToBytes, hword], hsized⟩
  | branch hchild hsettled => exact fun b => soundChild_trieChild hlen (hchild b)

theorem decode_trieNode {p : List Bool} {t : StemTrie} (h : PlacedTrie p t) :
    decodeBinaryNode (trieNode opts p t).serialize = .ok (trieNode opts p t) :=
  BinaryNode.decode_serialize (sound_trieNode hlen h)

end Sound

/-! ### What is on the way -/

/-- The node of a trie is in the database, or, unless `P`, nothing is in its place. -/
def Looks (opts : BinaryTreeOpts) (db : CheckpointDB) (P : Prop) (p : List Bool) (t : StemTrie) :
    Prop :=
  db.view (trieHash opts t) = some (trieNode opts p t).serialize ∨
    db.view (trieHash opts t) = none ∧ ¬ P

/-- The nodes on the way of a key, from a depth on, are in the database, or some are not. -/
def Along (opts : BinaryTreeOpts) (db : CheckpointDB) (P : Prop) (k : List Bool) :
    ℕ → StemTrie → Prop
  | _, .nil => True
  | d, .leaf w values => Looks opts db P (k.take d) (.leaf w values)
  | d, .branch c =>
    Looks opts db P (k.take d) (.branch c) ∧ Along opts db P k (d + 1) (c (bit k d))

/-- The node of a trie is in the database. -/
def NodeHeld (opts : BinaryTreeOpts) (db : CheckpointDB) (p : List Bool) (t : StemTrie) : Prop :=
  db.view (trieHash opts t) = some (trieNode opts p t).serialize

/-- The database holds every node of a trie. -/
def Stored (opts : BinaryTreeOpts) (db : CheckpointDB) (p : List Bool) (t : StemTrie) : Prop :=
  t.Each (NodeHeld opts db) p

/-- The next place on the way of a key. -/
theorem take_succ_eq {k : List Bool} {d : ℕ} (h : d < k.length) :
    k.take (d + 1) = k.take d ++ [bit k d] := by
  rw [List.take_add_one, List.getElem?_eq_getElem h, bit, List.getD_eq_getElem?_getD,
    List.getElem?_eq_getElem h]
  rfl

/-- A branching on the way of a key is above its end. -/
theorem PlacedTrie.lt_length {k : List Bool} {d : ℕ} {c : Bool → StemTrie} (hk : k.length = 248)
    (hd : d ≤ 248) (h : PlacedTrie (k.take d) (.branch c)) : d < k.length := by
  have hlt := h.canonical.lt_length
  rw [List.length_take] at hlt
  omega

theorem Stored.along {db : CheckpointDB} {k : List Bool} (hk : k.length = 248) {t : StemTrie}
    {d : ℕ} (hd : d ≤ 248) (hplace : PlacedTrie (k.take d) t) (h : Stored opts db (k.take d) t) :
    Along opts db True k d t := by
  induction t generalizing d with
  | nil => trivial
  | leaf w values => exact .inl h
  | branch c ih =>
    have hlt := hplace.lt_length hk hd
    refine ⟨.inl h.1, ih (bit k d) (by omega) ?_ ?_⟩
    · rw [take_succ_eq hlt]
      exact hplace.child _
    · rw [take_succ_eq hlt]
      exact h.2 _

/-- The nodes of the branchings passed, with their paths. -/
def frameStack (opts : BinaryTreeOpts) (k : List Bool) :
    List (Bool → StemTrie) → List (BinaryNode × List Bool)
  | [] => []
  | c :: cs =>
    (trieNode opts (k.take cs.length) (.branch c), k.take cs.length) :: frameStack opts k cs

@[simp] theorem length_frameStack (k : List Bool) (cs : List (Bool → StemTrie)) :
    (frameStack opts k cs).length = cs.length := by
  induction cs with
  | nil => rfl
  | cons c cs ih => rw [frameStack, List.length_cons, ih, List.length_cons]

/-- The node a walk finds. -/
def foundStem (k : List Bool) : StemTrie → Option BinaryNode
  | .leaf w values => if k = w then some (.stem (bitsToBytes w) values) else none
  | _ => none

/-- What a walk adds to its stack where it ends: a stem that is not the one sought. -/
def endStack (k : List Bool) : StemTrie → List (BinaryNode × List Bool)
  | .leaf w values =>
    if k = w then []
    else [(.stem (bitsToBytes w) values, k.take (matchingBitsLength k w))]
  | _ => []

section Walk

include hlen

theorem loadNode_of_view {db : CheckpointDB} (missing : Bytes → BinaryTreeError) {p : List Bool}
    {t : StemTrie} (h : PlacedTrie p t)
    (hview : db.view (trieHash opts t) = some (trieNode opts p t).serialize) :
    loadNode db missing (.bytes (trieHash opts t)) = .ok (trieNode opts p t) := by
  rw [loadNode, hview]
  exact decode_trieNode hlen h

/-- **The walk from a child on.** -/
theorem walk_along {db : CheckpointDB} {P : Prop} {k : List Bool} (hk : k.length = 248)
    {t : StemTrie} (cs : List (Bool → StemTrie)) (hcs : cs.length ≤ 248)
    (hplace : PlacedTrie (k.take cs.length) t) (h : Along opts db P k cs.length t) {fuel : ℕ}
    (hfuel : 249 ≤ fuel + cs.length) (remaining : List Bool) :
    (∃ r, walk db k fuel (trieChild opts (k.take cs.length) t) remaining (frameStack opts k cs) =
      .ok ⟨foundStem k (t.descend k cs).2, r,
        endStack k (t.descend k cs).2 ++ frameStack opts k (t.descend k cs).1⟩) ∨
    ¬ P ∧ ∃ e, walk db k fuel (trieChild opts (k.take cs.length) t) remaining
      (frameStack opts k cs) = .error e := by
  obtain ⟨fuel, rfl⟩ : ∃ m, fuel = m + 1 := ⟨fuel - 1, by omega⟩
  -- On the trie; a missing node on the way is where the walk fails, and then the path was not all
  -- there.
  induction t generalizing cs fuel remaining with
  | nil => exact .inl ⟨remaining, by rw [trieChild, walk]; rfl⟩
  | leaf w values =>
    rcases h with hview | ⟨hview, hP⟩
    · left
      have hload := loadNode_of_view hlen (fun _ => .missingNodeAt w) hplace hview
      have hword : w.length = 248 := by
        cases hplace.canonical with
        | leaf _ _ hword => exact hword
      rw [trieChild, walk, hload, trieNode]
      simp only [bind, Except.bind]
      -- the leaf is that of the stem, or one from which the stem parts
      by_cases hsame : k = w
      · subst hsame
        have hmatch : matchingBitsLength k k = k.length :=
          matchingBitsLength_of_isPrefix (List.prefix_refl k)
        refine ⟨[], ?_⟩
        simp only [hmatch, if_true, and_self, descend, foundStem, endStack, List.nil_append]
        rfl
      · obtain ⟨q, b, r, r', hq, hq', hmatch⟩ :=
          exists_matchingBits (hk.trans hword.symm) hsame
        have hne : matchingBitsLength k w ≠ w.length := by
          rw [hmatch, hq', List.length_append, List.length_cons]
          omega
        refine ⟨k.drop (matchingBitsLength k w), ?_⟩
        simp only [if_neg hne, descend, foundStem, endStack, if_neg hsame, List.singleton_append]
        rfl
    · right
      refine ⟨hP, .missingNodeAt w, ?_⟩
      rw [trieChild, walk, loadNode, hview]
      rfl
  | branch c ih =>
    obtain ⟨hview | ⟨hview, hP⟩, hbelow⟩ := h
    · have hlt := hplace.lt_length hk hcs
      have hnext := take_succ_eq hlt
      have hload := loadNode_of_view hlen (fun _ => .missingNodeAt (k.take cs.length)) hplace hview
      have hmatch : matchingBitsLength k (k.take cs.length) = cs.length := by
        rw [matchingBitsLength_of_isPrefix ( List.take_prefix _ _), List.length_take]
        omega
      have hbit : k[cs.length]? = some (bit k cs.length) := by
        rw [bit, List.getD_eq_getElem?_getD, List.getElem?_eq_getElem hlt]
        rfl
      -- at a branch the walk takes the bit of the stem at its depth
      have hstep : walk db k (fuel + 1) (trieChild opts (k.take cs.length) (.branch c)) remaining
          (frameStack opts k cs) =
            walk db k fuel (trieChild opts (k.take (cs.length + 1)) (c (bit k cs.length)))
              (k.drop cs.length) (frameStack opts k (c :: cs)) := by
        have hne : ¬ (cs.length = (k.take cs.length).length ∧ cs.length = k.length) := by
          rintro ⟨-, h⟩
          omega
        rw [trieChild, walk, hload, trieNode]
        simp only [bind, Except.bind, hmatch, if_neg hne, hbit, hnext, frameStack, trieNode]
      obtain ⟨fuel, rfl⟩ : ∃ m, fuel = m + 1 := ⟨fuel - 1, by omega⟩
      rw [hstep, descend]
      refine ih (bit k cs.length) (c :: cs) ?_ ?_ hbelow (k.drop cs.length) fuel ?_
      · rw [List.length_cons]
        omega
      · rw [List.length_cons, hnext]
        exact hplace.child _
      · rw [List.length_cons]
        omega
    · right
      refine ⟨hP, .missingNodeAt (k.take cs.length), ?_⟩
      rw [trieChild, walk, loadNode, hview]
      rfl

/-- The stack of a walk from the root on; a stem at the root is on it in any case. -/
def pathStack (opts : BinaryTreeOpts) (k : List Bool) : StemTrie → List (BinaryNode × List Bool)
  | .leaf w values => [(.stem (bitsToBytes w) values, [])]
  | t => endStack k (t.descend k []).2 ++ frameStack opts k (t.descend k []).1

/-- **The walk from the root on.** -/
theorem findPath_along {s : BinaryTree} {P : Prop} {t : StemTrie} {key : Bytes}
    (hkey : key.length = 31) (hne : s.root ≠ EMPTY_TREE_ROOT) (hroot : s.root = trieHash opts t)
    (hplace : PlacedTrie [] t) (h : Along opts s.db P (allBits key) 0 t) {fuel : ℕ}
    (hfuel : 248 ≤ fuel) :
    (∃ r, findPath fuel s key = .ok ⟨foundStem (allBits key) (t.descend (allBits key) []).2, r,
      pathStack opts (allBits key) t⟩) ∨ ¬ P ∧ ∃ e, findPath fuel s key = .error e := by
  have hk : (allBits key).length = 248 := by rw [length_allBits, hkey]
  -- The root is loaded by itself; from a branch on it is the loop that walks.
  rcases t with _ | ⟨w, values⟩ | c
  · exact absurd hroot hne
  · rcases h with hview | ⟨hview, hP⟩
    · left
      have hword : w.length = 248 := by
        cases hplace.canonical with
        | leaf _ _ hword => exact hword
      have hload := loadNode_of_view hlen (fun _ => .rootNode) hplace hview
      rw [findPath, if_neg hne, hroot, hload, trieNode]
      simp only [bind, Except.bind, descend, foundStem, pathStack]
      -- a stem at the root is compared with the key as a whole
      by_cases hsame : key = bitsToBytes w
      · have hbits : allBits key = w := by rw [hsame, allBits_bitsToBytes (by rw [hword])]
        rw [if_pos hsame, if_pos hbits]
        exact ⟨[], rfl⟩
      · have hbits : allBits key ≠ w := by
          intro heq
          exact hsame (by rw [← heq, bitsToBytes_allBits])
        rw [if_neg hsame, if_neg hbits]
        exact ⟨allBits key, rfl⟩
    · right
      refine ⟨hP, .rootNode, ?_⟩
      rw [findPath, if_neg hne, hroot, loadNode, hview]
      rfl
  · obtain ⟨hview | ⟨hview, hP⟩, hbelow⟩ := h
    · have hload := loadNode_of_view hlen (fun _ => .rootNode) hplace hview
      have hlt : 0 < (allBits key).length := by rw [hk]; decide
      have hbit : (allBits key)[0]? = some (bit (allBits key) 0) := by
        rw [bit, List.getD_eq_getElem?_getD, List.getElem?_eq_getElem hlt]
        rfl
      have hnext : (allBits key).take 1 = [] ++ [bit (allBits key) 0] := take_succ_eq hlt
      -- the child the first bit asks for is where the loop starts
      have hstep : findPath fuel s key =
          walk s.db (allBits key) fuel
            (trieChild opts ((allBits key).take 1) (c (bit (allBits key) 0))) (allBits key)
            (frameStack opts (allBits key) [c]) := by
        rw [findPath, if_neg hne, hroot, hload, trieNode]
        simp only [bind, Except.bind, hbit, hnext, frameStack, trieNode, List.length_nil,
          List.take_zero]
      rw [hstep]
      refine walk_along hlen hk [c] (by simp) ?_ hbelow (by simpa using hfuel) _
      change PlacedTrie ((allBits key).take 1) _
      rw [hnext]
      exact hplace.child _
    · right
      refine ⟨hP, .rootNode, ?_⟩
      rw [findPath, if_neg hne, hroot, loadNode, hview]
      rfl

theorem findPath_stored {s : BinaryTree} {t : StemTrie} {key : Bytes} (hkey : key.length = 31)
    (hne : s.root ≠ EMPTY_TREE_ROOT) (hroot : s.root = trieHash opts t) (hplace : PlacedTrie [] t)
    (h : Stored opts s.db [] t) {fuel : ℕ} (hfuel : 248 ≤ fuel) :
    ∃ r, findPath fuel s key = .ok ⟨foundStem (allBits key) (t.descend (allBits key) []).2, r,
      pathStack opts (allBits key) t⟩ := by
  have hk : (allBits key).length = 248 := by rw [length_allBits, hkey]
  have halong := Stored.along (k := allBits key) hk (d := 0) (by decide) hplace h
  rcases findPath_along hlen hkey hne hroot hplace halong hfuel with hok | ⟨hno, -⟩
  · exact hok
  · exact absurd trivial hno

end Walk

/-! ### Reading -/

/-- A state of a tree: its root stands for a trie, and the database holds it. -/
structure Holds (opts : BinaryTreeOpts) (s : BinaryTree) (t : StemTrie) : Prop where
  placed : PlacedTrie [] t
  root : s.root = trieHash opts t
  stored : Stored opts s.db [] t
  empty : s.root = EMPTY_TREE_ROOT → t = .nil

/-- What a tree has under a stem and an index. -/
def trieValue (t : StemTrie) (stem : Bytes) (i : Fin NODE_WIDTH) : Option Bytes :=
  (t.find 0 (allBits stem)).bind fun values => values i

/-- The stem that is found is that of the trie. -/
theorem foundStem_descend {t : StemTrie} {p : List Bool} (hplace : PlacedTrie p t)
    (k : List Bool) (cs : List (Bool → StemTrie)) :
    foundStem k (t.descend k cs).2 =
      (t.find cs.length k).map fun values => .stem (bitsToBytes k) values := by
  induction t generalizing p cs with
  | nil => rfl
  | leaf w values =>
    rw [descend, foundStem, find_leaf]
    split
    · rename_i heq
      rw [heq]
      rfl
    · rfl
  | branch c ih => rw [descend, ih _ (hplace.child _), List.length_cons, find_branch]

section Get

variable {s : BinaryTree} {t : StemTrie} {fuel : ℕ}

/-- What a read of one index makes of the values that were returned. -/
def readAt (values : List (Option Bytes)) (i : ℕ) : Option Bytes := values[i]?.join

/-- The indices of some suffixes are read one by one. -/
theorem mapM_suffixOf_length {suffixes : List JSNumber} {indices : List (Fin NODE_WIDTH)}
    (h : suffixes.mapM suffixOf = .ok indices) : indices.length = suffixes.length := by
  induction suffixes generalizing indices with
  | nil =>
    cases h
    rfl
  | cons x suffixes ih =>
    rw [List.mapM_cons] at h
    rcases hx : suffixOf x with e | i
    · rw [hx] at h
      cases h
    · rcases hrest : suffixes.mapM suffixOf with e | rest
      · rw [hx, hrest] at h
        cases h
      · rw [hx, hrest] at h
        cases h
        rw [List.length_cons, ih hrest, List.length_cons]

/-- `get` reads what is found on the way. -/
theorem get_of_path {stem : Bytes} (hstem : stem.length = 31) {suffixes : List JSNumber}
    {indices : List (Fin NODE_WIDTH)} (hindices : suffixes.mapM suffixOf = .ok indices)
    {path : BinaryPath} (hfind : findPath fuel s stem = .ok path)
    (hnode : path.node = (t.find 0 (allBits stem)).map fun values => .stem stem values) :
    BinaryTree.get fuel s stem suffixes =
      .ok (((t.find 0 (allBits stem)).map fun values => indices.map values).getD []) := by
  rw [BinaryTree.get, if_neg (not_not.2 hstem)]
  change (suffixes.mapM suffixOf >>= fun suffixes => findPath fuel s stem >>= fun stemPath => _) = _
  rw [hindices]
  change (findPath fuel s stem >>= fun stemPath => _) = _
  rw [hfind]
  obtain ⟨node, rest, stack⟩ := path
  obtain rfl : node = _ := hnode
  rcases t.find 0 (allBits stem) with _ | values
  · rfl
  · rfl

/-- A read that returns has found its way. -/
theorem path_of_get {stem : Bytes} {suffixes : List JSNumber} {values : List (Option Bytes)}
    (h : BinaryTree.get fuel s stem suffixes = .ok values) :
    ∃ path, findPath fuel s stem = .ok path := by
  rw [BinaryTree.get] at h
  split at h
  · cases h
  · rcases hindices : suffixes.mapM suffixOf with e | indices
    · rw [hindices] at h
      cases h
    · rcases hfind : findPath fuel s stem with e | path
      · rw [hindices, hfind] at h
        cases h
      · exact ⟨path, rfl⟩

include hlen in
/-- **`get` is the lookup of the trie**: a stem that is not found reads as nothing at all. -/
theorem get_holds (h : Holds opts s t) {stem : Bytes} (hstem : stem.length = 31)
    {suffixes : List JSNumber} {indices : List (Fin NODE_WIDTH)}
    (hindices : suffixes.mapM suffixOf = .ok indices) (hfuel : 248 ≤ fuel) :
    BinaryTree.get fuel s stem suffixes =
      .ok (((t.find 0 (allBits stem)).map fun values => indices.map values).getD []) := by
  by_cases hne : s.root = EMPTY_TREE_ROOT
  · have hfind : findPath fuel s stem = .ok ⟨none, allBits stem, []⟩ := by
      rw [findPath, if_pos hne]
    refine get_of_path hstem hindices hfind ?_
    rw [h.empty hne]
    rfl
  · obtain ⟨r, hr⟩ := findPath_stored hlen hstem hne h.root h.placed h.stored hfuel
    refine get_of_path hstem hindices hr ?_
    change foundStem (allBits stem) _ = _
    rw [foundStem_descend h.placed, bitsToBytes_allBits]
    rfl

/-- What a read of one index returns. -/
theorem readAt_find (stem : Bytes) (indices : List (Fin NODE_WIDTH)) (i : ℕ) :
    readAt (((t.find 0 (allBits stem)).map fun values => indices.map values).getD []) i =
      (indices[i]?).bind (trieValue t stem) := by
  rw [readAt]
  rcases hfind : t.find 0 (allBits stem) with _ | values
  · rcases hi : indices[i]? with _ | j
    · rfl
    · rw [Option.bind_some, trieValue, hfind]
      rfl
  · rcases hi : indices[i]? with _ | j
    · rw [Option.map_some, Option.getD_some, List.getElem?_map, hi]
      rfl
    · rw [Option.map_some, Option.getD_some, List.getElem?_map, hi, Option.bind_some, trieValue,
        hfind]
      rfl

include hlen in
/-- Read one by one, the values returned are those of the trie. -/
theorem readAt_get (h : Holds opts s t) {stem : Bytes} (hstem : stem.length = 31)
    {suffixes : List JSNumber} {indices : List (Fin NODE_WIDTH)}
    (hindices : suffixes.mapM suffixOf = .ok indices) (hfuel : 248 ≤ fuel) :
    ∃ values, BinaryTree.get fuel s stem suffixes = .ok values ∧
      ∀ i, readAt values i = (indices[i]?).bind (trieValue t stem) :=
  ⟨_, get_holds hlen h hstem hindices hfuel, readAt_find stem indices⟩

end Get

end BinaryTree

end Tvmjs
