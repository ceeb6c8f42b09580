import Tvmjs.BinaryTree.Update

/-!
# One write to a tree

`run_putStem`: a write of some values of a stem makes the root that of the trie with these values,
and every node of that trie was pushed or is in the database already.  Where the hash does not
collide the new state then holds the new trie (`Saved.holds`).

The first write to an empty tree is different: it stores a stem node also where nothing but nulls
is written (`run_createInitialNode`).
-/

namespace Tvmjs

open RLP (Input)

namespace BinaryTree

open BitTrie

variable {opts : BinaryTreeOpts}

/-- A stem without values. -/
def noValues : StemValues := fun _ => none

/-- The values of a stem in a trie. -/
def stemValues (t : StemTrie) (k : List Bool) : StemValues := (t.find 0 k).getD noValues

/-- The trie with the values of a stem replaced; a stem without values is not in it. -/
def writeTrie (t : StemTrie) (k : List Bool) (values : StemValues) : StemTrie :=
  if values = noValues then t.erase 0 k else t.insert 0 k values

theorem sized_noValues : SizedValues noValues := fun _ _ => nofun

theorem sized_stemValues {t : StemTrie} (h : t.All SizedValues) (k : List Bool) :
    SizedValues (stemValues t k) := by
  rw [stemValues]
  rcases hfind : t.find 0 k with _ | values
  · exact sized_noValues
  · exact h.of_find hfind

/-- Values of 32 bytes are written one after the other. -/
theorem SizedValues.setValues {values : StemValues} (h : SizedValues values)
    {writes : List (Fin NODE_WIDTH × Option Bytes)}
    (hwrites : ∀ w ∈ writes, ∀ value ∈ w.2, value.length = 32) :
    SizedValues (setValues values writes) := by
  induction writes generalizing values with
  | nil => exact h
  | cons w writes ih =>
    have hfirst : SizedValues (Function.update values w.1 w.2) := by
      intro i value hvalue
      rw [Function.update_apply] at hvalue
      split at hvalue
      · exact hwrites w List.mem_cons_self value hvalue
      · exact h i value hvalue
    exact ih hfirst fun w' hw' => hwrites w' (List.mem_cons_of_mem _ hw')

/-! ### What a write leaves -/

/-- The entry of a pushed node. -/
def nodeEntry (e : Bytes × BinaryNode) : Bytes × Option Bytes := (e.1, some e.2.serialize)

/-- The root after a write is that of a trie, and the nodes of the trie were pushed or are in the
database that was there. -/
structure Saved (opts : BinaryTreeOpts) (db : CheckpointDB) (s : BinaryTree) (t : StemTrie) :
    Prop where
  placed : PlacedTrie [] t
  root : s.root = trieHash opts t
  nodes : ∃ rs ps, s.db.entries = rs ++ (ps.map nodeEntry ++ db.entries) ∧
    (∀ e ∈ rs, e.1 = ROOT_DB_KEY) ∧ (t ≠ .nil → Gathered opts db ps [] t)

/-- The writes of a put stand over those before it. -/
private theorem entries_batch (d : CheckpointDB) (opStack : List BatchDBOp) :
    (d.batch opStack).entries = (opStack.map BatchDBOp.entry).reverse ++ d.entries := by
  induction opStack generalizing d with
  | nil => rfl
  | cons op opStack ih =>
    rw [CheckpointDB.batch, ih, CheckpointDB.entries_write, List.map_cons, List.reverse_cons,
      List.append_assoc, List.singleton_append]

theorem entries_saveStack (s : BinaryTree) (ps : List (Bytes × BinaryNode)) :
    (s.saveStack ps).db.entries = ps.map nodeEntry ++ s.db.entries := by
  rw [saveStack, entries_batch, List.map_map, List.map_reverse, List.reverse_reverse]
  rfl

variable (opts) in
/-- The root is stored under its own key. -/
theorem entries_persistRoot (s : BinaryTree) :
    ∃ rs, (persistRoot opts s).db.entries = rs ++ s.db.entries ∧ ∀ e ∈ rs, e.1 = ROOT_DB_KEY := by
  rw [persistRoot]
  split
  · refine ⟨[(ROOT_DB_KEY, some s.root)], CheckpointDB.entries_write _ _, fun e he => ?_⟩
    rw [List.mem_singleton.1 he]
  · exact ⟨[], rfl, nofun⟩

private theorem root_persistRoot (s : BinaryTree) : (persistRoot opts s).root = s.root := by
  rw [persistRoot]
  split <;> rfl

/-- The end of every write: the nodes are saved and the root is persisted. -/
private theorem saved_persistRoot {s : BinaryTree} {t : StemTrie} (hplace : PlacedTrie [] t)
    {ps : List (Bytes × BinaryNode)} (hps : t ≠ .nil → Gathered opts s.db ps [] t) :
    Saved opts s.db (persistRoot opts (saveStack { s with root := trieHash opts t } ps)) t where
  placed := hplace
  root := root_persistRoot _
  nodes := by
    obtain ⟨rs, hentries, hrs⟩ :=
      entries_persistRoot opts (saveStack { s with root := trieHash opts t } ps)
    refine ⟨rs, ps, ?_, hrs, hps⟩
    rw [hentries, entries_saveStack]

variable (opts) in
/-- Where nothing is written the stem that the first write stores has no values. -/
theorem trieHash_noValues (k : List Bool) :
    trieHash opts (.leaf k noValues) = digest opts (bitsToBytes k ++ [0] ++ EMPTY_TREE_ROOT) := by
  have hnone : valuesHash opts noValues = EMPTY_TREE_ROOT := by
    refine layerHash_eq_empty_of_none fun n _ => ?_
    rw [valueAt]
    split <;> rfl
  rw [trieHash, hnone]

variable (hlen : ∀ msg, (opts.hashFunction msg).length = 32)

theorem setRoot_trieHash (hlen : ∀ msg, (opts.hashFunction msg).length = 32) (s : BinaryTree)
    (t : StemTrie) : s.setRoot (trieHash opts t) = .ok { s with root := trieHash opts t } := by
  rw [setRoot, if_neg]
  exact not_not.2 (length_trieHash hlen t)

/-! ### The first write -/

include hlen

/-- **The first write** makes the root that of one stem, whatever is written. -/
theorem run_createInitialNode {s : BinaryTree} {stem : Bytes} (hstem : stem.length = 31)
    {writes : List (Fin NODE_WIDTH × Option Bytes)}
    (hsized : SizedValues (setValues noValues writes)) :
    createInitialNode opts s stem writes =
      .ok (persistRoot opts (saveStack { s with
        root := trieHash opts (.leaf (allBits stem) (setValues noValues writes)) }
          [(trieHash opts (.leaf (allBits stem) (setValues noValues writes)),
            .stem stem (setValues noValues writes))])) := by
  have hmerkle : merkelize opts (.stem stem (setValues noValues writes)) =
      .ok (trieHash opts (.leaf (allBits stem) (setValues noValues writes))) := by
    rw [merkelize_stem hlen hstem hsized, trieHash, bitsToBytes_allBits]
  have hstep : createInitialNode opts s stem writes =
      (merkelize opts (.stem stem (setValues noValues writes)) >>= fun root =>
        s.setRoot root >>= fun t => pure (persistRoot opts { t with
          db := t.db.put t.root
            (BinaryNode.stem stem (setValues noValues writes)).serialize })) := rfl
  rw [hstep, hmerkle]
  change (s.setRoot _ >>= _) = _
  rw [setRoot_trieHash hlen]
  rfl

/-! ### Deletion -/

omit hlen in
/-- The stack of a stem that is found. -/
private theorem pathStack_of_find {t : StemTrie} {k : List Bool} (hfind : t.find 0 k ≠ none)
    {c : Bool → StemTrie} (ht : t = .branch c) :
    pathStack opts k t = frameStack opts k (t.descend k []).1 ∧
      (t.descend k []).2.erase (t.descend k []).1.length k = .nil := by
  have hend : (t.descend k []).2.find (t.descend k []).1.length k ≠ none := by
    rwa [find_descend]
  have hstack : pathStack opts k t =
      endStack k (t.descend k []).2 ++ frameStack opts k (t.descend k []).1 := by
    rw [ht]
    rfl
  rw [hstack]
  rcases hfocus : (t.descend k []).2 with _ | ⟨w, values⟩ | cs
  · rw [hfocus] at hend
    exact absurd rfl hend
  · rw [hfocus, find_leaf] at hend
    have hsame : k = w := by
      by_contra hne
      rw [if_neg hne] at hend
      exact hend rfl
    rw [endStack, if_pos hsame, BitTrie.erase, if_pos hsame]
    exact ⟨rfl, rfl⟩
  · exact absurd hfocus (descend_ne_branch k t [] cs)

/-- What stands above the stem that is deleted: nothing, where it is the root. -/
def stackAbove : List (BinaryNode × List Bool) → List (BinaryNode × List Bool)
  | [(.stem .., _)] => []
  | stack => stack

/-- **Deletion of a stem** leaves the trie without it. -/
theorem run_deleteStem {s : BinaryTree} {t : StemTrie} (h : Holds opts s t) {stem : Bytes}
    (hstem : stem.length = 31) (hfind : t.find 0 (allBits stem) ≠ none) :
    ∃ s', deleteStem opts s stem (pathStack opts (allBits stem) t) = .ok s' ∧
      Saved opts s.db s' (t.erase 0 (allBits stem)) := by
  have hk : (allBits stem).length = 248 := by rw [length_allBits, hstem]
  have hup : ∃ ps, deleteUp opts s.db (allBits stem)
      (stackAbove (pathStack opts (allBits stem) t)) none true [] =
        .ok (trieChild opts [] (t.erase 0 (allBits stem)), ps) ∧
      Gathered opts s.db ps [] (t.erase 0 (allBits stem)) := by
    rcases ht : t with _ | ⟨w, values⟩ | c
    · rw [ht] at hfind
      exact absurd rfl hfind
    · have hsame : allBits stem = w := by
        by_contra hne
        rw [ht, find_leaf, if_neg hne] at hfind
        exact hfind rfl
      rw [BitTrie.erase, if_pos hsame]
      exact ⟨[], rfl, gathered_stored trivial⟩
    · obtain ⟨hstack, hend⟩ := pathStack_of_find hfind ht
      have hdescended := descended_descend hk (t := t) [] trivial (Nat.zero_le _) h.placed h.stored
      have hnil : PlacedTrie ((allBits stem).take (t.descend (allBits stem) []).1.length) .nil :=
        ⟨.nil _, trivial⟩
      obtain ⟨ps, hrun, hgathered, -⟩ := run_deleteUp hlen hk hdescended.framed hdescended.depth
        hnil (gathered_stored trivial) (fun _ : true = true => rfl)
        fun h => absurd h.symm Bool.false_ne_true
      have hcollapse := collapse_descend_erase (allBits stem) t []
      rw [hend, List.length_nil] at hcollapse
      rw [hcollapse] at hrun hgathered
      rw [← ht, hstack]
      refine ⟨ps, Eq.trans ?_ hrun, hgathered⟩
      -- the stack is not that of a stem alone
      rcases hcs : (t.descend (allBits stem) []).1 with _ | ⟨c', cs⟩
      · rfl
      · rfl
  obtain ⟨ps, hrun, hgathered⟩ := hup
  have hroot : replacementRoot (trieChild opts [] (t.erase 0 (allBits stem))) =
      .ok (trieHash opts (t.erase 0 (allBits stem))) := by
    cases t.erase 0 (allBits stem) <;> rfl
  refine ⟨_, ?_, saved_persistRoot ⟨h.placed.canonical.erase _, All.erase h.placed.sized _ _⟩
    fun _ => hgathered⟩
  have hstep : deleteStem opts s stem (pathStack opts (allBits stem) t) =
      (deleteUp opts s.db (allBits stem)
        (stackAbove (pathStack opts (allBits stem) t)) none true [] >>= fun r =>
        replacementRoot r.1 >>= fun root =>
        s.setRoot root >>= fun t => pure (persistRoot opts (t.saveStack r.2))) := rfl
  rw [hstep, hrun]
  change (replacementRoot _ >>= _) = _
  rw [hroot]
  change (s.setRoot _ >>= _) = _
  rw [setRoot_trieHash hlen]
  rfl

/-! ### Insertion -/

section Insert

variable {s : BinaryTree} {k : List Bool} {stem : Bytes} (hk : k.length = 248)
  (hstem : allBits stem = k)

/-- The end of an insertion, once the new root is known. -/
private theorem saved_root {stemNode : BinaryNode} {stack : List (BinaryNode × List Bool)}
    {ps : List (Bytes × BinaryNode)} {last : List Bool} {t : StemTrie} (ht : t ≠ .nil)
    (hplace : PlacedTrie [] t) (ps' : List (Bytes × BinaryNode))
    (hrun : (updateParents opts (allBits stem) stack ps last >>= fun r =>
      updateRoot opts stem stemNode r.1 r.2.1 r.2.2) = .ok (trieNode opts [] t, ps'))
    (hgathered : Gathered opts s.db ((trieHash opts t, trieNode opts [] t) :: ps') [] t) :
    ∃ s', saveUpdates opts s stem stemNode stack ps last = .ok s' ∧ Saved opts s.db s' t := by
  have hmerkle := merkelize_trieNode hlen (p := []) ht hplace.canonical hplace.sized
  refine ⟨_, ?_, saved_persistRoot hplace fun _ => hgathered⟩
  have hstep : saveUpdates opts s stem stemNode stack ps last =
      ((updateParents opts (allBits stem) stack ps last >>= fun r =>
        updateRoot opts stem stemNode r.1 r.2.1 r.2.2) >>= fun r =>
      merkelize opts r.1 >>= fun root => s.setRoot root >>= fun t =>
        pure (persistRoot opts (t.saveStack ((t.root, r.1) :: r.2)))) := by
    rw [saveUpdates, bind_assoc]
  rw [hstep, hrun]
  change (merkelize opts (trieNode opts [] t) >>= _) = _
  rw [hmerkle]
  change (s.setRoot _ >>= _) = _
  rw [setRoot_trieHash hlen]
  rfl

include hk hstem

/-- **The way up of an insertion** below a branching. -/
theorem saved_branch (stemNode : BinaryNode) (cs : List (Bool → StemTrie)) (hne : cs ≠ [])
    (hframed : Framed opts s.db k cs) (hcs : cs.length ≤ 248) {u : StemTrie}
    {ps : List (Bytes × BinaryNode)} {last : List Bool} (h : Linked opts s.db k ps last cs.length u)
    (hplace : PlacedTrie [] (plug k cs u)) :
    ∃ s', saveUpdates opts s stem stemNode (frameStack opts k cs) ps last = .ok s' ∧
      Saved opts s.db s' (plug k cs u) := by
  obtain ⟨c, u', ps', last', hparents, hlinked, hplug, hother, -⟩ :=
    run_updateParents hlen hk hframed hne hcs h hplace
  rw [hplug] at hplace ⊢
  have hroot := run_updateRoot hlen hk hstem stemNode hlinked hplace
  have hlt : 0 < k.length := by rw [hk]; decide
  have hgathered := hlinked.gathered
  rw [take_succ_eq hlt] at hgathered
  refine saved_root hlen nofun hplace ps' ?_
    (hgathered.branch fun b hb => (hother b hb).2)
  rw [hstem, hparents]
  exact hroot

/-- **Insertion where the root is a stem**: it is replaced, or split where the stems part. -/
theorem saved_leaf {w : List Bool} {values values' : StemValues}
    (hplace : PlacedTrie [] (.leaf w values)) (hstored : NodeHeld opts s.db [] (.leaf w values))
    (hsized : SizedValues values') :
    ∃ s', saveUpdates opts s stem (.stem stem values') [(.stem (bitsToBytes w) values, [])]
        [(trieHash opts (.leaf k values'), .stem stem values')] k = .ok s' ∧
      Saved opts s.db s' (BitTrie.insert (.leaf w values) 0 k values') := by
  have hword : w.length = 248 := by
    cases hplace.canonical with
    | leaf _ _ hword => exact hword
  have hbytes : bitsToBytes k = stem := by rw [← hstem, bitsToBytes_allBits]
  have hplaced : PlacedTrie [] (BitTrie.insert (.leaf w values) 0 k values') :=
    ⟨hplace.canonical.insert hk List.nil_prefix values', All.insert hplace.sized 0 k hsized⟩
  -- the root is the stem itself, or another one
  by_cases hsame : k = w
  · have hinsert : BitTrie.insert (.leaf w values) 0 k values' = .leaf k values' := by
      rw [BitTrie.insert, if_pos hsame]
    rw [hinsert] at hplaced ⊢
    have hgathered := gathered_leaf opts s.db [] k values'
    rw [hbytes] at hgathered
    refine saved_root hlen (leaf_ne_nil k values') hplaced
      [(trieHash opts (.leaf k values'), .stem stem values')] ?_
      ⟨fun e he => ?_, .inl List.mem_cons_self⟩
    · change updateRoot opts stem (.stem stem values') (.stem (bitsToBytes w) values) _ k = _
      rw [updateRoot, ← hsame, if_pos hbytes, trieNode, hbytes]
      rfl
    · rw [trieNode, hbytes] at he
      rcases List.mem_cons.1 he with rfl | he
      · exact hgathered.within _ List.mem_cons_self
      · exact hgathered.within e he
  · have hparting := parting hk hword hsized hplace.sized hsame
    have hinsert : BitTrie.insert (.leaf w values) 0 k values' =
        Parting.part k w values' values 0 := by
      rw [BitTrie.insert, if_neg hsame]
      rfl
    have hstems : bitsToBytes w ≠ stem := by
      rintro rfl
      rw [allBits_bitsToBytes (by rw [hword])] at hstem
      exact hsame hstem.symm
    rw [hinsert] at hplaced ⊢
    -- the branch where the stems part, and the chain of branches down to it
    have hself := Gathered.part_self opts hparting hstored
    rw [hbytes] at hself
    obtain ⟨ps', hchain, hgathered⟩ := run_rootChain hlen hparting le_rfl hself
    refine saved_root hlen (hparting.part_ne_nil (Nat.zero_le _)) hplaced ps' ?_ hgathered
    change updateRoot opts stem (.stem stem values') (.stem (bitsToBytes w) values) _ k = _
    have hsplit := run_splitNode hlen hparting
    rw [hbytes] at hsplit
    rw [updateRoot, if_neg hstems, hstem, allBits_bitsToBytes (by rw [hword])]
    change (splitNode opts _ k _ w (matchingBitsLength w k) >>= fun split =>
      rootChain opts k (matchingBitsLength w k) split _) = _
    rw [matchingBitsLength_comm w k, hsplit]
    exact hchain

/-- **Insertion of a stem below a branching.** -/
theorem saved_single {cs : List (Bool → StemTrie)} (hne : cs ≠ [])
    (hframed : Framed opts s.db k cs) (hcs : cs.length ≤ 248) {values : StemValues}
    (hplace : PlacedTrie [] (plug k cs (.leaf k values))) :
    ∃ s', (addInternals opts stem (.stem stem values) (trieHash opts (.leaf k values))
        (frameStack opts k cs) >>= fun r =>
          saveUpdates opts s stem (.stem stem values) r.1 r.2.1 r.2.2) = .ok s' ∧
      Saved opts s.db s' (plug k cs (.leaf k values)) := by
  have hbytes : bitsToBytes k = stem := by rw [← hstem, bitsToBytes_allBits]
  have hlinked := linked_leaf opts s.db k cs.length values
  rw [hbytes] at hlinked
  -- The last branch is updated by itself; further up it is the loop over the stack.
  rcases cs with _ | ⟨c, _ | ⟨c', cs⟩⟩
  · exact absurd rfl hne
  · obtain ⟨s', hrun, hsaved⟩ :=
      saved_branch hlen hk hstem (.stem stem values) [c] hne hframed hcs hlinked hplace
    refine ⟨s', ?_, hsaved⟩
    rw [← hrun, ← hstem]
    rfl
  · have hlt : (c' :: cs).length < k.length := by
      rw [hk]
      exact hcs
    have hnode := internal_setChildren hlt c hlinked.child
    have hplace' := within_plug k (c' :: cs) (Nat.le_of_lt hlt)
      (.branch (Function.update c (bit k (c' :: cs).length) (.leaf k values)))
    have hmerkle := merkelize_trieNode hlen (p := k.take (c' :: cs).length)
      (t := .branch (Function.update c (bit k (c' :: cs).length) (.leaf k values)))
      (branch_ne_nil _) (hplace'.canonical hplace.canonical) (hplace'.all hplace.sized)
    have hgathered := hlinked.gathered
    rw [List.length_cons, take_succ_eq hlt] at hgathered
    obtain ⟨s', hrun, hsaved⟩ := saved_branch hlen hk hstem (.stem stem values) (c' :: cs)
      (List.cons_ne_nil c' cs) hframed.2 (Nat.le_of_lt (hk ▸ hlt))
      (linked_branch (hgathered.branch fun b hb => (hframed.1 b hb).2)) hplace
    refine ⟨s', ?_, hsaved⟩
    rw [← hrun]
    have hleaf := merkelize_leaf hlen (w := k) hk
      ((within_plug k (c :: c' :: cs) (by rw [hk]; exact hcs) _).all hplace.sized)
    rw [hbytes] at hleaf
    -- the slot of the stem was empty, so the new leaf just goes in
    have hupdate : updateBranch opts stem (.stem stem values)
        (trieNode opts (k.take (c' :: cs).length) (.branch c)) (k.take (c' :: cs).length)
        (k.take cs.length) =
          .ok [(trieNode opts (k.take (c' :: cs).length)
            (.branch (Function.update c (bit k (c' :: cs).length) (.leaf k values))),
            k.take (c' :: cs).length)] := by
      rw [← hnode, trieNode, updateBranch, hstem, hleaf]
      rfl
    have hstep : addInternals opts stem (.stem stem values) (trieHash opts (.leaf k values))
        (frameStack opts k (c :: c' :: cs)) =
          (updateBranch opts stem (.stem stem values) (trieNode opts (k.take (c' :: cs).length)
            (.branch c)) (k.take (c' :: cs).length) (k.take cs.length) >>= fun updated =>
          pushUpdates opts [(trieHash opts (.leaf k values), .stem stem values)] (allBits stem)
            updated >>= fun r => pure (frameStack opts k (c' :: cs), r.1, r.2)) := rfl
    rw [hstep, hupdate]
    change ((pushUpdates opts _ _ [_] >>= _) >>= _) = _
    rw [pushUpdates, hmerkle]
    rfl

/-- **Insertion beside another stem below a branching.** -/
theorem saved_parting {cs : List (Bool → StemTrie)} (hne : cs ≠ [])
    (hframed : Framed opts s.db k cs) (hcs : cs.length ≤ 248) {w : List Bool}
    {values values' : StemValues} (hsame : k ≠ w)
    (hplaced : PlacedTrie (k.take cs.length) (.leaf w values))
    (hstored : NodeHeld opts s.db (k.take cs.length) (.leaf w values))
    (hsized : SizedValues values')
    (hplace : PlacedTrie [] (plug k cs (BitTrie.insert (.leaf w values) cs.length k values'))) :
    ∃ s', (addInternals opts stem (.stem stem values') (trieHash opts (.leaf k values'))
        ((.stem (bitsToBytes w) values, k.take (matchingBitsLength k w)) ::
          frameStack opts k cs) >>= fun r =>
            saveUpdates opts s stem (.stem stem values') r.1 r.2.1 r.2.2) = .ok s' ∧
      Saved opts s.db s' (plug k cs (BitTrie.insert (.leaf w values) cs.length k values')) := by
  have hbytes : bitsToBytes k = stem := by rw [← hstem, bitsToBytes_allBits]
  obtain ⟨hstart, hword⟩ : k.take cs.length <+: w ∧ w.length = 248 := by
    cases hplaced.canonical with
    | leaf _ hstart hword => exact ⟨hstart, hword⟩
  -- the two stems part below the leaf that was found, and a chain of branches leads down to there
  have hparting := parting hk hword hsized hplaced.sized hsame
  have hinsert : BitTrie.insert (.leaf w values) cs.length k values' =
      Parting.part k w values' values cs.length := by
    rw [BitTrie.insert, if_neg hsame]
    rfl
  rw [hinsert] at hplace ⊢
  have hdepth : cs.length ≤ matchingBitsLength k w := by
    obtain ⟨r, hr⟩ := List.take_prefix cs.length k
    obtain ⟨r', hr'⟩ := hstart
    have happend := matchingBitsLength_append (k.take cs.length) r r'
    rw [hr, hr', List.length_take, Nat.min_eq_left (hk ▸ hcs)] at happend
    omega
  -- first the branch where they part, with the new leaf below it
  have hsplit := run_splitNode hlen hparting
  have hself := Gathered.part_self opts hparting hstored
  have hlinked : Linked opts s.db k [(trieHash opts (Parting.part k w values' values
        (matchingBitsLength k w)), trieNode opts (k.take (matchingBitsLength k w))
          (Parting.part k w values' values (matchingBitsLength k w))),
      (trieHash opts (.leaf k values'), .stem (bitsToBytes k) values')]
      (k.take (matchingBitsLength k w)) (matchingBitsLength k w)
      (Parting.part k w values' values (matchingBitsLength k w)) := by
    rw [hparting.part_self] at hself ⊢
    exact linked_branch hself
  rw [hbytes] at hsplit hlinked
  -- then the branches above it, up to the depth of the old leaf
  rcases cs with _ | ⟨c, cs⟩
  · exact absurd rfl hne
  · obtain ⟨chain, ps, last, hchain, hpush, hend⟩ :=
      run_branchChain hlen hparting cs.length hdepth le_rfl hlinked
    obtain ⟨s', hrun, hsaved⟩ :=
      saved_branch hlen hk hstem (.stem stem values') (c :: cs) (List.cons_ne_nil c cs) hframed hcs
        hend hplace
    refine ⟨s', ?_, hsaved⟩
    rw [← hrun]
    have hlow : matchingBitsLength (k.take (matchingBitsLength k w)) (k.take cs.length) =
        cs.length := by
      rw [matchingBitsLength_of_isPrefix ( List.take_prefix_take_left (Nat.le_of_succ_le hdepth)),
        List.length_take, hk]
      exact Nat.min_eq_left (Nat.le_of_succ_le hcs)
    -- `updateBranch` builds exactly that chain
    have hupdate : updateBranch opts stem (.stem stem values') (.stem (bitsToBytes w) values)
        (k.take (matchingBitsLength k w)) (k.take cs.length) =
          .ok ((trieNode opts (k.take (matchingBitsLength k w))
            (Parting.part k w values' values (matchingBitsLength k w)),
            k.take (matchingBitsLength k w)) :: chain) := by
      have hstep : updateBranch opts stem (.stem stem values') (.stem (bitsToBytes w) values)
          (k.take (matchingBitsLength k w)) (k.take cs.length) =
            (splitNode opts (.stem stem values') (allBits stem) (.stem (bitsToBytes w) values)
              (allBits (bitsToBytes w))
              (matchingBitsLength (allBits stem) (allBits (bitsToBytes w))) >>= fun newInternal =>
            branchChain opts (allBits stem)
              (matchingBitsLength (k.take (matchingBitsLength k w)) (k.take cs.length))
              (matchingBitsLength (allBits stem) (allBits (bitsToBytes w))) newInternal >>=
            fun chain => pure ((newInternal, (allBits stem).take
              (matchingBitsLength (allBits stem) (allBits (bitsToBytes w)))) :: chain)) := rfl
      rw [hstep, hstem, allBits_bitsToBytes (by rw [hword]), hsplit, hlow]
      change (branchChain opts k cs.length _ _ >>= _) = _
      rw [hchain]
      rfl
    have hstep : addInternals opts stem (.stem stem values') (trieHash opts (.leaf k values'))
        ((.stem (bitsToBytes w) values, k.take (matchingBitsLength k w)) ::
          frameStack opts k (c :: cs)) =
          (updateBranch opts stem (.stem stem values') (.stem (bitsToBytes w) values)
            (k.take (matchingBitsLength k w)) (k.take cs.length) >>= fun updated =>
          pushUpdates opts [(trieHash opts (.leaf k values'), .stem stem values')] (allBits stem)
            updated >>= fun r => pure (frameStack opts k (c :: cs), r.1, r.2)) := rfl
    rw [hstep, hupdate]
    change ((pushUpdates opts _ _ (_ :: chain) >>= _) >>= _) = _
    rw [pushUpdates, merkelize_part hlen hparting le_rfl]
    change ((pushUpdates opts _ _ chain >>= _) >>= _) = _
    rw [hpush]
    rfl

/-- **Insertion** leaves the trie with the stem. -/
theorem saved_insert {t : StemTrie} (h : Holds opts s t) (hne : s.root ≠ EMPTY_TREE_ROOT)
    {values : StemValues} (hsized : SizedValues values) :
    ∃ s', (addInternals opts stem (.stem stem values) (trieHash opts (.leaf k values))
        (pathStack opts k t) >>= fun (stack, ps, last) =>
          saveUpdates opts s stem (.stem stem values) stack ps last) = .ok s' ∧
      Saved opts s.db s' (t.insert 0 k values) := by
  rcases ht : t with _ | ⟨w, u⟩ | c
  · rw [h.root, ht] at hne
    exact absurd rfl hne
  · obtain ⟨s', hrun, hsaved⟩ :=
      saved_leaf hlen hk hstem (ht ▸ h.placed) (ht ▸ h.stored) hsized
    refine ⟨s', ?_, hsaved⟩
    rw [← hrun, ← hstem]
    rfl
  · have hdescended := descended_descend hk (t := t) [] trivial (Nat.zero_le _) h.placed h.stored
    have hinsert := plug_descend_insert k values t []
    have hcs : (t.descend k []).1 ≠ [] := by
      rw [ht]
      exact descend_branch_ne_nil k c
    have hplace : PlacedTrie [] (t.insert 0 k values) :=
      ⟨h.placed.canonical.insert hk List.nil_prefix values,
        All.insert h.placed.sized 0 k hsized⟩
    have hstack : pathStack opts k t =
        endStack k (t.descend k []).2 ++ frameStack opts k (t.descend k []).1 := by
      rw [ht]
      rfl
    rw [← ht, hstack]
    change plug k _ _ = t.insert 0 k values at hinsert
    rw [← hinsert] at hplace ⊢
    rcases hfocus : (t.descend k []).2 with _ | ⟨w, u⟩ | c'
    · rw [hfocus] at hplace
      exact saved_single hlen hk hstem hcs hdescended.framed hdescended.depth hplace
    · rw [hfocus] at hplace
      by_cases hsame : k = w
      · rw [BitTrie.insert, if_pos hsame] at hplace ⊢
        rw [endStack, if_pos hsame]
        exact saved_single hlen hk hstem hcs hdescended.framed hdescended.depth hplace
      · rw [endStack, if_neg hsame]
        have hplaced := hdescended.placed
        have hstored := hdescended.stored
        rw [hfocus] at hplaced hstored
        exact saved_parting hlen hk hstem hcs hdescended.framed hdescended.depth hsame hplaced
          hstored hsized hplace
    · exact absurd hfocus (descend_ne_branch k t [] c')

end Insert

/-! ### The whole write -/

/-- **A write of some values of a stem** leaves the trie with these values, but the first write
leaves its stem in any case. -/
theorem run_putStem {s : BinaryTree} {t : StemTrie} (h : Holds opts s t) {stem : Bytes}
    (hstem : stem.length = 31) {writes : List (Fin NODE_WIDTH × Option Bytes)}
    (hwrites : ∀ w ∈ writes, ∀ value ∈ w.2, value.length = 32)
    (hfirst : s.root = EMPTY_TREE_ROOT → setValues noValues writes = noValues →
      stem = List.replicate 31 0) {fuel : ℕ} (hfuel : 248 ≤ fuel) :
    ∃ s', putStem opts fuel s stem writes = .ok s' ∧ Saved opts s.db s'
      (writeTrie t (allBits stem) (setValues (stemValues t (allBits stem)) writes)) := by
  have hk : (allBits stem).length = 248 := by rw [length_allBits, hstem]
  have hsized : SizedValues (setValues (stemValues t (allBits stem)) writes) :=
    (sized_stemValues h.placed.sized _).setValues hwrites
  -- the first stem becomes the root by itself
  by_cases hempty : s.root = EMPTY_TREE_ROOT
  · have ht := h.empty hempty
    subst ht
    have hvalues : stemValues .nil (allBits stem) = noValues := rfl
    rw [hvalues] at hsized ⊢
    rw [putStem, if_pos hempty, run_createInitialNode hlen hstem hsized]
    refine ⟨_, rfl, ?_⟩
    rw [writeTrie]
    split
    · rename_i hnone
      -- null values hash to the empty root, if the stem is zero
      have hroot : trieHash opts (.leaf (allBits stem) (setValues noValues writes)) =
          trieHash opts .nil := by
        rw [hnone, trieHash_noValues, bitsToBytes_allBits, hfirst hempty hnone]
        exact if_pos rfl
      rw [hroot]
      exact saved_persistRoot ⟨.nil _, trivial⟩ fun hnil => absurd rfl hnil
    · have hgathered := gathered_leaf opts s.db [] (allBits stem)
        (setValues noValues writes)
      rw [bitsToBytes_allBits] at hgathered
      exact saved_persistRoot ⟨.leaf _ List.nil_prefix hk, hsized⟩ fun _ => hgathered
  · obtain ⟨r, hpath⟩ := findPath_stored hlen hstem hempty h.root h.placed h.stored hfuel
    have hnode : foundStem (allBits stem) (t.descend (allBits stem) []).2 =
        (t.find 0 (allBits stem)).map fun values => .stem stem values := by
      rw [foundStem_descend h.placed, bitsToBytes_allBits]
      rfl
    have hvalues : valuesFrom ((t.find 0 (allBits stem)).map fun values => .stem stem values) stem =
        stemValues t (allBits stem) := by
      rw [stemValues]
      rcases t.find 0 (allBits stem) with _ | values
      · rfl
      · exact if_pos rfl
    have hstack : pathStack opts (allBits stem) t ≠ [] := by
      rcases ht : t with _ | ⟨w, values⟩ | c
      · rw [h.root, ht] at hempty
        exact absurd rfl hempty
      · intro hnil
        cases hnil
      · intro hnil
        have hframes := congrArg List.length (List.append_eq_nil_iff.1 hnil).2
        rw [length_frameStack] at hframes
        exact descend_branch_ne_nil _ c (List.eq_nil_of_length_eq_zero hframes)
    -- what is left of `putStem` once the path has been found
    have hstep : putStem opts fuel s stem writes =
        (if setValues (stemValues t (allBits stem)) writes = noValues then
          ((t.find 0 (allBits stem)).map fun values => BinaryNode.stem stem values).elim (pure s)
            fun _ => deleteStem opts s stem (pathStack opts (allBits stem) t)
        else
          merkelize opts (.stem stem (setValues (stemValues t (allBits stem)) writes)) >>=
            fun stemHash => addInternals opts stem
              (.stem stem (setValues (stemValues t (allBits stem)) writes)) stemHash
              (pathStack opts (allBits stem) t) >>= fun r =>
            saveUpdates opts s stem (.stem stem (setValues (stemValues t (allBits stem)) writes))
              r.1 r.2.1 r.2.2) := by
      rw [putStem, if_neg hempty, hpath, hnode]
      change (if pathStack opts (allBits stem) t = [] then _ else _) = _
      rw [if_neg hstack, hvalues]
      rcases t.find 0 (allBits stem) with _ | values
      · rfl
      · rfl
    rw [hstep, writeTrie]
    split
    · -- no value is left: the stem is deleted, if it is there at all
      rcases hfind : t.find 0 (allBits stem) with _ | values
      · refine ⟨s, rfl, ?_⟩
        have herase : t.erase 0 (allBits stem) = t :=
          h.placed.canonical.erase_of_find_eq_none hfind
        rw [herase]
        exact ⟨h.placed, h.root, [], [], rfl, fun e he => absurd he List.not_mem_nil,
          fun _ => gathered_stored h.stored⟩
      · exact run_deleteStem hlen h hstem (by rw [hfind]; exact Option.some_ne_none values)
    · rw [merkelize_stem hlen hstem hsized]
      have hinsert := saved_insert hlen hk rfl h hempty hsized
      rwa [trieHash, bitsToBytes_allBits] at hinsert

end BinaryTree

end Tvmjs
