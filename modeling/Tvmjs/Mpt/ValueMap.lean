import Tvmjs.Base.BigEndian
import Tvmjs.Base.InsertionMap
import Tvmjs.Mpt.Walk

/-!
# Listing a trie

`getValueMap` collects the leaves that a walk of the trie finds, as hex text; with a limit it stops
collecting and names a key to go on from.

* `walksExhaustively_iff` -- **a trie is listed in full exactly if** its walk passes over nothing
  and its branches hold no values;
* `keyTrie_runOps` -- every sequence of writes on a new trie leads to a trie this is about.
-/

namespace Tvmjs

open PathTrie MerklePatriciaTrie

/-- What `getValueMap` returns. -/
structure ValueMap where
  values : InsertionMap PrefixedHexString PrefixedHexString
  nextKey : Option PrefixedHexString

/-- What `getValueMap` keeps from one node of the walk to the next. -/
structure ValueMapState extends ValueMap where
  inRange : Bool
  valueCount : ℕ

namespace MerklePatriciaTrie

variable (opts : MPTOpts)

/-- The part of the callback of `getValueMap` that deals with a leaf. -/
def onLeaf (startKey : ℤ) (limit : Option ℕ) (state : ValueMapState) (keyNibbles : Nibbles)
    (value : Bytes) : ValueMapState :=
  let keyBytes := nibblesTypeToPackedBytes keyNibbles
  if ¬ (state.inRange ∨ startKey ≤ BigEndian.value keyBytes) then state
  else
    let state := { state with inRange := true }
    if limit.all (state.valueCount < ·) then
      { state with
        values := state.values.set (bytesToHex keyBytes) (bytesToHex value)
        valueCount := state.valueCount + 1 }
    else if limit = some state.valueCount then { state with nextKey := some (bytesToHex keyBytes) }
    else state

/-- The callback of `getValueMap`. -/
def onValueNode (startKey : ℤ) (limit : Option ℕ) (state : ValueMapState) :
    FoundNode → ValueMapState
  | (.leaf nibbles value, currentKey) =>
    onLeaf startKey limit state (currentKey ++ nibbles) value
  | _ => state

/-- The values of a trie; with a limit, of some keys from `startKey` on. -/
def getValueMap (fuel : ℕ) (startKey : ℤ) (limit : Option ℕ) : TrieM ValueMap := do
  let found ← walkAllValueNodes opts fuel
  let state := found.foldl (onValueNode startKey limit)
    { values := .empty, nextKey := none, inRange := limit.isNone, valueCount := 0 }
  pure state.toValueMap

end MerklePatriciaTrie

variable {opts : MPTOpts}

/-! ### The tries a listing is about -/

/-- The state is a trie whose words are the nibbles of keys and which has a value below every
branch. -/
structure KeyTrie (opts : MPTOpts) (S : Set Bytes) (s : MerklePatriciaTrie) (t : Tree) : Prop where
  trie : IsTrie opts S s t
  live : t = .nil ∨ Live t
  words : ∀ w, (t.get w).isSome → ∃ key : Bytes, w = bytesToNibbles key
  /-- No string stands under an empty hash. -/
  vacant : s.db.view (opts.getDbKey []) = none

/-- No two places of a trie hold the same subtrie. -/
def Unrepeated (t : Tree) : Prop := (t.places.map Prod.snd).Nodup

section Tries

variable {S : Set Bytes} {s : MerklePatriciaTrie} {t : Tree}
  (hlen : ∀ v, (opts.hash v).length = 32) (hS : Set.InjOn opts.hash S)

include hlen in
/-- Nothing is stored under a short prefix alone. -/
theorem StoresIn.vacant (h : StoresIn opts S s.db) (hshort : opts.keyPrefix.length < 32) :
    s.db.view (opts.getDbKey []) = none := by
  by_contra hview
  obtain ⟨v, hv⟩ := Option.ne_none_iff_exists'.1 hview
  obtain ⟨p, hp⟩ := h.addressed _ _ (CheckpointDB.mem_of_view hv)
  have hlength := congrArg List.length hp
  rw [List.length_append, hlen, MPTOpts.getDbKey, List.append_nil] at hlength
  omega

private theorem KeyTrie.walkable (h : KeyTrie opts S s t) (hclosed : Closed S) :
    Walkable opts S s.db t where
  stores := h.trie.roots.stores
  stored := h.trie.complete.stored
  nodes _ he := he.mem hclosed h.trie.roots.committed.nodeStrings_subset
  short := h.trie.roots.committed.short
  vacant := h.vacant

include hlen hS in
/-- Where the hash does not collide, subtries are told apart by the hashes of their nodes. -/
theorem KeyTrie.fresh_iff (h : KeyTrie opts S s t) (hclosed : Closed S) :
    Fresh (treeMark opts) [] t.places ↔ Unrepeated t := by
  have hmap : t.places.map (fun e => treeMark opts e.2) =
      (t.places.map Prod.snd).map (treeMark opts) := by
    rw [List.map_map]
    rfl
  rw [Fresh, hmap, Unrepeated]
  constructor
  · rintro ⟨hnodup, -⟩
    exact hnodup.of_map _
  · intro hnodup
    refine ⟨hnodup.map_on fun u hu u' hu' hmark => ?_, fun _ _ => List.not_mem_nil⟩
    obtain ⟨⟨w, u⟩, hmem, rfl⟩ := List.mem_map.1 hu
    obtain ⟨⟨w', u'⟩, hmem', rfl⟩ := List.mem_map.1 hu'
    obtain ⟨hne, fs, hplug, -⟩ := exists_plug_of_mem_places hmem
    obtain ⟨hne', fs', hplug', -⟩ := exists_plug_of_mem_places hmem'
    have hcommitted := h.trie.roots.committed
    have hshort : u.Short (2 ^ 60) := Short.of_plug fs (by rw [hplug]; exact hcommitted.short)
    have hserialize := hS ((h.walkable hclosed).nodes _ ⟨fs, u, hne, hplug, rfl⟩)
      ((h.walkable hclosed).nodes _ ⟨fs', u', hne', hplug', rfl⟩) hmark
    have hnode := MPTNode.serialize_injective (length_serialize_treeNode hlen hshort) hserialize
    refine treeRef_injective hlen hS ?_ ?_ hshort ?_
    · rw [← hplug] at hcommitted
      exact (strings_subset_plug opts fs u).trans hcommitted.strings
    · rw [← hplug'] at hcommitted
      exact (strings_subset_plug opts fs' u').trans hcommitted.strings
    · rw [treeRef_of_ne_nil hne, treeRef_of_ne_nil hne', hnode]

end Tries

/-! ### Collecting leaves -/

/-- The text of the key of a pair. -/
def hexKey (p : Nibbles × Bytes) : PrefixedHexString := bytesToHex (nibblesTypeToPackedBytes p.1)

/-- A pair as text. -/
def hexPair (p : Nibbles × Bytes) : PrefixedHexString × PrefixedHexString :=
  (hexKey p, bytesToHex p.2)

/-- Only the leaves of a walk count. -/
private theorem foldl_onValueNode (startKey : ℤ) (limit : Option ℕ) (l : List (Nibbles × Tree))
    (state : ValueMapState) :
    (foundAt opts (fun node _ => isValueNode node) [] l).foldl (onValueNode startKey limit) state =
      (pairsOf (leavesOf l)).foldl (fun state p => onLeaf startKey limit state p.1 p.2) state := by
  induction l generalizing state with
  | nil => rfl
  | cons e l ih =>
    obtain ⟨w, u⟩ := e
    have hhere : ([(treeNode opts u, w)].filter fun found => isValueNode found.1).foldl
        (onValueNode startKey limit) state =
        (pairsOf (leafAt (w, u))).foldl (fun state p => onLeaf startKey limit state p.1 p.2)
          state := by
      cases u with
      | nil => rfl
      | leaf p v => rfl
      | ext p c => rfl
      | branch c v =>
        rw [List.filter_singleton]
        generalize isValueNode (treeNode opts (.branch c v), w).1 = yielded
        cases yielded with
        | false => rfl
        | true => rfl
    have hcons : foundAt opts (fun node _ => isValueNode node) [] ((w, u) :: l) =
        ([(treeNode opts u, w)].filter fun found => isValueNode found.1) ++
          foundAt opts (fun node _ => isValueNode node) [] l := foundAt_append _ [] [(w, u)] l
    rw [hcons, List.foldl_append, hhere, ih, leavesOf_cons, pairsOf, pairsOf, pairsOf,
      List.map_append, List.foldl_append]

/-- A leaf within the range and the limit. -/
private theorem onLeaf_of_taken {startKey : ℤ} {limit : Option ℕ} {state : ValueMapState}
    (hrange : state.inRange = true) (hlimit : limit.all (state.valueCount < ·) = true)
    (p : Nibbles × Bytes) :
    onLeaf startKey limit state p.1 p.2 = { state with
      inRange := true
      values := state.values.set (hexKey p) (bytesToHex p.2)
      valueCount := state.valueCount + 1 } := by
  rw [onLeaf, if_neg (by simp [hrange])]
  simp only [if_pos hlimit]
  rfl

/-- Leaves with different keys within the range and the limit. -/
theorem foldl_onLeaf_of_taken {startKey : ℤ} {limit : Option ℕ} (l : List (Nibbles × Bytes))
    {state : ValueMapState} (hrange : state.inRange = true)
    (hlimit : limit.all (state.valueCount + l.length ≤ ·) = true)
    (hkeys : (state.values.keys ++ l.map hexKey).Nodup) :
    ∃ state', l.foldl (fun state p => onLeaf startKey limit state p.1 p.2) state = state' ∧
      state'.values.entries = state.values.entries ++ l.map hexPair ∧
      state'.nextKey = state.nextKey ∧ state'.inRange = true ∧
      state'.valueCount = state.valueCount + l.length := by
  induction l generalizing state with
  | nil => exact ⟨state, rfl, by simp, rfl, hrange, rfl⟩
  | cons p l ih =>
    have hhere : limit.all (state.valueCount < ·) = true := by
      cases limit with
      | none => rfl
      | some n =>
        simp only [Option.all_some, decide_eq_true_eq, List.length_cons] at hlimit ⊢
        omega
    have hnew : hexKey p ∉ state.values.keys := fun hmem =>
      List.disjoint_of_nodup_append hkeys hmem List.mem_cons_self
    rw [List.map_cons] at hkeys
    obtain ⟨state', hfold, hentries, hnext, hin, hcount⟩ := @ih { state with
        inRange := true
        values := state.values.set (hexKey p) (bytesToHex p.2)
        valueCount := state.valueCount + 1 } rfl
      (by
        cases limit with
        | none => rfl
        | some n =>
          simp only [Option.all_some, decide_eq_true_eq, List.length_cons] at hlimit ⊢
          omega)
      (by
        change ((state.values.set (hexKey p) (bytesToHex p.2)).keys ++ l.map hexKey).Nodup
        rw [InsertionMap.keys_set_of_not_mem _ hnew, List.append_assoc]
        exact hkeys)
    refine ⟨state', ?_, ?_, hnext, hin, ?_⟩
    · rw [List.foldl_cons, onLeaf_of_taken hrange hhere]
      exact hfold
    · rw [hentries]
      change (state.values.set (hexKey p) (bytesToHex p.2)).entries ++ _ = _
      rw [InsertionMap.entries_set_of_not_mem _ hnew, List.append_assoc]
      rfl
    · rw [hcount, List.length_cons]
      change state.valueCount + 1 + l.length = _
      omega

/-! ### What is listed -/

/-- The state `getValueMap` begins with. -/
def startState (limit : Option ℕ) : ValueMapState :=
  { values := .empty, nextKey := none, inRange := limit.isNone, valueCount := 0 }

/-- The leaves a walk of the trie finds. -/
def foundLeaves (opts : MPTOpts) (d : CheckpointDB) (t : Tree) : List (Nibbles × Bytes) :=
  pairsOf (leavesOf (rootWalk opts d t))

section Listing

variable {S : Set Bytes} {s : MerklePatriciaTrie} {t : Tree}
  (hlen : ∀ v, (opts.hash v).length = 32) (hS : Set.InjOn opts.hash S)
  (hempty : RLP_EMPTY_STRING ∈ S) (hclosed : Closed S)

include hlen hS hempty hclosed in
theorem KeyTrie.run_walkAllValueNodes (h : KeyTrie opts S s t) :
    ∃ N, ∀ fuel ≥ N, ∀ s₁, s.Reads s₁ → ∃ s', s.Reads s' ∧ (walkAllValueNodes opts fuel).run s₁ =
      (.ok (foundAt opts (fun node _ => isValueNode node) [] (rootWalk opts s.db t)), s') :=
  Tvmjs.run_walkAllValueNodes hlen hS hempty (h.walkable hclosed) h.trie.roots.root
    h.trie.complete.top

include hlen hS hempty hclosed in
/-- `getValueMap` collects the leaves the walk finds. -/
theorem KeyTrie.run_getValueMap (h : KeyTrie opts S s t) :
    ∃ N, ∀ fuel ≥ N, ∀ startKey limit s₁, s.Reads s₁ → ∃ s', s.Reads s' ∧
      (getValueMap opts fuel startKey limit).run s₁ =
        (.ok ((foundLeaves opts s.db t).foldl
          (fun state p => onLeaf startKey limit state p.1 p.2) (startState limit)).toValueMap,
          s') := by
  obtain ⟨N, hN⟩ := h.run_walkAllValueNodes hlen hS hempty hclosed
  refine ⟨N, fun fuel hfuel startKey limit s₁ hs₁ => ?_⟩
  obtain ⟨s', hs', hrun⟩ := hN fuel hfuel s₁ hs₁
  refine ⟨s', hs', ?_⟩
  rw [getValueMap, Prog.run_bind_of_ok hrun, foundLeaves, ← foldl_onValueNode]
  rfl

/-- The leaves found are among the entries, in their order. -/
theorem foundLeaves_sublist (d : CheckpointDB) (t : Tree) :
    (foundLeaves opts d t).Sublist (pairsOf t.entries) :=
  List.Sublist.map _ ((leavesOf_sublist _).trans (entriesOf_walk_sublist t []))

/-- The texts of the keys of a trie are different. -/
theorem nodup_hexKey (hwords : ∀ w, (t.get w).isSome → ∃ key : Bytes, w = bytesToNibbles key) :
    ((pairsOf t.entries).map hexKey).Nodup := by
  have hascending := (listsAll_entries t).ascending
  have hnodup : (pairsOf t.entries).Nodup := by
    refine hascending.imp ?_
    rintro p q hlt rfl
    exact lt_irrefl _ hlt
  have hkey : ∀ p ∈ pairsOf t.entries, ∃ key : Bytes, p.1 = bytesToNibbles key := by
    intro p hp
    refine hwords p.1 ?_
    have hget := ((listsAll_entries t).mem p.1 p.2).1 hp
    rw [← Option.isSome_map, hget]
    rfl
  refine hnodup.map_on fun p hp q hq hpq => ?_
  obtain ⟨k, hk⟩ := hkey p hp
  obtain ⟨k', hk'⟩ := hkey q hq
  have hsame := bytesToHex_injective hpq
  rw [hk, hk', nibblesTypeToPackedBytes_bytesToNibbles,
    nibblesTypeToPackedBytes_bytesToNibbles] at hsame
  have hword : p.1 = q.1 := by rw [hk, hk', hsame]
  have hvalue := ((listsAll_entries t).mem p.1 p.2).1 hp
  rw [hword, ((listsAll_entries t).mem q.1 q.2).1 hq] at hvalue
  exact Prod.ext hword (Option.some.inj hvalue).symm

include hlen hS hempty hclosed in
/-- Without a limit every leaf found is collected. -/
private theorem KeyTrie.run_getValueMap_all (h : KeyTrie opts S s t) :
    ∃ N, ∀ fuel ≥ N, ∃ values s', s.Reads s' ∧
      (getValueMap opts fuel 0 none).run s = (.ok values, s') ∧ values.nextKey = none ∧
        values.values.entries = (foundLeaves opts s.db t).map hexPair := by
  obtain ⟨N, hN⟩ := h.run_getValueMap hlen hS hempty hclosed
  refine ⟨N, fun fuel hfuel => ?_⟩
  obtain ⟨s', hs', hrun⟩ := hN fuel hfuel 0 none s (.refl s)
  have hnodup : ((startState none).values.keys ++ (foundLeaves opts s.db t).map hexKey).Nodup :=
    (nodup_hexKey h.words).sublist ((foundLeaves_sublist s.db t).map _)
  obtain ⟨state, hfold, hentries, hnext, -⟩ := @foldl_onLeaf_of_taken 0 none
    (foundLeaves opts s.db t) (startState none) rfl rfl hnodup
  rw [hfold] at hrun
  exact ⟨_, s', hs', hrun, hnext, hentries⟩

/-- **A walk of the trie is exhaustive**: `walkAllValueNodes` finds every pair of key and value
once, in ascending order, and so does `getValueMap` without a limit. -/
structure WalksExhaustively (opts : MPTOpts) (s : MerklePatriciaTrie) (t : Tree) : Prop where
  valueNodes : ∃ N, ∀ fuel ≥ N, ∃ found s' l, (walkAllValueNodes opts fuel).run s =
    (.ok found, s') ∧
    found.map valuePair = l.map some ∧ ListsAll l t
  valueMap : ∃ N, ∀ fuel ≥ N, ∃ values s' l, (getValueMap opts fuel 0 none).run s =
    (.ok values, s') ∧
    values.nextKey = none ∧ values.values.entries = l.map hexPair ∧ ListsAll l t

include hlen hS hempty hclosed in
/-- A trie is listed in full exactly if the walk finds its entries in leaves. -/
private theorem KeyTrie.walksExhaustively_iff_leaves (h : KeyTrie opts S s t) :
    WalksExhaustively opts s t ↔ leavesOf (rootWalk opts s.db t) = t.entries := by
  obtain ⟨N, hN⟩ := h.run_walkAllValueNodes hlen hS hempty hclosed
  obtain ⟨N', hN'⟩ := h.run_getValueMap_all hlen hS hempty hclosed
  constructor
  · rintro ⟨-, M, hM⟩
    obtain ⟨values, s', -, hrun, -, hentries⟩ := hN' (max M N') (le_max_right M N')
    obtain ⟨values', s'', l, hrun', -, hentries', hl⟩ := hM (max M N') (le_max_left M N')
    obtain ⟨heq, -⟩ := Prod.mk.inj (hrun.symm.trans hrun')
    obtain rfl := Except.ok.inj heq
    -- as many leaves have been found as there are pairs
    have hlength : (foundLeaves opts s.db t).length = (pairsOf t.entries).length := by
      have hmap := congrArg List.length (hentries.symm.trans hentries')
      rw [List.length_map, List.length_map] at hmap
      rw [hmap, hl.unique (listsAll_entries t)]
    exact pairsOf_injective ((foundLeaves_sublist s.db t).eq_of_length hlength)
  · intro hleaves
    have hwalk : entriesOf (rootWalk opts s.db t) = t.entries :=
      (entriesOf_walk_iff h.live).2 ((leavesOf_walk_iff h.live).1 hleaves).1
    constructor
    · refine ⟨N, fun fuel hfuel => ?_⟩
      obtain ⟨s', -, hrun⟩ := hN fuel hfuel s (.refl s)
      refine ⟨_, s', _, hrun, map_valuePair opts _, ?_⟩
      rw [hwalk]
      exact listsAll_entries t
    · refine ⟨N', fun fuel hfuel => ?_⟩
      obtain ⟨values, s', -, hrun, hnext, hentries⟩ := hN' fuel hfuel
      refine ⟨values, s', _, hrun, hnext, hentries, ?_⟩
      rw [foundLeaves, hleaves]
      exact listsAll_entries t

include hlen hS hempty hclosed in
/-- **A trie is listed in full exactly if** no two places hold the same subtrie, every node embedded
in a branch stands in the database as well, and no branch holds a value. -/
theorem walksExhaustively_iff (h : KeyTrie opts S s t) : WalksExhaustively opts s t ↔
    Unrepeated t ∧ t.Reaching (Stands opts s.db) ∧ t.Valueless := by
  rw [h.walksExhaustively_iff_leaves hlen hS hempty hclosed, rootWalk, leavesOf_walk_iff h.live,
    h.fresh_iff hlen hS hclosed, and_assoc]

end Listing

/-! ### Tries that have been written -/

section Written

variable {S : Set Bytes} {s : MerklePatriciaTrie} {t : Tree}
  (hlen : ∀ v, (opts.hash v).length = 32) (hS : Set.InjOn opts.hash S)
  (hempty : RLP_EMPTY_STRING ∈ S) (hprune : opts.useNodePruning = false)

/-- A write puts at most its own key in. -/
private theorem words_tree (hp : t = .nil ∨ Packed ValuedOrTwo t) (op : TrieOp) {w : Nibbles}
    (hw : ((op.tree opts t).get w).isSome) :
    (t.get w).isSome ∨ w = bytesToNibbles (opts.appliedKey op.key.1) := by
  have herase : ∀ k, ((erase t k).get w).isSome → (t.get w).isSome := by
    intro k hk
    obtain rfl | hp := hp
    · cases hk
    · obtain ⟨v, hv⟩ := Option.isSome_iff_exists.1 hk
      rw [subMap_erase hp _ w v hv]
      rfl
  cases op with
  | del key => exact Or.inl (herase _ hw)
  | put key value =>
    rw [TrieOp.tree] at hw
    split at hw
    · exact Or.inl (herase _ hw)
    · rw [get_insert] at hw
      split at hw
      · rename_i heq
        exact Or.inr heq
      · exact Or.inl hw

include hlen hS hempty hprune in
/-- **Every sequence of writes on a new trie** leads to a trie whose words are keys. -/
theorem keyTrie_runOps (hshort : opts.keyPrefix.length < 32) (ops : List TrieOp)
    (hin : ((runOps opts ops).run
      (MerklePatriciaTrie.create opts (CheckpointDB.ofEntries []))).2.db.contents ⊆ S) :
    ∃ s', (runOps opts ops).run (MerklePatriciaTrie.create opts (CheckpointDB.ofEntries [])) =
      (.ok (), s') ∧ KeyTrie opts S s' (treeOf opts ops .nil) := by
  obtain ⟨s', hrun, hbuilt⟩ := (built_create S).runOps hlen hS hempty hprune ops hin
  have hwords : ∀ (ops : List TrieOp) (s : MerklePatriciaTrie) (t : Tree), Built opts S s t →
      (∀ w, (t.get w).isSome → ∃ key : Bytes, w = bytesToNibbles key) →
      ((runOps opts ops).run s).2.db.contents ⊆ S →
      ∀ w, ((treeOf opts ops t).get w).isSome → ∃ key : Bytes, w = bytesToNibbles key := by
    intro ops
    induction ops with
    | nil => exact fun s t _ hkeys _ => hkeys
    | cons op ops ih =>
      intro s t h hkeys hin
      obtain ⟨s₁, hrun₁, hbuilt₁⟩ := h.run hlen hS hempty hprune op
      have hcons : (runOps opts (op :: ops)).run s = (runOps opts ops).run s₁ :=
        Prog.run_bind_of_ok hrun₁
      rw [hcons] at hin
      refine ih s₁ _ (hbuilt₁ ((grows_runOps ops s₁).trans hin)) (fun w hw => ?_) hin
      obtain hold | rfl := words_tree h.packed op hw
      · exact hkeys w hold
      · exact ⟨_, rfl⟩
  refine ⟨s', hrun, hbuilt.isTrie, hbuilt.packed.imp_right live_of_valuedOrTwo,
    hwords ops _ _ (built_create S) (fun w hw => ?_) hin,
    hbuilt.roots.stores.vacant hlen hshort⟩
  cases hw

end Written

/-- Writes to a new trie with keys that are not prefixed. -/
private theorem keyTrie_trieOf {S : Set Bytes} (hS : HashOn opts S)
    (hprune : opts.useNodePruning = false)
    (hpre : opts.keyPrefix = []) {ops : List TrieOp}
    (hin : (trieOf opts ops).db.contents ⊆ S) :
    KeyTrie opts S (trieOf opts ops) (treeOf opts ops .nil) := by
  obtain ⟨s', hrun, h⟩ := keyTrie_runOps hS.length hS.injOn hS.empty hprune
    (by rw [hpre]; decide) ops hin
  have hstate : trieOf opts ops = s' := congrArg Prod.snd hrun
  rwa [hstate]

/-- A trie with two branches. -/
theorem walksExhaustively_threeKeys :
    WalksExhaustively polyOpts (trieOf polyOpts threeKeys) (treeOf polyOpts threeKeys .nil) := by
  have hS := hashOn_threeKeys
  have h := keyTrie_trieOf hS rfl rfl (contents_subset_storedStrings polyOpts threeKeys)
  have hclosed : Closed {e | e ∈ storedStrings polyOpts threeKeys} :=
    closed_of_isFlat (by decide +kernel)
  -- the nodes differ already as they are written
  have hfresh : Unrepeated (treeOf polyOpts threeKeys .nil) :=
    List.Nodup.of_map (fun u => (treeNode polyOpts u).serialize) (by decide +kernel)
  have hreach : (treeOf polyOpts threeKeys .nil).Reaching
      (Stands polyOpts (trieOf polyOpts threeKeys).db) := by decide +kernel
  exact (walksExhaustively_iff hS.length hS.injOn hS.empty hclosed h).2
    ⟨hfresh, hreach, by decide +kernel⟩

/-- **The walk loses leaves that stand in a branch**: both keys are there, and no value node is
found. -/
theorem embeddedLeaves_lost :
    KeyTrie padOpts {b | b.length < 32} (trieOf padOpts twoLeaves) (treeOf padOpts twoLeaves .nil) ∧
      ((get padOpts [0x10] false).run (trieOf padOpts twoLeaves)).1 = .ok (some [1]) ∧
      ((get padOpts [0x20] false).run (trieOf padOpts twoLeaves)).1 = .ok (some [2]) ∧
      ((walkAllValueNodes padOpts 2).run (trieOf padOpts twoLeaves)).1.map List.length = .ok 0 ∧
      ¬ WalksExhaustively padOpts (trieOf padOpts twoLeaves) (treeOf padOpts twoLeaves .nil) := by
  have hin : (trieOf padOpts twoLeaves).db.contents ⊆ {b | b.length < 32} := by
    rintro e ⟨key, he⟩
    have hshort : ∀ p ∈ (trieOf padOpts twoLeaves).db.entries, ∀ v ∈ p.2, v.length < 32 := by
      decide
    exact hshort _ he e rfl
  have h := keyTrie_trieOf (hashOn_short rfl) rfl rfl hin
  refine ⟨h, by decide +kernel, by decide +kernel, by decide +kernel, ?_⟩
  rw [h.walksExhaustively_iff_leaves length_padHash injOn_padHash (by decide) closed_short]
  intro hleaves
  have hreach := ((leavesOf_walk_iff h.live).1 hleaves).1.2
  have hstands : Stands padOpts (trieOf padOpts twoLeaves).db
      (.leaf [0] ⟨[1], by decide, by decide⟩) := (hreach 1).1 nofun
  exact absurd hstands (by decide)

end Tvmjs
