import Mathlib.Order.CompletePartialOrder
import Tvmjs.Mpt.Erase

/-!
# Pruning

With pruning on, a write deletes the nodes on the path of its key once the new ones are stored.
Nodes are stored under their hashes, so that a node which stands at two places of the trie is
stored once; the deletion takes it away from both.

* `Exact` -- the database holds the nodes of the trie and nothing else;
* `PutSafe`, `DelSafe` -- no node that is deleted stands in the new trie, or stays beside the path;
* `run_put_pruned`, `run_del_pruned` -- **a safe write keeps the database exact**;
* `putSafe_of_apart`, `delSafe_of_apart` -- among keys of one length a write is safe if nothing it
  deletes stands beside the path of its key as well.
-/

namespace Tvmjs

open RLP (Input)

open PathTrie MerklePatriciaTrie CheckpointDB

variable {opts : MPTOpts}

/-! ### The nodes of a trie -/

/-- The set contains with a node the nodes embedded in it. -/
def Closed (S : Set Bytes) : Prop :=
  ∀ l m, RLP.encode (.list l) ∈ S → Input.list m ∈ l → RLP.encode (.list m) ∈ S

/-- What the database has to hold for a trie: its long nodes and the node at its root. -/
def nodeStrings (opts : MPTOpts) (t : Tree) : Set Bytes :=
  {e | e ∈ strings opts t ∨ t ≠ .nil ∧ e = (treeNode opts t).serialize}

/-- A node refers to what is below it. -/
private theorem treeRef_mem_rawList (f : Frame Nibble Value) (t : Tree) :
    treeRef opts t ∈ (treeNode opts (f.fill t)).rawList := by
  cases f with
  | ext p => exact List.mem_cons_of_mem _ List.mem_cons_self
  | branch c v s =>
    refine List.mem_append_left _ ((List.mem_ofFn' _ _).2 ⟨s, ?_⟩)
    change treeRef opts (Function.update c s t s) = _
    rw [Function.update_self]

theorem NodeOf.fill {t : Tree} {e : Bytes} (h : NodeOf opts t e) (f : Frame Nibble Value) :
    NodeOf opts (f.fill t) e := by
  obtain ⟨gs, u, hu, rfl, he⟩ := h
  exact ⟨f :: gs, u, hu, rfl, he⟩

theorem nodeOf_self {t : Tree} (ht : t ≠ .nil) : NodeOf opts t (treeNode opts t).serialize :=
  ⟨[], t, ht, rfl, rfl⟩

/-- The strings of a trie are its long nodes. -/
private theorem nodeOf_of_mem_strings {t : Tree} {e : Bytes} (h : e ∈ strings opts t) :
    NodeOf opts t e ∧ 32 ≤ e.length := by
  have htop : ∀ {t : Tree}, t ≠ .nil → e ∈ longString (treeNode opts t) →
      NodeOf opts t e ∧ 32 ≤ e.length := by
    rintro t ht ⟨rfl, hlong⟩
    exact ⟨nodeOf_self ht, hlong⟩
  induction t with
  | nil => exact absurd h (Set.notMem_empty e)
  | leaf p v => exact htop (by simp) h
  | ext p c ih =>
    rcases h with h | h
    · exact htop (t := .ext p c) (by simp) h
    · exact (ih h).imp_left fun hc => hc.fill (.ext p)
  | branch c v ih =>
    rcases h with h | h
    · exact htop (t := .branch c v) (by simp) h
    · obtain ⟨i, hi⟩ := Set.mem_iUnion.1 h
      have hfill := (ih i hi).1.fill (.branch c v i)
      rw [Frame.fill, Function.update_eq_self] at hfill
      exact ⟨hfill, (ih i hi).2⟩

private theorem nodeOf_of_mem {t : Tree} {e : Bytes} (h : e ∈ nodeStrings opts t) :
    NodeOf opts t e := by
  rcases h with h | ⟨ht, rfl⟩
  · exact (nodeOf_of_mem_strings h).1
  · exact nodeOf_self ht

/-- **The nodes of a trie lie in a closed set** if those that are stored do. -/
theorem NodeOf.mem {S : Set Bytes} (hclosed : Closed S) {t : Tree} (h : nodeStrings opts t ⊆ S)
    {e : Bytes} (he : NodeOf opts t e) : e ∈ S := by
  obtain ⟨gs, u, hu, rfl, rfl⟩ := he
  have hne : ∀ hs : List (Frame Nibble Value), plug hs u ≠ .nil := by
    intro hs
    rcases hs with _ | ⟨f, hs⟩
    · exact hu
    · exact fill_ne_nil f _
  induction gs with
  | nil => exact h (.inr ⟨hu, rfl⟩)
  | cons f gs ih =>
    have htop : (treeNode opts (f.fill (plug gs u))).serialize ∈ S :=
      h (.inr ⟨fill_ne_nil f _, rfl⟩)
    refine ih fun e he => ?_
    rcases he with he | ⟨-, rfl⟩
    · exact h (.inl (strings_subset_plug opts [f] _ he))
    · by_cases hlong : 32 ≤ (treeNode opts (plug gs u)).serialize.length
      · exact h (.inl (strings_subset_plug opts [f] _
          (longString_subset opts (hne gs) ⟨rfl, hlong⟩)))
      · -- a short node stands in its parent
        have href : treeRef opts (plug gs u) = .list (treeNode opts (plug gs u)).rawList := by
          rw [treeRef_of_ne_nil (hne gs), nodeRef, if_neg hlong]
          rfl
        exact hclosed _ _ htop (href ▸ treeRef_mem_rawList f (plug gs u))

/-- Two nodes with one serialization stand above the same trie. -/
private theorem treeNode_serialize_injective {S : Set Bytes} (hlen : ∀ v, (opts.hash v).length = 32)
    (hS : Set.InjOn opts.hash S) {t t' : Tree} (hne : t ≠ .nil) (hne' : t' ≠ .nil)
    (ht : strings opts t ⊆ S) (ht' : strings opts t' ⊆ S) (hs : t.Short (2 ^ 60))
    (h : (treeNode opts t).serialize = (treeNode opts t').serialize) : t = t' := by
  refine treeRef_injective hlen hS ht ht' hs ?_
  rw [treeRef_of_ne_nil hne, treeRef_of_ne_nil hne',
    MPTNode.serialize_injective (length_serialize_treeNode hlen hs) h]

/-! ### The nodes on a path -/

private theorem mem_spine {fs : List (Frame Nibble Value)} {t : Tree} {n : MPTNode} :
    n ∈ spine opts fs t ↔ ∃ gs hs, fs = gs ++ hs ∧ hs ≠ [] ∧ n = treeNode opts (plug hs t) := by
  induction fs with
  | nil =>
    refine ⟨fun h => (List.not_mem_nil h).elim, ?_⟩
    rintro ⟨gs, hs, hnil, hne, -⟩
    exact absurd (List.append_eq_nil_iff.1 hnil.symm).2 hne
  | cons f fs ih =>
    rw [spine, List.mem_append, List.mem_singleton, ih]
    constructor
    · rintro (⟨gs, hs, rfl, hne, rfl⟩ | rfl)
      · exact ⟨f :: gs, hs, rfl, hne, rfl⟩
      · exact ⟨[], f :: fs, rfl, by simp, rfl⟩
    · rintro ⟨gs, hs, heq, hne, rfl⟩
      rcases gs with _ | ⟨g, gs⟩
      · exact .inr (by rw [← (List.nil_append hs), ← heq])
      · obtain ⟨rfl, rfl⟩ := List.cons.inj heq
        exact .inl ⟨gs, hs, rfl, hne, rfl⟩

/-- The nodes on the path of a key are those of the tries below the first of its steps. -/
private theorem mem_pathStrings {t : Tree} {k : Nibbles} {e : Bytes} : e ∈ pathStrings opts t k ↔
    ∃ gs u, gs <+: (t.find k).frames ∧ plug gs u = t ∧ e = (treeNode opts u).serialize := by
  have hplug := plug_find t k
  rw [pathStrings, Set.mem_ofPred_eq]
  simp only [foundPath, List.append_nil, List.mem_cons, mem_spine]
  constructor
  · rintro ⟨n, rfl | ⟨gs, hs, hfs, -, rfl⟩, rfl⟩
    · exact ⟨(t.find k).frames, _, List.prefix_rfl, hplug, rfl⟩
    · refine ⟨gs, plug hs (t.find k).focus, ⟨hs, hfs.symm⟩, ?_, rfl⟩
      rw [← plug_append, ← hfs, hplug]
  · rintro ⟨gs, u, ⟨hs, hfs⟩, hu, rfl⟩
    rw [← hfs, plug_append] at hplug
    have heq : u = plug hs (t.find k).focus := plug_injective (hu.trans hplug.symm)
    rcases hs with _ | ⟨f, hs⟩
    · exact ⟨_, .inl rfl, by rw [heq, plug_nil]⟩
    · exact ⟨_, .inr ⟨gs, f :: hs, hfs.symm, by simp, rfl⟩, by rw [heq]⟩

private theorem exists_of_mem_pathStrings {t : Tree} {P : Finset (Option Nibble) → Prop}
    (hp : Packed P t)
    {k : Nibbles} {e : Bytes} (h : e ∈ pathStrings opts t k) : ∃ gs u, u ≠ .nil ∧
      gs <+: (t.find k).frames ∧ plug gs u = t ∧ e = (treeNode opts u).serialize := by
  obtain ⟨gs, u, hpre, hu, he⟩ := mem_pathStrings.1 h
  refine ⟨gs, u, ?_, hpre, hu, he⟩
  rintro rfl
  have hplug := plug_find t k
  obtain ⟨hs, hfs⟩ := hpre
  rw [← hfs, plug_append] at hplug
  have hnil : plug hs (t.find k).focus = .nil := plug_injective (hplug.trans hu.symm)
  rcases hs with _ | ⟨f, hs⟩
  · exact hp.find_focus_ne_nil k hnil
  · exact fill_ne_nil f _ hnil

private theorem nodeOf_of_mem_pathStrings {t : Tree} {P : Finset (Option Nibble) → Prop}
    (hp : Packed P t)
    {k : Nibbles} {e : Bytes} (h : e ∈ pathStrings opts t k) : NodeOf opts t e := by
  obtain ⟨gs, u, hu, -, hplug, he⟩ := exists_of_mem_pathStrings hp h
  exact ⟨gs, u, hu, hplug, he⟩

/-- **Every node of a trie** is on the path of a key or stands beside it. -/
theorem nodeStrings_subset {t : Tree} {P : Finset (Option Nibble) → Prop} (hp : Packed P t)
    (k : Nibbles) : nodeStrings opts t ⊆ pathStrings opts t k ∪ besideStrings opts t k := by
  have hplug := plug_find t k
  have hfocus := hp.find_focus_ne_nil k
  have hsaved := strings_plug_subset opts (t.find k).frames.reverse hfocus
  rw [List.reverse_reverse, hplug] at hsaved
  rintro e (he | ⟨-, rfl⟩)
  · rcases hsaved he with (he | he) | he
    · exact .inr (.inr he)
    · exact .inr (.inl he)
    · obtain ⟨gs, u, -, hu, heu, -, hpre⟩ := exists_of_mem_savedNodes hfocus he
      rw [List.reverse_reverse] at hu hpre
      exact .inl (mem_pathStrings.2 ⟨gs, u, hpre, hu.trans hplug, heu⟩)
  · exact .inl (mem_pathStrings.2 ⟨[], t, List.nil_prefix, rfl, rfl⟩)

/-! ### Exact databases -/

/-- The database holds the nodes of the trie and nothing else. -/
def Exact (opts : MPTOpts) (d : CheckpointDB) (t : Tree) : Prop :=
  ∀ key v, d.view key = some v ↔ v ∈ nodeStrings opts t ∧ key = opts.getDbKey (opts.hash v)

theorem Exact.reads {d d' : CheckpointDB} {t : Tree} (h : Exact opts d t) (hr : d.Reads d') :
    Exact opts d' t := fun key v => by rw [hr.view, h]

/-- An empty database is that of the empty trie. -/
theorem exact_ofEntries : Exact opts (ofEntries []) .nil := by
  intro key v
  constructor
  · intro h
    cases h
  · rintro ⟨h | ⟨h, -⟩, -⟩
    · exact absurd h (Set.notMem_empty v)
    · exact absurd rfl h

section Exact

variable {S : Set Bytes} (hlen : ∀ v, (opts.hash v).length = 32) (hS : Set.InjOn opts.hash S)
  (hempty : RLP_EMPTY_STRING ∈ S) {d : CheckpointDB} {t t' : Tree}

theorem Committed.nodeStrings_subset (h : Committed opts S t) : nodeStrings opts t ⊆ S := by
  rintro e (he | ⟨hne, rfl⟩)
  · exact h.strings he
  · exact h.top hne

include hlen hS hempty in
/-- An exact database is complete. -/
theorem Exact.complete (h : Exact opts d t) (hc : Committed opts S t) : Complete opts d t where
  stored e he := (h _ e).2 ⟨.inl he, rfl⟩
  top hne := (h _ _).2 ⟨.inr ⟨hne, rfl⟩, rfl⟩
  empty := by
    rw [Option.eq_none_iff_forall_ne_some]
    intro v hv
    obtain ⟨hmem, hkey⟩ := (h _ v).1 hv
    have hv' : RLP_EMPTY_STRING = v :=
      hS hempty (hc.nodeStrings_subset hmem) (key_inj hlen hkey).2
    subst hv'
    obtain ⟨gs, u, -, rfl, he⟩ := nodeOf_of_mem hmem
    exact serialize_ne_empty (length_serialize_treeNode hlen hc.short.of_plug) he.symm

include hlen hS in
/-- **Replacing the nodes of a trie by those of another one**: what is written and what is kept are
the nodes of the new trie, what is deleted before is written again or not kept, and what is deleted
at the end is not a node of the new trie. -/
theorem Exact.write (h : Exact opts d t) {k : Nibbles} {m : ℕ} {K : Set Bytes}
    {dels es ps : List Bytes} (hw : Written opts k m K t' es) (hK : K ⊆ strings opts t)
    (hc' : Committed opts S t') (hdelsS : ∀ e ∈ dels, e ∈ S)
    (hpsS : ∀ e ∈ ps, e ∈ S)
    (hold : ∀ e ∈ nodeStrings opts t, e ∈ ps ∨ e ∈ dels ∨ e ∈ nodeStrings opts t')
    (hdels : ∀ e ∈ dels, e ∉ K ∨ (32 ≤ e.length → e ∈ es))
    (hps : ∀ e ∈ ps, e ∉ nodeStrings opts t') :
    Exact opts ((d.batch (delOps opts.hash opts.keyPrefix dels ++
      putOps opts.hash opts.keyPrefix es)).batch (delOps opts.hash opts.keyPrefix ps)) t' := by
  have hesnode : ∀ e ∈ es, e ∈ nodeStrings opts t' := by
    intro e he
    obtain ⟨gs, u, hu, rfl, heu, hlong, -⟩ := hw.mem e he
    rcases hlong with rfl | hlong
    · exact .inr ⟨hu, heu⟩
    · exact .inl (strings_subset_plug opts gs u (longString_subset opts hu ⟨heu, hlong⟩))
  have hesS : ∀ e ∈ es, e ∈ S := fun e he => hc'.nodeStrings_subset (hesnode e he)
  intro key v
  rw [view_delOps_iff, batch_append, view_putOps hlen hS hesS, view_delOps_iff, h key v]
  constructor
  · rintro ⟨hnotps, ⟨hv, rfl⟩ | ⟨-, hnotdels, hv, rfl⟩⟩
    · exact ⟨hesnode v hv, rfl⟩
    · refine ⟨?_, rfl⟩
      rcases hold v hv with hmem | hmem | hmem
      · exact absurd rfl (hnotps v hmem)
      · exact absurd rfl (hnotdels v hmem)
      · exact hmem
  · rintro ⟨hv, rfl⟩
    have hvS := hc'.nodeStrings_subset hv
    have hne : ∀ l : List Bytes, (∀ e ∈ l, e ∈ S) → v ∉ l →
        ∀ e ∈ l, opts.getDbKey (opts.hash v) ≠ opts.keyPrefix ++ opts.hash e :=
      fun l hl hvl e he hkey => hvl (hS hvS (hl e he) (key_inj hlen hkey).2 ▸ he)
    refine ⟨hne ps hpsS fun hmem => hps v hmem hv, ?_⟩
    by_cases hes : v ∈ es
    · exact .inl ⟨hes, rfl⟩
    · have hvK : v ∈ K := by
        rcases hv with hv | ⟨-, rfl⟩
        · exact (hw.strings hv).resolve_right hes
        · exact absurd hw.top hes
      have hlong := (nodeOf_of_mem_strings (hw.kept hvK)).2
      refine .inr ⟨hne es hesS hes, hne dels hdelsS fun hmem => ?_, .inl (hK hvK), rfl⟩
      rcases hdels v hmem with hnot | hagain
      · exact hnot hvK
      · exact hes (hagain hlong)

/-- A state after its path was deleted. -/
def MerklePatriciaTrie.pruned (opts : MPTOpts) (s : MerklePatriciaTrie) (ps : List Bytes) :
    MerklePatriciaTrie :=
  { s with db := s.db.batch (delOps opts.hash opts.keyPrefix ps) }

/-- What was written is in the set that holds everything ever stored. -/
theorem Wrote.committed {s s' : MerklePatriciaTrie} {k : Nibbles} {m : ℕ} {K D E : Set Bytes}
    (hwrote : Wrote opts k m K D E t' s s') (h : Roots opts S s t) (hK : K ⊆ strings opts t)
    (hshort : t'.Short (2 ^ 60)) (ps : List Bytes) (hin : (s'.pruned opts ps).db.contents ⊆ S) :
    Committed opts S t' := by
  obtain ⟨dels, es, rfl, hw, -, -⟩ := hwrote
  have hesS : ∀ e ∈ es, e ∈ S := by
    intro e he
    refine hin ?_
    change e ∈ ((s.db.batch (_ ++ _)).batch _).contents
    rw [contents_delOps, batch_append, contents_batch opts.hash]
    exact .inl he
  refine ⟨hw.strings.trans (Set.union_subset ?_ hesS), fun _ => hesS _ hw.top, hshort⟩
  exact hK.trans h.committed.strings

include hlen hS in
/-- **What a call leaves that wrote a trie and then deletes a path.** -/
theorem Wrote.exact {s s' : MerklePatriciaTrie} {k : Nibbles} {m : ℕ} {K D E : Set Bytes}
    (ps : List Bytes) (hwrote : Wrote opts k m K D E t' s s') (hprune : opts.useNodePruning = true)
    (hclosed : Closed S) (h : Roots opts S s t) (hx : Exact opts s.db t) (hK : K ⊆ strings opts t)
    (hshort : t'.Short (2 ^ 60)) (hDS : D ⊆ S) (hDK : ∀ e ∈ D, e ∉ K)
    (hold : ∀ e ∈ nodeStrings opts t, e ∈ ps ∨ e ∈ E ∨ e ∈ nodeStrings opts t')
    (hpsS : ∀ e ∈ ps, e ∈ S) (hps : ∀ e ∈ ps, e ∉ nodeStrings opts t')
    (hin : (s'.pruned opts ps).db.contents ⊆ S) :
    Roots opts S (s'.pruned opts ps) t' ∧ Exact opts (s'.pruned opts ps).db t' := by
  have hc' := hwrote.committed h hK hshort ps hin
  obtain ⟨dels, es, rfl, hw, hdels, hE⟩ := hwrote
  have hdelsS : ∀ e ∈ dels, e ∈ S := by
    intro e he
    rcases (hdels e he).2 with hD | ⟨hnode, -⟩
    · exact hDS hD
    · exact hnode.mem hclosed hc'.nodeStrings_subset
  refine ⟨⟨⟨?_, hin⟩, rfl, hc'⟩, hx.write hlen hS hw hK hc' hdelsS hpsS (fun e he => ?_)
    (fun e he => ?_) hps⟩
  · refine Addressed.delOps ?_ _ _
    rw [batch_append]
    exact (h.stores.addressed.delOps _ _).batch _ _
  · exact (hold e he).imp_right fun h => h.imp_left fun h => hE hprune e h
  · exact (hdels e he).2.imp (hDK e) fun h => h.2

end Exact

/-! ### Safe writes -/

/-- A put deletes no node of the trie it leads to. -/
def PutSafe (opts : MPTOpts) (t : Tree) (k : Nibbles) (v : Value) : Prop :=
  t.get k = some v ∨ ∀ e ∈ pathStrings opts t k, e ∉ nodeStrings opts (t.insert k v)

/-- A deletion deletes no node of the trie it leads to. -/
def DelSafe (opts : MPTOpts) (t : Tree) (k : Nibbles) : Prop :=
  (foundPath opts t k []).node.isSome →
    (∀ e ∈ pathStrings opts t k, e ∉ nodeStrings opts (erase t k)) ∧
      ∀ e ∈ droppedStrings opts t k, e ∉ keptStrings opts t k

/-- An entry that is put once more changes nothing. -/
private theorem insert_of_get {t : Tree} {k : Nibbles} {v : Value} (h : t.get k = some v) :
    t.insert k v = t := by
  have hstuck := stuck_find t k
  have hplug := plug_find t k
  have hget := get_find t k
  rw [insert_find]
  generalize t.find k = d at *
  obtain ⟨fs, focus, rest⟩ := d
  simp only at *
  rw [h] at hget
  suffices hsame : focus.insert rest v = focus by rw [hsame, hplug]
  cases hstuck with
  | nil => cases hget
  | leaf p w =>
    rw [get_leaf] at hget
    split at hget
    · rename_i hrest
      rw [hrest, Option.some.inj hget]
      exact if_pos rfl
    · cases hget
  | ext c hpre =>
    rw [get_ext, if_neg hpre] at hget
    cases hget
  | done c w =>
    rw [get_branch_nil] at hget
    rw [← hget]
    rfl
  | slot w r hs =>
    rw [get_branch_cons, hs] at hget
    cases hget

/-- What has a value is found. -/
private theorem get_of_not_found {t : Tree} {k : Nibbles}
    (h : (foundPath opts t k []).node = none) :
    t.get k = none := by
  have hvalue := foundNode_value opts (stuck_find t k)
  change foundNode opts (t.find k).focus (t.find k).rest = none at h
  rw [h] at hvalue
  rw [get_find]
  exact Option.map_eq_none_iff.1 hvalue.symm

/-- The nodes on the path of a key, as a list. -/
def pathList (opts : MPTOpts) (t : Tree) (k : Nibbles) : List Bytes :=
  (foundPath opts t k []).stack.map MPTNode.serialize

private theorem mem_pathList {t : Tree} {k : Nibbles} {e : Bytes} :
    e ∈ pathList opts t k ↔ e ∈ pathStrings opts t k := by
  rw [pathList, List.mem_map, pathStrings, Set.mem_ofPred_eq]
  exact exists_congr fun n => and_congr_right fun _ => eq_comm

private theorem createPruneDeleteOps_eq (stack : List MPTNode) : createPruneDeleteOps opts stack =
    delOps opts.hash opts.keyPrefix (stack.map MPTNode.serialize) := by
  rw [createPruneDeleteOps, delOps, List.map_map]
  rfl

section Writes

variable {S : Set Bytes} (hlen : ∀ v, (opts.hash v).length = 32) (hS : Set.InjOn opts.hash S)
  (hempty : RLP_EMPTY_STRING ∈ S) (hprune : opts.useNodePruning = true) (hclosed : Closed S)
  {s : MerklePatriciaTrie} {t : Tree} {P : Finset (Option Nibble) → Prop}

include hlen hS hempty hprune hclosed in
/-- **A put that is safe keeps the database exact.** -/
theorem run_put_pruned (hp : t = .nil ∨ Packed P t) (h : Roots opts S s t)
    (hx : Exact opts s.db t) {key : Bytes}
    (hkey : (bytesToNibbles (opts.appliedKey key)).length ≤ 2 ^ 60) (v : Value)
    (hsafe : t ≠ .nil → Committed opts S (t.insert (bytesToNibbles (opts.appliedKey key)) v) →
      PutSafe opts t (bytesToNibbles (opts.appliedKey key)) v) :
    ∃ s', (put opts key v.1).run s = (.ok (), s') ∧ (s'.db.contents ⊆ S →
      Roots opts S s' (t.insert (bytesToNibbles (opts.appliedKey key)) v) ∧
      Exact opts s'.db (t.insert (bytesToNibbles (opts.appliedKey key)) v)) := by
  have hv : ¬ v.1.length = 0 := fun h => v.2.1 (List.eq_nil_of_length_eq_zero h)
  rw [MerklePatriciaTrie.put, if_neg hv, Prog.run_bind_of_ok (Prog.run_gets _ s)]
  simp only [hprune]
  -- the first key of a trie
  rcases hp with rfl | hp
  · rw [if_pos ((h.root_eq_empty hlen hS hempty).2 rfl)]
    obtain ⟨s', hrun, hwrote⟩ := run_createInitialNode hlen (opts.appliedKey key) v ∅ s
    refine ⟨s', hrun, fun hin => ?_⟩
    exact Wrote.exact hlen hS [] hwrote hprune hclosed h hx (Set.empty_subset _) hkey
      (Set.empty_subset _) (fun e he => absurd he (Set.notMem_empty e))
      (fun e he => by
        rcases he with he | ⟨hne, -⟩
        · exact absurd he (Set.notMem_empty e)
        · exact absurd rfl hne)
      (by simp) (by simp) hin
  · rw [if_neg fun heq => hp.ne_nil ((h.root_eq_empty hlen hS hempty).1 heq)]
    have hc := hx.complete hlen hS hempty h.committed
    generalize hk : bytesToNibbles (opts.appliedKey key) = k at *
    obtain ⟨s₁, hr, hfind | ⟨hno, -⟩⟩ := run_findPath hlen hS h hp (opts.appliedKey key) true
    · obtain ⟨s₂, hr₂, hget⟩ := run_get hlen hS (h.reads hr) (hc.reads hr.db) (.inr hp) key
      obtain ⟨s₃, hrun, hwrote⟩ := run_updateNode hlen hp (opts.appliedKey key) v s₂
      have hreads := hr.trans hr₂
      rw [hk] at hfind hget hrun hwrote
      have hshort := Short.insert hp h.committed.short v hkey
      have hpathS : pathStrings opts t k ⊆ S := fun e he =>
        (nodeOf_of_mem_pathStrings hp he).mem hclosed h.committed.nodeStrings_subset
      have hbeside := besideStrings_subset_insert opts hp k v
      have hfinish : ∀ ps : List Bytes, (putPruneOps opts key v.1 (foundPath opts t k []).stack).run
            s₁ = (.ok (delOps opts.hash opts.keyPrefix ps), s₂) →
          (findPath opts (opts.appliedKey key) true >>= fun path => do
            let ops ← putPruneOps opts key v.1 path.stack
            updateNode opts (opts.appliedKey key) v.1 path.remaining path.stack
            dbBatch ops : TrieM Unit).run s = (.ok (), s₃.pruned opts ps) := by
        intro ps hops
        rw [Prog.run_bind_of_ok hfind, Prog.run_bind_of_ok hops, Prog.run_bind_of_ok hrun]
        rfl
      -- nothing is pruned where the value stays the same
      have hops : (putPruneOps opts key v.1 (foundPath opts t k []).stack).run s₁ =
          (.ok (if (t.get k).map Subtype.val = some v.1 then []
            else createPruneDeleteOps opts (foundPath opts t k []).stack), s₂) := by
        rw [putPruneOps, Prog.run_bind_of_ok hget]
        rfl
      -- with the same value the same trie is written again
      by_cases hsame : t.get k = some v
      · rw [if_pos (by rw [hsame]; rfl)] at hops
        refine ⟨_, hfinish [] hops, fun hin => ?_⟩
        refine Wrote.exact hlen hS [] hwrote hprune hclosed (h.reads hreads) (hx.reads hreads.db)
          (besideStrings_subset t k) hshort (fun e he => hpathS he.1) (fun e he => ?_)
          (fun e he => .inr (.inr ?_)) (by simp) (by simp) hin
        · rw [get_of_not_found he.2] at hsame
          cases hsame
        · rwa [insert_of_get hsame]
      · have hdiff : ¬ (t.get k).map Subtype.val = some v.1 := by
          intro heq
          obtain ⟨w, hw, hval⟩ := Option.map_eq_some_iff.1 heq
          exact hsame (by rw [hw, Subtype.ext hval])
        rw [if_neg hdiff, createPruneDeleteOps_eq] at hops
        refine ⟨_, hfinish (pathList opts t k) hops, fun hin => ?_⟩
        have hc' := hwrote.committed (h.reads hreads) (besideStrings_subset t k) hshort
          (pathList opts t k) hin
        -- otherwise the old path goes, none of which stands elsewhere
        have hdisj := (hsafe hp.ne_nil hc').resolve_left hsame
        refine Wrote.exact hlen hS (pathList opts t k) hwrote hprune hclosed (h.reads hreads)
          (hx.reads hreads.db) (besideStrings_subset t k) hshort (fun e he => hpathS he.1)
          (fun e he hK => hdisj e he.1 (.inl (hbeside hK))) (fun e he => ?_)
          (fun e he => hpathS (mem_pathList.1 he)) (fun e he => hdisj e (mem_pathList.1 he)) hin
        exact (nodeStrings_subset hp k he).imp mem_pathList.2 fun h => .inr (.inl (hbeside h))
    · exact absurd hc hno

/-- What stands below a branch stays where it is or is dropped. -/
private theorem strings_subset_settle (c : Nibble → Tree) :
    (⋃ i, strings opts (c i)) ⊆ settleStrings opts c ∪ settleDropped opts c := by
  by_cases hone : ∃ i, childSlots c = [i]
  · obtain ⟨i, hi⟩ := hone
    have hne : c i ≠ .nil := mem_childSlots.1 (by rw [hi]; exact List.mem_cons_self)
    have hothers : ∀ j, j ≠ i → c j = .nil := by
      intro j hj
      by_contra hjne
      have hmem := mem_childSlots.2 hjne
      rw [hi, List.mem_singleton] at hmem
      exact hj hmem
    refine Set.iUnion_subset fun j => ?_
    by_cases hj : j = i
    · subst hj
      obtain ⟨hchild, hbranch⟩ := settleStrings_one opts hi
      have hdropped := settleDropped_one opts hi
      rw [strings_eq hne]
      refine Set.union_subset ?_ (hchild.trans Set.subset_union_left)
      rintro e ⟨rfl, hlong⟩
      rw [hdropped]
      rcases hcj : c j with _ | _ | _ | ⟨b, w⟩
      · exact absurd hcj hne
      · exact .inr rfl
      · exact .inr rfl
      · rw [← hcj]
        exact .inl (hbranch b w hcj (longString_subset opts hne ⟨rfl, hlong⟩))
    · rw [hothers j hj]
      exact Set.empty_subset _
  · have hall : settleStrings opts c = ⋃ i, strings opts (c i) := by
      rw [settleStrings]
      split
      · rename_i i hi
        exact absurd ⟨i, hi⟩ hone
      · rfl
    rw [hall]
    exact Set.subset_union_left

/-- What is dropped is a child. -/
private theorem exists_of_mem_settleDropped {c : Nibble → Tree} {e : Bytes}
    (h : e ∈ settleDropped opts c) : ∃ i, c i ≠ .nil ∧ e = (treeNode opts (c i)).serialize := by
  rw [settleDropped] at h
  split at h
  · rename_i i hi
    have hne : c i ≠ .nil := mem_childSlots.1 (by rw [hi]; exact List.mem_cons_self)
    refine ⟨i, hne, ?_⟩
    split at h
    · exact absurd h (Set.notMem_empty e)
    · exact h
  · exact absurd h (Set.notMem_empty e)

theorem NodeOf.plug {t : Tree} {e : Bytes} (h : NodeOf opts t e) (fs : List (Frame Nibble Value)) :
    NodeOf opts (PathTrie.plug fs t) e := by
  induction fs with
  | nil => exact h
  | cons f fs ih => exact ih.fill f

private theorem nodeOf_child {c : Nibble → Tree} (w : Option Value) {i : Nibble} (hi : c i ≠ .nil) :
    NodeOf opts (.branch c w) (treeNode opts (c i)).serialize := by
  have h : NodeOf opts ((Frame.branch c w i).fill (c i)) (treeNode opts (c i)).serialize :=
    (nodeOf_self hi).fill (.branch c w i)
  rwa [Frame.fill, Function.update_eq_self] at h

/-- **What stands beside the path** of a key that is deleted is kept or dropped, and what is dropped
is a node of the trie. -/
theorem beside_of_erase {t : Tree} {k : Nibbles} (hp : Packed P t)
    (hfound : (foundPath opts t k []).node.isSome) :
    besideStrings opts t k ⊆ keptStrings opts t k ∪ droppedStrings opts t k ∧
      ∀ e ∈ droppedStrings opts t k, NodeOf opts t e := by
  have hstuck := stuck_find t k
  have hplug := plug_find t k
  rw [besideStrings, keptStrings, droppedStrings]
  simp only [foundPath] at hfound
  generalize t.find k = d at *
  obtain ⟨fs, focus, rest⟩ := d
  simp only at *
  -- Only a leaf or the value of a branch can be erased.
  cases hstuck with
  | nil r => cases hfound
  | ext c hpre => cases hfound
  | slot w r hs => cases hfound
  | leaf p v =>
    rcases List.eq_nil_or_concat fs with rfl | ⟨gs, f, rfl⟩
    · exact ⟨by simp [siblingStrings, childStrings], fun e he => absurd he (Set.notMem_empty e)⟩
    · rw [List.concat_eq_append] at hplug ⊢
      obtain ⟨c, w, i, rfl⟩ := last_frame_branch (by rw [hplug]; exact hp)
      simp only [List.reverse_append, List.reverse_cons, List.reverse_nil, List.nil_append,
        List.singleton_append, List.reverse_reverse]
      -- the branch settles without its leaf, and what stood beside the leaf is kept or dropped then
      have hsettle : (⋃ j, strings opts (Function.update c i .nil j)) ⊆ _ :=
        strings_subset_settle (Function.update c i .nil)
      refine ⟨?_, fun e he => ?_⟩
      · rw [siblingStrings_append]
        rintro e ((he | he | he) | he)
        · exact .inl (.inl he)
        · obtain ⟨j, hj, he⟩ := Set.mem_iUnion₂.1 he
          have hmem : e ∈ ⋃ j, strings opts (Function.update c i .nil j) := by
            refine Set.mem_iUnion.2 ⟨j, ?_⟩
            rwa [Function.update_of_ne hj]
          exact (hsettle hmem).imp_left .inr
        · exact absurd he (Set.notMem_empty e)
        · exact absurd he (Set.notMem_empty e)
      · obtain ⟨j, hj, rfl⟩ := exists_of_mem_settleDropped he
        have hji : j ≠ i := by
          rintro rfl
          rw [Function.update_self] at hj
          exact hj rfl
        rw [Function.update_of_ne hji] at hj ⊢
        rw [← hplug, plug_append]
        have hchild : NodeOf opts (.branch (Function.update c i (.leaf p v)) w) _ :=
          nodeOf_child w (i := j) (by rwa [Function.update_of_ne hji])
        rw [Function.update_of_ne hji] at hchild
        exact hchild.plug gs
  | done c w =>
    refine ⟨?_, fun e he => ?_⟩
    · rintro e (he | he)
      · exact .inl (.inl he)
      · exact (strings_subset_settle c he).imp_left .inr
    · obtain ⟨j, hj, rfl⟩ := exists_of_mem_settleDropped he
      rw [← hplug]
      exact (nodeOf_child w hj).plug fs

/-- Where the trie goes altogether nothing stands beside the path. -/
private theorem besideStrings_root {t : Tree} {k : Nibbles}
    (hfound : (foundPath opts t k []).node.isSome) (hsafe : EraseSafe t k)
    (hroot : (t.find k).frames = []) : besideStrings opts t k = ∅ := by
  have hstuck := stuck_find t k
  rw [EraseSafe] at hsafe
  rw [besideStrings]
  simp only [foundPath] at hfound
  generalize t.find k = d at *
  obtain ⟨fs, focus, rest⟩ := d
  simp only at *
  subst hroot
  cases hstuck with
  | nil r => cases hfound
  | ext c hpre => cases hfound
  | slot w r hs => cases hfound
  | leaf p v => exact Set.union_empty _
  | done c w =>
    refine Set.subset_empty_iff.1 (Set.union_subset subset_rfl (Set.iUnion_subset fun i => ?_))
    rw [hsafe rfl i]
    exact subset_rfl

include hlen hS hempty hprune hclosed in
/-- **A deletion that is safe keeps the database exact.** -/
theorem run_del_pruned (hp : t = .nil ∨ Packed P t) (h : Roots opts S s t)
    (hx : Exact opts s.db t) (key : Bytes)
    (hshort : (erase t (bytesToNibbles (opts.appliedKey key))).Short (2 ^ 60))
    (herase : EraseSafe t (bytesToNibbles (opts.appliedKey key)))
    (hsafe : Committed opts S (erase t (bytesToNibbles (opts.appliedKey key))) →
      DelSafe opts t (bytesToNibbles (opts.appliedKey key))) :
    ∃ s', (del opts key).run s = (.ok (), s') ∧ (s'.db.contents ⊆ S →
      Roots opts S s' (erase t (bytesToNibbles (opts.appliedKey key))) ∧
      Exact opts s'.db (erase t (bytesToNibbles (opts.appliedKey key)))) := by
  have hc := hx.complete hlen hS hempty h.committed
  -- nothing is deleted from the empty trie
  rcases hp with rfl | hp
  · obtain ⟨s', hr, hrun⟩ := run_findPath_nil h.root hc (opts.appliedKey key)
    refine ⟨s', ?_, fun _ => ⟨h.reads hr, hx.reads hr.db⟩⟩
    rw [MerklePatriciaTrie.del, Prog.run_bind_of_ok hrun]
    simp only [hprune]
    rfl
  · generalize hk : bytesToNibbles (opts.appliedKey key) = k at *
    obtain ⟨s₁, hr, hfind | ⟨hno, -⟩⟩ := run_findPath hlen hS h hp (opts.appliedKey key) false
    · rw [hk] at hfind
      rw [MerklePatriciaTrie.del, Prog.run_bind_of_ok hfind]
      rcases hnode : (foundPath opts t k []).node with _ | n
      · -- the key is absent, so the trie only reads
        rw [erase_of_not_found hnode]
        refine ⟨s₁, ?_, fun _ => ⟨h.reads hr, hx.reads hr.db⟩⟩
        simp only [hprune]
        rfl
      · have hfound : (foundPath opts t k []).node.isSome := by rw [hnode]; rfl
        have hfound' : (foundPath opts t (bytesToNibbles (opts.appliedKey key))
          []).node.isSome := by
          rwa [hk]
        obtain ⟨hbeside, hnodes⟩ := beside_of_erase hp hfound
        have hS' := h.committed.nodeStrings_subset
        have hpathS : ∀ e ∈ pathStrings opts t k, e ∈ S := fun e he =>
          (nodeOf_of_mem_pathStrings hp he).mem hclosed hS'
        -- the nodes on the old path are deleted after the trie was written
        have hfinish : ∀ s₂, (deleteNode opts (opts.appliedKey key)
          (foundPath opts t k []).stack).run
              s₁ = (.ok (), s₂) →
            (deleteNode opts (opts.appliedKey key) (foundPath opts t k []).stack >>= fun _ =>
              if opts.useNodePruning then
                dbBatch (createPruneDeleteOps opts (foundPath opts t k []).stack) else pure () :
              TrieM Unit).run s₁ = (.ok (), s₂.pruned opts (pathList opts t k)) := by
          intro s₂ hrun
          rw [Prog.run_bind_of_ok hrun, if_pos hprune, createPruneDeleteOps_eq]
          rfl
        obtain ⟨s₂, hrun, hdone⟩ := run_deleteNode hlen hS hp (h.reads hr) (hc.reads hr.db)
          hfound' 0
        rw [hk] at hrun hdone
        refine ⟨_, hfinish s₂ hrun, fun hin => ?_⟩
        -- either the last key went and nothing is left, or a smaller trie was written
        rcases hdone with ⟨hnil, hroot, rfl⟩ | ⟨s₃, hr₃, hwrote⟩
        · rw [hnil]
          refine ⟨⟨⟨(h.reads hr).stores.addressed.delOps _ _, hin⟩, rfl, Set.empty_subset S,
            fun hne => absurd rfl hne, trivial⟩, fun key v => ?_⟩
          -- with one key every node is on its path
          have hgone : ∀ e ∈ nodeStrings opts t, e ∈ pathList opts t k := by
            intro e he
            have hmem := nodeStrings_subset hp k he
            rw [besideStrings_root hfound herase hroot, Set.union_empty] at hmem
            exact mem_pathList.2 hmem
          refine iff_of_false (fun hv => ?_) ?_
          · obtain ⟨hne, hv⟩ := (view_delOps_iff _ _ _).1 hv
            obtain ⟨hmem, hkey⟩ := ((hx.reads hr.db) key v).1 hv
            exact hne v (hgone v hmem) hkey
          · rintro ⟨he | ⟨hne, -⟩, -⟩
            · exact absurd he (Set.notMem_empty v)
            · exact hne rfl
        · have hkept : keptStrings opts t k ⊆ strings opts (erase t k) := by
            obtain ⟨dels, es, -, hw, -⟩ := hwrote
            exact hw.kept
          have hc' := hwrote.committed (h.reads (hr.trans hr₃)) keptStrings_subset hshort
            (pathList opts t k) hin
          -- nothing that stays was deleted with the path
          obtain ⟨hpath, hdropped⟩ := hsafe hc' hfound
          refine Wrote.exact hlen hS (pathList opts t k) hwrote hprune hclosed
            (h.reads (hr.trans hr₃)) (hx.reads (hr.trans hr₃).db) keptStrings_subset hshort
            (Set.union_subset hpathS fun e he => (hnodes e he).mem hclosed hS') ?_ (fun e he => ?_)
            (fun e he => hpathS e (mem_pathList.1 he)) (fun e he => hpath e (mem_pathList.1 he)) hin
          · rintro e (he | he) hK
            · exact hpath e he (.inl (hkept hK))
            · exact hdropped e he hK
          · rcases nodeStrings_subset hp k he with he | he
            · exact .inl (mem_pathList.2 he)
            · rcases hbeside he with he | he
              · exact .inr (.inr (.inl (hkept he)))
              · exact .inr (.inl he)
    · exact absurd hc hno

end Writes

/-! ### Keys of one length -/

/-- A put deletes nothing that stands beside the path of its key as well. -/
def PutApart (opts : MPTOpts) (t : Tree) (k : Nibbles) (v : Value) : Prop :=
  t.get k = some v ∨ Disjoint (pathStrings opts t k) (besideStrings opts t k)

/-- A deletion deletes nothing that stays beside the path of its key. -/
def DelApart (opts : MPTOpts) (t : Tree) (k : Nibbles) : Prop :=
  (foundPath opts t k []).node.isSome →
    Disjoint (pathStrings opts t k ∪ droppedStrings opts t k) (keptStrings opts t k)

/-! ### Nodes beside the path, looked up -/

section Decide

variable (opts : MPTOpts) (e : Bytes)

instance (n : MPTNode) : Decidable (e ∈ longString n) :=
  inferInstanceAs (Decidable (e = n.serialize ∧ 32 ≤ e.length))

instance decidableMemStrings : ∀ t : Tree, Decidable (e ∈ strings opts t)
  | .nil => isFalse (Set.notMem_empty e)
  | .leaf p v => inferInstanceAs (Decidable (e ∈ longString (.leaf p v.1)))
  | .ext p c =>
    have := decidableMemStrings c
    inferInstanceAs (Decidable
      (e ∈ longString (.extension p (treeRef opts c)) ∨ e ∈ strings opts c))
  | .branch c v =>
    have (s : Nibble) := decidableMemStrings (c s)
    decidable_of_iff
      (e ∈ longString (.branch (fun s => treeRef opts (c s)) (valueBytes v)) ∨
        ∃ s, e ∈ strings opts (c s)) (or_congr_right Set.mem_iUnion.symm)

instance decidableMemChildStrings : ∀ t : Tree, Decidable (e ∈ childStrings opts t)
  | .nil => isFalse (Set.notMem_empty e)
  | .leaf _ _ => isFalse (Set.notMem_empty e)
  | .ext _ c => decidableMemStrings opts e c
  | .branch c _ => decidable_of_iff (∃ s, e ∈ strings opts (c s)) Set.mem_iUnion.symm

instance decidableMemSiblingStrings :
    ∀ fs : List (Frame Nibble Value), Decidable (e ∈ siblingStrings opts fs)
  | [] => isFalse (Set.notMem_empty e)
  | .ext _ :: fs => decidableMemSiblingStrings fs
  | .branch c _ s :: fs =>
    have := decidableMemSiblingStrings fs
    decidable_of_iff ((∃ i, i ≠ s ∧ e ∈ strings opts (c i)) ∨ e ∈ siblingStrings opts fs)
      (or_congr_left (by simp only [Set.mem_iUnion₂, Set.mem_ofPred_eq, exists_prop]))

instance (t : Tree) (k : Nibbles) : Decidable (e ∈ besideStrings opts t k) :=
  inferInstanceAs (Decidable (e ∈ siblingStrings opts (t.find k).frames ∨
    e ∈ childStrings opts (t.find k).focus))

/-- Whether a put deletes nothing that stands beside the path of its key can be looked up. -/
instance (t : Tree) (k : Nibbles) (v : Value) : Decidable (PutApart opts t k v) :=
  decidable_of_iff (t.get k = some v ∨ ∀ e ∈ pathList opts t k, e ∉ besideStrings opts t k)
    (or_congr_right (by simp only [Set.disjoint_left, mem_pathList]))

end Decide

section Apart

variable {S : Set Bytes} (hlen : ∀ v, (opts.hash v).length = 32) (hS : Set.InjOn opts.hash S)
  {t t' : Tree} {n : ℕ}

include hlen hS in
/-- **Among keys of one length a node of the old path is not written again**: at another depth its
words would be of another length, and at its own it would have the old value of the key. -/
theorem not_mem_of_written {k : Nibbles} {m : ℕ} {K : Set Bytes} {es : List Bytes}
    (hw : Written opts k m K t' es) (hp : Live t) (hc : Committed opts S t)
    (hc' : Committed opts S t') (hwords : Words n t) (hwords' : Words n t')
    (hget : t.get k ≠ t'.get k) (hm : (pathOf (t.find k).frames).length ≤ m) {e : Bytes}
    (he : e ∈ pathStrings opts t k) (heK : e ∉ K) : e ∉ nodeStrings opts t' := by
  intro hmem
  have hes : e ∈ es := by
    rcases hmem with hmem | ⟨-, rfl⟩
    · exact (hw.strings hmem).resolve_left heK
    · exact hw.top
  obtain ⟨gs', u', hu', hplug', heu', -, hwhere⟩ := hw.mem e hes
  obtain ⟨gs, u, hu, ⟨hs, hfs⟩, hplug, heu⟩ := exists_of_mem_pathStrings hp he
  -- one node, so one subtrie
  have hsub : strings opts u ⊆ S :=
    (hplug ▸ strings_subset_plug opts gs u).trans hc.strings
  have hsub' : strings opts u' ⊆ S :=
    (hplug' ▸ strings_subset_plug opts gs' u').trans hc'.strings
  have hshort : u.Short (2 ^ 60) := Short.of_plug gs (hplug ▸ hc.short)
  obtain rfl : u = u' :=
    treeNode_serialize_injective hlen hS hu hu' hsub hsub' hshort (heu.symm.trans heu')
  -- one depth, since the words have one length
  obtain ⟨w, v, hv⟩ := (Packed.of_plug gs (hplug ▸ hp) hu : Live u).exists_get
  have hlong : (pathOf gs).length + w.length = n :=
    Words.of_plug (hplug ▸ hwords) (t := u) (by rw [hv]; rfl)
  have hlong' : (pathOf gs').length + w.length = n :=
    Words.of_plug (hplug' ▸ hwords') (t := u) (by rw [hv]; rfl)
  have hpath := pathOf_find t k
  rw [← hfs, pathOf_append] at hpath hm
  rw [List.length_append] at hm
  rcases hwhere with hK | hpre | hdeep
  · exact heK hK
  · -- one place on the path of the key, so one value there
    have hgs : pathOf gs <+: k := ⟨_, by rw [← hpath, List.append_assoc]⟩
    have heq : pathOf gs = pathOf gs' :=
      (List.prefix_of_prefix_length_le hgs hpre (by omega)).eq_of_length (by omega)
    obtain ⟨r, rfl⟩ := hgs
    refine hget ?_
    rw [← hplug, get_plug_append, ← hplug', heq, get_plug_append]
  · omega

/-- Among keys of one length what is found has a value. -/
private theorem Words.get_of_found {k : Nibbles} (hwords : Words n t) (hp : Canonical t)
    (hk : k.length = n) (hfound : (foundPath opts t k []).node.isSome) : t.get k ≠ none := by
  have hstuck := stuck_find t k
  have hplug := plug_find t k
  have hpath := pathOf_find t k
  have hpacked := hp.find k
  rw [get_find]
  simp only [foundPath] at hfound
  generalize t.find k = d at *
  obtain ⟨fs, focus, rest⟩ := d
  simp only at *
  cases hstuck with
  | nil r => cases hfound
  | ext c hpre => cases hfound
  | slot w r hs => cases hfound
  | leaf p v =>
    rw [get_leaf]
    by_cases hrest : rest = p
    · simp [hrest]
    · simp [foundNode, hrest] at hfound
  | done c w =>
    -- a branch stands above the ends of the words
    obtain ⟨i, hi⟩ := exists_child_of_canonical hpacked
    have hlt := (Words.branch (hplug ▸ hwords) hi).2
    rw [List.append_nil] at hpath
    rw [hpath] at hlt
    omega

include hlen hS in
/-- **A put among keys of one length** is safe if nothing it deletes stands beside its path. -/
theorem putSafe_of_apart (hp : Live t) (hwords : Words n t) {key : Bytes}
    (hkey : (bytesToNibbles key).length = n) {v : Value} (hc : Committed opts S t)
    (hc' : Committed opts S (t.insert (bytesToNibbles key) v))
    (h : PutApart opts t (bytesToNibbles key) v) : PutSafe opts t (bytesToNibbles key) v := by
  by_cases hsame : t.get (bytesToNibbles key) = some v
  · exact .inl hsame
  · have hapart := h.resolve_left hsame
    obtain ⟨s', -, dels, es, -, hw, -⟩ :=
      run_updateNode hlen hp key v (create opts (ofEntries []))
    have hget : t.get (bytesToNibbles key) ≠
        (t.insert (bytesToNibbles key) v).get (bytesToNibbles key) := by
      rw [get_insert, if_pos rfl]
      exact hsame
    exact .inr fun e he => not_mem_of_written hlen hS hw hp hc hc' hwords (hwords.insert hkey v)
      hget le_rfl he (Set.disjoint_left.1 hapart he)

include hlen hS in
/-- **A deletion among keys of one length** is safe if nothing it deletes stays beside its path. -/
theorem delSafe_of_apart {s : MerklePatriciaTrie} (hp : Canonical t) (hwords : Words n t)
    {key : Bytes} (hkey : (bytesToNibbles key).length = n) (h : Roots opts S s t)
    (hcomplete : Complete opts s.db t) (hc' : Committed opts S (erase t (bytesToNibbles key)))
    (hapart : DelApart opts t (bytesToNibbles key)) : DelSafe opts t (bytesToNibbles key) := by
  intro hfound
  obtain ⟨hpath, hdropped⟩ := Set.disjoint_union_left.1 (hapart hfound)
  refine ⟨fun e he => ?_, fun e he => Set.disjoint_left.1 hdropped he⟩
  obtain ⟨s', -, ⟨hnil, -⟩ | ⟨s₁, -, dels, es, -, hw, -⟩⟩ := run_deleteNode hlen hS hp h hcomplete
    hfound (bytesToNibbles key).length
  · rw [hnil]
    rintro (hmem | ⟨hne, -⟩)
    · exact Set.notMem_empty e hmem
    · exact hne rfl
  · have hgone := get_erase (hwords.eraseSafe hp hkey) hp
    have hwords' : Words n (erase t (bytesToNibbles key)) := by
      intro k hk
      rw [hgone] at hk
      split at hk
      · cases hk
      · exact hwords k hk
    have hget : t.get (bytesToNibbles key) ≠
        (erase t (bytesToNibbles key)).get (bytesToNibbles key) := by
      rw [hgone, if_pos rfl]
      exact hwords.get_of_found hp hkey hfound
    have hm : (pathOf (t.find (bytesToNibbles key)).frames).length ≤
        (bytesToNibbles key).length := by
      have hlength := congrArg List.length (pathOf_find t (bytesToNibbles key))
      rw [List.length_append] at hlength
      omega
    exact not_mem_of_written hlen hS hw hp.live h.committed hc' hwords hwords' hget hm he
      (Set.disjoint_left.1 hpath he)

end Apart

end Tvmjs
