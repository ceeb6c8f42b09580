import Tvmjs.Mpt.FindPath

/-!
# Saving a stack

`saveStack` writes the nodes of a stack from the last one up.  If the stack is that of a subtrie
`u` in the context of the steps `fs`, the new root is that of `PathTrie.plug fs u`.

* `saveNodes_eq` -- the new root and the operations;
* `run_saveStack` -- **the state after saving stands for the new trie**, and its database is
  complete if it was.
-/

namespace Tvmjs

open RLP (Input)

open PathTrie MerklePatriciaTrie CheckpointDB

variable {opts : MPTOpts}

/-- A node which stands for a step, whatever its reference to what is below. -/
inductive FrameNode (opts : MPTOpts) : Frame Nibble Value → MPTNode → Prop
  | ext (p : Nibbles) (x : Input) : FrameNode opts (.ext p) (.extension p x)
  | branch {c : Nibble → Tree} {s : Nibble} {b : Nibble → Input} (v : Option Value)
      (h : ∀ i, i ≠ s → b i = treeRef opts (c i)) :
      FrameNode opts (.branch c v s) (.branch b (valueBytes v))

/-- The path at the top of a trie. -/
def topPath : Tree → Nibbles
  | .leaf p _ => p
  | .ext p _ => p
  | _ => []

theorem spliceLast_append (path p : Nibbles) : spliceLast (path ++ p) p.length = path := by
  have hle : p.length ≤ (path ++ p).length := by simp
  rw [spliceLast, if_pos hle, List.length_append, Nat.add_sub_cancel, List.take_left]

/-- A step's node gets the reference to what is below it. -/
private theorem linkChild_frame {f : Frame Nibble Value} {n : MPTNode} (h : FrameNode opts f n)
    (path : Nibbles) (t : Tree) : linkChild (path ++ f.path) n (some (treeRef opts t)) =
      (treeNode opts (f.fill t), path) := by
  cases h with
  | ext p x =>
    change (MPTNode.extension p (treeRef opts t), spliceLast (path ++ p) p.length) = _
    rw [spliceLast_append]
    rfl
  | @branch c s b v h =>
    have hb : Function.update b s (treeRef opts t) =
        fun i => treeRef opts (Function.update c s t i) := by
      funext i
      rw [Function.update_apply, Function.update_apply]
      split
      · rfl
      · rename_i hi
        exact h i hi
    rw [linkChild, Frame.path, List.getLast?_concat, List.dropLast_concat]
    simp only [hb]
    rfl

/-- The last node of a stack is taken as it is. -/
private theorem linkChild_top {t : Tree} (ht : t ≠ .nil) (path : Nibbles) :
    linkChild (path ++ topPath t) (treeNode opts t) none = (treeNode opts t, path) := by
  cases t with
  | nil => exact absurd rfl ht
  | leaf p v =>
    change (MPTNode.leaf p v.1, spliceLast (path ++ p) p.length) = _
    rw [spliceLast_append]
    rfl
  | ext p c =>
    change (MPTNode.extension p (treeRef opts c), spliceLast (path ++ p) p.length) = _
    rw [spliceLast_append]
    rfl
  | branch c v =>
    change (MPTNode.branch _ _, path ++ []) = _
    rw [List.append_nil]
    rfl

/-- What is written when `t` is saved in the context `gs`, the innermost step first: the node of
`t` and every node above it, short ones below the root left out. -/
def savedNodes (opts : MPTOpts) : List (Frame Nibble Value) → Tree → List Bytes
  | [], t => [(treeNode opts t).serialize]
  | g :: gs, t =>
    (if 32 ≤ (treeNode opts t).serialize.length then [(treeNode opts t).serialize] else []) ++
      savedNodes opts gs (g.fill t)

private theorem putOps_append (hash : Bytes → Bytes) (keyPrefix : Bytes) (vs ws : List Bytes) :
    putOps hash keyPrefix (vs ++ ws) = putOps hash keyPrefix vs ++ putOps hash keyPrefix ws :=
  List.map_append

/-- The loop of `saveStack` from the node of `t` on. -/
private theorem saveNodes_from {gs : List (Frame Nibble Value)} {ns : List MPTNode}
    (h : List.Forall₂ (FrameNode opts) gs ns) {t : Tree} (ht : t ≠ .nil)
    (opStack : List BatchDBOp) :
    saveNodes opts (pathOf gs.reverse) ns
        (some (formatNode opts (treeNode opts t) ns.isEmpty false).1)
        (opStack ++ (formatNode opts (treeNode opts t) ns.isEmpty false).2) =
      (some (.bytes (rootHash opts (plug gs.reverse t))),
        opStack ++ putOps opts.hash opts.keyPrefix (savedNodes opts gs t)) := by
  induction h generalizing t opStack with
  | nil =>
    have hformat : formatNode opts (treeNode opts t) true false =
        (.bytes (opts.hash (treeNode opts t).serialize),
          [.put (opts.getDbKey (opts.hash (treeNode opts t).serialize))
            (treeNode opts t).serialize]) := by
      rw [formatNode]
      simp
    change saveNodes opts [] [] (some (formatNode opts (treeNode opts t) true false).1)
      (opStack ++ (formatNode opts (treeNode opts t) true false).2) = _
    rw [hformat, saveNodes, List.reverse_nil, plug_nil, rootHash_of_ne_nil ht]
    rfl
  | @cons g n gs ns hg hgs ih =>
    have hformat : formatNode opts (treeNode opts t) false false =
        (treeRef opts t, putOps opts.hash opts.keyPrefix
          (if 32 ≤ (treeNode opts t).serialize.length then [(treeNode opts t).serialize]
            else [])) := by
      rw [formatNode, treeRef_of_ne_nil ht, nodeRef]
      simp only [Bool.false_eq_true, or_false]
      split <;> rfl
    change saveNodes opts (pathOf (g :: gs).reverse) (n :: ns)
      (some (formatNode opts (treeNode opts t) false false).1)
      (opStack ++ (formatNode opts (treeNode opts t) false false).2) = _
    have hpath : pathOf (g :: gs).reverse = pathOf gs.reverse ++ g.path := by
      simp
    have hplug : plug (g :: gs).reverse t = plug gs.reverse (g.fill t) := by
      simp
    rw [hformat, hpath, hplug, saveNodes, linkChild_frame hg, savedNodes]
    rw [putOps_append, ← List.append_assoc]
    exact ih (fill_ne_nil g t) _

/-- **The new root and what is written.** -/
theorem saveNodes_eq {fs : List (Frame Nibble Value)} {ns : List MPTNode}
    (h : List.Forall₂ (FrameNode opts) fs.reverse ns) {t : Tree} (ht : t ≠ .nil)
    (opStack : List BatchDBOp) :
    saveNodes opts (pathOf fs ++ topPath t) (treeNode opts t :: ns) none opStack =
      (some (.bytes (rootHash opts (plug fs t))),
        opStack ++ putOps opts.hash opts.keyPrefix (savedNodes opts fs.reverse t)) := by
  have hfrom := saveNodes_from h ht opStack
  rw [List.reverse_reverse] at hfrom
  rw [saveNodes, linkChild_top ht]
  exact hfrom

/-- The nodes above a trie stand for the steps down to it. -/
theorem spine_frameNodes (fs : List (Frame Nibble Value)) (t : Tree) :
    List.Forall₂ (FrameNode opts) fs.reverse (spine opts fs t) := by
  induction fs with
  | nil => exact .nil
  | cons f fs ih =>
    rw [List.reverse_cons, spine, plug_cons]
    refine List.rel_append ih (.cons ?_ .nil)
    cases f with
    | ext p => exact .ext p _
    | branch c v s =>
      refine .branch v fun i hi => ?_
      rw [Function.update_of_ne hi]

/-! ### What the database has to hold -/

/-- The strings of what is below the top node. -/
def childStrings (opts : MPTOpts) : Tree → Set Bytes
  | .ext _ c => strings opts c
  | .branch c _ => ⋃ s, strings opts (c s)
  | _ => ∅

/-- The strings of what stands beside the steps. -/
def siblingStrings (opts : MPTOpts) : List (Frame Nibble Value) → Set Bytes
  | [] => ∅
  | .ext _ :: fs => siblingStrings opts fs
  | .branch c _ s :: fs => (⋃ i ∈ {i | i ≠ s}, strings opts (c i)) ∪ siblingStrings opts fs

theorem strings_eq {t : Tree} (ht : t ≠ .nil) :
    strings opts t = longString (treeNode opts t) ∪ childStrings opts t := by
  cases t with
  | nil => exact absurd rfl ht
  | leaf p v => exact (Set.union_empty _).symm
  | ext p c => rfl
  | branch c v => rfl

/-- The strings of a trie one step up. -/
private theorem childStrings_fill_subset (f : Frame Nibble Value) (t : Tree) :
    childStrings opts (f.fill t) ⊆ strings opts t ∪ siblingStrings opts [f] := by
  cases f with
  | ext p => exact Set.subset_union_left
  | branch c v s =>
    intro e he
    obtain ⟨i, hi⟩ := Set.mem_iUnion.1 he
    by_cases his : i = s
    · subst his
      rw [Function.update_self] at hi
      exact .inl hi
    · rw [Function.update_of_ne his] at hi
      exact .inr (.inl (Set.mem_biUnion (x := i) his hi))

theorem siblingStrings_append (fs gs : List (Frame Nibble Value)) :
    siblingStrings opts (fs ++ gs) = siblingStrings opts fs ∪ siblingStrings opts gs := by
  induction fs with
  | nil => exact (Set.empty_union _).symm
  | cons f fs ih =>
    cases f with
    | ext p => exact ih
    | branch c v s =>
      rw [List.cons_append, siblingStrings, siblingStrings, ih, Set.union_assoc]

variable (opts) in
/-- What stands beside the steps is part of the trie. -/
theorem siblingStrings_subset (fs : List (Frame Nibble Value)) (t : Tree) :
    siblingStrings opts fs ⊆ strings opts (plug fs t) := by
  induction fs with
  | nil => exact Set.empty_subset _
  | cons f fs ih =>
    cases f with
    | ext p => exact ih.trans Set.subset_union_right
    | branch c v s =>
      refine Set.union_subset (fun e he => ?_) (fun e he => ?_)
      · obtain ⟨i, hi, he⟩ := Set.mem_iUnion₂.1 he
        refine .inr (Set.mem_iUnion.2 ⟨i, ?_⟩)
        rwa [Function.update_of_ne hi]
      · refine .inr (Set.mem_iUnion.2 ⟨s, ?_⟩)
        rw [Function.update_self]
        exact ih he

variable (opts) in
/-- What stands below the steps is part of the trie. -/
theorem strings_subset_plug (fs : List (Frame Nibble Value)) (t : Tree) :
    strings opts t ⊆ strings opts (plug fs t) := by
  induction fs with
  | nil => exact subset_rfl
  | cons f fs ih =>
    cases f with
    | ext p => exact ih.trans Set.subset_union_right
    | branch c v s =>
      intro e he
      refine .inr (Set.mem_iUnion.2 ⟨s, ?_⟩)
      rw [Function.update_self]
      exact ih he

variable (opts) in
/-- **Every string of the new trie** is written, or stood beside or below the place of change. -/
theorem strings_plug_subset (gs : List (Frame Nibble Value)) {t : Tree} (ht : t ≠ .nil) :
    strings opts (plug gs.reverse t) ⊆
      childStrings opts t ∪ siblingStrings opts gs.reverse ∪ {e | e ∈ savedNodes opts gs t} := by
  induction gs generalizing t with
  | nil =>
    rw [List.reverse_nil, plug_nil, strings_eq ht]
    rintro e (⟨rfl, -⟩ | he)
    · exact .inr List.mem_cons_self
    · exact .inl (.inl he)
  | cons g gs ih =>
    rw [List.reverse_cons, plug_append, siblingStrings_append]
    intro e he
    rcases ih (fill_ne_nil g t) he with (he | he) | he
    · rcases childStrings_fill_subset g t he with he | he
      · rw [strings_eq ht] at he
        rcases he with ⟨rfl, hlong⟩ | he
        · exact .inr (List.mem_append_left _ (by rw [if_pos hlong]; exact List.mem_cons_self))
        · exact .inl (.inl he)
      · exact .inl (.inr (.inr he))
    · exact .inl (.inr (.inl he))
    · exact .inr (List.mem_append_right _ he)

/-- The node itself is written where it is long. -/
private theorem self_mem_savedNodes (gs : List (Frame Nibble Value)) {t : Tree}
    (hlong : 32 ≤ (treeNode opts t).serialize.length) :
    (treeNode opts t).serialize ∈ savedNodes opts gs t := by
  cases gs with
  | nil => exact List.mem_cons_self
  | cons g gs =>
    rw [savedNodes, if_pos hlong]
    exact List.mem_cons_self

variable (opts) in
/-- The root node is written. -/
private theorem top_mem_savedNodes (gs : List (Frame Nibble Value)) (t : Tree) :
    (treeNode opts (plug gs.reverse t)).serialize ∈ savedNodes opts gs t := by
  induction gs generalizing t with
  | nil => exact List.mem_cons_self
  | cons g gs ih =>
    rw [List.reverse_cons, plug_append]
    exact List.mem_append_right _ (ih _)

/-! ### The state after saving -/

section Save

variable {S : Set Bytes} (hlen : ∀ v, (opts.hash v).length = 32)

include hlen in
theorem run_setRoot {root : Bytes} (hroot : root.length = 32) (s : MerklePatriciaTrie) :
    (setRoot opts root).run s = (.ok (), { s with root := root }) := by
  have hlen' : ¬ root.length ≠ opts.EMPTY_TRIE_ROOT.length := fun h =>
    h (hroot.trans (hlen RLP_EMPTY_STRING).symm)
  rw [setRoot, if_neg hlen']
  rfl

include hlen in
theorem length_rootHash (t : Tree) : (rootHash opts t).length = 32 := by
  rw [rootHash]
  split
  · exact hlen _
  · exact hlen _

/-- What saving a trie leaves behind: its root, and a database with some more strings. -/
structure Saved (opts : MPTOpts) (S : Set Bytes) (s : MerklePatriciaTrie) (t t' : Tree)
    (s' : MerklePatriciaTrie) : Prop where
  /-- Everything stored before is still there. -/
  contents : s.db.contents ⊆ s'.db.contents
  /-- The state stands for the new trie. -/
  roots : s'.db.contents ⊆ S → Roots opts S s t → Roots opts S s' t'
  /-- Nothing of the new trie is missing if nothing of the old one was. -/
  complete : s'.db.contents ⊆ S → Roots opts S s t → Complete opts s.db t →
    Complete opts s'.db t'

/-- Writing strings: those of the new trie are old ones or written. -/
private theorem Saved.of_batch (hlen : ∀ v, (opts.hash v).length = 32) (hS : Set.InjOn opts.hash S)
    (hempty : RLP_EMPTY_STRING ∈ S) {s : MerklePatriciaTrie} {t t' : Tree} (es : List Bytes)
    (hshort : t'.Short (2 ^ 60))
    (hstrings : strings opts t' ⊆ strings opts t ∪ {e | e ∈ es})
    (htop : (treeNode opts t').serialize ∈ es) (hes : RLP_EMPTY_STRING ∉ es) :
    Saved opts S s t t'
      ⟨rootHash opts t', s.db.batch (putOps opts.hash opts.keyPrefix es)⟩ := by
  have hcontents := contents_batch opts.hash s.db opts.keyPrefix es
  refine ⟨?_, fun hin h => ?_, fun hin h hc => ?_⟩
  · change s.db.contents ⊆ (s.db.batch (putOps opts.hash opts.keyPrefix es)).contents
    rw [hcontents]
    exact Set.subset_union_right
  · have hesS : ∀ e ∈ es, e ∈ S := fun e he => hin (by
      change e ∈ (s.db.batch (putOps opts.hash opts.keyPrefix es)).contents
      rw [hcontents]
      exact .inl he)
    refine ⟨⟨h.stores.addressed.batch _ _, hin⟩, rfl, ?_, fun _ => hesS _ htop, hshort⟩
    exact hstrings.trans (Set.union_subset h.committed.strings hesS)
  · have hesS : ∀ e ∈ es, e ∈ S := fun e he => hin (by
      change e ∈ (s.db.batch (putOps opts.hash opts.keyPrefix es)).contents
      rw [hcontents]
      exact .inl he)
    refine ⟨fun e he => ?_, fun _ => ?_, ?_⟩
    · rcases hstrings he with hold | hnew
      · exact view_batch hlen hS hesS (h.committed.strings hold) (.inl (hc.stored e hold))
      · exact view_batch hlen hS hesS (hesS e hnew) (.inr ⟨rfl, hnew⟩)
    · exact view_batch hlen hS hesS (hesS _ htop) (.inr ⟨rfl, htop⟩)
    · exact (view_batch_of_not_mem hlen hS hesS hempty hes).trans hc.empty

/-- What is written to get to `t'`, by a call about the key `k` whose walk ended at depth `m`:
nodes of the trie on the way to the key, or below the end of the walk, or else strings of `K`, where
everything of the trie is that is not written. -/
structure Written (opts : MPTOpts) (k : Nibbles) (m : ℕ) (K : Set Bytes) (t' : Tree)
    (es : List Bytes) : Prop where
  strings : strings opts t' ⊆ K ∪ {e | e ∈ es}
  kept : K ⊆ Tvmjs.strings opts t'
  top : (treeNode opts t').serialize ∈ es
  mem : ∀ e ∈ es, ∃ gs u, u ≠ .nil ∧ plug gs u = t' ∧ e = (treeNode opts u).serialize ∧
    (gs = [] ∨ 32 ≤ e.length) ∧ (e ∈ K ∨ pathOf gs <+: k ∨ m < (pathOf gs).length)

/-- The string is a node of the trie, embedded in another one or not. -/
def NodeOf (opts : MPTOpts) (t : Tree) (e : Bytes) : Prop :=
  ∃ gs u, u ≠ .nil ∧ plug gs u = t ∧ e = (treeNode opts u).serialize

/-- A call wrote the trie `t'`, if nodes are pruned after deletions: of the strings of `E` and
maybe others of `D`, of short ones, which are not stored, and of such as are written again. -/
def Wrote (opts : MPTOpts) (k : Nibbles) (m : ℕ) (K D E : Set Bytes) (t' : Tree)
    (s s' : MerklePatriciaTrie) : Prop :=
  ∃ dels es, s' = ⟨rootHash opts t', s.db.batch (delOps opts.hash opts.keyPrefix dels ++
      putOps opts.hash opts.keyPrefix es)⟩ ∧ Written opts k m K t' es ∧
    (∀ e ∈ dels, opts.useNodePruning = true ∧
      (e ∈ D ∨ NodeOf opts t' e ∧ (32 ≤ e.length → e ∈ es))) ∧
    (opts.useNodePruning = true → ∀ e ∈ E, e ∈ dels)

theorem Wrote.mono {k : Nibbles} {m : ℕ} {K D D' E : Set Bytes} {t' : Tree}
    {s s' : MerklePatriciaTrie} (h : Wrote opts k m K D E t' s s') (hD : D ⊆ D') :
    Wrote opts k m K D' E t' s s' := by
  obtain ⟨dels, es, hs, hw, hdels, hE⟩ := h
  exact ⟨dels, es, hs, hw, fun e he => ⟨(hdels e he).1, (hdels e he).2.imp_left fun h => hD h⟩, hE⟩

private theorem Written.ne_empty (hlen : ∀ v, (opts.hash v).length = 32) {k : Nibbles} {m : ℕ}
    {K : Set Bytes} {t' : Tree} {es : List Bytes} (h : Written opts k m K t' es)
    (hshort : t'.Short (2 ^ 60)) : RLP_EMPTY_STRING ∉ es := by
  intro hmem
  obtain ⟨gs, u, -, rfl, he, -⟩ := h.mem _ hmem
  exact serialize_ne_empty (length_serialize_treeNode hlen hshort.of_plug) he.symm

/-- Where nothing is pruned, a trie that was written is saved. -/
theorem Wrote.saved (hlen : ∀ v, (opts.hash v).length = 32) (hS : Set.InjOn opts.hash S)
    (hempty : RLP_EMPTY_STRING ∈ S) (hprune : opts.useNodePruning = false) {k : Nibbles} {m : ℕ}
    {K D E : Set Bytes} {t t' : Tree} {s s' : MerklePatriciaTrie}
    (h : Wrote opts k m K D E t' s s')
    (hK : K ⊆ strings opts t) (hshort : t'.Short (2 ^ 60)) : Saved opts S s t t' s' := by
  obtain ⟨dels, es, rfl, hw, hdels, -⟩ := h
  have hnil : dels = [] := List.eq_nil_iff_forall_not_mem.2 fun e he => by
    have := (hdels e he).1
    rw [hprune] at this
    cases this
  subst hnil
  exact Saved.of_batch hlen hS hempty es hshort
    (hw.strings.trans (Set.union_subset_union_left _ hK)) hw.top (hw.ne_empty hlen hshort)

/-- A string that is written is that of a subtrie on the way. -/
theorem exists_of_mem_savedNodes {gs : List (Frame Nibble Value)} {t : Tree} (ht : t ≠ .nil)
    {e : Bytes} (he : e ∈ savedNodes opts gs t) : ∃ fs u, u ≠ .nil ∧ plug fs u = plug gs.reverse t ∧
      e = (treeNode opts u).serialize ∧ (fs = [] ∨ 32 ≤ e.length) ∧ fs <+: gs.reverse := by
  induction gs generalizing t with
  | nil => exact ⟨[], t, ht, rfl, List.mem_singleton.1 he, .inl rfl, List.prefix_rfl⟩
  | cons g gs ih =>
    rw [savedNodes, List.mem_append] at he
    rw [List.reverse_cons]
    rcases he with he | he
    · split at he
      · rename_i hlong
        obtain rfl := List.mem_singleton.1 he
        exact ⟨gs.reverse ++ [g], t, ht, rfl, rfl, .inr hlong, List.prefix_rfl⟩
      · cases he
    · obtain ⟨fs, u, hu, hplug, heu, hlong, hpre⟩ := ih (fill_ne_nil g t) he
      refine ⟨fs, u, hu, ?_, heu, hlong, hpre.trans (List.prefix_append _ _)⟩
      rw [hplug, plug_append]
      rfl

include hlen in
/-- **Saving a stack.** -/
theorem run_saveStack {k : Nibbles} {m : ℕ} {K D E : Set Bytes} (dels es : List Bytes)
    {fs : List (Frame Nibble Value)} {ns : List MPTNode}
    (hns : List.Forall₂ (FrameNode opts) fs.reverse ns) {u : Tree} (hu : u ≠ .nil)
    (hpath : ∀ gs, gs <+: fs → pathOf gs <+: k ∨
      gs = fs ∧ ∀ e ∈ longString (treeNode opts u), e ∈ K)
    (hes : ∀ e ∈ es, ∃ gs v, v ≠ .nil ∧ plug gs v = plug fs u ∧
      e = (treeNode opts v).serialize ∧ 32 ≤ e.length ∧ m < (pathOf gs).length)
    (hknown : childStrings opts u ∪ siblingStrings opts fs ⊆ K ∪ {e | e ∈ es})
    (hkept : K ⊆ strings opts (plug fs u)) (hdels : ∀ e ∈ dels, opts.useNodePruning = true ∧
      (e ∈ D ∨ e = (treeNode opts u).serialize))
    (hE : opts.useNodePruning = true → ∀ e ∈ E, e ∈ dels) (s : MerklePatriciaTrie) :
    ∃ s', (saveStack opts (pathOf fs ++ topPath u) (treeNode opts u :: ns)
        (delOps opts.hash opts.keyPrefix dels ++ putOps opts.hash opts.keyPrefix es)).run s =
          (.ok (), s') ∧ Wrote opts k m K D E (plug fs u) s s' := by
  have hsaved := strings_plug_subset opts fs.reverse hu
  have htop := top_mem_savedNodes opts fs.reverse u
  rw [List.reverse_reverse] at hsaved htop
  -- the node at the end of the stack is one of those that are saved
  have hself : ∀ e, e = (treeNode opts u).serialize → NodeOf opts (plug fs u) e ∧
      (32 ≤ e.length → e ∈ es ++ savedNodes opts fs.reverse u) := by
    rintro e rfl
    exact ⟨⟨fs, u, hu, rfl, rfl⟩,
      fun hlong => List.mem_append_right _ (self_mem_savedNodes _ hlong)⟩
  refine ⟨_, ?_, dels, es ++ savedNodes opts fs.reverse u, rfl, ⟨?_, hkept, ?_, ?_⟩,
    fun e he => ⟨(hdels e he).1, (hdels e he).2.imp_right (hself e)⟩, hE⟩
  · rw [saveStack, saveNodes_eq hns hu]
    change (setRoot opts _ >>= _).run s = _
    rw [Prog.run_bind_of_ok (run_setRoot hlen (length_rootHash hlen _) s), putOps_append,
      List.append_assoc]
    rfl
  · intro e he
    rcases hsaved he with he | he
    · exact (hknown he).imp_right fun he => List.mem_append_left _ he
    · exact .inr (List.mem_append_right _ he)
  · exact List.mem_append_right _ htop
  · intro e he
    rcases List.mem_append.1 he with he | he
    · obtain ⟨gs, v, hv, hplug, hev, hlong, hm⟩ := hes e he
      exact ⟨gs, v, hv, hplug, hev, .inr hlong, .inr (.inr hm)⟩
    · obtain ⟨gs, v, hv, hplug, hev, hlong, hpre⟩ := exists_of_mem_savedNodes hu he
      rw [List.reverse_reverse] at hplug hpre
      refine ⟨gs, v, hv, hplug, hev, hlong, ?_⟩
      rcases hpath gs hpre with hk | ⟨rfl, hK⟩
      · exact .inr (.inl hk)
      · rcases hlong with rfl | hlong
        · exact .inr (.inl List.nil_prefix)
        · obtain rfl : v = u := plug_injective hplug
          exact .inl (hK e ⟨hev, hlong⟩)

end Save

end Tvmjs
