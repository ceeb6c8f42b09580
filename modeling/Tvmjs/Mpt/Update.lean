import Tvmjs.Mpt.SaveStack

/-!
# Putting a value

`put` is `PathTrie.insert` on the trie the root stands for.

* `run_updateNode` -- an update at the end of a path;
* `run_put` -- on a complete database `put` succeeds; `run_put_sparse` -- on a partial one it
  succeeds with the same result or throws.
-/

namespace Tvmjs

open RLP (Input)

open PathTrie MerklePatriciaTrie CheckpointDB

variable {opts : MPTOpts}

/-! ### Where two paths part -/

private theorem matchingNibbleLength_self (p : Nibbles) : matchingNibbleLength p p = p.length := by
  induction p with
  | nil => rfl
  | cons a p ih => rw [matchingNibbleLength, if_pos rfl, ih, List.length_cons]

/-- A fork begins with what the two paths share. -/
private theorem fork_eq_extend (t : Tree) (v : Value) : ∀ p r : Nibbles,
    fork t p r v = extend (p.take (matchingNibbleLength p r))
      (fork t (p.drop (matchingNibbleLength p r)) (r.drop (matchingNibbleLength p r)) v)
  | [], _ => by simp [matchingNibbleLength]
  | _ :: _, [] => by simp [matchingNibbleLength]
  | a :: p, b :: r => by
    rw [matchingNibbleLength]
    split
    · rename_i h
      subst h
      rw [fork, if_pos rfl, fork_eq_extend t v p r, extend_extend]
      rfl
    · simp

/-- What is left of two paths after the shared part does not begin alike. -/
private theorem drop_matching_head_ne : ∀ {p r : Nibbles} {a b : Nibble} {q q' : Nibbles},
    p.drop (matchingNibbleLength p r) = a :: q → r.drop (matchingNibbleLength p r) = b :: q' →
      a ≠ b
  | [], _, _, _, _, _, hp, _ => by simp at hp
  | _ :: _, [], _, _, _, _, _, hr => by simp at hr
  | x :: p, y :: r, a, b, q, q', hp, hr => by
    rw [matchingNibbleLength] at hp hr
    split at hp
    · rename_i h
      rw [if_pos h] at hr
      exact drop_matching_head_ne hp hr
    · rename_i h
      rw [if_neg h] at hr
      rw [List.drop_zero] at hp hr
      rintro rfl
      exact h ((List.cons.inj hp).1.trans (List.cons.inj hr).1.symm)

private theorem matchingNibbleLength_le : ∀ p r : Nibbles, matchingNibbleLength p r ≤ p.length
  | [], _ => Nat.zero_le _
  | _ :: _, [] => Nat.zero_le _
  | a :: p, b :: r => by
    rw [matchingNibbleLength]
    split
    · exact Nat.succ_le_succ (matchingNibbleLength_le p r)
    · exact Nat.zero_le _

/-- What hangs at the end of the path of a leaf or an extension. -/
def pathEnd : Tree → Tree
  | .leaf _ v => .leaf [] v
  | .ext _ c => c
  | t => t

/-- The children of the branch at which the path of `t` is split, `p` being its rest. -/
def splitChildren (t : Tree) : Nibbles → Nibble → Tree
  | [] => fun _ => .nil
  | a :: p => Function.update (fun _ => .nil) a (extend p (pathEnd t))

/-- The value of that branch. -/
def splitValue (t : Tree) : Nibbles → Option Value
  | [] => (pathEnd t).get []
  | _ :: _ => none

/-- A fork at a nibble of the new path. -/
private theorem fork_cons (t : Tree) {p : Nibbles} {b : Nibble} (h : p.head? ≠ some b) (r : Nibbles)
    (v : Value) : fork (pathEnd t) p (b :: r) v =
      .branch (Function.update (splitChildren t p) b (.leaf r v)) (splitValue t p) := by
  cases p with
  | nil => rfl
  | cons a p => exact if_neg fun hab => h (congrArg some hab)

/-- A fork at the end of the new path. -/
private theorem fork_nil (t : Tree) {p : Nibbles} (h : p ≠ []) (v : Value) :
    fork (pathEnd t) p [] v = .branch (splitChildren t p) (some v) := by
  cases p with
  | nil => exact absurd rfl h
  | cons a p => rfl

/-- The one string a shortened node takes in the database, if any. -/
def shortened (opts : MPTOpts) (t : Tree) : List Bytes :=
  if 32 ≤ (treeNode opts t).serialize.length then [(treeNode opts t).serialize] else []

/-- The node a split leaves below its branch. -/
private theorem formatNode_shortened {t : Tree} (ht : t ≠ .nil) :
    formatNode opts (treeNode opts t) false false =
      (treeRef opts t, putOps opts.hash opts.keyPrefix (shortened opts t)) := by
  rw [formatNode, treeRef_of_ne_nil ht, nodeRef, shortened]
  simp only [Bool.false_eq_true, or_false]
  split <;> rfl

private theorem strings_shortened {t : Tree} (ht : t ≠ .nil) :
    strings opts t ⊆ childStrings opts t ∪ {e | e ∈ shortened opts t} := by
  rw [strings_eq ht, shortened]
  rintro e (⟨rfl, hlong⟩ | he)
  · rw [if_pos hlong]
    exact .inr List.mem_cons_self
  · exact .inl he

/-- The references to children of which at most one is not empty. -/
private theorem update_treeRef (a : Nibble) (u : Tree) :
    Function.update (fun _ => Input.bytes []) a (treeRef opts u) =
      fun i => treeRef opts (Function.update (fun _ => PathTrie.nil) a u i) := by
  funext i
  rw [Function.update_apply, Function.update_apply]
  split <;> rfl

private theorem strings_update {a : Nibble} {u : Tree} {K : Set Bytes} (h : strings opts u ⊆ K)
    (i : Nibble) : strings opts (Function.update (fun _ => PathTrie.nil) a u i) ⊆ K := by
  rw [Function.update_apply]
  split
  · exact h
  · exact Set.empty_subset K

/-- The string a removed node leaves in the database, if it is deleted at all. -/
def removed (opts : MPTOpts) (n : MPTNode) : List Bytes :=
  if opts.useNodePruning ∧ 32 ≤ n.serialize.length then [n.serialize] else []

theorem mem_removed {n : MPTNode} {e : Bytes} (h : e ∈ removed opts n) :
    opts.useNodePruning = true ∧ e = n.serialize := by
  rw [removed] at h
  split at h
  · rename_i hp
    exact ⟨hp.1, List.mem_singleton.1 h⟩
  · cases h

/-- The operations that remove an extension or a leaf. -/
theorem formatNode_remove (n : MPTNode) : (formatNode opts n false true).2 =
    delOps opts.hash opts.keyPrefix (removed opts n) := by
  rw [formatNode, removed]
  simp only [Bool.false_eq_true, or_false]
  by_cases hlong : 32 ≤ n.serialize.length
  · by_cases hprune : opts.useNodePruning
    · simp [hlong, hprune, delOps, MPTOpts.getDbKey]
    · simp [hlong, hprune, delOps]
  · simp [hlong, delOps]

/-- What a split deletes and writes: an extension that is used up, and what is left of a path. -/
structure Split (opts : MPTOpts) (t : Tree) (p : Nibbles) (dels es : List Bytes) : Prop where
  deleted : ∀ e ∈ dels, opts.useNodePruning = true ∧ e = (treeNode opts t).serialize
  written : ∀ e ∈ es, ∃ a q, p = a :: q ∧ extend q (pathEnd t) ≠ .nil ∧
    e = (treeNode opts (extend q (pathEnd t))).serialize ∧ 32 ≤ e.length
  strings : ∀ i, strings opts (splitChildren t p i) ⊆ childStrings opts t ∪ {e | e ∈ es}

private theorem Split.shortened {t : Tree} {a : Nibble} {q : Nibbles}
    (hne : extend q (pathEnd t) ≠ .nil)
    (hchild : childStrings opts (extend q (pathEnd t)) ⊆ childStrings opts t) :
    Split opts t (a :: q) [] (shortened opts (extend q (pathEnd t))) where
  deleted e he := (List.not_mem_nil he).elim
  written e he := by
    rw [Tvmjs.shortened] at he
    split at he
    · rename_i hlong
      obtain rfl := List.mem_singleton.1 he
      exact ⟨a, q, rfl, hne, rfl, hlong⟩
    · cases he
  strings := by
    refine strings_update ((strings_shortened hne).trans ?_)
    exact Set.union_subset_union_left _ hchild

/-- **What `splitNode` makes of the rest of the old path**: the references to the children of the
new branch, its value, and the operations for them. -/
theorem splitNode_spec (opts : MPTOpts) {t : Tree} {P : Finset (Option Nibble) → Prop}
    (hp : Packed P t)
    {p : Nibbles} (hleaf : p = [] → ∃ q v, t = .leaf q v) (hbranch : ∀ c v, t ≠ .branch c v) :
    ∃ dels es, splitNode opts (treeNode opts t) p =
        (fun i => treeRef opts (splitChildren t p i), valueBytes (splitValue t p),
          delOps opts.hash opts.keyPrefix dels ++ putOps opts.hash opts.keyPrefix es) ∧
      Split opts t p dels es := by
  -- A leaf is cut by one nibble, an extension too unless only that nibble was left.
  cases hp with
  | leaf q v =>
    cases p with
    | nil =>
      refine ⟨[], [], rfl, fun e he => (List.not_mem_nil he).elim,
        fun e he => (List.not_mem_nil he).elim, fun i => Set.empty_subset _⟩
    | cons a p =>
      have hend : extend p (pathEnd (.leaf q v)) = .leaf p v :=
        congrArg (fun q => PathTrie.leaf q v) (List.append_nil p)
      refine ⟨[], shortened opts (.leaf p v), ?_, ?_⟩
      · change (Function.update (fun _ => Input.bytes []) a
            (formatNode opts (treeNode opts (.leaf p v)) false false).1, ([] : Bytes),
          (formatNode opts (treeNode opts (.leaf p v)) false false).2) = _
        rw [formatNode_shortened (by simp)]
        simp only [update_treeRef, splitChildren, hend]
        rfl
      · rw [← hend]
        exact .shortened (by rw [hend]; simp) (by rw [hend]; exact Set.empty_subset _)
  | @ext q c v hq hb =>
    cases p with
    | nil =>
      obtain ⟨q', v', h⟩ := hleaf rfl
      cases h
    | cons a p =>
      by_cases hp0 : p = []
      · subst hp0
        -- the branch below takes the place of an extension of one nibble
        refine ⟨removed opts (treeNode opts (.ext q (.branch c v))), [], ?_,
          fun e he => mem_removed he, fun e he => (List.not_mem_nil he).elim, ?_⟩
        · change (Function.update (fun _ => Input.bytes []) a (treeRef opts (.branch c v)),
            ([] : Bytes), (formatNode opts (treeNode opts (.ext q (.branch c v))) false true).2) = _
          rw [formatNode_remove, update_treeRef]
          simp only [splitChildren, extend_nil]
          exact congrArg (fun ops => (_, _, ops)) (List.append_nil _).symm
        · simp only [splitChildren, extend_nil]
          exact strings_update Set.subset_union_left
      · have hend : extend p (pathEnd (.ext q (.branch c v))) = .ext p (.branch c v) :=
          if_neg hp0
        refine ⟨[], shortened opts (.ext p (.branch c v)), ?_, ?_⟩
        · have hlast : p.length ≠ 0 := fun h => hp0 (List.eq_nil_of_length_eq_zero h)
          change (if p.length ≠ 0 then
            (Function.update (fun _ => Input.bytes []) a
                (formatNode opts (treeNode opts (.ext p (.branch c v))) false false).1,
              ([] : Bytes),
              (formatNode opts (treeNode opts (.ext p (.branch c v))) false false).2) else _) = _
          rw [if_pos hlast, formatNode_shortened (by simp)]
          simp only [update_treeRef, splitChildren, hend]
          rfl
        · rw [← hend]
          exact .shortened (by rw [hend]; simp) (by rw [hend]; exact subset_rfl)
  | branch hc hn => exact absurd rfl (hbranch _ _)

/-! ### The update at the end of a path -/

theorem keyOffset_spine (fs : List (Frame Nibble Value)) (t : Tree) :
    ((spine opts fs t).map MPTNode.keyOffset).sum = (pathOf fs).length := by
  induction fs with
  | nil => rfl
  | cons f fs ih =>
    rw [spine, List.map_append, List.sum_append, ih, pathOf_cons, List.length_append, Nat.add_comm]
    cases f <;> rfl

private theorem updateNode_of_match {key value : Bytes} {rem : Nibbles} {n : MPTNode}
    {stack : List MPTNode} (h : isMatchingLeafUpdate n stack (bytesToNibbles key) rem = true) :
    updateNode opts key value rem (n :: stack) =
      saveStack opts (bytesToNibbles key) (.leaf n.key value :: stack) [] := if_pos h

private theorem updateNode_of_path {key value : Bytes} {rem : Nibbles} {n : MPTNode}
    {stack : List MPTNode} (h : isMatchingLeafUpdate n stack (bytesToNibbles key) rem = false)
    (hn : ∀ branches v, n ≠ .branch branches v) :
    updateNode opts key value rem (n :: stack) =
      divergeFrom opts (bytesToNibbles key) value rem n stack := by
  have hnot : ¬ isMatchingLeafUpdate n stack (bytesToNibbles key) rem = true := by
    rw [h]
    exact Bool.false_ne_true
  refine (if_neg hnot).trans ?_
  cases n with
  | branch branches v => exact absurd rfl (hn branches v)
  | extension nibbles v => rfl
  | leaf nibbles v => rfl

section Put

variable {S : Set Bytes} (hlen : ∀ v, (opts.hash v).length = 32) (hS : Set.InjOn opts.hash S)
  (hempty : RLP_EMPTY_STRING ∈ S)

/-- What stands beside the path of a key and stays where it is when the key is put. -/
def besideStrings (opts : MPTOpts) (t : Tree) (k : Nibbles) : Set Bytes :=
  siblingStrings opts (t.find k).frames ∪ childStrings opts (t.find k).focus

/-- The nodes on the path of a key. -/
def pathStrings (opts : MPTOpts) (t : Tree) (k : Nibbles) : Set Bytes :=
  {e | ∃ n ∈ (foundPath opts t k []).stack, e = n.serialize}

/-- A path put before a trie leaves what is below the trie's top. -/
theorem childStrings_subset_extend (p : Nibbles) (t : Tree) :
    childStrings opts t ⊆ childStrings opts (extend p t) := by
  cases t with
  | nil => exact subset_rfl
  | leaf q v => exact subset_rfl
  | ext q c => exact subset_rfl
  | branch c v =>
    rw [extend]
    split
    · exact subset_rfl
    · exact Set.subset_union_right

theorem strings_branch_subset_extend (p : Nibbles) (c : Nibble → Tree) (w : Option Value) :
    strings opts (.branch c w) ⊆ strings opts (extend p (.branch c w)) := by
  rw [extend]
  split
  · exact subset_rfl
  · exact Set.subset_union_right

/-- A branch at the end of a path is below the fork at which a word leaves the path. -/
private theorem strings_subset_fork (c : Nibble → Tree) (w : Option Value) (v : Value) :
    ∀ {p r : Nibbles}, ¬ p <+: r →
      strings opts (.branch c w) ⊆ childStrings opts (fork (.branch c w) p r v)
  | [], _, h => absurd List.nil_prefix h
  | a :: p, [], _ => by
    refine (strings_branch_subset_extend p c w).trans ?_
    have hsub := Set.subset_iUnion (fun i => strings opts (Function.update (fun _ => PathTrie.nil) a
      (extend p (.branch c w)) i)) a
    rwa [Function.update_self] at hsub
  | a :: p, b :: r, h => by
    rw [fork]
    split
    · rename_i hab
      subst hab
      have ih := strings_subset_fork c w v (p := p) (r := r) fun hpr =>
        h ((List.prefix_cons_inj a).2 hpr)
      exact ih.trans (childStrings_subset_extend [a] _)
    · rename_i hab
      refine (strings_branch_subset_extend p c w).trans ?_
      have hsub := Set.subset_iUnion (fun i => strings opts (Function.update
        (Function.update (fun _ => PathTrie.nil) a (extend p (.branch c w))) b (.leaf r v) i)) a
      rwa [Function.update_of_ne hab, Function.update_self] at hsub

variable (opts) in
/-- What stands beside the path of a key stays when the key is put. -/
theorem besideStrings_subset_insert {t : Tree} {P : Finset (Option Nibble) → Prop}
    (hp : Packed P t) (k : Nibbles) (v : Value) :
    besideStrings opts t k ⊆ strings opts (t.insert k v) := by
  have hstuck := stuck_find t k
  have hpacked := hp.find k
  rw [besideStrings, insert_find]
  generalize t.find k = d at *
  obtain ⟨fs, focus, rest⟩ := d
  simp only at *
  have hfocus : childStrings opts focus ⊆ childStrings opts (focus.insert rest v) := by
    cases hstuck with
    | nil k => exact Set.empty_subset _
    | leaf p w => exact Set.empty_subset _
    | @ext p rest c hpre =>
      obtain ⟨-, -, b, w, rfl⟩ := hpacked.of_ext
      rw [PathTrie.insert, if_neg hpre]
      exact strings_subset_fork b w v hpre
    | done c w => exact subset_rfl
    | @slot c i w rest hi =>
      refine Set.iUnion_subset fun j => ?_
      have hsub := Set.subset_iUnion (fun j => strings opts
        (Function.update c i ((c i).insert rest v) j)) j
      by_cases hj : j = i
      · rw [hj, hi]
        exact Set.empty_subset _
      · rwa [Function.update_of_ne hj] at hsub
  refine Set.union_subset (siblingStrings_subset opts fs _)
    (hfocus.trans (Set.Subset.trans ?_ (strings_subset_plug opts fs _)))
  by_cases hnil : focus.insert rest v = .nil
  · rw [hnil]
    exact subset_rfl
  · rw [strings_eq hnil]
    exact Set.subset_union_right

theorem besideStrings_subset (t : Tree) (k : Nibbles) :
    besideStrings opts t k ⊆ strings opts t := by
  have hsib := siblingStrings_subset opts (t.find k).frames (t.find k).focus
  have hsub := strings_subset_plug opts (t.find k).frames (t.find k).focus
  rw [plug_find] at hsib hsub
  refine Set.union_subset hsib (Set.Subset.trans ?_ hsub)
  by_cases hnil : (t.find k).focus = .nil
  · rw [hnil]
    exact Set.empty_subset _
  · rw [strings_eq hnil]
    exact Set.subset_union_right

include hlen in
/-- Saving below the steps `fs`, to which some steps `gs` are added. -/
private theorem run_saveStack_at {u : Tree} {fs : List (Frame Nibble Value)} {focus : Tree}
    (gs : List (Frame Nibble Value)) (ns : List MPTNode) (dels es : List Bytes) {k : Nibbles}
    {t' : Tree} {K D : Set Bytes} (hkept : K ⊆ strings opts t') (hplug : plug (fs ++ gs) u = t')
    (hk : k = pathOf (fs ++ gs) ++ topPath u) (hu : u ≠ .nil)
    (hns : List.Forall₂ (FrameNode opts) gs.reverse ns)
    (hes : ∀ e ∈ es, ∃ hs v, v ≠ .nil ∧ plug hs v = plug gs u ∧
      e = (treeNode opts v).serialize ∧ 32 ≤ e.length ∧ 0 < (pathOf hs).length)
    (hknown : childStrings opts u ∪ siblingStrings opts gs ⊆ K ∪ {e | e ∈ es})
    (hsib : siblingStrings opts fs ⊆ K)
    (hdels : ∀ e ∈ dels, opts.useNodePruning = true ∧ e ∈ D) (s : MerklePatriciaTrie) :
    ∃ s', (saveStack opts k (treeNode opts u :: (ns ++ spine opts fs focus))
        (delOps opts.hash opts.keyPrefix dels ++ putOps opts.hash opts.keyPrefix es)).run s =
          (.ok (), s') ∧ Wrote opts k (pathOf fs).length K D ∅ t' s s' := by
  subst hplug hk
  refine run_saveStack hlen dels es ?_ hu (fun hs hpre => .inl ?_) (fun e he => ?_) ?_ hkept
    (fun e he => ⟨(hdels e he).1, .inl (hdels e he).2⟩)
    (fun _ e he => absurd he (Set.notMem_empty e)) s
  · rw [List.reverse_append]
    exact List.rel_append hns (spine_frameNodes fs focus)
  · obtain ⟨rest, hrest⟩ := hpre
    rw [← hrest, pathOf_append, List.append_assoc]
    exact List.prefix_append _ _
  · obtain ⟨hs, v, hv, hplug, hev, hlong, hpos⟩ := hes e he
    refine ⟨fs ++ hs, v, hv, ?_, hev, hlong, ?_⟩
    · rw [plug_append, plug_append, hplug]
    · rw [pathOf_append, List.length_append]
      omega
  · rw [siblingStrings_append]
    rintro e (he | he | he)
    · exact hknown (.inl he)
    · exact .inl (hsib he)
    · exact hknown (.inr he)

include hlen in
/-- Where the key leaves a path, the path is forked. -/
private theorem run_divergeFrom {t' focus : Tree} {fs : List (Frame Nibble Value)}
    {P : Finset (Option Nibble) → Prop} {k rest : Nibbles} {v : Value} {K D : Set Bytes}
    (hp : Packed P focus) (hbranch : ∀ c w, focus ≠ .branch c w) (hk : k = pathOf fs ++ rest)
    (ht' : t' = plug fs (fork (pathEnd focus) (topPath focus) rest v))
    (hparts : topPath focus <+: rest → topPath focus ≠ rest ∧ ∃ q w, focus = .leaf q w)
    (hsib : siblingStrings opts fs ⊆ K) (hchild : childStrings opts focus ⊆ K)
    (hkept : K ⊆ strings opts t') (hD : (treeNode opts focus).serialize ∈ D)
    (s : MerklePatriciaTrie) :
    ∃ s', (divergeFrom opts k v.1 rest (treeNode opts focus) (spine opts fs focus)).run s =
        (.ok (), s') ∧ Wrote opts k (pathOf fs).length K D ∅ t' s s' := by
  have hkey : (treeNode opts focus).key = topPath focus := by
    cases focus with
    | nil => rfl
    | leaf p w => rfl
    | ext p c => rfl
    | branch c w => rfl
  have hfork := fork_eq_extend (pathEnd focus) v (topPath focus) rest
  have hheads := fun a b q q' => @drop_matching_head_ne (topPath focus) rest a b q q'
  have htake := take_matchingNibbleLength (topPath focus) rest
  have hle := matchingNibbleLength_le (topPath focus) rest
  rw [divergeFrom, hkey]
  generalize matchingNibbleLength (topPath focus) rest = m at *
  have hrest : (topPath focus).take m ++ rest.drop m = rest := by
    rw [htake, List.take_append_drop]
  -- the whole old path is shared only where the old node is a leaf
  have hleaf : (topPath focus).drop m = [] → topPath focus ≠ rest ∧ ∃ q w, focus = .leaf q w :=
    fun hdrop => by
      have hwhole : (topPath focus).take m = topPath focus := by
        have h := List.take_append_drop m (topPath focus)
        rwa [hdrop, List.append_nil] at h
      exact hparts ⟨rest.drop m, (congrArg (· ++ rest.drop m) hwhole).symm.trans hrest⟩
  obtain ⟨dels, es, hsplit, hspec⟩ := splitNode_spec opts hp
    (p := (topPath focus).drop m) (fun h => (hleaf h).2) hbranch
  -- the shared part, if any, becomes an extension
  obtain ⟨gs, hgs⟩ : ∃ gs : List (Frame Nibble Value),
      gs = if m ≠ 0 then [.ext ((topPath focus).take m)] else [] := ⟨_, rfl⟩
  have hgpath : pathOf gs = (topPath focus).take m := by
    rw [hgs]
    split
    · exact List.append_nil _
    · rename_i h0
      rw [not_not.1 h0]
      rfl
  have hgplug : ∀ c w, plug gs (.branch c w) = extend ((topPath focus).take m) (.branch c w) := by
    intro c w
    rw [hgs, extend]
    split
    · rename_i h0
      rw [if_neg]
      · rfl
      · rw [List.take_eq_nil_iff]
        rintro (h | h)
        · exact h0 h
        · rw [h] at hle
          exact h0 (Nat.le_zero.1 hle)
    · rename_i h0
      rw [not_not.1 h0, List.take_zero, if_pos rfl]
      rfl
  have hgstack : (if m ≠ 0 then
      MPTNode.extension ((topPath focus).take m) (.bytes v.1) :: spine opts fs focus
      else spine opts fs focus) =
        (if m ≠ 0 then [MPTNode.extension ((topPath focus).take m) (.bytes v.1)] else []) ++
          spine opts fs focus := by
    split <;> rfl
  have hgnodes : List.Forall₂ (FrameNode opts) gs.reverse
      (if m ≠ 0 then [MPTNode.extension ((topPath focus).take m) (.bytes v.1)] else []) := by
    rw [hgs]
    split
    · exact .cons (.ext _ _) .nil
    · exact .nil
  have hgsib : siblingStrings opts gs = ∅ := by
    rw [hgs]
    split <;> rfl
  have hknown : ∀ i, strings opts (splitChildren focus ((topPath focus).drop m) i) ⊆
      K ∪ {e | e ∈ es} :=
    fun i => (hspec.strings i).trans (Set.union_subset_union_left _ hchild)
  have hdels : ∀ e ∈ dels, opts.useNodePruning = true ∧ e ∈ D := fun e he =>
    ⟨(hspec.deleted e he).1, (hspec.deleted e he).2 ▸ hD⟩
  -- what is left of the old path hangs below the new branch
  have hes : ∀ c w, (∀ a q, (topPath focus).drop m = a :: q → c a = extend q (pathEnd focus)) →
      ∀ e ∈ es, ∃ hs x, x ≠ .nil ∧ plug hs x = plug gs (.branch c w) ∧
        e = (treeNode opts x).serialize ∧ 32 ≤ e.length ∧ 0 < (pathOf hs).length := by
    intro c w hc e he
    obtain ⟨a, q, hdrop, hne, heq, hlong⟩ := hspec.written e he
    refine ⟨gs ++ [.branch c w a], _, hne, ?_, heq, hlong, ?_⟩
    · rw [plug_append, ← hc a q hdrop]
      exact congrArg (plug gs) (congrArg (fun c => PathTrie.branch c w)
        (Function.update_eq_self a c))
    · rw [pathOf_append, List.length_append]
      exact Nat.add_pos_right _ one_pos
  simp only [hsplit, hgstack]
  cases hdrop : rest.drop m with
  | nil =>
    have hne : (topPath focus).drop m ≠ [] := fun h => (hleaf h).1 (by
      rw [← hrest, hdrop, List.append_nil]
      conv_lhs => rw [← List.take_append_drop m (topPath focus), h, List.append_nil])
    rw [hfork, hdrop, fork_nil focus hne, ← hgplug] at ht'
    refine run_saveStack_at hlen gs _ dels es hkept
      (u := .branch (splitChildren focus ((topPath focus).drop m)) (some v))
      (by rw [plug_append, ht']) ?_ (by simp) hgnodes (hes _ _ fun a q h => ?_) ?_ hsib hdels s
    · rw [hk, pathOf_append, hgpath, ← hrest, hdrop, List.append_nil]
      simp [topPath]
    · rw [h, splitChildren, Function.update_self]
    · rw [hgsib, Set.union_empty]
      exact Set.iUnion_subset hknown
  | cons b r =>
    have hhead : ((topPath focus).drop m).head? ≠ some b := by
      intro h
      obtain ⟨a, q, hq⟩ : ∃ a q, (topPath focus).drop m = a :: q := by
        cases hq : (topPath focus).drop m with
        | nil =>
          rw [hq] at h
          cases h
        | cons a q => exact ⟨a, q, rfl⟩
      rw [hq, List.head?_cons, Option.some.injEq] at h
      exact hheads _ _ _ _ hq hdrop h
    rw [hfork, hdrop, fork_cons focus hhead, ← hgplug] at ht'
    refine run_saveStack_at hlen
      (gs ++ [.branch (splitChildren focus ((topPath focus).drop m))
        (splitValue focus ((topPath focus).drop m)) b])
      (.branch (fun i => treeRef opts (splitChildren focus ((topPath focus).drop m) i))
        (valueBytes (splitValue focus ((topPath focus).drop m))) ::
          (if m ≠ 0 then [MPTNode.extension ((topPath focus).take m) (.bytes v.1)] else []))
      dels es hkept (u := .leaf r v) (by rw [plug_append, plug_append, ht']; rfl) ?_ (by simp) ?_
      (fun e he => ?_) ?_ hsib hdels s
    · rw [hk, pathOf_append, pathOf_append, hgpath, ← hrest, hdrop]
      simp [topPath, Frame.path]
    · rw [List.reverse_append]
      exact .cons (.branch _ fun i _ => rfl) hgnodes
    · rw [plug_append]
      refine hes _ _ (fun a q h => ?_) e he
      have hab : a ≠ b := by
        rintro rfl
        exact hhead (by rw [h]; rfl)
      rw [Function.update_of_ne hab, h, splitChildren, Function.update_self]
    · rw [siblingStrings_append, hgsib, Set.empty_union]
      refine Set.union_subset (Set.empty_subset _) (Set.union_subset ?_ (Set.empty_subset _))
      exact Set.iUnion₂_subset fun i _ => hknown i

include hlen in
/-- **An update at the end of a path** writes the trie with the value inserted.  Only where the key
was not found is a node deleted at once. -/
theorem run_updateNode {t : Tree} {P : Finset (Option Nibble) → Prop} (hp : Packed P t)
    (key : Bytes) (v : Value) (s : MerklePatriciaTrie) :
    ∃ s', (updateNode opts key v.1 (foundPath opts t (bytesToNibbles key) []).remaining
        (foundPath opts t (bytesToNibbles key) []).stack).run s = (.ok (), s') ∧
      Wrote opts (bytesToNibbles key) (pathOf (t.find (bytesToNibbles key)).frames).length
        (besideStrings opts t (bytesToNibbles key))
        {e | e ∈ pathStrings opts t (bytesToNibbles key) ∧
          (foundPath opts t (bytesToNibbles key) []).node = none} ∅
        (t.insert (bytesToNibbles key) v) s s' := by
  have hfocus := hp.find (bytesToNibbles key)
  have hstuck := stuck_find t (bytesToNibbles key)
  have hpath := pathOf_find t (bytesToNibbles key)
  have hinsert := insert_find t (bytesToNibbles key) v
  have hkept := besideStrings_subset_insert opts hp (bytesToNibbles key) v
  rw [besideStrings] at hkept
  simp only [pathStrings, besideStrings, foundPath, List.append_nil]
  generalize t.insert (bytesToNibbles key) v = t' at *
  generalize t.find (bytesToNibbles key) = d at *
  obtain ⟨fs, focus, rest⟩ := d
  simp only at *
  -- Where the walk got stuck decides which branch of `_updateNode` runs.
  cases hstuck with
  | nil k => cases hfocus
  | leaf p w =>
    by_cases hrest : rest = p
    · subst hrest
      -- the key is there: the leaf gets the new value
      have hmatch : isMatchingLeafUpdate (treeNode opts (.leaf rest w))
          (spine opts fs (.leaf rest w)) (bytesToNibbles key) [] = true := by
        have hdrop : (bytesToNibbles key).drop (pathOf fs).length = rest := by
          rw [← hpath, List.drop_left]
        simp [treeNode, isMatchingLeafUpdate, keyOffset_spine, hdrop, matchingNibbleLength_self]
      simp only [foundNode, if_true, Option.isSome_some]
      rw [updateNode_of_match hmatch]
      refine run_saveStack_at hlen [] [] [] [] hkept (u := .leaf rest v) ?_ ?_ (by simp) .nil
        (fun e he => (List.not_mem_nil he).elim) ?_ Set.subset_union_left
        (fun e he => (List.not_mem_nil he).elim) s
      · rw [List.append_nil, hinsert, PathTrie.insert, if_pos rfl]
      · rw [List.append_nil, ← hpath]
        rfl
      · exact Set.union_subset (Set.empty_subset _) (Set.empty_subset _)
    · -- another key: the leaf is split
      have hmatch : isMatchingLeafUpdate (treeNode opts (.leaf p w))
          (spine opts fs (.leaf p w)) (bytesToNibbles key) rest = false := by
        have hdrop : (bytesToNibbles key).drop (pathOf fs).length = rest := by
          rw [← hpath, List.drop_left]
        simp only [treeNode, isMatchingLeafUpdate, keyOffset_spine, hdrop,
          decide_eq_false_iff_not]
        rintro ⟨hr, hlen'⟩
        rw [List.eq_nil_of_length_eq_zero hr] at hlen' hrest
        cases p with
        | nil => exact hrest rfl
        | cons a p => cases hlen'
      simp only [foundNode, if_neg hrest, Option.isSome_none, Bool.false_eq_true, if_false]
      rw [updateNode_of_path hmatch (by simp [treeNode])]
      refine run_divergeFrom hlen hfocus (by simp) hpath.symm ?_ ?_ Set.subset_union_left
        Set.subset_union_right hkept ?_ s
      · rw [hinsert, PathTrie.insert, if_neg hrest]
        rfl
      · exact fun _ => ⟨fun h => hrest h.symm, p, w, rfl⟩
      · exact ⟨⟨_, List.mem_cons_self, rfl⟩, trivial⟩
  | @ext p rest c hpre =>
    -- an extension is split like a leaf
    have hmatch : isMatchingLeafUpdate (treeNode opts (.ext p c))
        (spine opts fs (.ext p c)) (bytesToNibbles key) rest = false := rfl
    simp only [foundNode, Option.isSome_none, Bool.false_eq_true, if_false]
    rw [updateNode_of_path hmatch (by simp [treeNode])]
    refine run_divergeFrom hlen hfocus (by simp) hpath.symm ?_ ?_ Set.subset_union_left
      Set.subset_union_right hkept ?_ s
    · rw [hinsert, PathTrie.insert, if_neg hpre]
      rfl
    · exact fun h => absurd h hpre
    · exact ⟨⟨_, List.mem_cons_self, rfl⟩, trivial⟩
  | done c w =>
    -- the path ends at the branch, whose value is replaced
    refine run_saveStack_at hlen [] [] [] [] hkept (u := .branch c (some v)) ?_ ?_ (by simp) .nil
      (fun e he => (List.not_mem_nil he).elim) ?_ Set.subset_union_left
      (fun e he => (List.not_mem_nil he).elim) s
    · rw [List.append_nil, hinsert]
      rfl
    · rw [List.append_nil, ← hpath]
      rfl
    · refine Set.union_subset (Set.Subset.trans ?_ Set.subset_union_left) (Set.empty_subset _)
      exact Set.subset_union_right
  | @slot c i w rest hi =>
    -- a new leaf goes into the empty slot
    refine run_saveStack_at hlen [.branch c w i] [treeNode opts (.branch c w)] [] [] hkept
      (u := .leaf rest v) ?_ ?_ (by simp) (.cons (.branch w fun _ _ => rfl) .nil)
      (fun e he => (List.not_mem_nil he).elim) ?_ Set.subset_union_left
      (fun e he => (List.not_mem_nil he).elim) s
    · rw [plug_append, hinsert, PathTrie.insert, hi]
      rfl
    · rw [pathOf_append, ← hpath]
      simp [Frame.path, topPath]
    · refine Set.union_subset (Set.empty_subset _) (Set.union_subset ?_ (Set.empty_subset _))
      refine Set.iUnion₂_subset fun j _ => ?_
      refine (Set.subset_iUnion (fun j => strings opts (c j)) j).trans ?_
      exact Set.subset_union_right.trans Set.subset_union_left

/-- What was saved after some reads. -/
theorem Saved.of_reads {s s₁ s' : MerklePatriciaTrie} {t t' : Tree} (hr : s.Reads s₁)
    (h : Saved opts S s₁ t t' s') : Saved opts S s t t' s' where
  contents := by
    rw [← hr.db.contents]
    exact h.contents
  roots hin hroots := h.roots hin (hroots.reads hr)
  complete hin hroots hc := h.complete hin (hroots.reads hr) (hc.reads hr.db)

include hlen hS hempty in
/-- The root is that of the empty trie only where the trie is empty. -/
theorem Roots.root_eq_empty {s : MerklePatriciaTrie} {t : Tree} (h : Roots opts S s t) :
    s.root = opts.EMPTY_TRIE_ROOT ↔ t = .nil := by
  rw [h.root]
  constructor
  · intro heq
    have hnil : Committed opts S .nil := ⟨Set.empty_subset S, fun h => absurd rfl h, trivial⟩
    exact rootHash_injective hlen hS hempty h.committed hnil heq
  · rintro rfl
    rfl

include hlen in
/-- The leaf of the first key. -/
theorem run_createInitialNode (key : Bytes) (v : Value) (D : Set Bytes) (s : MerklePatriciaTrie) :
    ∃ s', (createInitialNode opts key v.1).run s = (.ok (), s') ∧
      Wrote opts (bytesToNibbles key) 0 ∅ D ∅ (.leaf (bytesToNibbles key) v) s s' := by
  refine ⟨_, Prog.run_bind_of_ok (run_setRoot hlen (hlen _) s), [],
    [(MPTNode.leaf (bytesToNibbles key) v.1).serialize], rfl,
    ⟨?_, Set.empty_subset _, List.mem_cons_self, ?_⟩, fun e he => (List.not_mem_nil he).elim,
    fun _ e he => absurd he (Set.notMem_empty e)⟩
  · rintro e ⟨rfl, -⟩
    exact .inr List.mem_cons_self
  · intro e he
    obtain rfl := List.mem_singleton.1 he
    exact ⟨[], .leaf (bytesToNibbles key) v, by simp, rfl, rfl, .inl rfl,
      .inr (.inl List.nil_prefix)⟩

/-- The part of `put` after the value has turned out not to be empty. -/
private theorem put_of_ne_nil (key : Bytes) (v : Value) (s : MerklePatriciaTrie)
    (hprune : opts.useNodePruning = false) :
    (put opts key v.1).run s =
      (if s.root = opts.EMPTY_TRIE_ROOT then createInitialNode opts (opts.appliedKey key) v.1
        else findPath opts (opts.appliedKey key) true >>= fun path =>
          updateNode opts (opts.appliedKey key) v.1 path.remaining path.stack).run s := by
  have hv : ¬ v.1.length = 0 := fun h => v.2.1 (List.eq_nil_of_length_eq_zero h)
  rw [MerklePatriciaTrie.put, if_neg hv, Prog.run_bind_of_ok (Prog.run_gets _ s)]
  simp only [hprune]
  rfl

include hlen hS hempty in
/-- **A value that is put is inserted**: on a complete database the call succeeds, on a partial one
it may also throw. -/
theorem run_put (hprune : opts.useNodePruning = false) {s : MerklePatriciaTrie} {t : Tree}
    {P : Finset (Option Nibble) → Prop} (hp : t = .nil ∨ Packed P t) (h : Roots opts S s t)
    {key : Bytes} (hkey : (bytesToNibbles (opts.appliedKey key)).length ≤ 2 ^ 60) (v : Value) :
    ∃ s', ((put opts key v.1).run s = (.ok (), s') ∧
        Saved opts S s t (t.insert (bytesToNibbles (opts.appliedKey key)) v) s') ∨
      ¬ Complete opts s.db t ∧ (put opts key v.1).run s = (.error .missingNode, s') := by
  rw [put_of_ne_nil key v s hprune]
  rcases hp with rfl | hp
  · rw [if_pos ((h.root_eq_empty hlen hS hempty).2 rfl)]
    obtain ⟨s', hrun, hwrote⟩ := run_createInitialNode hlen (opts.appliedKey key) v ∅ s
    exact ⟨s', .inl ⟨hrun, hwrote.saved hlen hS hempty hprune (Set.empty_subset _) hkey⟩⟩
  · rw [if_neg fun heq => hp.ne_nil ((h.root_eq_empty hlen hS hempty).1 heq)]
    obtain ⟨s₁, hr, hfind | ⟨hno, hfind⟩⟩ := run_findPath hlen hS h hp (opts.appliedKey key) true
    · obtain ⟨s', hrun, hwrote⟩ := run_updateNode hlen hp (opts.appliedKey key) v s₁
      have hsaved : Saved opts S s₁ t _ s' := hwrote.saved hlen hS hempty hprune
        (besideStrings_subset t _) (Short.insert hp h.committed.short v hkey)
      refine ⟨s', .inl ⟨?_, hsaved.of_reads hr⟩⟩
      rw [Prog.run_bind_of_ok hfind]
      exact hrun
    · exact ⟨s₁, .inr ⟨hno, Prog.run_bind_of_error (hfind rfl)⟩⟩

end Put

end Tvmjs
