import Tvmjs.Mpt.Update

/-!
# Deleting a key

What `del` makes of the trie the root stands for.

* `erase` -- the trie after a deletion: a branch which is left with one child gives way to it;
* `run_del` -- on a complete database `del` succeeds with that trie.
-/

namespace Tvmjs

open RLP (Input)

open PathTrie MerklePatriciaTrie CheckpointDB

variable {opts : MPTOpts}

/-! ### Branches with one child -/

/-- The occupied slots of a branch, in order. -/
def childSlots (c : Nibble → Tree) : List Nibble := (List.finRange 16).filter fun i => !(c i).isNil

/-- A branch, or what is left of it if it has one child; a value it holds is then lost. -/
def settle (c : Nibble → Tree) (w : Option Value) : Tree :=
  match childSlots c with
  | [i] => extend [i] (c i)
  | _ => .branch c w

/-- The trie after the deletion of a key. -/
def erase (t : Tree) (k : Nibbles) : Tree :=
  let d := t.find k
  match d.focus, d.frames.reverse with
  | .leaf p _, [] => if d.rest = p then .nil else t
  | .leaf p _, .branch c w s :: gs =>
    if d.rest = p then graft gs.reverse (settle (Function.update c s .nil) w) else t
  | .branch _ _, [] => if d.rest = [] then .nil else t
  | .branch c w, _ :: _ => if d.rest = [] then graft d.frames (settle c w) else t
  | _, _ => t

theorem mem_childSlots {c : Nibble → Tree} {i : Nibble} : i ∈ childSlots c ↔ c i ≠ .nil := by
  simp [childSlots]

/-- The code counts the children as the trie does. -/
theorem getChildren_treeRef (hlen : ∀ v, (opts.hash v).length = 32) (c : Nibble → Tree) :
    getChildren (fun i => treeRef opts (c i)) =
      (childSlots c).map fun i => (i, treeRef opts (c i)) := by
  rw [getChildren, childSlots]
  induction List.finRange 16 with
  | nil => rfl
  | cons i is ih =>
    rw [List.filterMap_cons, List.filter_cons, slotRef_treeRef hlen, ih]
    cases (c i).isNil with
    | true => rfl
    | false => rfl

/-! ### Giving up a branch -/

/-- The steps without a last path, and that path. -/
private theorem exists_graft (fs : List (Frame Nibble Value)) : ∃ gs p,
    (∀ t : Tree, graft fs t = plug gs (extend p t)) ∧ pathOf fs = pathOf gs ++ p ∧
      ((fs = gs ∧ p = [] ∧ ∀ q, fs.getLast? ≠ some (.ext q)) ∨ fs = gs ++ [.ext p]) := by
  rcases List.eq_nil_or_concat fs with rfl | ⟨gs, f, rfl⟩
  · exact ⟨[], [], fun t => (extend_nil t).symm, rfl, .inl ⟨rfl, rfl, by simp⟩⟩
  have hgraft : ∀ t : Tree, graft (gs ++ [f]) t = plug gs (graft [f] t) := fun t => by
    induction gs with
    | nil => rfl
    | cons g gs ih =>
      have hcons : graft (g :: (gs ++ [f])) t = g.fill (graft (gs ++ [f]) t) := by
        cases gs with
        | nil => cases g <;> rfl
        | cons g' gs => cases g <;> rfl
      rw [List.cons_append, hcons, ih, plug_cons]
  rw [List.concat_eq_append]
  cases f with
  | ext p => exact ⟨gs, p, hgraft, by simp [Frame.path], .inr rfl⟩
  | branch c w s =>
    refine ⟨gs ++ [.branch c w s], [], fun t => ?_, (List.append_nil _).symm,
      .inl ⟨rfl, rfl, by simp⟩⟩
    rw [hgraft, extend_nil, plug_append]
    rfl

private theorem spine_append (fs gs : List (Frame Nibble Value)) (t : Tree) :
    spine opts (fs ++ gs) t = spine opts gs t ++ spine opts fs (plug gs t) := by
  induction fs with
  | nil => exact (List.append_nil _).symm
  | cons f fs ih =>
    rw [List.cons_append, spine, spine, ih, List.append_assoc, plug_cons, plug_cons, plug_append]

variable (opts) in
/-- Where no path leads to a trie, the node above it, if any, is a branch. -/
private theorem spine_head_branch {fs : List (Frame Nibble Value)}
    (h : ∀ q, fs.getLast? ≠ some (.ext q)) (t : Tree) :
    spine opts fs t = [] ∨ ∃ b v ns, spine opts fs t = .branch b v :: ns := by
  rcases List.eq_nil_or_concat fs with rfl | ⟨gs, f, rfl⟩
  · exact .inl rfl
  · rw [List.concat_eq_append] at h ⊢
    rw [spine_append]
    cases f with
    | ext p => exact absurd List.getLast?_concat (h p)
    | branch c w s => exact .inr ⟨_, _, _, rfl⟩

/-- What `collapseBranchWithOneChild` makes of a child at the end of a path `p` above it. -/
private theorem collapse_eq (pathNibbles : Nibbles) {p : Nibbles} (i : Nibble) {u : Tree}
    (hu : u ≠ .nil)
    {parentNode : Option MPTNode} {ns nodeStack : List MPTNode}
    (hparent : (p = [] ∧ parentNode.toList ++ nodeStack = ns ∧
        (parentNode = none ∨ ∃ b v, parentNode = some (.branch b v))) ∨
      ∃ x, parentNode = some (.extension p x) ∧ nodeStack = ns) :
    ∃ q ms, collapseBranchWithOneChild (pathNibbles ++ p) i (treeNode opts u) parentNode nodeStack =
        .ok (pathNibbles ++ q, ms) ∧
      ((∃ c w, u = .branch c w ∧ q = p ++ [i] ∧
          ∃ x, ms = treeNode opts u :: .extension (p ++ [i]) x :: ns) ∨
        (∀ c w, u ≠ .branch c w) ∧ q = topPath (extend (p ++ [i]) u) ∧
          ms = treeNode opts (extend (p ++ [i]) u) :: ns) := by
  rcases hparent with ⟨rfl, rfl, rfl | ⟨b, v, rfl⟩⟩ | ⟨x, rfl, rfl⟩
  · cases u with
    | nil => exact absurd rfl hu
    | leaf r w => exact ⟨i :: r, _, by rw [List.append_nil]; rfl, .inr ⟨by simp, rfl, rfl⟩⟩
    | ext r c => exact ⟨i :: r, _, by rw [List.append_nil]; rfl, .inr ⟨by simp, rfl, rfl⟩⟩
    | branch c w =>
      exact ⟨[i], _, by rw [List.append_nil]; rfl, .inl ⟨c, w, rfl, rfl, _, rfl⟩⟩
  · cases u with
    | nil => exact absurd rfl hu
    | leaf r w => exact ⟨i :: r, _, by rw [List.append_nil]; rfl, .inr ⟨by simp, rfl, rfl⟩⟩
    | ext r c => exact ⟨i :: r, _, by rw [List.append_nil]; rfl, .inr ⟨by simp, rfl, rfl⟩⟩
    | branch c w =>
      exact ⟨[i], _, by rw [List.append_nil]; rfl, .inl ⟨c, w, rfl, rfl, _, rfl⟩⟩
  · cases u with
    | nil => exact absurd rfl hu
    | leaf r w =>
      refine ⟨p ++ i :: r, _, by rw [← List.append_assoc]; rfl, .inr ⟨by simp, ?_, ?_⟩⟩
      · simp [extend, topPath]
      · simp [extend, treeNode]
    | ext r c =>
      refine ⟨p ++ i :: r, _, by rw [← List.append_assoc]; rfl, .inr ⟨by simp, ?_, ?_⟩⟩
      · simp [extend, topPath]
      · simp [extend, treeNode]
    | branch c w =>
      exact ⟨p ++ [i], _, by rw [← List.append_assoc]; rfl, .inl ⟨c, w, rfl, rfl, _, rfl⟩⟩

variable (opts) in
/-- **The child of a branch takes the place of the branch**, after the paths that led to it. -/
private theorem collapse_spec (fs : List (Frame Nibble Value)) (t : Tree) {u : Tree}
    (hu : u ≠ .nil) (i : Nibble) :
    ∃ gs u' ns, collapseBranchWithOneChild (pathOf fs) i (treeNode opts u)
        (spine opts fs t).head? (spine opts fs t).tail =
          .ok (pathOf gs ++ topPath u', treeNode opts u' :: ns) ∧
      List.Forall₂ (FrameNode opts) gs.reverse ns ∧ plug gs u' = graft fs (extend [i] u) ∧
      u' ≠ .nil ∧ childStrings opts u' = childStrings opts u ∧
      siblingStrings opts gs ⊆ siblingStrings opts fs ∧
      (∀ hs, hs <+: gs → pathOf hs <+: pathOf fs ∨ hs = gs ∧ ∃ c w, u = .branch c w) ∧
      ∀ c w, u = .branch c w → u' = u := by
  obtain ⟨gs, p, hgraft, hpath, hcase⟩ := exists_graft fs
  have hextend : ∀ t : Tree, extend p (extend [i] t) = extend (p ++ [i]) t :=
    fun t => extend_extend p [i] t
  -- the node above the branch is a path or not
  obtain ⟨ns, hnodes, hsib, hparent⟩ : ∃ ns, List.Forall₂ (FrameNode opts) gs.reverse ns ∧
      siblingStrings opts gs ⊆ siblingStrings opts fs ∧
      ((p = [] ∧ (spine opts fs t).head?.toList ++ (spine opts fs t).tail = ns ∧
        ((spine opts fs t).head? = none ∨ ∃ b v, (spine opts fs t).head? = some (.branch b v))) ∨
      ∃ x, (spine opts fs t).head? = some (.extension p x) ∧ (spine opts fs t).tail = ns) := by
    rcases hcase with ⟨rfl, hp, hlast⟩ | rfl
    · refine ⟨spine opts fs t, spine_frameNodes fs t, subset_rfl, .inl ⟨hp, ?_, ?_⟩⟩
      · cases spine opts fs t <;> rfl
      · rcases spine_head_branch opts hlast t with h | ⟨b, v, ns, h⟩
        · exact .inl (by rw [h]; rfl)
        · exact .inr ⟨b, v, by rw [h]; rfl⟩
    · refine ⟨spine opts gs (.ext p t), spine_frameNodes gs _, ?_, .inr ⟨treeRef opts t, ?_, ?_⟩⟩
      · rw [siblingStrings_append]
        exact Set.subset_union_left
      · rw [spine_append]
        rfl
      · rw [spine_append]
        rfl
  have hpaths : ∀ hs, hs <+: gs → pathOf hs <+: pathOf gs ++ p := by
    rintro hs ⟨rest, rfl⟩
    rw [pathOf_append, List.append_assoc]
    exact List.prefix_append _ _
  obtain ⟨q, ms, hcollapse, hms⟩ := collapse_eq (pathOf gs) i hu hparent
  rw [hpath, hcollapse]
  rcases hms with ⟨c, w, rfl, rfl, x, rfl⟩ | ⟨hbranch, rfl, rfl⟩
  · have hkey : pathOf gs ++ (p ++ [i]) =
        pathOf (gs ++ [.ext (p ++ [i])]) ++ topPath (.branch c w) := by
      simp [Frame.path, topPath]
    refine ⟨gs ++ [.ext (p ++ [i])], .branch c w, .extension (p ++ [i]) x :: ns, ?_, ?_, ?_, hu,
      rfl, ?_, fun hs hpre => ?_, fun _ _ _ => rfl⟩
    · rw [hkey]
    · rw [List.reverse_append]
      exact .cons (.ext _ x) hnodes
    · rw [hgraft, hextend, plug_append]
      exact congrArg (plug gs) (if_neg (by simp)).symm
    · rw [siblingStrings_append]
      exact Set.union_subset hsib (Set.empty_subset _)
    · rcases List.prefix_concat_iff.1 hpre with rfl | hpre
      · exact .inr ⟨rfl, c, w, rfl⟩
      · exact .inl (hpaths hs hpre)
  · refine ⟨gs, extend (p ++ [i]) u, ns, rfl, hnodes, ?_, ?_, ?_, hsib,
      fun hs hpre => .inl (hpaths hs hpre), fun c w h => absurd h (hbranch c w)⟩
    · rw [hgraft, hextend]
    · cases u with
      | nil => exact absurd rfl hu
      | leaf r w => simp [extend]
      | ext r c => simp [extend]
      | branch c w => exact absurd rfl (hbranch c w)
    · cases u with
      | nil => exact absurd rfl hu
      | leaf r w => rfl
      | ext r c => rfl
      | branch c w => exact absurd rfl (hbranch c w)

/-- A branch is put at the end of a path without merging. -/
private theorem graft_branch {P : Finset (Option Nibble) → Prop} (fs : List (Frame Nibble Value))
    {t : Tree}
    (h : Packed P (plug fs t)) (c : Nibble → Tree) (w : Option Value) :
    graft fs (.branch c w) = plug fs (.branch c w) := by
  obtain ⟨gs, p, hgraft, -, ⟨rfl, rfl, -⟩ | rfl⟩ := exists_graft fs
  · rw [hgraft, extend_nil]
  · rw [plug_append] at h
    have hp : p ≠ [] := (Packed.of_plug gs h (by simp [Frame.fill])).of_ext.1
    rw [hgraft, plug_append]
    exact congrArg (plug gs) (if_neg hp)

/-! ### The deletion -/

/-- The strings below a branch which stay where they are when the branch is settled. -/
def settleStrings (opts : MPTOpts) (c : Nibble → Tree) : Set Bytes :=
  match childSlots c with
  | [i] =>
    match c i with
    | .branch _ _ => strings opts (c i)
    | u => childStrings opts u
  | _ => ⋃ i, strings opts (c i)

/-- The node which a settled branch gives way to, unless that is a branch: it is written anew with
a longer path. -/
def settleDropped (opts : MPTOpts) (c : Nibble → Tree) : Set Bytes :=
  match childSlots c with
  | [i] =>
    match c i with
    | .branch _ _ => ∅
    | u => {(treeNode opts u).serialize}
  | _ => ∅

theorem settleDropped_one (opts : MPTOpts) {c : Nibble → Tree} {i : Nibble}
    (hi : childSlots c = [i]) :
    settleDropped opts c = match c i with
      | .branch _ _ => ∅
      | u => {(treeNode opts u).serialize} := by
  rw [settleDropped, hi]

theorem settleStrings_one (opts : MPTOpts) {c : Nibble → Tree} {i : Nibble}
    (hi : childSlots c = [i]) :
    childStrings opts (c i) ⊆ settleStrings opts c ∧ ∀ b w, c i = .branch b w →
      strings opts (c i) ⊆ settleStrings opts c := by
  have hsettle : settleStrings opts c = match c i with
      | .branch _ _ => strings opts (c i)
      | u => childStrings opts u := by
    rw [settleStrings, hi]
  rw [hsettle]
  cases hci : c i with
  | branch b w => exact ⟨Set.subset_union_right, fun _ _ _ => subset_rfl⟩
  | nil => exact ⟨subset_rfl, fun _ _ h => by cases h⟩
  | leaf p v => exact ⟨subset_rfl, fun _ _ h => by cases h⟩
  | ext p x => exact ⟨subset_rfl, fun _ _ h => by cases h⟩

/-- What stands beside the steps of a context stays when paths are merged. -/
private theorem siblingStrings_subset_graft (fs : List (Frame Nibble Value)) (t : Tree) :
    siblingStrings opts fs ⊆ strings opts (graft fs t) := by
  obtain ⟨gs, p, hgraft, -, hcase⟩ := exists_graft fs
  rw [hgraft]
  rcases hcase with ⟨rfl, -⟩ | rfl
  · exact siblingStrings_subset opts fs _
  · rw [siblingStrings_append]
    exact Set.union_subset (siblingStrings_subset opts gs _) (Set.empty_subset _)

private theorem childStrings_subset_strings (t : Tree) : childStrings opts t ⊆ strings opts t := by
  by_cases hnil : t = .nil
  · rw [hnil]
    exact subset_rfl
  · rw [strings_eq hnil]
    exact Set.subset_union_right

/-- What is below a settled branch stays. -/
private theorem settleStrings_subset_graft (fs : List (Frame Nibble Value)) (c : Nibble → Tree)
    (w : Option Value) : settleStrings opts c ⊆ strings opts (graft fs (settle c w)) := by
  obtain ⟨gs, p, hgraft, -, -⟩ := exists_graft fs
  rw [hgraft]
  refine Set.Subset.trans ?_ (strings_subset_plug opts gs _)
  rw [settleStrings, settle]
  split
  · rename_i i hi
    rw [extend_extend]
    split
    · rename_i b x hb
      rw [hb]
      exact strings_branch_subset_extend _ b x
    · exact (childStrings_subset_extend _ _).trans (childStrings_subset_strings _)
  · exact Set.Subset.trans Set.subset_union_right (strings_branch_subset_extend p c w)

private theorem settleStrings_subset (c : Nibble → Tree) :
    settleStrings opts c ⊆ ⋃ i, strings opts (c i) := by
  rw [settleStrings]
  split
  · rename_i i _
    refine Set.Subset.trans ?_ (Set.subset_iUnion (fun i => strings opts (c i)) i)
    split
    · exact subset_rfl
    · exact childStrings_subset_strings _
  · exact subset_rfl

/-- The key under which a node is stored, or would be. -/
private theorem childDbKey_treeRef {u : Tree} (hu : u ≠ .nil) :
    childDbKey opts (treeRef opts u) = opts.getDbKey (opts.hash (treeNode opts u).serialize) := by
  rw [treeRef_of_ne_nil hu, nodeRef]
  split
  · rfl
  · rfl

section Delete

variable {S : Set Bytes} (hlen : ∀ v, (opts.hash v).length = 32) (hS : Set.InjOn opts.hash S)
  (hempty : RLP_EMPTY_STRING ∈ S)

include hlen hS in
/-- **Saving a branch** below the steps `fs`, its children being children of the trie. -/
private theorem run_saveBranch {s : MerklePatriciaTrie} {t t₀ : Tree}
    {fs : List (Frame Nibble Value)} (hplug : plug fs t₀ = t) (h : Roots opts S s t)
    (hc : Complete opts s.db t) (c : Nibble → Tree) (w : Option Value)
    (hchild : ∀ i, strings opts (c i) ⊆ strings opts t) (hcshort : ∀ i, (c i).Short (2 ^ 60))
    (hgraft : graft fs (.branch c w) = plug fs (.branch c w)) (dels : List Bytes)
    (hdels : ∀ e ∈ dels, opts.useNodePruning = true) {k : Nibbles} (hk : pathOf fs <+: k) (m : ℕ) :
    ∃ s', (saveBranch opts (pathOf fs) (fun i => treeRef opts (c i)) (valueBytes w)
        (spine opts fs t₀).head? (spine opts fs t₀).tail
        (delOps opts.hash opts.keyPrefix dels)).run s = (.ok (), s') ∧
      ∃ s₁, s.Reads s₁ ∧ Wrote opts k m (siblingStrings opts fs ∪ settleStrings opts c)
        ({e | e ∈ dels} ∪ settleDropped opts c) (settleDropped opts c)
        (graft fs (settle c w)) s₁ s' := by
  have hkept : siblingStrings opts fs ∪ settleStrings opts c ⊆
      strings opts (graft fs (settle c w)) :=
    Set.union_subset (siblingStrings_subset_graft fs _) (settleStrings_subset_graft fs c w)
  have hpaths : ∀ gs, gs <+: fs → pathOf gs <+: k := by
    rintro gs ⟨rest, rfl⟩
    rw [pathOf_append] at hk
    exact (List.prefix_append _ _).trans hk
  have hkids := getChildren_treeRef hlen c
  rw [settle] at hkept ⊢
  rw [saveBranch]
  by_cases hone : ∃ i, childSlots c = [i]
  · obtain ⟨i, hi⟩ := hone
    have hne : c i ≠ .nil := mem_childSlots.1 (by rw [hi]; exact List.mem_cons_self)
    simp only [hi] at hkept ⊢
    simp only [hkids, hi, List.map_cons, List.map_nil]
    have hstored : Stored opts s.db (c i) := fun e he => hc.stored e (hchild i he)
    have hresolves : Resolves opts s.db (treeRef opts (c i)) (treeNode opts (c i)) :=
      (h.stores.resolves_or hlen hS hne ((hchild i).trans h.committed.strings)
        (hcshort i)).resolve_right fun hd => hd.2 (hstored.nodeHeld hne)
    obtain ⟨s₁, hr, hlook⟩ := run_lookupNode_of_resolves hresolves
    obtain ⟨gs, u, ns, hcollapse, hns, hu, hune, hustr, hgs, hpath, hubranch⟩ :=
      collapse_spec opts fs t₀ hne i
    obtain ⟨hsettle, hsettleb⟩ := settleStrings_one opts hi
    -- the child is deleted where nodes are pruned, and written again if it is a branch
    obtain ⟨ds, hds, hdsE, hops⟩ : ∃ ds, (∀ e ∈ ds, opts.useNodePruning = true ∧
        e = (treeNode opts (c i)).serialize) ∧
        (opts.useNodePruning = true → (treeNode opts (c i)).serialize ∈ ds) ∧
        (if opts.useNodePruning then delOps opts.hash opts.keyPrefix dels ++
          [.del (childDbKey opts (treeRef opts (c i)))]
          else delOps opts.hash opts.keyPrefix dels) =
            delOps opts.hash opts.keyPrefix (dels ++ ds) := by
      by_cases hprune : opts.useNodePruning = true
      · refine ⟨[(treeNode opts (c i)).serialize], fun e he => ⟨hprune, List.mem_singleton.1 he⟩,
          fun _ => List.mem_cons_self, ?_⟩
        rw [if_pos hprune, childDbKey_treeRef hne, delOps, delOps, List.map_append]
        rfl
      · refine ⟨[], fun e he => (List.not_mem_nil he).elim, fun h => absurd h hprune, ?_⟩
        rw [if_neg hprune, List.append_nil]
    have hdropped := settleDropped_one opts hi
    have hchildStays : ∀ b x, c i = .branch b x → ∀ e ∈ longString (treeNode opts (c i)),
        e ∈ siblingStrings opts fs ∪ settleStrings opts c := fun b x hb e he =>
      .inr (hsettleb b x hb (longString_subset opts hne he))
    have hsaved : ∃ s', (saveStack opts (pathOf gs ++ topPath u) (treeNode opts u :: ns)
        (delOps opts.hash opts.keyPrefix (dels ++ ds) ++ putOps opts.hash opts.keyPrefix [])).run
          s₁ = (.ok (), s') ∧ Wrote opts k m (siblingStrings opts fs ∪ settleStrings opts c)
        ({e | e ∈ dels} ∪ settleDropped opts c) (settleDropped opts c) (plug gs u) s₁ s' := by
      refine run_saveStack hlen (dels ++ ds) [] hns hune (fun hs hpre => ?_)
        (fun e he => (List.not_mem_nil he).elim) ?_ (by rwa [hu]) (fun e he => ?_)
        (fun hprune e he => List.mem_append_right _ ?_) s₁
      · rcases hpath hs hpre with hpre | ⟨rfl, b, x, hb⟩
        · exact .inl (hpre.trans hk)
        · rw [hubranch b x hb]
          exact .inr ⟨rfl, hchildStays b x hb⟩
      · rw [hustr]
        exact Set.Subset.trans (Set.union_subset (hsettle.trans Set.subset_union_right)
          (hgs.trans Set.subset_union_left)) Set.subset_union_left
      · rcases List.mem_append.1 he with he | he
        · exact ⟨hdels e he, .inl (.inl he)⟩
        · obtain ⟨hprune, rfl⟩ := hds e he
          refine ⟨hprune, ?_⟩
          by_cases hb : ∃ b x, c i = .branch b x
          · obtain ⟨b, x, hb⟩ := hb
            rw [hubranch b x hb]
            exact .inr rfl
          · refine .inl (.inr ?_)
            rw [hdropped]
            cases hci : c i with
            | nil => exact absurd hci hne
            | leaf p v => exact rfl
            | ext p x => exact rfl
            | branch b x => exact absurd ⟨b, x, hci⟩ hb
      · rw [hdropped] at he
        split at he
        · cases he
        · rw [he]
          exact hdsE hprune
    rw [← hu]
    obtain ⟨s', hrun, hwrote⟩ := hsaved
    refine ⟨s', ?_, s₁, hr, hwrote⟩
    rw [Prog.run_bind_of_ok hlook, hcollapse, hops]
    rw [show putOps opts.hash opts.keyPrefix [] = [] from rfl, List.append_nil] at hrun
    exact hrun
  · have hmany : (match childSlots c with
        | [i] => extend [i] (c i)
        | _ => .branch c w : Tree) = .branch c w := by
      split
      · rename_i i hi
        exact absurd ⟨i, hi⟩ hone
      · rfl
    have hstays : settleStrings opts c = ⋃ i, strings opts (c i) := by
      rw [settleStrings]
      split
      · rename_i i hi
        exact absurd ⟨i, hi⟩ hone
      · rfl
    have hnone : settleDropped opts c = ∅ := by
      rw [settleDropped]
      split
      · rename_i i hi
        exact absurd ⟨i, hi⟩ hone
      · rfl
    have hspine : (spine opts fs t₀).head?.toList ++ (spine opts fs t₀).tail =
      spine opts fs t₀ := by
      cases spine opts fs t₀ <;> rfl
    have hpath : pathOf fs = pathOf fs ++ topPath (.branch c w) := (List.append_nil _).symm
    rw [hmany, hgraft]
    obtain ⟨s', hrun, hwrote⟩ : ∃ s', (saveStack opts (pathOf fs ++ topPath (.branch c w))
        (treeNode opts (.branch c w) :: spine opts fs t₀)
        (delOps opts.hash opts.keyPrefix dels ++ putOps opts.hash opts.keyPrefix [])).run
          s = (.ok (), s') ∧ Wrote opts k m (siblingStrings opts fs ∪ settleStrings opts c)
        ({e | e ∈ dels} ∪ settleDropped opts c) (settleDropped opts c)
        (plug fs (.branch c w)) s s' := by
      refine run_saveStack hlen dels [] (spine_frameNodes fs t₀) (by simp)
        (fun hs hpre => .inl (hpaths hs hpre)) (fun e he => (List.not_mem_nil he).elim) ?_
        (by rwa [hmany, hgraft] at hkept) (fun e he => ⟨hdels e he, .inl (.inl he)⟩)
        (fun _ e he => absurd he (by rw [hnone]; exact Set.notMem_empty e)) s
      rw [hstays]
      refine Set.Subset.trans (Set.union_subset ?_ Set.subset_union_left) Set.subset_union_left
      exact Set.subset_union_right
    refine ⟨s', ?_, s, .refl s, hwrote⟩
    rw [← hpath, show putOps opts.hash opts.keyPrefix [] = [] from rfl, List.append_nil] at hrun
    split
    · rename_i i x hx
      rw [hkids] at hx
      refine absurd ?_ hone
      obtain ⟨j, hj⟩ := List.map_eq_singleton_iff.1 hx
      exact ⟨j, hj.1⟩
    · rw [hspine]
      exact hrun

omit hlen hS hempty in
/-- Reads leave the trie as it is. -/
private theorem Saved.of_reads_self {s s' : MerklePatriciaTrie} (t : Tree) (hr : s.Reads s') :
    Saved opts S s t t s' where
  contents := hr.db.contents.symm.subset
  roots _ h := h.reads hr
  complete _ _ hc := hc.reads hr.db

/-- What of the trie stays where it is when a key is deleted. -/
def keptStrings (opts : MPTOpts) (t : Tree) (k : Nibbles) : Set Bytes :=
  let d := t.find k
  match d.focus, d.frames.reverse with
  | .leaf _ _, .branch c _ s :: gs =>
    siblingStrings opts gs.reverse ∪ settleStrings opts (Function.update c s .nil)
  | .branch c _, _ => siblingStrings opts d.frames ∪ settleStrings opts c
  | _, _ => ∅

/-- What is dropped beside the path of a key when it is deleted. -/
def droppedStrings (opts : MPTOpts) (t : Tree) (k : Nibbles) : Set Bytes :=
  let d := t.find k
  match d.focus, d.frames.reverse with
  | .leaf _ _, .branch c _ s :: _ => settleDropped opts (Function.update c s .nil)
  | .branch c _, _ => settleDropped opts c
  | _, _ => ∅

/-- The children of a branch of the trie whose slot was emptied. -/
private theorem strings_update_nil_subset {gs : List (Frame Nibble Value)} {c : Nibble → Tree}
    {w : Option Value} {i : Nibble} {u : Tree} (j : Nibble) :
    strings opts (Function.update c i .nil j) ⊆
      strings opts (plug gs (.branch (Function.update c i u) w)) := by
  refine Set.Subset.trans ?_ (strings_subset_plug opts gs _)
  rw [Function.update_apply]
  split
  · exact Set.empty_subset _
  · rename_i hj
    refine Set.Subset.trans ?_ Set.subset_union_right
    have hsub := Set.subset_iUnion (fun j => strings opts (Function.update c i u j)) j
    rwa [Function.update_of_ne hj] at hsub

theorem keptStrings_subset {t : Tree} {k : Nibbles} : keptStrings opts t k ⊆ strings opts t := by
  have hplug := plug_find t k
  have hsib := siblingStrings_subset opts (t.find k).frames (t.find k).focus
  have hsub := strings_subset_plug opts (t.find k).frames (t.find k).focus
  rw [keptStrings]
  generalize t.find k = d at *
  obtain ⟨fs, focus, rest⟩ := d
  simp only at *
  rw [hplug] at hsib hsub
  cases focus with
  | nil => exact Set.empty_subset _
  | ext p c => exact Set.empty_subset _
  | branch c w =>
    exact Set.union_subset hsib ((settleStrings_subset c).trans
      (Set.subset_union_right.trans hsub))
  | leaf p v =>
    rcases hrev : fs.reverse with _ | ⟨_ | ⟨c, w, i⟩, gs⟩
    · exact Set.empty_subset _
    · exact Set.empty_subset _
    · obtain rfl : fs = gs.reverse ++ [.branch c w i] := by
        rw [← List.reverse_reverse fs, hrev, List.reverse_cons]
      rw [plug_append] at hplug
      rw [siblingStrings_append] at hsib
      refine Set.union_subset (Set.subset_union_left.trans hsib) ?_
      refine (settleStrings_subset _).trans (Set.iUnion_subset fun j => ?_)
      rw [← hplug]
      exact strings_update_nil_subset j

/-- The slots of a branch without the one at the end of a path. -/
def clearSlot (branches : Nibble → Input) : Option Nibble → Nibble → Input
  | some branchIndex => Function.update branches branchIndex (.bytes [])
  | none => branches

include hlen hS in
/-- The deletion of a leaf below a branch. -/
private theorem run_deleteNode_leaf {s : MerklePatriciaTrie} {t : Tree} {key : Bytes}
    {gs : List (Frame Nibble Value)} {c : Nibble → Tree} {w : Option Value} {i : Nibble}
    {p : Nibbles} {v : Value} {P : Finset (Option Nibble) → Prop} (hp : Packed P t)
    (hplug : plug (gs ++ [.branch c w i]) (.leaf p v) = t)
    (hkey : pathOf (gs ++ [.branch c w i]) ++ p = bytesToNibbles key) (h : Roots opts S s t)
    (hc : Complete opts s.db t) (m : ℕ) :
    ∃ s', (deleteNode opts key (treeNode opts (.leaf p v) ::
        spine opts (gs ++ [.branch c w i]) (.leaf p v))).run s = (.ok (), s') ∧
      ∃ s₁, s.Reads s₁ ∧ Wrote opts (bytesToNibbles key) m
        (siblingStrings opts gs ∪ settleStrings opts (Function.update c i .nil))
        ({e | e ∈ removed opts (treeNode opts (.leaf p v))} ∪
          settleDropped opts (Function.update c i .nil))
        (settleDropped opts (Function.update c i .nil))
        (graft gs (settle (Function.update c i .nil) w)) s₁ s' := by
  rw [plug_append] at hplug
  have hplug' : plug gs (.branch (Function.update c i (.leaf p v)) w) = t := hplug
  have hpath : spliceLast (bytesToNibbles key) p.length = pathOf gs ++ [i] := by
    rw [← hkey, spliceLast_append, pathOf_append]
    rfl
  -- the slot of the leaf is emptied in the branch above it
  have hslots : Function.update (fun j => treeRef opts (Function.update c i (.leaf p v) j)) i
      (.bytes []) = fun j => treeRef opts (Function.update c i .nil j) := by
    funext j
    rw [Function.update_apply, Function.update_apply, Function.update_apply]
    split <;> rfl
  have hbranch : ∀ j, strings opts (Function.update c i .nil j) ⊆ strings opts t := by
    rw [← hplug']
    exact fun j => strings_update_nil_subset j
  have hshortc : ∀ j, (Function.update c i PathTrie.nil j : Tree).Short (2 ^ 60) := by
    intro j
    have hb : (PathTrie.branch (Function.update c i (.leaf p v)) w : Tree).Short (2 ^ 60) :=
      Short.of_plug gs (by rw [hplug']; exact h.committed.short)
    have hj := hb j
    rw [Function.update_apply] at hj ⊢
    split
    · trivial
    · rename_i hji
      rwa [if_neg hji] at hj
  have hgraft := graft_branch (P := P) gs (by rw [hplug']; exact hp)
    (Function.update c i .nil) w
  have hpre : pathOf gs <+: bytesToNibbles key := by
    rw [← hkey, pathOf_append, List.append_assoc]
    exact List.prefix_append _ _
  -- what is left of the branch may collapse
  obtain ⟨s', hrun, hwrote⟩ := run_saveBranch hlen hS hplug' h hc
    (Function.update c i .nil) w hbranch hshortc hgraft (removed opts (treeNode opts (.leaf p v)))
    (fun e he => (mem_removed he).1) hpre m
  refine ⟨s', ?_, hwrote⟩
  have hdel : deleteNode opts key (treeNode opts (.leaf p v) ::
      spine opts (gs ++ [.branch c w i]) (.leaf p v)) =
      saveBranch opts (pathOf gs) (fun j => treeRef opts (Function.update c i .nil j))
        (valueBytes w) (spine opts gs (.branch (Function.update c i (.leaf p v)) w)).head?
        (spine opts gs (.branch (Function.update c i (.leaf p v)) w)).tail
        (delOps opts.hash opts.keyPrefix (removed opts (treeNode opts (.leaf p v)))) := by
    rw [spine_append]
    change saveBranch opts (spliceLast (bytesToNibbles key) p.length).dropLast
      (clearSlot (fun j => treeRef opts (Function.update c i (.leaf p v) j))
        (spliceLast (bytesToNibbles key) p.length).getLast?)
      (valueBytes w) _ _ (formatNode opts (treeNode opts (.leaf p v)) false true).2 = _
    rw [hpath, formatNode_remove, List.getLast?_concat, List.dropLast_concat, clearSlot]
    simp only [hslots]
    rfl
  rw [hdel]
  exact hrun

/-- A leaf of a packed trie hangs below a branch, if below anything. -/
theorem last_frame_branch {P : Finset (Option Nibble) → Prop}
    {gs : List (Frame Nibble Value)} {f : Frame Nibble Value} {p : Nibbles} {v : Value}
    (hp : Packed P (plug (gs ++ [f]) (.leaf p v))) : ∃ c w i, f = .branch c w i := by
  cases f with
  | branch c w i => exact ⟨c, w, i, rfl⟩
  | ext q =>
    rw [plug_append] at hp
    obtain ⟨-, -, c, w, h⟩ := (Packed.of_plug gs hp (by simp [Frame.fill])).of_ext
    cases h

include hlen hS in
/-- **The deletion at the end of a path**: the last entry is deleted by setting the root, any other
one by writing the trie without it. -/
theorem run_deleteNode {s : MerklePatriciaTrie} {t : Tree} {key : Bytes}
    {P : Finset (Option Nibble) → Prop} (hp : Packed P t) (h : Roots opts S s t)
    (hc : Complete opts s.db t)
    (hfound : (foundPath opts t (bytesToNibbles key) []).node.isSome) (m : ℕ) :
    ∃ s', (deleteNode opts key (foundPath opts t (bytesToNibbles key) []).stack).run s =
        (.ok (), s') ∧
      (erase t (bytesToNibbles key) = .nil ∧ (t.find (bytesToNibbles key)).frames = [] ∧
          s' = { s with root := opts.EMPTY_TRIE_ROOT } ∨
        ∃ s₁, s.Reads s₁ ∧ Wrote opts (bytesToNibbles key) m
          (keptStrings opts t (bytesToNibbles key))
          (pathStrings opts t (bytesToNibbles key) ∪ droppedStrings opts t (bytesToNibbles key))
          (droppedStrings opts t (bytesToNibbles key))
          (erase t (bytesToNibbles key)) s₁ s') := by
  have hstuck := stuck_find t (bytesToNibbles key)
  have hplug := plug_find t (bytesToNibbles key)
  have hpath := pathOf_find t (bytesToNibbles key)
  have hpacked := hp.find (bytesToNibbles key)
  rw [erase, keptStrings, droppedStrings, pathStrings]
  simp only [foundPath, List.append_nil] at hfound ⊢
  generalize t.find (bytesToNibbles key) = d at *
  obtain ⟨fs, focus, rest⟩ := d
  simp only at *
  -- Where the walk ended; only a leaf or the value of a branch can have been found.
  cases hstuck with
  | nil k => cases hpacked
  | ext c hpre => cases hfound
  | slot w k hs => cases hfound
  | leaf p v =>
    by_cases hrest : rest = p
    · subst hrest
      -- a leaf that is the whole trie leaves the empty root
      rcases List.eq_nil_or_concat fs with rfl | ⟨gs, f, rfl⟩
      · simp only [List.reverse_nil, if_true]
        exact ⟨_, run_setRoot hlen (hlen _) s, .inl ⟨trivial, trivial, rfl⟩⟩
      · rw [List.concat_eq_append] at hplug hpath ⊢
        -- above any other leaf stands a branch, since the trie is packed
        obtain ⟨c, w, i, rfl⟩ := last_frame_branch (by rw [hplug]; exact hp)
        simp only [List.reverse_append, List.reverse_cons, List.reverse_nil, List.nil_append,
          List.singleton_append, if_true, List.reverse_reverse]
        obtain ⟨s', hrun, s₁, hr, hwrote⟩ := run_deleteNode_leaf hlen hS hp hplug hpath h hc m
        refine ⟨s', hrun, .inr ⟨s₁, hr, hwrote.mono ?_⟩⟩
        refine Set.union_subset_union_left _ fun e he => ?_
        exact ⟨_, List.mem_cons_self, (mem_removed he).2⟩
    · simp [foundNode, hrest] at hfound
  | done c w =>
    rcases List.eq_nil_or_concat fs with rfl | ⟨gs, f, rfl⟩
    · simp only [List.reverse_nil, if_true]
      exact ⟨_, run_setRoot hlen (hlen _) s, .inl ⟨trivial, trivial, rfl⟩⟩
    · rw [List.concat_eq_append] at hplug hpath ⊢
      simp only [List.reverse_append, List.reverse_cons, List.reverse_nil, List.nil_append,
        List.singleton_append, if_true]
      -- the branch keeps its children, so they are in the database already
      have hchild : ∀ i, strings opts (c i) ⊆ strings opts t := fun i => by
        have hsub := strings_subset_plug opts (gs ++ [f]) (.branch c w)
        rw [hplug] at hsub
        exact ((Set.subset_iUnion (fun i => strings opts (c i)) i).trans
          Set.subset_union_right).trans hsub
      have hcshort : (PathTrie.branch c w : Tree).Short (2 ^ 60) :=
        Short.of_plug (gs ++ [f]) (by rw [hplug]; exact h.committed.short)
      have hkey : pathOf (gs ++ [f]) = bytesToNibbles key := by rw [← hpath, List.append_nil]
      obtain ⟨s', hrun, s₁, hr, hwrote⟩ := run_saveBranch hlen hS hplug h hc c w hchild
        hcshort (graft_branch _ (by rw [hplug]; exact hp) c w) [] (fun e he => by cases he)
        (k := bytesToNibbles key) (by rw [hkey]) m
      refine ⟨s', ?_, .inr ⟨s₁, hr, hwrote.mono ?_⟩⟩
      · have hne : spine opts (gs ++ [f]) (.branch c w) =
            treeNode opts (plug [f] (.branch c w)) :: spine opts gs (plug [f] (.branch c w)) := by
          rw [spine_append]
          rfl
        rw [hne, hkey] at hrun
        rw [hne]
        exact hrun
      · exact Set.union_subset_union_left _ fun e he => (List.not_mem_nil he).elim

/-- Where nothing is found, nothing is erased. -/
theorem erase_of_not_found {t : Tree} {k : Nibbles}
    (h : (foundPath opts t k []).node = none) : erase t k = t := by
  have hstuck := stuck_find t k
  rw [erase]
  simp only [foundPath] at h
  generalize t.find k = d at *
  obtain ⟨fs, focus, rest⟩ := d
  simp only at *
  cases hstuck with
  | nil k => rfl
  | ext c hpre => rfl
  | done c w => cases h
  | leaf p v =>
    have hrest : ¬ rest = p := fun hrest => by simp [foundNode, hrest] at h
    rcases fs.reverse with _ | ⟨_ | ⟨c, w, i⟩, gs⟩
    · exact if_neg hrest
    · rfl
    · exact if_neg hrest
  | slot w k hs =>
    rcases fs.reverse with _ | ⟨f, gs⟩
    · exact if_neg (by simp)
    · exact if_neg (by simp)

omit hlen hempty hS in
/-- The empty trie is what is left where the last entry goes. -/
private theorem saved_nil {s : MerklePatriciaTrie} (t : Tree) :
    Saved opts S s t .nil { s with root := opts.EMPTY_TRIE_ROOT } where
  contents := subset_rfl
  roots _ h := ⟨h.stores, rfl, Set.empty_subset S, fun hne => absurd rfl hne, trivial⟩
  complete _ _ hc :=
    ⟨fun e he => absurd he (Set.notMem_empty e), fun hne => absurd rfl hne, hc.empty⟩

include hlen hS hempty in
/-- **A deletion erases its key.** -/
theorem run_del (hprune : opts.useNodePruning = false) {s : MerklePatriciaTrie} {t : Tree}
    {P : Finset (Option Nibble) → Prop} (hp : t = .nil ∨ Packed P t) (h : Roots opts S s t)
    (hc : Complete opts s.db t) (key : Bytes)
    (hshort : (erase t (bytesToNibbles (opts.appliedKey key))).Short (2 ^ 60)) :
    ∃ s', (del opts key).run s = (.ok (), s') ∧
      Saved opts S s t (erase t (bytesToNibbles (opts.appliedKey key))) s' := by
  rcases hp with rfl | hp
  · obtain ⟨s', hr, hrun⟩ := run_findPath_nil h.root hc (opts.appliedKey key)
    refine ⟨s', ?_, Saved.of_reads_self _ hr⟩
    rw [MerklePatriciaTrie.del, Prog.run_bind_of_ok hrun]
    simp [hprune]
  · obtain ⟨s₁, hr, hfind | ⟨hno, -⟩⟩ := run_findPath hlen hS h hp (opts.appliedKey key) false
    · rw [MerklePatriciaTrie.del, Prog.run_bind_of_ok hfind]
      rcases hnode : (foundPath opts t (bytesToNibbles (opts.appliedKey key)) []).node with _ | n
      · rw [erase_of_not_found hnode]
        refine ⟨s₁, ?_, Saved.of_reads_self _ hr⟩
        simp [hprune]
      · have hfound : (foundPath opts t (bytesToNibbles (opts.appliedKey key)) []).node.isSome := by
          rw [hnode]; rfl
        obtain ⟨s', hrun, hdone⟩ := run_deleteNode hlen hS hp (h.reads hr)
          (hc.reads hr.db) hfound 0
        refine ⟨s', ?_, ?_⟩
        · simp only [hprune]
          rw [Prog.run_bind_of_ok hrun]
          rfl
        · rcases hdone with ⟨hnil, -, rfl⟩ | ⟨s₂, hr₂, hwrote⟩
          · rw [hnil]
            exact (saved_nil t).of_reads hr
          · exact (Saved.of_reads hr₂ (hwrote.saved hlen hS hempty hprune keptStrings_subset
              hshort)).of_reads hr
    · exact absurd hc hno

end Delete

end Tvmjs
