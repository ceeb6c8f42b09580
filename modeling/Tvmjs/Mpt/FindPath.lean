import Tvmjs.Mpt.Stored

/-!
# The walk along a key

`findPath` is `PathTrie.find` on the trie the root stands for.

* `run_findPath` -- on a database which holds only parts of the trie a walk that throws on missing
  nodes either finds the path or throws; if the database holds all of it the path is found;
* `run_get` -- `get` is the lookup of the trie.
-/

namespace Tvmjs

open RLP (Input)

open PathTrie MerklePatriciaTrie

variable {opts : MPTOpts}

/-- The nodes of the steps down to `t`, the last one first. -/
def spine (opts : MPTOpts) : List (Frame Nibble Value) → Tree → List MPTNode
  | [], _ => []
  | f :: fs, t => spine opts fs t ++ [treeNode opts (plug (f :: fs) t)]

/-- The node a walk returns where it ends at `focus` with `rest` of the key left. -/
def foundNode (opts : MPTOpts) : Tree → Nibbles → Option MPTNode
  | .leaf p v, rest => if rest = p then some (.leaf p v.1) else none
  | .branch c v, [] => some (treeNode opts (.branch c v))
  | _, _ => none

/-- The result of a walk along `k` from the node of `t`, begun with `stack`. -/
def foundPath (opts : MPTOpts) (t : Tree) (k : Nibbles) (stack : List MPTNode) : Path :=
  let d := t.find k
  { node := foundNode opts d.focus d.rest
    remaining := if (foundNode opts d.focus d.rest).isSome then [] else d.rest
    stack := treeNode opts d.focus :: (spine opts d.frames d.focus ++ stack) }

/-- A walk that goes one step down is the walk from there. -/
private theorem foundPath_under {t t' : Tree} {k k' : Nibbles} {f : Frame Nibble Value}
    (h : t.find k = (t'.find k').under f) (hplug : t = f.fill t') (stack : List MPTNode) :
    foundPath opts t k stack = foundPath opts t' k' (treeNode opts t :: stack) := by
  have hspine : spine opts (f :: (t'.find k').frames) (t'.find k').focus =
      spine opts (t'.find k').frames (t'.find k').focus ++ [treeNode opts t] := by
    rw [spine, plug_cons, plug_find, ← hplug]
  rw [foundPath, foundPath, h]
  simp only [Descent.under, hspine, List.append_assoc, List.singleton_append]
  rfl

/-- What a walk was begun with stays at the end of its stack. -/
private theorem stack_foundPath (t : Tree) (k : Nibbles) (stack : List MPTNode) :
    (foundPath opts t k stack).stack = (foundPath opts t k []).stack ++ stack := by
  simp [foundPath]

/-- A walk meets the node it begins with. -/
theorem treeNode_mem_stack (t : Tree) (k : Nibbles) :
    treeNode opts t ∈ (foundPath opts t k []).stack := by
  have hplug := plug_find t k
  rcases hfs : (t.find k).frames with _ | ⟨f, fs⟩
  · rw [hfs, plug_nil] at hplug
    simp [foundPath, hfs, hplug]
  · rw [hfs] at hplug
    simp [foundPath, hfs, spine, hplug]

/-- A database that holds a trie holds every node of a walk. -/
theorem Stored.along {d : CheckpointDB} {t : Tree} (h : Stored opts d t) (k : Nibbles) :
    ∀ n ∈ (foundPath opts t k []).stack, NodeHeld opts d n := by
  have hone : ∀ {t : Tree} {k : Nibbles}, t.find k = ⟨[], t, k⟩ → t ≠ .nil → Stored opts d t →
      ∀ n ∈ (foundPath opts t k []).stack, NodeHeld opts d n := by
    intro t k hfind ht h n hn
    simp only [foundPath, hfind, spine, List.nil_append, List.mem_singleton] at hn
    exact hn ▸ h.nodeHeld ht
  have hunder : ∀ {t t' : Tree} {k k' : Nibbles} {f : Frame Nibble Value},
      t.find k = (t'.find k').under f → t = f.fill t' → t ≠ .nil → Stored opts d t →
      (∀ n ∈ (foundPath opts t' k' []).stack, NodeHeld opts d n) →
      ∀ n ∈ (foundPath opts t k []).stack, NodeHeld opts d n := by
    intro t t' k k' f hfind hfill ht h ih n hn
    rw [foundPath_under hfind hfill, stack_foundPath, List.mem_append, List.mem_singleton] at hn
    rcases hn with hn | rfl
    · exact ih n hn
    · exact h.nodeHeld ht
  induction t generalizing k with
  | nil =>
    intro n hn hlong
    rw [List.mem_singleton.1 hn] at hlong
    have hshort : ¬ 32 ≤ MPTNode.emptyBranch.serialize.length := by decide
    exact absurd hlong hshort
  | leaf p v => exact hone rfl (by simp) h
  | ext p c ih =>
    by_cases hpre : p <+: k
    · exact hunder (if_pos hpre) rfl (by simp) h (ih (fun e he => h e (.inr he)) _)
    · exact hone (if_neg hpre) (by simp) h
  | branch c v ih =>
    cases k with
    | nil => exact hone rfl (by simp) h
    | cons i k =>
      by_cases hnil : (c i).isNil = true
      · exact hone (if_pos hnil) (by simp) h
      · have hfill : (PathTrie.branch c v : Tree) = (Frame.branch c v i).fill (c i) := by
          rw [Frame.fill, Function.update_eq_self]
        exact hunder (if_neg hnil) hfill (by simp) h
          (ih i (fun e he => h e (.inr (Set.mem_iUnion.2 ⟨i, he⟩))) _)

private theorem slotRef_nodeRef (hlen : ∀ v, (opts.hash v).length = 32) (n : MPTNode) :
    slotRef (nodeRef opts n) = some (nodeRef opts n) := by
  have hne := nodeRef_ne_nil hlen n
  have hraw : n.rawList ≠ [] := by
    cases n <;> simp [MPTNode.rawList]
  rw [nodeRef] at hne ⊢
  split at hne
  · rename_i h
    rw [if_pos h]
    unfold slotRef
    split
    · rename_i heq
      exact absurd heq hne
    · rename_i heq
      cases heq
    · rfl
  · rename_i h
    rw [if_neg h]
    unfold slotRef
    split
    · rename_i heq
      cases heq
    · rename_i heq
      exact absurd (Input.list.inj heq) hraw
    · rfl

/-- A slot of a branch is occupied where the child is not empty. -/
theorem slotRef_treeRef (hlen : ∀ v, (opts.hash v).length = 32) (t : Tree) :
    slotRef (treeRef opts t) = if t.isNil then none else some (treeRef opts t) := by
  by_cases h : t = .nil
  · subst h
    rfl
  · rw [treeRef_of_ne_nil h, slotRef_nodeRef hlen, if_neg]
    rwa [isNil_iff]

/-! ### Looking up in a walk -/

private theorem run_walkLookup_of_resolves {s : MerklePatriciaTrie} {ref : Input} {n : MPTNode}
    (throwIfMissing : Bool) (h : Resolves opts s.db ref n) :
    ∃ s', s.Reads s' ∧ (walkLookup opts throwIfMissing ref).run s = (.ok (some n), s') := by
  obtain ⟨s', hs', hrun⟩ := run_lookupNode_of_resolves h
  refine ⟨s', hs', ?_⟩
  have hmap : (some <$> lookupNode opts ref : TrieM (Option MPTNode)).run s =
    (.ok (some n), s') := by
    rw [map_eq_pure_bind, Prog.run_bind_of_ok hrun, Prog.run_pure]
  rw [walkLookup, Prog.run_tryCatch, hmap]

private theorem run_walkLookup_of_dangling {s : MerklePatriciaTrie} {ref : Input}
    (h : Dangling opts s.db ref) :
    ∃ s', s.Reads s' ∧ (walkLookup opts true ref).run s = (.error .missingNode, s') := by
  obtain ⟨s', hs', hrun⟩ := run_lookupNode_of_dangling h
  refine ⟨s', hs', ?_⟩
  have hmap : (some <$> lookupNode opts ref : TrieM (Option MPTNode)).run s =
      (.error .missingNode, s') := by
    rw [map_eq_pure_bind, Prog.run_bind_of_error hrun]
  rw [walkLookup, Prog.run_tryCatch, hmap]
  rfl

/-! ### The walk -/

section Walk

variable {S : Set Bytes} (hlen : ∀ v, (opts.hash v).length = 32) (hS : Set.InjOn opts.hash S)

/-- What a walk gives: the path, or, unless `P`, a throw where it has to throw. -/
def WalksTo (P : Prop) (s : MerklePatriciaTrie) (throwIfMissing : Bool)
    (walk : TrieM Path) (path : Path) : Prop :=
  ∃ s', s.Reads s' ∧ (walk.run s = (.ok path, s') ∨
    ¬ P ∧ (throwIfMissing = true → walk.run s = (.error .missingNode, s')))

theorem WalksTo.pure {P : Prop} {s : MerklePatriciaTrie} {throwIfMissing : Bool} (path : Path) :
    WalksTo P s throwIfMissing (pure path) path :=
  ⟨s, .refl s, .inl rfl⟩

/-- The first lookup of a walk. -/
theorem WalksTo.lookup {P : Prop} {s : MerklePatriciaTrie} {throwIfMissing : Bool}
    {ref : Input} {n : MPTNode} {f : Option MPTNode → TrieM Path} {path : Path}
    (href : Resolves opts s.db ref n ∨ Dangling opts s.db ref ∧ ¬ P)
    (h : ∀ s', s.Reads s' → WalksTo P s' throwIfMissing (f (some n)) path) :
    WalksTo P s throwIfMissing (walkLookup opts throwIfMissing ref >>= f) path := by
  rcases href with href | ⟨href, hP⟩
  · obtain ⟨s', hs', hrun⟩ := run_walkLookup_of_resolves throwIfMissing href
    obtain ⟨s'', hs'', hout⟩ := h s' hs'
    refine ⟨s'', hs'.trans hs'', ?_⟩
    rwa [Prog.run_bind_of_ok hrun]
  · cases throwIfMissing with
    | false => exact ⟨s, .refl s, .inr ⟨hP, fun h => by cases h⟩⟩
    | true =>
      obtain ⟨s', hs', hrun⟩ := run_walkLookup_of_dangling href
      exact ⟨s', hs', .inr ⟨hP, fun _ => Prog.run_bind_of_error hrun⟩⟩

private theorem WalksTo.of_imp {P Q : Prop} {s : MerklePatriciaTrie} {throwIfMissing : Bool}
    {walk : TrieM Path} {path : Path} (hPQ : P → Q) (h : WalksTo Q s throwIfMissing walk path) :
    WalksTo P s throwIfMissing walk path := by
  obtain ⟨s', hs', h | ⟨hQ, h⟩⟩ := h
  · exact ⟨s', hs', .inl h⟩
  · exact ⟨s', hs', .inr ⟨fun hP => hQ (hPQ hP), h⟩⟩

include hlen hS in
private theorem run_walkFrom (throwIfMissing : Bool) (fuel : ℕ) (rest : Nibbles)
    (stack : List MPTNode)
    {t : Tree} {C : Finset (Option Nibble) → Prop} (hp : Packed C t) (ht : strings opts t ⊆ S)
    (hshort : t.Short (2 ^ 60)) {ref : Input} {s : MerklePatriciaTrie} (hst : StoresIn opts S s.db)
    (hfuel : rest.length < fuel) {P : Prop}
    (hP : P → ∀ n ∈ (foundPath opts t rest []).stack, NodeHeld opts s.db n)
    (href : Resolves opts s.db ref (treeNode opts t) ∨ Dangling opts s.db ref ∧ ¬ P) :
    WalksTo P s throwIfMissing (walkFrom opts throwIfMissing fuel ref rest stack)
      (foundPath opts t rest stack) := by
  -- The walk goes down the trie, so the induction is on the trie; the fuel falls with the path.
  induction hp generalizing fuel ref rest stack s P with
  | leaf p v =>
    obtain ⟨fuel, rfl⟩ : ∃ m, fuel = m + 1 := ⟨fuel - 1, by omega⟩
    rw [walkFrom]
    refine WalksTo.lookup href fun s' _ => ?_
    change WalksTo P s' _ (if rest.length ≤ p.length ∧ p <+: rest then _ else _) _
    -- the code compares by prefix, which for a path of full length is equality
    have hfound : foundPath opts (.leaf p v) rest stack =
        if rest.length ≤ p.length ∧ p <+: rest then ⟨some (.leaf p v.1), [], .leaf p v.1 :: stack⟩
        else ⟨none, rest, .leaf p v.1 :: stack⟩ := by
      by_cases h : rest = p
      · rw [if_pos ⟨h ▸ le_rfl, h ▸ List.prefix_rfl⟩]
        simp only [foundPath, find, foundNode, if_pos h]
        rfl
      · rw [if_neg fun h' => h (h'.2.eq_of_length_le h'.1).symm]
        simp only [foundPath, find, foundNode, if_neg h]
        rfl
    rw [hfound]
    split
    · exact .pure _
    · exact .pure _
  | @ext p c v hne hb ih =>
    obtain ⟨fuel, rfl⟩ : ∃ m, fuel = m + 1 := ⟨fuel - 1, by omega⟩
    rw [walkFrom]
    refine WalksTo.lookup href fun s' hs' => ?_
    change WalksTo P s' _ (if p <+: rest then _ else _) _
    split
    · rename_i hpre
      have hchild : strings opts (.branch c v) ⊆ S := Set.subset_union_right.trans ht
      have hst' := hst.reads hs'.db
      have hlt : (rest.drop p.length).length < fuel := by
        have hpos := List.length_pos_iff.2 hne
        have hle := hpre.length_le
        rw [List.length_drop]
        omega
      have hfind : (PathTrie.ext p (.branch c v) : Tree).find rest =
          ((PathTrie.branch c v : Tree).find (rest.drop p.length)).under (.ext p) := if_pos hpre
      -- what is held below is held by the state in which the walk goes on
      have hheld : P → ∀ n ∈ (foundPath opts (.branch c v) (rest.drop p.length) []).stack,
          NodeHeld opts s'.db n := by
        intro hP' n hn
        refine (hP hP' n ?_).reads hs'.db
        rw [foundPath_under hfind rfl, stack_foundPath]
        exact List.mem_append_left _ hn
      rw [foundPath_under hfind rfl]
      exact ih _ _ _ hchild hshort.2 hst' hlt hheld
        ((hst'.resolves_or hlen hS (by simp) hchild hshort.2).imp_right fun h =>
          ⟨h.1, fun hP' => h.2 (hheld hP' _ (treeNode_mem_stack _ _))⟩)
    · rename_i hpre
      have hfind : (PathTrie.ext p (.branch c v) : Tree).find rest =
          ⟨[], .ext p (.branch c v), rest⟩ := if_neg hpre
      rw [foundPath, hfind]
      exact .pure _
  | @branch c v hc hn ih =>
    obtain ⟨fuel, rfl⟩ : ∃ m, fuel = m + 1 := ⟨fuel - 1, by omega⟩
    rw [walkFrom]
    refine WalksTo.lookup href fun s' hs' => ?_
    cases rest with
    | nil => exact .pure _
    | cons i rest =>
      have hslot := slotRef_treeRef hlen (c i)
      rw [treeNode]
      dsimp only
      rw [hslot]
      -- an empty slot ends the walk at the branch, any other one is followed
      by_cases hi : c i = .nil
      · have hnil : (c i).isNil = true := isNil_iff.2 hi
        have hfind : (PathTrie.branch c v : Tree).find (i :: rest) =
            ⟨[], .branch c v, i :: rest⟩ := if_pos hnil
        rw [if_pos hnil, foundPath, hfind]
        exact .pure _
      · have hnil : ¬ (c i).isNil = true := fun h => hi (isNil_iff.1 h)
        have hchild : strings opts (c i) ⊆ S :=
          (Set.subset_iUnion (fun s => strings opts (c s)) i).trans
            (Set.subset_union_right.trans ht)
        have hst' := hst.reads hs'.db
        have hfind : (PathTrie.branch c v : Tree).find (i :: rest) =
            ((c i).find rest).under (.branch c v i) := if_neg hnil
        have hfill : (PathTrie.branch c v : Tree) = (Frame.branch c v i).fill (c i) := by
          rw [Frame.fill, Function.update_eq_self]
        have hheld : P → ∀ n ∈ (foundPath opts (c i) rest []).stack, NodeHeld opts s'.db n := by
          intro hP' n hn
          refine (hP hP' n ?_).reads hs'.db
          rw [foundPath_under hfind hfill, stack_foundPath]
          exact List.mem_append_left _ hn
        rw [if_neg hnil, foundPath_under hfind hfill]
        exact ih i hi _ _ _ hchild (hshort i) hst' (by simpa using hfuel) hheld
          ((hst'.resolves_or hlen hS hi hchild (hshort i)).imp_right fun h =>
            ⟨h.1, fun hP' => h.2 (hheld hP' _ (treeNode_mem_stack _ _))⟩)

end Walk

/-! ### Paths and lookups of a trie -/

/-- The root of the state is that of `t`, and what the database holds lies in `S`. -/
structure Roots (opts : MPTOpts) (S : Set Bytes) (s : MerklePatriciaTrie) (t : Tree) : Prop where
  stores : StoresIn opts S s.db
  root : s.root = rootHash opts t
  committed : Committed opts S t

/-- The database holds all of `t`, and no node stands at the root of the empty trie. -/
structure Complete (opts : MPTOpts) (d : CheckpointDB) (t : Tree) : Prop where
  stored : Stored opts d t
  top : t ≠ .nil → Holds opts d (treeNode opts t).serialize
  empty : d.view (opts.getDbKey opts.EMPTY_TRIE_ROOT) = none

theorem Roots.reads {S : Set Bytes} {s s' : MerklePatriciaTrie} {t : Tree} (h : Roots opts S s t)
    (hr : s.Reads s') : Roots opts S s' t :=
  ⟨h.stores.reads hr.db, hr.root.trans h.root, h.committed⟩

theorem Complete.reads {d d' : CheckpointDB} {t : Tree} (h : Complete opts d t)
    (hr : d.Reads d') : Complete opts d' t :=
  ⟨h.stored.reads hr, fun hne => (h.top hne).reads hr, (hr.view _).trans h.empty⟩

section Get

variable {S : Set Bytes} (hlen : ∀ v, (opts.hash v).length = 32) (hS : Set.InjOn opts.hash S)
  {s : MerklePatriciaTrie} {t : Tree} {P : Finset (Option Nibble) → Prop}

/-- The database holds the nodes on the path of a key. -/
structure Covers (opts : MPTOpts) (d : CheckpointDB) (t : Tree) (k : Nibbles) : Prop where
  top : Holds opts d (treeNode opts t).serialize
  along : ∀ n ∈ (foundPath opts t k []).stack, NodeHeld opts d n

theorem Complete.covers {d : CheckpointDB} (h : Complete opts d t) (ht : t ≠ .nil) (k : Nibbles) :
    Covers opts d t k := ⟨h.top ht, h.stored.along k⟩

include hlen hS in
/-- **The path of a key** is found where the nodes on it are there. -/
theorem run_findPath_of_covers (h : Roots opts S s t) (hp : Packed P t) (key : Bytes)
    (throwIfMissing : Bool) :
    WalksTo (Covers opts s.db t (bytesToNibbles key)) s throwIfMissing
      (findPath opts key throwIfMissing) (foundPath opts t (bytesToNibbles key) []) := by
  have hwalk := run_walkFrom hlen hS throwIfMissing ((bytesToNibbles key).length + 1)
    (bytesToNibbles key) [] hp h.committed.strings h.committed.short h.stores
    (Nat.lt_succ_self _) (fun hc : Covers opts s.db t (bytesToNibbles key) => hc.along)
    ((h.stores.resolves_root_or hlen hS hp.ne_nil (h.committed.top hp.ne_nil)
      h.committed.short).imp_right fun hd => ⟨hd.1, fun hc => hd.2 hc.top⟩)
  rw [← h.root] at hwalk
  exact hwalk

include hlen hS in
/-- The same on a database that holds all of the trie. -/
theorem run_findPath (h : Roots opts S s t) (hp : Packed P t) (key : Bytes)
    (throwIfMissing : Bool) :
    WalksTo (Complete opts s.db t) s throwIfMissing (findPath opts key throwIfMissing)
      (foundPath opts t (bytesToNibbles key) []) :=
  (run_findPath_of_covers hlen hS h hp key throwIfMissing).of_imp fun hc => hc.covers hp.ne_nil _

/-- In the empty trie nothing is found. -/
theorem run_findPath_nil (h : s.root = opts.EMPTY_TRIE_ROOT) (hc : Complete opts s.db t)
    (key : Bytes) : ∃ s', s.Reads s' ∧
      (findPath opts key false).run s = (.ok ⟨none, [], []⟩, s') := by
  have hd : Dangling opts s.db (.bytes s.root) := ⟨s.root, rfl, h ▸ hc.empty⟩
  obtain ⟨s', hs', hrun⟩ := run_lookupNode_of_dangling hd
  refine ⟨s', hs', ?_⟩
  have hlook : (walkLookup opts false (.bytes s.root)).run s = (.ok none, s') := by
    have hmap : (some <$> lookupNode opts (.bytes s.root) : TrieM (Option MPTNode)).run s =
        (.error .missingNode, s') := by
      rw [map_eq_pure_bind, Prog.run_bind_of_error hrun]
    rw [walkLookup, Prog.run_tryCatch, hmap]
    rfl
  change (walkFrom opts false _ (.bytes s.root) (bytesToNibbles key) []).run s = _
  rw [walkFrom, Prog.run_bind_of_ok hlook]
  rfl

variable (opts) in
/-- The value of a node that was found. -/
theorem foundNode_value {focus : Tree} {rest : Nibbles} (h : Stuck focus rest) :
    (foundNode opts focus rest).bind MPTNode.value = (focus.get rest).map Subtype.val := by
  cases h with
  | nil => rfl
  | leaf p v =>
    by_cases hr : rest = p
    · simp [foundNode, hr, MPTNode.value]
    · simp [foundNode, hr]
  | ext c hpre =>
    rw [get_ext, if_neg hpre]
    rfl
  | done c v =>
    cases v with
    | none => rfl
    | some v =>
      have hv : v.1 ≠ [] := v.2.1
      simp [foundNode, treeNode, MPTNode.value, valueBytes, hv]
  | slot v k hs =>
    rw [get_branch_cons, hs]
    rfl

/-- What `get` makes of the path it found. -/
private theorem run_get_of_findPath {key : Bytes} {throwIfMissing : Bool}
    {s' : MerklePatriciaTrie} (hrun : (findPath opts (opts.appliedKey key) throwIfMissing).run s =
      (.ok (foundPath opts t (bytesToNibbles (opts.appliedKey key)) []), s')) :
    (get opts key throwIfMissing).run s =
      (.ok ((t.get (bytesToNibbles (opts.appliedKey key))).map Subtype.val), s') := by
  rw [MerklePatriciaTrie.get, Prog.run_bind_of_ok hrun, get_find,
    ← foundNode_value opts (stuck_find t _)]
  simp only [foundPath]
  split
  · rename_i node hnode
    simp [hnode]
  · rename_i hnode
    simp [hnode]

include hlen hS in
/-- **A lookup in the trie is one in the map.** -/
theorem run_get (h : Roots opts S s t) (hc : Complete opts s.db t) (hp : t = .nil ∨ Packed P t)
    (key : Bytes) : ∃ s', s.Reads s' ∧ (get opts key false).run s =
      (.ok ((t.get (bytesToNibbles (opts.appliedKey key))).map Subtype.val), s') := by
  rcases hp with rfl | hp
  · obtain ⟨s', hs', hrun⟩ := run_findPath_nil h.root hc (opts.appliedKey key)
    refine ⟨s', hs', ?_⟩
    rw [MerklePatriciaTrie.get, Prog.run_bind_of_ok hrun]
    rfl
  · obtain ⟨s', hs', hrun | ⟨hno, -⟩⟩ := run_findPath hlen hS h hp (opts.appliedKey key) false
    · exact ⟨s', hs', run_get_of_findPath hrun⟩
    · exact absurd hc hno

include hlen hS in
/-- A lookup needs only the nodes on the path of its key. -/
theorem run_get_of_covers (h : Roots opts S s t) (hp : Packed P t) (key : Bytes)
    (hc : Covers opts s.db t (bytesToNibbles (opts.appliedKey key))) (throwIfMissing : Bool) :
    ∃ s', s.Reads s' ∧ (get opts key throwIfMissing).run s =
      (.ok ((t.get (bytesToNibbles (opts.appliedKey key))).map Subtype.val), s') := by
  obtain ⟨s', hs', hrun | ⟨hno, -⟩⟩ :=
    run_findPath_of_covers hlen hS h hp (opts.appliedKey key) throwIfMissing
  · exact ⟨s', hs', run_get_of_findPath hrun⟩
  · exact absurd hc hno

include hlen hS in
/-- A lookup that has to find every node returns the value of the map or throws. -/
theorem run_get_throwing (h : Roots opts S s t) (hp : Packed P t) (key : Bytes) :
    ∃ s', s.Reads s' ∧ ((get opts key true).run s =
        (.ok ((t.get (bytesToNibbles (opts.appliedKey key))).map Subtype.val), s') ∨
      (get opts key true).run s = (.error .missingNode, s')) := by
  obtain ⟨s', hs', hrun | ⟨-, hrun⟩⟩ := run_findPath hlen hS h hp (opts.appliedKey key) true
  · exact ⟨s', hs', .inl (run_get_of_findPath hrun)⟩
  · refine ⟨s', hs', .inr ?_⟩
    rw [MerklePatriciaTrie.get, Prog.run_bind_of_error (hrun rfl)]

end Get

end Tvmjs
