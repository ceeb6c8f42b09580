import Tvmjs.BinaryTree.Put

/-!
# Sequences of writes to a binary tree

* `Saved.holds` -- where the hash does not collide, what a write leaves is a tree that holds its
  trie;
* `Describes` -- a state of a tree stands for a map;
* `FairRun.describes` -- it does so after any writes, unless the first write to an empty tree
  writes only nulls;
* `readsMap_and_root` -- reads are those of the map, and the root depends on the map only.
-/

namespace Tvmjs

open RLP (Input)

namespace BinaryTree

open BitTrie

variable {opts : BinaryTreeOpts}

/-- The strings hashed for the nodes stored at any time are in a set. -/
def HashedIn (opts : BinaryTreeOpts) (S : Set Bytes) (db : CheckpointDB) : Prop :=
  ∀ key raw node, (key, some raw) ∈ db.entries → key.length = 32 →
    decodeBinaryNode raw = .ok node → nodeMessages opts node ⊆ S

/-- What is assumed of the hash: it does not collide on a set. -/
structure HashOn (opts : BinaryTreeOpts) (S : Set Bytes) : Prop where
  length : ∀ msg, (opts.hashFunction msg).length = 32
  injOn : Set.InjOn (digest opts) S
  zero : List.replicate 64 0 ∈ S

/-! ### The new state -/

section Saved

variable {S : Set Bytes} (hS : HashOn opts S)

/-- The strings hashed for a trie are those hashed for its nodes. -/
private theorem trieMessages_subset {p : List Bool} {t : StemTrie}
    (h : t.Each (fun q v => nodeMessages opts (trieNode opts q v) ⊆ S) p) :
    trieMessages opts t ⊆ S := by
  induction t generalizing p with
  | nil => exact Set.empty_subset S
  | leaf w values => exact h
  | branch c ih =>
    have hnode : nodeMessages opts (trieNode opts p (.branch c)) ⊆ S := h.1
    rw [trieNode, nodeMessages, childHash_trieChild, childHash_trieChild] at hnode
    exact Set.union_subset hnode (Set.iUnion_subset fun b => ih b (h.2 b))

/-- The node of a part does not depend on where the part is. -/
private theorem trieNode_eq_of_within {t v : StemTrie} {q q' : List Bool} (hc : Canonical 248 [] t)
    (hw : BitTrie.Within [] t q v) (hw' : BitTrie.Within [] t q' v) :
    trieNode opts q v = trieNode opts q' v := by
  rcases hv : v with _ | ⟨w, values⟩ | c
  · rfl
  · rfl
  · rw [(hw.canonical hc).place_eq (hw'.canonical hc) hv]

/-- Entries of the root key hide no node. -/
private theorem lookup_append_of_root {rs : List (Bytes × Option Bytes)}
    (hrs : ∀ e ∈ rs, e.1 = ROOT_DB_KEY) {key : Bytes} (hkey : key.length = 32)
    (rest : List (Bytes × Option Bytes)) : (rs ++ rest).lookup key = rest.lookup key := by
  induction rs with
  | nil => rfl
  | cons e rs ih =>
    have hne : key ≠ e.1 := by
      rintro rfl
      rw [hrs e List.mem_cons_self] at hkey
      cases hkey
    rw [List.cons_append, List.lookup_cons, beq_false_of_ne hne]
    exact ih fun e' he' => hrs e' (List.mem_cons_of_mem _ he')

include hS

/-- **Where the hash does not collide, the new state holds the new trie.** -/
theorem Saved.holds {db : CheckpointDB} {s : BinaryTree} {t : StemTrie} (h : Saved opts db s t)
    (hgood : t.All GoodValues) (hmem : HashedIn opts S s.db) : Holds opts s t := by
  by_cases ht : t = .nil
  · subst ht
    exact ⟨h.placed, h.root, trivial, fun _ => rfl⟩
  obtain ⟨rs, ps, hentries, hrs, hgathered⟩ := h.nodes
  have hgathered := hgathered ht
  -- a node of the trie is somewhere in the database
  have hnodes : ∀ q v, v ≠ .nil → BitTrie.Within [] t q v →
      (trieHash opts v, some (trieNode opts q v).serialize) ∈ s.db.entries := by
    intro q v hv hw
    rw [hentries]
    refine List.mem_append_right _ ?_
    rcases (hw.each hgathered.each).top hv with hpushed | hheld
    · exact List.mem_append_left _ (List.mem_map.2 ⟨_, hpushed, rfl⟩)
    · exact List.mem_append_right _ (CheckpointDB.mem_of_view hheld)
  have hplaced : ∀ {q v}, BitTrie.Within [] t q v → PlacedTrie q v := fun hw =>
    ⟨hw.canonical h.placed.canonical, hw.all h.placed.sized⟩
  have hmessages : t.Each (fun q v => nodeMessages opts (trieNode opts q v) ⊆ S) [] :=
    Each.of_within fun q v hv hw => hmem _ _ _ (hnodes q v hv hw) (length_trieHash hS.length v)
      (decode_trieNode hS.length (hplaced hw))
  have hsubset : ∀ {q v}, BitTrie.Within [] t q v → trieMessages opts v ⊆ S := fun hw =>
    trieMessages_subset (hw.each hmessages)
  refine ⟨h.placed, h.root, Each.of_within fun q v hv hw => ?_, fun hempty => ?_⟩
  · have hview : s.db.view (trieHash opts v) = (((ps.map nodeEntry).lookup (trieHash opts v)).or
        (db.entries.lookup (trieHash opts v))).join := by
      rw [CheckpointDB.view, hentries, lookup_append_of_root hrs (length_trieHash hS.length v),
        CheckpointDB.lookup_append]
    rw [NodeHeld, hview]
    rcases hlookup : (ps.map nodeEntry).lookup (trieHash opts v) with _ | raw
    · rcases (hw.each hgathered.each).top hv with hpushed | hheld
      · rw [List.lookup_eq_none_iff] at hlookup
        have hno := hlookup _ (List.mem_map.2 ⟨_, hpushed, rfl⟩)
        simp [nodeEntry] at hno
      · exact hheld
    · -- what was pushed under this hash is this node
      obtain ⟨l₁, l₂, hl, -⟩ := List.lookup_eq_some_iff.1 hlookup
      have hraw : (trieHash opts v, raw) ∈ ps.map nodeEntry := by
        rw [hl]
        simp
      obtain ⟨e, he, heq⟩ := List.mem_map.1 hraw
      obtain ⟨q', v', -, rfl, hw'⟩ := hgathered.within e he
      obtain ⟨hhash, rfl⟩ := Prod.mk.inj heq
      have hsame := trieHash_injective hS.length hS.injOn hS.zero (hplaced hw').canonical
        (hplaced hw).canonical (hw'.all hgood) (hw.all hgood) (hsubset hw') (hsubset hw) hhash
      subst hsame
      rw [trieNode_eq_of_within h.placed.canonical hw hw']
      rfl
  · rw [h.root] at hempty
    exact eq_nil_of_trieHash hS.length hS.injOn hS.zero h.placed.canonical hgood
      (hsubset (.refl [] t)) hempty

end Saved

/-! ### Nothing stored is forgotten -/

/-- Where this returns a tree, its database has the entries of the one before. -/
def Grows (s : BinaryTree) (x : Except BinaryTreeError BinaryTree) : Prop :=
  ∀ s', x = .ok s' → s.db.entries <:+ s'.db.entries

/-- A step after a pure computation. -/
theorem Grows.bind {s : BinaryTree} {α : Type} (x : Except BinaryTreeError α)
    {f : α → Except BinaryTreeError BinaryTree} (h : ∀ a, Grows s (f a)) : Grows s (x >>= f) := by
  intro s' hs'
  rcases x with e | a
  · cases hs'
  · exact h a s' hs'

/-- What throws leaves no tree to look at. -/
private theorem grows_error (s : BinaryTree) (e : BinaryTreeError) : Grows s (.error e) :=
  fun _ => nofun

/-- Nothing is forgotten where nothing happens. -/
private theorem grows_refl (s : BinaryTree) : Grows s (.ok s) := by
  intro s' hs'
  cases hs'
  exact List.suffix_refl _

/-- The end of every write. -/
private theorem grows_save (s : BinaryTree) (root : Bytes)
    (ps : BinaryTree → List (Bytes × BinaryNode)) :
    Grows s (s.setRoot root >>= fun t => pure (persistRoot opts (t.saveStack (ps t)))) := by
  intro s' hs'
  rw [setRoot] at hs'
  split at hs'
  · cases hs'
  · cases hs'
    obtain ⟨rs, hentries, -⟩ := entries_persistRoot opts
      (saveStack { s with root := root } (ps { s with root := root }))
    rw [hentries, entries_saveStack]
    exact (List.suffix_append _ _).trans (List.suffix_append _ _)

/-- A write of a stem adds entries in front. -/
private theorem grows_putStem (fuel : ℕ) (s : BinaryTree) (stem : Bytes)
    (writes : List (Fin NODE_WIDTH × Option Bytes)) :
    Grows s (putStem opts fuel s stem writes) := by
  rw [putStem]
  split
  · exact .bind _ fun root => grows_save s root fun t =>
      [(t.root, .stem stem (setValues (fun _ => none) writes))]
  · refine .bind _ fun path => ?_
    split
    · exact grows_error s _
    · dsimp only
      split
      · split
        · exact grows_refl s
        · exact .bind _ fun _ => .bind _ fun root => grows_save s root fun _ => _
      · refine .bind _ fun stemHash => .bind _ fun added => .bind _ fun parents =>
          .bind _ fun updated => .bind _ fun root => ?_
        exact grows_save s root fun t => (t.root, _) :: _

end BinaryTree

/-- A stem as `put` takes it. -/
abbrev Stem := {stem : Bytes // stem.length = 31}

/-- A value of 32 bytes. -/
abbrev StemValue := {value : Bytes // value.length = 32}

/-- A write to a tree. -/
inductive BinaryTreeOp where
  | put (stem : Stem) (suffixes : List JSNumber) (values : List (Option StemValue))
  | del (stem : Stem) (suffixes : List JSNumber)

namespace BinaryTreeOp

variable (opts : BinaryTreeOpts) (fuel : ℕ)

/-- The stem an operation is about. -/
def stem : BinaryTreeOp → Stem
  | put stem _ _ => stem
  | del stem _ => stem

/-- The suffixes an operation is about. -/
def suffixes : BinaryTreeOp → List JSNumber
  | put _ suffixes _ => suffixes
  | del _ suffixes => suffixes

/-- The values written; null deletes. -/
def values : BinaryTreeOp → List (Option Bytes)
  | put _ _ values => values.map fun value => value.map Subtype.val
  | del _ suffixes => List.replicate suffixes.length none

/-- The method called. -/
def run (op : BinaryTreeOp) (s : BinaryTree) : Except BinaryTreeError BinaryTree :=
  match op with
  | put stem suffixes values =>
    BinaryTree.put opts fuel s stem.1 suffixes (values.map fun value => value.map Subtype.val)
  | del stem suffixes => BinaryTree.del opts fuel s stem.1 suffixes

/-- The tree after the call; where it throws nothing has changed. -/
def step (s : BinaryTree) (op : BinaryTreeOp) : BinaryTree :=
  match op.run opts fuel s with
  | .ok s' => s'
  | .error _ => s

/-- What is written at which index: there is one value for each suffix, and every suffix is an
index. -/
def writes (op : BinaryTreeOp) : Option (List (Fin NODE_WIDTH × Option Bytes)) :=
  if op.values.length = op.suffixes.length then
    match op.suffixes.mapM suffixOf with
    | .ok indices => some (indices.zip op.values)
    | .error _ => none
  else none

/-- The write on the map of the stems. -/
def apply (op : BinaryTreeOp) (m : Stem → StemValues) : Stem → StemValues :=
  match op.writes with
  | some writes => Function.update m op.stem (setValues (m op.stem) writes)
  | none => m

/-- Only nulls are written, if anything is. -/
def Idle (op : BinaryTreeOp) : Prop :=
  ∃ writes, op.writes = some writes ∧ setValues BinaryTree.noValues writes = BinaryTree.noValues

end BinaryTreeOp

namespace BinaryTree

open BitTrie

variable {opts : BinaryTreeOpts} {fuel : ℕ}

/-- What is written of a stem are values of 32 bytes. -/
private theorem sized_writes {op : BinaryTreeOp} {writes : List (Fin NODE_WIDTH × Option Bytes)}
    (h : op.writes = some writes) : ∀ w ∈ writes, ∀ value ∈ w.2, value.length = 32 := by
  have hvalues : ∀ value ∈ op.values, ∀ v ∈ value, v.length = 32 := by
    intro value hvalue v hv
    cases op with
    | put stem suffixes values =>
      obtain ⟨value, -, rfl⟩ := List.mem_map.1 hvalue
      obtain ⟨v, -, rfl⟩ := Option.mem_map.1 hv
      exact v.2
    | del stem suffixes =>
      rw [List.eq_of_mem_replicate hvalue] at hv
      cases hv
  rw [BinaryTreeOp.writes] at h
  split at h
  · split at h
    · cases h
      exact fun w hw => hvalues w.2 (List.of_mem_zip hw).2
    · cases h
  · cases h

variable (opts fuel) in
/-- A call writes a stem or throws. -/
private theorem run_op (op : BinaryTreeOp) (s : BinaryTree) :
    (∃ writes, op.writes = some writes ∧
      op.run opts fuel s = putStem opts fuel s op.stem.1 writes) ∨
      op.writes = none ∧ ∃ e, op.run opts fuel s = .error e := by
  have hrun : op.run opts fuel s = put opts fuel s op.stem.1 op.suffixes op.values := by
    cases op <;> rfl
  have hput : put opts fuel s op.stem.1 op.suffixes op.values =
      if op.values.length > 0 ∧ op.values.length ≠ op.suffixes.length then
        .error (.valuesLength op.values.length op.suffixes.length)
      else op.suffixes.mapM suffixOf >>= fun indices =>
        if op.values = [] ∧ indices ≠ [] then .error .typeError
        else putStem opts fuel s op.stem.1 (indices.zip op.values) := by
    rw [put, if_neg (not_not.2 op.stem.2)]
    split
    · rfl
    · refine bind_congr fun indices => ?_
      split
      · rfl
      · rfl
  rw [hrun, hput, BinaryTreeOp.writes]
  rcases hindices : op.suffixes.mapM suffixOf with e | indices
  · refine .inr ⟨by split <;> rfl, ?_⟩
    split
    · exact ⟨_, rfl⟩
    · exact ⟨e, rfl⟩
  · have hlength := mapM_suffixOf_length hindices
    split
    · rename_i hsame
      refine .inl ⟨_, rfl, ?_⟩
      rw [if_neg fun h => h.2 hsame]
      change (if op.values = [] ∧ indices ≠ [] then _ else _) = _
      rw [if_neg]
      rintro ⟨hnil, hne⟩
      rw [hnil] at hsame
      exact hne (List.eq_nil_of_length_eq_zero (hlength.trans hsame.symm))
    · rename_i hdiffer
      refine .inr ⟨rfl, ?_⟩
      split
      · exact ⟨_, rfl⟩
      · rename_i hnot
        -- there are no values, but there are suffixes
        have hnil : op.values = [] := by
          by_contra hne
          exact hnot ⟨List.length_pos_iff.2 hne, hdiffer⟩
        refine ⟨.typeError, ?_⟩
        change (if op.values = [] ∧ indices ≠ [] then _ else _) = _
        refine if_pos ⟨hnil, fun hempty => hdiffer ?_⟩
        rw [hnil, ← hlength, hempty]
        rfl

/-- So does every operation. -/
private theorem grows_step (op : BinaryTreeOp) (s : BinaryTree) :
    s.db.entries <:+ (op.step opts fuel s).db.entries := by
  rw [BinaryTreeOp.step]
  split
  · rename_i s' hs'
    rcases run_op opts fuel op s with ⟨writes, -, hrun⟩ | ⟨-, e, hrun⟩
    · exact grows_putStem fuel s op.stem.1 writes s' (hrun.symm.trans hs')
    · rw [hrun] at hs'
      cases hs'
  · exact List.suffix_refl _

/-! ### The map of a tree -/

/-- A state of a tree stands for a map: its trie has the stems of the map that have values. -/
structure Describes (opts : BinaryTreeOpts) (s : BinaryTree) (m : Stem → StemValues)
    (t : StemTrie) : Prop where
  holds : Holds opts s t
  good : t.All GoodValues
  values : ∀ stem : Stem, stemValues t (allBits stem.1) = m stem

/-- Writing a stem replaces its values and no others. -/
private theorem stemValues_writeTrie {t : StemTrie} (hc : Canonical 248 [] t) {k : List Bool}
    (hk : k.length = 248) (values : StemValues) (k' : List Bool) :
    stemValues (writeTrie t k values) k' = if k' = k then values else stemValues t k' := by
  rw [stemValues, writeTrie]
  split
  · rename_i hnone
    have hfind := find_erase hc k k'
    change (t.erase 0 k).find 0 k' = if k' = k then none else t.find 0 k' at hfind
    rw [hfind, hnone]
    split
    · rfl
    · rfl
  · have hfind := find_insert hc hk List.nil_prefix values k'
    change (t.insert 0 k values).find 0 k' = if k' = k then some values else t.find 0 k' at hfind
    rw [hfind]
    split
    · rfl
    · rfl

/-- Values of the right size may be written. -/
private theorem good_writeTrie {t : StemTrie} (h : t.All GoodValues) (k : List Bool)
    {values : StemValues}
    (hvalues : SizedValues values) : (writeTrie t k values).All GoodValues := by
  rw [writeTrie]
  split
  · exact All.erase h 0 k
  · rename_i hne
    refine All.insert h 0 k ⟨hvalues, ?_⟩
    by_contra hnone
    refine hne (funext fun i => ?_)
    by_contra hi
    exact hnone ⟨i, hi⟩

/-- A trie is determined by the map it stands for. -/
private theorem Describes.trie_eq {s s' : BinaryTree} {m : Stem → StemValues} {t t' : StemTrie}
    (h : Describes opts s m t) (h' : Describes opts s' m t') : t = t' := by
  have hfind : ∀ {s : BinaryTree} {t : StemTrie}, Describes opts s m t → ∀ k,
      t.find 0 k = if hk : k.length = 248 ∧ stemValues t k ≠ noValues then some (stemValues t k)
        else none := by
    intro s t h k
    rw [stemValues]
    rcases hv : t.find 0 k with _ | values
    · rw [dif_neg]
      rintro ⟨-, hne⟩
      exact hne rfl
    · have hlength := (h.holds.placed.canonical.prefix_of_find hv).2
      obtain ⟨i, hi⟩ := (h.good.of_find hv).exists_some
      rw [dif_pos ⟨hlength, fun hnone => hi (congrFun hnone i)⟩]
      rfl
  refine h.holds.placed.canonical.ext h'.holds.placed.canonical fun k => ?_
  change t.find 0 k = t'.find 0 k
  rw [hfind h k, hfind h' k]
  by_cases hk : k.length = 248
  · have hstem : stemValues t k = stemValues t' k := by
      have hlength : (bitsToBytes k).length = 31 := by rw [length_bitsToBytes, hk]
      have hvalues := (h.values ⟨_, hlength⟩).trans (h'.values ⟨_, hlength⟩).symm
      change stemValues t (allBits (bitsToBytes k)) = stemValues t' (allBits (bitsToBytes k))
        at hvalues
      rwa [allBits_bitsToBytes (by rw [hk])] at hvalues
    rw [hstem]
  · rw [dif_neg fun h => hk h.1, dif_neg fun h => hk h.1]

section Run

variable {S : Set Bytes} (hS : HashOn opts S) (hfuel : 248 ≤ fuel)

include hS hfuel

/-- **One write** is the update of the map at its stem. -/
theorem Describes.step {s : BinaryTree} {m : Stem → StemValues} {t : StemTrie}
    (h : Describes opts s m t) (op : BinaryTreeOp)
    (hfirst : s.root = EMPTY_TREE_ROOT → op.Idle → op.stem.1 = List.replicate 31 0)
    (hmem : HashedIn opts S (op.step opts fuel s).db) :
    ∃ t', Describes opts (op.step opts fuel s) (op.apply m) t' := by
  rcases run_op opts fuel op s with ⟨writes, hwrites, hrun⟩ | ⟨hnone, e, hrun⟩
  · have hsized := sized_writes hwrites
    obtain ⟨s', hput, hsaved⟩ := run_putStem hS.length h.holds op.stem.2 hsized
      (fun hempty hidle => hfirst hempty ⟨writes, hwrites, hidle⟩) hfuel
    rw [hput] at hrun
    rw [BinaryTreeOp.step, hrun] at hmem ⊢
    have hgood := good_writeTrie h.good (allBits op.stem.1)
      ((sized_stemValues h.holds.placed.sized (allBits op.stem.1)).setValues hsized)
    refine ⟨_, hsaved.holds hS hgood hmem, hgood, fun stem => ?_⟩
    rw [stemValues_writeTrie h.holds.placed.canonical (by rw [length_allBits, op.stem.2]),
      BinaryTreeOp.apply, hwrites]
    change _ = Function.update m op.stem _ stem
    rw [Function.update_apply, h.values, h.values]
    by_cases hsame : stem = op.stem
    · rw [if_pos (by rw [hsame]), if_pos hsame]
    · rw [if_neg (fun heq => hsame (Subtype.ext (allBits_injective heq))), if_neg hsame]
  · rw [BinaryTreeOp.step, hrun, BinaryTreeOp.apply, hnone]
    exact ⟨t, h⟩

end Run

/-! ### Runs -/

section Runs

variable (opts fuel)

/-- The tree after some writes. -/
def runOps (s : BinaryTree) (ops : List BinaryTreeOp) : BinaryTree :=
  ops.foldl (BinaryTreeOp.step opts fuel) s

/-- No write to an empty tree writes only nulls, unless of the stem of 31 zero bytes. -/
def FirstWrites : BinaryTree → List BinaryTreeOp → Prop
  | _, [] => True
  | s, op :: ops =>
    (s.root = EMPTY_TREE_ROOT → op.Idle → op.stem.1 = List.replicate 31 0) ∧
      FirstWrites (op.step opts fuel s) ops

/-- A run from the empty tree on whose nodes are hashed in a set, and in which no first write
writes only nulls. -/
structure FairRun (S : Set Bytes) (ops : List BinaryTreeOp) : Prop where
  first : FirstWrites opts fuel create ops
  hashed : HashedIn opts S (runOps opts fuel create ops).db

end Runs

/-- The map that some writes describe. -/
def mapOf (ops : List BinaryTreeOp) : Stem → StemValues :=
  ops.foldl (fun m op => op.apply m) fun _ => noValues

/-- A run never forgets an entry. -/
theorem grows_runOps (ops : List BinaryTreeOp) (s : BinaryTree) :
    s.db.entries <:+ (runOps opts fuel s ops).db.entries := by
  induction ops generalizing s with
  | nil => exact List.suffix_refl _
  | cons op ops ih => exact (grows_step op s).trans (ih _)

/-- A database with fewer entries hashes no more. -/
theorem HashedIn.mono {S : Set Bytes} {db db' : CheckpointDB} (h : HashedIn opts S db')
    (hentries : db.entries <:+ db'.entries) : HashedIn opts S db :=
  fun key raw node hmem => h key raw node (hentries.subset hmem)

/-- A new tree describes the empty map. -/
private theorem describes_create : Describes opts create (fun _ => noValues) .nil :=
  ⟨⟨⟨.nil _, trivial⟩, rfl, trivial, fun _ => rfl⟩, trivial, fun _ => rfl⟩

section Run

variable {S : Set Bytes} (hS : HashOn opts S) (hfuel : 248 ≤ fuel)

include hS hfuel

/-- **A run** is a sequence of updates of the map. -/
theorem Describes.runOps {s : BinaryTree} {m : Stem → StemValues} {t : StemTrie}
    (h : Describes opts s m t) {ops : List BinaryTreeOp} (hfirst : FirstWrites opts fuel s ops)
    (hmem : HashedIn opts S (BinaryTree.runOps opts fuel s ops).db) :
    ∃ t', Describes opts (BinaryTree.runOps opts fuel s ops)
      (ops.foldl (fun m op => op.apply m) m) t' := by
  induction ops generalizing s m t with
  | nil => exact ⟨t, h⟩
  | cons op ops ih =>
    obtain ⟨t', h'⟩ := h.step hS hfuel op hfirst.1 (hmem.mono (grows_runOps ops _))
    exact ih h' hfirst.2 hmem

/-- A fair run ends in a tree that describes its map. -/
theorem FairRun.describes {ops : List BinaryTreeOp} (h : FairRun opts fuel S ops) :
    ∃ t, Describes opts (BinaryTree.runOps opts fuel create ops) (mapOf ops) t :=
  describes_create.runOps hS hfuel h.first h.hashed

/-- **Reads are those of the map, and the root depends on the map only.**  After any writes of
which no first one writes only nulls, every list of indices of a stem reads as in the map, where a
missing stem reads as absent; two such runs that end in one map end in one root, and the empty map
has the empty root. -/
theorem readsMap_and_root {ops : List BinaryTreeOp} (h : FairRun opts fuel S ops) :
    (∀ (stem : Stem) suffixes indices, suffixes.mapM suffixOf = .ok indices →
      ∃ values, get fuel (BinaryTree.runOps opts fuel create ops) stem.1 suffixes = .ok values ∧
        ∀ i, readAt values i = (indices[i]?).bind (mapOf ops stem)) ∧
    (∀ ops', FairRun opts fuel S ops' → mapOf ops' = mapOf ops →
      (BinaryTree.runOps opts fuel create ops').root =
        (BinaryTree.runOps opts fuel create ops).root) ∧
    (mapOf ops = (fun _ => noValues) →
      (BinaryTree.runOps opts fuel create ops).root = EMPTY_TREE_ROOT) := by
  obtain ⟨t, ht⟩ := h.describes hS hfuel
  refine ⟨fun stem suffixes indices hindices => ?_, fun ops' h' hmap => ?_, fun hnone => ?_⟩
  · obtain ⟨values, hget, hread⟩ := readAt_get hS.length ht.holds stem.2 hindices hfuel
    refine ⟨values, hget, fun i => ?_⟩
    have hvalue : trieValue t stem.1 = mapOf ops stem := by
      rw [← ht.values stem]
      funext j
      rw [trieValue, stemValues]
      rcases t.find 0 (allBits stem.1) with _ | values
      · rfl
      · rfl
    rw [hread, hvalue]
  · obtain ⟨t', ht'⟩ := h'.describes hS hfuel
    rw [hmap] at ht'
    rw [ht.holds.root, ht'.holds.root, ht.trie_eq ht']
  · rw [hnone] at ht
    rw [ht.holds.root, ht.trie_eq describes_create]
    rfl

end Run

/-! ### The first write -/

/-- A layer over no values hashes zeros only. -/
private theorem layerMessages_of_none {f : ℕ → Option Bytes} :
    ∀ {j i : ℕ}, (∀ n, n / 2 ^ j = i → f n = none) →
      layerMessages opts f j i ⊆ {List.replicate 64 0}
  | 0, i, h => by
    intro m hm
    have hnone := h i (by simp)
    change f i = some m at hm
    rw [hnone] at hm
    cases hm
  | j + 1, i, h => by
    have hdiv : ∀ n, n / 2 ^ (j + 1) = n / 2 ^ j / 2 := fun n => by
      rw [Nat.pow_succ, Nat.div_div_eq_div_mul]
    have hleft : ∀ n, n / 2 ^ j = 2 * i → f n = none := fun n hn => h n (by rw [hdiv, hn]; omega)
    have hright : ∀ n, n / 2 ^ j = 2 * i + 1 → f n = none :=
      fun n hn => h n (by rw [hdiv, hn]; omega)
    refine Set.union_subset ?_ (Set.union_subset (layerMessages_of_none hleft)
      (layerMessages_of_none hright))
    rw [layerHash_eq_empty_of_none hleft, layerHash_eq_empty_of_none hright]
    exact subset_refl _

/-- The hashes above the first value of a stem that has no other one. -/
def firstHash (opts : BinaryTreeOpts) (value : Option Bytes) : ℕ → Bytes
  | 0 => valueHash opts value
  | j + 1 => digest opts (firstHash opts value j ++ EMPTY_TREE_ROOT)

/-- With the first value only, a layer is a chain of hashes. -/
private theorem layerHash_first {f : ℕ → Option Bytes} (h : ∀ n, n ≠ 0 → f n = none) (j : ℕ) :
    layerHash opts f j 0 = firstHash opts (f 0) j := by
  induction j with
  | zero => rfl
  | succ j ih =>
    have hempty : layerHash opts f j (2 * 0 + 1) = EMPTY_TREE_ROOT := by
      refine layerHash_eq_empty_of_none fun n hn => h n ?_
      rintro rfl
      rw [Nat.zero_div] at hn
      cases hn
    rw [layerHash, Nat.mul_zero, ih, hempty]
    rfl

/-- And these are the strings that it hashes. -/
private theorem layerMessages_first {f : ℕ → Option Bytes} (h : ∀ n, n ≠ 0 → f n = none) (j : ℕ) :
    layerMessages opts f j 0 ⊆ {m | m = List.replicate 64 0 ∨ f 0 = some m ∨
      ∃ i < j, m = firstHash opts (f 0) i ++ EMPTY_TREE_ROOT} := by
  induction j with
  | zero => exact fun m hm => .inr (.inl hm)
  | succ j ih =>
    have hnone : ∀ n, n / 2 ^ j = 2 * 0 + 1 → f n = none := by
      intro n hn
      refine h n ?_
      rintro rfl
      rw [Nat.zero_div] at hn
      cases hn
    rintro m (hm | hm | hm)
    · refine .inr (.inr ⟨j, Nat.lt_succ_self j, ?_⟩)
      rw [Nat.mul_zero, layerHash_first h, layerHash_eq_empty_of_none hnone] at hm
      exact hm
    · rcases ih hm with hm | hm | ⟨i, hi, hm⟩
      · exact .inl hm
      · exact .inr (.inl hm)
      · exact .inr (.inr ⟨i, Nat.lt_succ_of_lt hi, hm⟩)
    · exact .inl (layerMessages_of_none hnone hm)

variable (fuel) in
/-- The first write hashes what the hash of its stem needs. -/
private theorem hashedIn_first (hlen : ∀ msg, (opts.hashFunction msg).length = 32)
    (hpersist : opts.useRootPersistence = false) {S : Set Bytes} {op : BinaryTreeOp}
    {writes : List (Fin NODE_WIDTH × Option Bytes)} (hwrites : op.writes = some writes)
    (hS : nodeMessages opts (.stem op.stem.1 (setValues noValues writes)) ⊆ S) :
    runOps opts fuel create [op] = saveStack { create with
        root := trieHash opts (.leaf (allBits op.stem.1) (setValues noValues writes)) }
          [(trieHash opts (.leaf (allBits op.stem.1) (setValues noValues writes)),
            .stem op.stem.1 (setValues noValues writes))] ∧
      HashedIn opts S (runOps opts fuel create [op]).db := by
  have hsized : SizedValues (setValues noValues writes) :=
    sized_noValues.setValues (sized_writes hwrites)
  have hrun : runOps opts fuel create [op] = saveStack { create with
        root := trieHash opts (.leaf (allBits op.stem.1) (setValues noValues writes)) }
          [(trieHash opts (.leaf (allBits op.stem.1) (setValues noValues writes)),
            .stem op.stem.1 (setValues noValues writes))] := by
    change op.step opts fuel create = _
    rcases run_op opts fuel op create with ⟨ws, hws, hop⟩ | ⟨hnone, -⟩
    · cases hwrites.symm.trans hws
      rw [putStem, if_pos (by rfl), run_createInitialNode hlen op.stem.2 hsized] at hop
      rw [BinaryTreeOp.step, hop]
      exact if_neg (by rw [hpersist]; decide)
    · rw [hwrites] at hnone
      cases hnone
  refine ⟨hrun, fun key raw node hmem hkey hnode => ?_⟩
  rw [hrun, entries_saveStack] at hmem
  rcases List.mem_append.1 hmem with hmem | hmem
  · obtain ⟨rfl, hraw⟩ := Prod.mk.inj (List.mem_singleton.1 hmem)
    cases hraw
    have hsound : (BinaryNode.stem op.stem.1 (setValues noValues writes)).Sound :=
      ⟨op.stem.2, hsized⟩
    rw [BinaryNode.decode_serialize hsound] at hnode
    cases hnode
    exact hS
  · have hdel := List.mem_singleton.1 hmem
    cases hdel

section Sample

/-- A hash for examples: the length and what is not zero. -/
def sampleHash (msg : Bytes) : Bytes :=
  UInt8.ofNat msg.length :: (msg.filter (· ≠ 0) ++ List.replicate 31 0).take 31

/-- The options of a tree over a small hash. -/
def sampleOpts : BinaryTreeOpts := { hashFunction := sampleHash }

/-- The sample hash has 32 bytes. -/
private theorem length_sampleHash (msg : Bytes) : (sampleOpts.hashFunction msg).length = 32 := by
  change (sampleHash msg).length = 32
  simp [sampleHash]

/-- A stem whose last byte is one. -/
def sampleStem : Stem := ⟨List.replicate 30 0 ++ [1], rfl⟩

/-- A value whose last byte is two. -/
def sampleValue : StemValue := ⟨List.replicate 31 0 ++ [2], rfl⟩

/-- A first write that deletes. -/
def delFirst : BinaryTreeOp := .del sampleStem [.integer 0]

/-- **Where the first write is a deletion, the root of the empty map is not the empty root.** -/
theorem delFirst_root : ∃ S, HashOn sampleOpts S ∧
    HashedIn sampleOpts S (runOps sampleOpts 248 create [delFirst]).db ∧
    mapOf [delFirst] = (fun _ => noValues) ∧
    (runOps sampleOpts 248 create [delFirst]).root ≠ EMPTY_TREE_ROOT := by
  have hwrites : delFirst.writes = some [(0, none)] := by rfl
  have hvalues : setValues noValues [(0, none)] = noValues := Function.update_eq_self _ _
  let S : Set Bytes := {List.replicate 64 0, sampleStem.1 ++ [0] ++ EMPTY_TREE_ROOT}
  have hnone : valuesHash sampleOpts noValues = EMPTY_TREE_ROOT := by
    refine layerHash_eq_empty_of_none fun n _ => ?_
    rw [valueAt]
    split <;> rfl
  have hmessages : nodeMessages sampleOpts (.stem sampleStem.1 noValues) ⊆ S := by
    rw [nodeMessages, hnone]
    refine Set.union_subset (fun m hm => .inr hm) ?_
    refine (layerMessages_of_none fun n _ => ?_).trans fun m hm => .inl hm
    rw [valueAt]
    split <;> rfl
  obtain ⟨hrun, hhashed⟩ := hashedIn_first 248 length_sampleHash rfl hwrites (hvalues ▸ hmessages)
  refine ⟨S, ⟨length_sampleHash, ?_, .inl rfl⟩, hhashed, ?_, ?_⟩
  · rintro a (rfl | rfl) b (rfl | rfl) hab
    · rfl
    · revert hab
      decide
    · revert hab
      decide
    · rfl
  · change delFirst.apply (fun _ => noValues) = _
    rw [BinaryTreeOp.apply, hwrites]
    change Function.update (fun _ => noValues) delFirst.stem (setValues noValues [(0, none)]) = _
    rw [hvalues]
    exact Function.update_eq_self _ _
  · have hne : digest sampleOpts (delFirst.stem.1 ++ [0] ++ EMPTY_TREE_ROOT) ≠
        EMPTY_TREE_ROOT := by
      decide
    have hhash := trieHash_noValues sampleOpts (allBits delFirst.stem.1)
    rw [bitsToBytes_allBits] at hhash
    rw [hrun, hvalues, saveStack, hhash]
    exact hne

/-- A first write of one value. -/
def putFirst : BinaryTreeOp := .put sampleStem [.integer 0] [some sampleValue]

/-- What is hashed for the first write. -/
def firstMessages : List Bytes :=
  List.replicate 64 0 :: sampleValue.1 ::
    (sampleStem.1 ++ [0] ++ firstHash sampleOpts (some sampleValue.1) 8) ::
    (List.range 8).map fun j => firstHash sampleOpts (some sampleValue.1) j ++ EMPTY_TREE_ROOT

/-- The sample hash does not collide on what is hashed. -/
theorem hashOn_firstMessages : HashOn sampleOpts {m | m ∈ firstMessages} := by
  have hinj : ∀ a ∈ firstMessages, ∀ b ∈ firstMessages,
      digest sampleOpts a = digest sampleOpts b → a = b := by
    decide +kernel
  exact ⟨length_sampleHash, fun a ha b hb => hinj a ha b hb, .head _⟩

private theorem writes_putFirst : putFirst.writes = some [(0, some sampleValue.1)] := by rfl

theorem mapOf_putFirst : mapOf [putFirst] sampleStem 0 = some sampleValue.1 := by
  change putFirst.apply (fun _ => noValues) sampleStem 0 = _
  rw [BinaryTreeOp.apply, writes_putFirst]
  change Function.update (fun _ => noValues) sampleStem _ sampleStem 0 = _
  rw [Function.update_self]
  rfl

/-- A first write that leads to the values of `putFirst`. -/
private theorem fairRun_first {op : BinaryTreeOp} {writes : List (Fin NODE_WIDTH × Option Bytes)}
    (hwrites : op.writes = some writes) (hstem : op.stem = sampleStem)
    (hvalues : setValues noValues writes = setValues noValues [(0, some sampleValue.1)]) :
    FairRun sampleOpts 248 {m | m ∈ firstMessages} [op] := by
  have hfirst : ∀ n, n ≠ 0 → valueAt (setValues noValues [(0, some sampleValue.1)]) n = none := by
    intro n hn
    rw [valueAt]
    split
    · refine Function.update_of_ne (fun h => hn ?_) _ _
      exact congrArg Fin.val h
    · rfl
  have hvalue : valueAt (setValues noValues [(0, some sampleValue.1)]) 0 = some sampleValue.1 := rfl
  have hmessages : nodeMessages sampleOpts (.stem op.stem.1 (setValues noValues writes)) ⊆
      {m | m ∈ firstMessages} := by
    rw [hstem, hvalues]
    refine Set.union_subset (fun m hm => ?_) ((layerMessages_first hfirst 8).trans fun m hm => ?_)
    · rw [valuesHash, layerHash_first hfirst, hvalue] at hm
      rw [Set.mem_singleton_iff.1 hm]
      exact .tail _ (.tail _ (.head _))
    · rw [hvalue] at hm
      rcases hm with rfl | hm | ⟨j, hj, rfl⟩
      · exact .head _
      · cases hm
        exact .tail _ (.head _)
      · exact .tail _ (.tail _ (.tail _ (List.mem_map.2 ⟨j, List.mem_range.2 hj, rfl⟩)))
  refine ⟨⟨fun _ hidle => ?_, trivial⟩,
    (hashedIn_first 248 length_sampleHash rfl hwrites hmessages).2⟩
  obtain ⟨writes', hsome, hnone⟩ := hidle
  cases hwrites.symm.trans hsome
  rw [hvalues] at hnone
  cases congrFun hnone 0

/-- One put is a fair run. -/
theorem fairRun_putFirst : FairRun sampleOpts 248 {m | m ∈ firstMessages} [putFirst] :=
  fairRun_first writes_putFirst rfl rfl

/-- The same write with a null beside it. -/
def putWithNull : BinaryTreeOp :=
  .put sampleStem [.integer 0, .integer 1] [some sampleValue, none]

private theorem writes_putWithNull :
    putWithNull.writes = some [(0, some sampleValue.1), (1, none)] := by
  rfl

/-- Writing null where nothing is changes no value. -/
private theorem setValues_putWithNull : setValues noValues [(0, some sampleValue.1), (1, none)] =
    setValues noValues [(0, some sampleValue.1)] := by
  change Function.update (setValues noValues [(0, some sampleValue.1)]) 1 none = _
  refine Function.update_eq_self_iff.2 ?_
  change none = Function.update noValues 0 (some sampleValue.1) 1
  rw [Function.update_of_ne (by decide)]
  rfl

private theorem mapOf_putWithNull : mapOf [putWithNull] = mapOf [putFirst] := by
  change putWithNull.apply _ = putFirst.apply _
  rw [BinaryTreeOp.apply, BinaryTreeOp.apply, writes_putWithNull, writes_putFirst]
  exact congrArg (Function.update (fun _ => noValues) sampleStem) setValues_putWithNull

/-- A stem that is not written. -/
def absentStem : Stem := ⟨List.replicate 31 0, rfl⟩

theorem mapOf_absentStem (i : Fin NODE_WIDTH) : mapOf [putFirst] absentStem i = none := by
  change putFirst.apply (fun _ => noValues) absentStem i = _
  rw [BinaryTreeOp.apply, writes_putFirst]
  change Function.update (fun _ => noValues) sampleStem _ absentStem i = _
  rw [Function.update_of_ne (by decide)]
  rfl

/-- A value, an absent one, and the root of another way to the same map. -/
theorem readsMap_and_root_putFirst :
    (∃ values, get 248 (runOps sampleOpts 248 create [putFirst]) sampleStem.1 [.integer 0] =
      .ok values ∧ readAt values 0 = some sampleValue.1) ∧
    (∃ values, get 248 (runOps sampleOpts 248 create [putFirst]) absentStem.1 [.integer 0] =
      .ok values ∧ readAt values 0 = none) ∧
    (runOps sampleOpts 248 create [putWithNull]).root =
      (runOps sampleOpts 248 create [putFirst]).root := by
  obtain ⟨hreads, hroot, -⟩ := readsMap_and_root hashOn_firstMessages le_rfl fairRun_putFirst
  obtain ⟨values, hget, hread⟩ := hreads sampleStem [.integer 0] [0] rfl
  obtain ⟨values', hget', hread'⟩ := hreads absentStem [.integer 0] [0] rfl
  refine ⟨⟨values, hget, (hread 0).trans mapOf_putFirst⟩,
    ⟨values', hget', (hread' 0).trans (mapOf_absentStem 0)⟩, ?_⟩
  exact hroot _ (fairRun_first writes_putWithNull rfl setValues_putWithNull) mapOf_putWithNull

end Sample

end BinaryTree

end Tvmjs
