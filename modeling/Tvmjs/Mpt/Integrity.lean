import Mathlib.Order.Lattice.Nat
import Tvmjs.Mpt.FiniteMap

/-!
# Pruned tries

What is left in the database of a trie that prunes, and what `verifyPrunedIntegrity` says about it.

* `pruned_run` -- **pruning is safe and complete** over every run none of whose writes deletes a
  node that stands at another place as well;
* `pruned_sharedLeaf` -- a run on which it is not.
-/

namespace Tvmjs

open RLP (Input)

open PathTrie MerklePatriciaTrie CheckpointDB

/-- A callback throws an error which nothing waits for. -/
inductive UnhandledRejection where
  | typeError
  deriving DecidableEq

namespace MerklePatriciaTrie

variable (opts : MPTOpts)

/-- Run a method and catch what it throws. -/
def attempt {α : Type} (x : TrieM α) : Prog MerklePatriciaTrie UnhandledRejection (Option α) :=
  fun s => match x s with
    | (.ok a, s') => (.ok (some a), s')
    | (.error _, s') => (.ok none, s')

/-- The key that holds the root where the root is persisted. -/
def ROOT_DB_KEY : Bytes := [0x5f, 0x5f, 0x72, 0x6f, 0x6f, 0x74, 0x5f, 0x5f]

/-- Whether a slot refers to what is stored under a key. -/
def slotRefers (dbKey : Bytes) : Input → Bool
  | .bytes branchRef => branchRef = dbKey
  | .list branchRef => opts.appliedKey (RLP.encode (.list branchRef)) = dbKey

/-- Walks the trie in search of a reference to a key; nothing if a node is missing.  The reference
of an extension is taken for a hash, whatever it is.  In a database where a node is missing the
answer of the code depends on the order of the lookups as well. -/
def walkFor (dbKey : Bytes) : ℕ → Input → Prog MerklePatriciaTrie UnhandledRejection (Option Bool)
  | 0, _ => pure none
  | fuel + 1, nodeRef => do
    match ← attempt (lookupNode opts nodeRef) with
    | none => pure none
    | some (.leaf _ _) => pure (some false)
    | some (.extension _ (.list _)) => Prog.throw .typeError
    | some (.extension _ (.bytes value)) =>
      if value = dbKey then pure (some true) else walkFor dbKey fuel (.bytes value)
    | some (.branch branches _) =>
      if (List.finRange 16).any fun i => slotRefers opts dbKey (branches i) then pure (some true)
      else
        (getChildren branches).foldlM (fun found child =>
          if found = some false then walkFor dbKey fuel child.2 else pure found) (some false)

/-- The keys on disk. -/
def diskKeys (db : Entries) : List Bytes :=
  (db.map Prod.fst).dedup.filter fun key => (db.lookup key).join.isSome

/-- Whether the trie refers to each of some keys. -/
def findKeys (fuel : ℕ) (roots : List Bytes) (root : Bytes) :
    List Bytes → Prog MerklePatriciaTrie UnhandledRejection Bool
  | [] => pure true
  | dbKey :: dbKeys =>
    if dbKey ∈ roots then findKeys fuel roots root dbKeys
    else do
      match ← walkFor opts dbKey fuel (.bytes root) with
      | some true => findKeys fuel roots root dbKeys
      | _ => pure false

/-- Verifies that every key in the DB is reachable from the root. -/
def verifyPrunedIntegrity (fuel : ℕ) : Prog MerklePatriciaTrie UnhandledRejection Bool := do
  let t ← Prog.gets id
  findKeys opts fuel [t.root, opts.appliedKey ROOT_DB_KEY] t.root (diskKeys t.db.db)

end MerklePatriciaTrie

variable {opts : MPTOpts}

/-! ### The walk for a key -/

/-- No extension of the trie holds its branch itself. -/
def NoEmbeddedBranch (opts : MPTOpts) : Tree → Prop
  | .nil => True
  | .leaf _ _ => True
  | .ext _ c => (∃ hash, treeRef opts c = .bytes hash) ∧ NoEmbeddedBranch opts c
  | .branch c _ => ∀ i, NoEmbeddedBranch opts (c i)

/-- What the check asks of a trie: that there is none, or that its nodes are stored under their
hashes alone and either nothing is stored below the root or no extension holds its branch itself. -/
def Checkable (opts : MPTOpts) (t : Tree) : Prop :=
  t = .nil ∨ opts.keyPrefix = [] ∧ (childStrings opts t = ∅ ∨ NoEmbeddedBranch opts t)

/-- The height of a trie. -/
def height : Tree → ℕ
  | .nil => 0
  | .leaf _ _ => 1
  | .ext _ c => height c + 1
  | .branch c _ => (Finset.univ.sup fun i => height (c i)) + 1

private theorem run_attempt_of_ok {α : Type} {x : TrieM α} {s s' : MerklePatriciaTrie} {a : α}
    (h : x.run s = (.ok a, s')) : (attempt x).run s = (.ok (some a), s') := by
  change (match x.run s with | (.ok a, s') => _ | (.error _, s') => _) = _
  rw [h]

section Walk

variable {S : Set Bytes} (hlen : ∀ v, (opts.hash v).length = 32) (hS : Set.InjOn opts.hash S)

/-- What a walk says of a key. -/
def WalkSays (opts : MPTOpts) (s : MerklePatriciaTrie) (fuel : ℕ) (ref : Input) (dbKey : Bytes)
    (P : Prop) : Prop :=
  ∃ b s', s.Reads s' ∧ (walkFor opts dbKey fuel ref).run s = (.ok (some b), s') ∧ (P → b = true)

/-- Walks through some children, one after the other. -/
private theorem run_children (opts : MPTOpts) (dbKey : Bytes) (fuel : ℕ)
    (refs : List (Nibble × Input))
    {s : MerklePatriciaTrie} {P : Nibble × Input → Prop}
    (h : ∀ r ∈ refs, ∀ s', s.Reads s' → WalkSays opts s' fuel r.2 dbKey (P r)) (found : Bool) :
    ∃ b s', s.Reads s' ∧ (refs.foldlM (fun found child =>
        if found = some false then walkFor opts dbKey fuel child.2 else pure found)
        (some found)).run s = (.ok (some b), s') ∧
      ((found = true ∨ ∃ r ∈ refs, P r) → b = true) := by
  induction refs generalizing s found with
  | nil => exact ⟨found, s, .refl s, rfl, by simp⟩
  | cons r refs ih =>
    rw [List.foldlM_cons]
    cases found with
    | true =>
      obtain ⟨b, s', hr, hrun, hb⟩ := ih (fun r' hr' => h r' (List.mem_cons_of_mem r hr')) true
      exact ⟨b, s', hr, hrun, fun _ => hb (.inl rfl)⟩
    | false =>
      obtain ⟨b, s₁, hr, hrun, hb⟩ := h r List.mem_cons_self s (.refl s)
      obtain ⟨b', s₂, hr₂, hrun₂, hb'⟩ := ih (s := s₁)
        (fun r' hr' s' hs' => h r' (List.mem_cons_of_mem r hr') s' (hr.trans hs')) b
      refine ⟨b', s₂, hr.trans hr₂, ?_, ?_⟩
      · rw [if_pos rfl, Prog.run_bind_of_ok hrun]
        exact hrun₂
      · rintro (hfalse | ⟨r', hr', hP⟩)
        · cases hfalse
        · rcases List.mem_cons.1 hr' with rfl | hr'
          · exact hb' (.inl (hb hP))
          · exact hb' (.inr ⟨r', hr', hP⟩)

include hlen hS in
/-- **The walk finds what stands below a node.** -/
theorem walkSays {t : Tree} {P : Finset (Option Nibble) → Prop} (hp : Packed P t)
    (hembed : NoEmbeddedBranch opts t) (ht : strings opts t ⊆ S)
    (hshort : t.Short (2 ^ 60)) {fuel : ℕ} (hfuel : height t ≤ fuel) {ref : Input}
    {s : MerklePatriciaTrie} (hst : StoresIn opts S s.db) (hstored : Stored opts s.db t)
    (href : Resolves opts s.db ref (treeNode opts t)) (dbKey : Bytes) :
    WalkSays opts s fuel ref dbKey (∃ v ∈ childStrings opts t, dbKey = opts.hash v) := by
  induction hp generalizing fuel ref s with
  | leaf p v =>
    obtain ⟨fuel, rfl⟩ : ∃ m, fuel = m + 1 := ⟨fuel - 1, by simp only [height] at hfuel; omega⟩
    obtain ⟨s', hr, hlook⟩ := run_lookupNode_of_resolves href
    refine ⟨false, s', hr, ?_, fun ⟨v, hv, _⟩ => absurd hv (Set.notMem_empty v)⟩
    rw [walkFor, Prog.run_bind_of_ok (run_attempt_of_ok hlook)]
    rfl
  | @ext p c w hne hb ih =>
    obtain ⟨fuel, rfl⟩ : ∃ m, fuel = m + 1 := ⟨fuel - 1, by simp only [height] at hfuel; omega⟩
    obtain ⟨s', hr, hlook⟩ := run_lookupNode_of_resolves href
    obtain ⟨⟨b, hb'⟩, hembed'⟩ := hembed
    have hchild : strings opts (.branch c w) ⊆ S := Set.subset_union_right.trans ht
    have hstored' : Stored opts s'.db (.branch c w) := fun e he => (hstored e (.inr he)).reads hr.db
    have hresolves := ((hst.reads hr.db).resolves_or hlen hS (by simp) hchild
      hshort.2).resolve_right fun hd => hd.2 (hstored'.nodeHeld (by simp))
    have hwalk : (walkFor opts dbKey (fuel + 1) ref).run s =
        (if b = dbKey then pure (some true) else walkFor opts dbKey fuel (.bytes b) :
          Prog MerklePatriciaTrie UnhandledRejection (Option Bool)).run s' := by
      rw [walkFor, Prog.run_bind_of_ok (run_attempt_of_ok hlook), treeNode, hb']
    by_cases heq : b = dbKey
    · refine ⟨true, s', hr, ?_, fun _ => rfl⟩
      rw [hwalk, if_pos heq]
      rfl
    · rw [hb'] at hresolves
      have hle : height (.branch c w) ≤ fuel := by
        change height (.branch c w) + 1 ≤ fuel + 1 at hfuel
        omega
      obtain ⟨found, s'', hr', hrun, hfound⟩ :=
        ih hembed' hchild hshort.2 hle (hst.reads hr.db) hstored' hresolves
      refine ⟨found, s'', hr.trans hr', ?_, ?_⟩
      · rw [hwalk, if_neg heq]
        exact hrun
      · rintro ⟨v, hv, rfl⟩
        rcases hv with ⟨rfl, hlong⟩ | hv
        · -- the branch itself: the extension holds its hash
          rw [treeRef_of_ne_nil (by simp), nodeRef] at hb'
          have hb'' := (if_pos hlong).symm.trans hb'
          exact absurd (Input.bytes.inj hb'').symm heq
        · exact hfound ⟨v, hv, rfl⟩
  | @branch c w hc hn ih =>
    obtain ⟨fuel, rfl⟩ : ∃ m, fuel = m + 1 := ⟨fuel - 1, by simp only [height] at hfuel; omega⟩
    obtain ⟨s', hr, hlook⟩ := run_lookupNode_of_resolves href
    by_cases hany : (List.finRange 16).any (fun i => slotRefers opts dbKey (treeRef opts (c i))) =
      true
    · refine ⟨true, s', hr, ?_, fun _ => rfl⟩
      rw [walkFor, Prog.run_bind_of_ok (run_attempt_of_ok hlook)]
      change (if _ then _ else _ : Prog MerklePatriciaTrie UnhandledRejection
        (Option Bool)).run s' = _
      rw [if_pos hany]
      rfl
    · have hchildren := run_children opts dbKey fuel
        ((childSlots c).map fun i => (i, treeRef opts (c i))) (s := s') (P := fun r =>
          ∃ v ∈ childStrings opts (c r.1), dbKey = opts.hash v) (by
          rintro r hr' s₁ hr₁
          obtain ⟨i, hi, rfl⟩ := List.mem_map.1 hr'
          have hne := mem_childSlots.1 hi
          have hchild : strings opts (c i) ⊆ S :=
            (Set.subset_iUnion (fun s => strings opts (c s)) i).trans
              (Set.subset_union_right.trans ht)
          have hreads := hr.trans hr₁
          have hstored' : Stored opts s₁.db (c i) := fun e he =>
            (hstored e (.inr (Set.mem_iUnion.2 ⟨i, he⟩))).reads hreads.db
          have hresolves := ((hst.reads hreads.db).resolves_or hlen hS hne hchild
            (hshort i)).resolve_right fun hd => hd.2 (hstored'.nodeHeld hne)
          have hle : height (c i) ≤ fuel := by
            have hsup := Finset.le_sup (f := fun i => height (c i)) (Finset.mem_univ i)
            change (Finset.univ.sup fun i => height (c i)) + 1 ≤ fuel + 1 at hfuel
            omega
          exact ih i hne (hembed i) hchild (hshort i) hle (hst.reads hreads.db) hstored' hresolves)
        false
      obtain ⟨b, s'', hr', hrun, hb⟩ := hchildren
      refine ⟨b, s'', hr.trans hr', ?_, ?_⟩
      · rw [walkFor, Prog.run_bind_of_ok (run_attempt_of_ok hlook)]
        change (if _ then _ else _ : Prog MerklePatriciaTrie UnhandledRejection
          (Option Bool)).run s' = _
        rw [if_neg hany, getChildren_treeRef hlen]
        exact hrun
      · rintro ⟨v, hv, rfl⟩
        obtain ⟨i, hi⟩ := Set.mem_iUnion.1 hv
        have hne : c i ≠ .nil := by
          intro hnil
          rw [hnil] at hi
          exact absurd hi (Set.notMem_empty v)
        refine hb (.inr ⟨(i, treeRef opts (c i)), List.mem_map.2 ⟨i, mem_childSlots.2 hne, rfl⟩,
          v, ?_, rfl⟩)
        rw [strings_eq hne] at hi
        rcases hi with ⟨rfl, hlong⟩ | hi
        · -- the child itself: its slot would have been noticed
          refine absurd (List.any_eq_true.2 ⟨i, List.mem_finRange i, ?_⟩) hany
          rw [treeRef_of_ne_nil hne, nodeRef, if_pos hlong]
          exact decide_eq_true rfl
        · exact hi

variable (hempty : RLP_EMPTY_STRING ∈ S) {t : Tree} {P : Finset (Option Nibble) → Prop}

include hlen hS in
/-- Every key of a node of the trie is found. -/
private theorem run_findKeys {s : MerklePatriciaTrie} (hp : t = .nil ∨ Packed P t)
    (h : Roots opts S s t)
    (hc : Complete opts s.db t) (hembed : childStrings opts t = ∅ ∨ NoEmbeddedBranch opts t)
    {fuel : ℕ} (hfuel : height t ≤ fuel) {dbKeys : List Bytes}
    (hkeys : ∀ dbKey ∈ dbKeys, ∃ v ∈ nodeStrings opts t, dbKey = opts.hash v) :
    ∃ s', (findKeys opts fuel [s.root, opts.appliedKey ROOT_DB_KEY] s.root dbKeys).run s =
      (.ok true, s') := by
  induction dbKeys generalizing s with
  | nil => exact ⟨s, rfl⟩
  | cons dbKey dbKeys ih =>
    have hrest : ∀ key ∈ dbKeys, ∃ v ∈ nodeStrings opts t, key = opts.hash v := fun key hkey =>
      hkeys key (List.mem_cons_of_mem dbKey hkey)
    rw [findKeys]
    by_cases hroot : dbKey ∈ [s.root, opts.appliedKey ROOT_DB_KEY]
    · rw [if_pos hroot]
      exact ih h hc hrest
    · rw [if_neg hroot]
      obtain ⟨v, hv, hkey⟩ := hkeys dbKey List.mem_cons_self
      have hne : t ≠ .nil := by
        rintro rfl
        rcases hv with hv | ⟨hne, -⟩
        · exact Set.notMem_empty v hv
        · exact hne rfl
      have htop : v ≠ (treeNode opts t).serialize := by
        rintro rfl
        refine hroot (List.mem_cons.2 (.inl ?_))
        rw [hkey, h.root, rootHash_of_ne_nil hne]
      have hbelow : v ∈ childStrings opts t := by
        have hstring := hv.resolve_right fun hv => htop hv.2
        rw [strings_eq hne] at hstring
        exact hstring.resolve_left fun hlong => htop hlong.1
      have hembed' := hembed.resolve_left fun hnone => Set.notMem_empty v (hnone ▸ hbelow)
      have hresolves := (h.stores.resolves_root_or hlen hS hne (h.committed.top hne)
        h.committed.short).resolve_right fun hd => hd.2 (hc.top hne)
      rw [← h.root] at hresolves
      obtain ⟨b, s', hr, hrun, hb⟩ := walkSays hlen hS (hp.resolve_left hne) hembed'
        h.committed.strings h.committed.short hfuel h.stores hc.stored hresolves dbKey
      rw [hb ⟨v, hbelow, hkey⟩] at hrun
      rw [Prog.run_bind_of_ok hrun, ← hr.root]
      exact ih (h.reads hr) (hc.reads hr.db) hrest

include hlen hS hempty in
/-- **An exact database passes the check**, if the trie is checkable. -/
theorem run_verifyPrunedIntegrity {s : MerklePatriciaTrie} (hp : t = .nil ∨ Packed P t)
    (h : Roots opts S s t) (hx : Exact opts s.db t) (hflat : s.db.checkpoints = [])
    (hcheck : Checkable opts t) {fuel : ℕ} (hfuel : height t ≤ fuel) :
    ∃ s', (verifyPrunedIntegrity opts fuel).run s = (.ok true, s') := by
  have hkeys : ∀ dbKey ∈ diskKeys s.db.db,
      ∃ v ∈ nodeStrings opts t, dbKey = opts.getDbKey (opts.hash v) := by
    intro dbKey hkey
    obtain ⟨v, hv⟩ := Option.isSome_iff_exists.1 (List.mem_filter.1 hkey).2
    have hview : s.db.view dbKey = some v := by
      rw [view, CheckpointDB.entries, hflat]
      exact hv
    exact ⟨v, (hx dbKey v).1 hview⟩
  have hcomplete := hx.complete hlen hS hempty h.committed
  rcases hcheck with rfl | ⟨hpre, hembed⟩
  · -- nothing is stored, whatever the prefix of the keys
    have hnone : ∀ v, v ∉ nodeStrings opts .nil := by
      rintro v (hv | ⟨hne, -⟩)
      · exact Set.notMem_empty v hv
      · exact hne rfl
    refine run_findKeys hlen hS hp h hcomplete (.inl rfl) hfuel fun dbKey hkey => ?_
    obtain ⟨v, hv, -⟩ := hkeys dbKey hkey
    exact absurd hv (hnone v)
  · refine run_findKeys hlen hS hp h hcomplete hembed hfuel fun dbKey hkey => ?_
    obtain ⟨v, hv, hdbKey⟩ := hkeys dbKey hkey
    refine ⟨v, hv, hdbKey.trans ?_⟩
    rw [MPTOpts.getDbKey, hpre, List.nil_append]

end Walk

/-- **Pruning is safe and complete** over every run of writes with keys of one length none of which
deletes a node that stands beside the path of its key as well: every node of the trie is in the
database, nothing else is, lookups are those of the map, and the check of the database agrees. -/
theorem pruned_run (hprune : opts.useNodePruning = true) {S : Set Bytes} (hS : HashOn opts S)
    {n : ℕ}
    {ops : List TrieOp} (h : FairRun opts S n ops) :
    (runOps opts ops).run (create opts (ofEntries [])) = (.ok (), trieOf opts ops) ∧
    ∃ t, Roots opts S (trieOf opts ops) t ∧ Complete opts (trieOf opts ops).db t ∧
      (∀ key v, (trieOf opts ops).db.view key = some v →
        v ∈ nodeStrings opts t ∧ key = opts.getDbKey (opts.hash v)) ∧
      (∀ k ∈ keysOf opts S n, ∃ s', (get opts k false).run (trieOf opts ops) =
        (.ok (mapOf ops k), s')) ∧
      (Checkable opts t → ∀ fuel ≥ height t, ∃ s',
        (verifyPrunedIntegrity opts fuel).run (trieOf opts ops) = (.ok true, s')) := by
  obtain ⟨hrun, hreflects⟩ := h.reflects hS
  have hexact := hreflects.exact hprune
  have hflat : (trieOf opts ops).db.checkpoints = [] := flat_runOps ops _ rfl
  refine ⟨hrun, _, hreflects.roots, hreflects.complete, fun key v => (hexact key v).1,
    fun k hk => ?_, fun hcheck fuel hfuel => ?_⟩
  · obtain ⟨s', -, hget⟩ := hreflects.run_get hS.length hS.injOn hk
    exact ⟨s', hget⟩
  · exact run_verifyPrunedIntegrity hS.length hS.injOn hS.empty hreflects.packed hreflects.roots
      hexact hflat hcheck hfuel

/-- The first of three keys gets a new value. -/
def overwritten : List TrieOp :=
  threeKeys ++ [.put (oneByte 0x12) ⟨List.replicate 32 4, by decide⟩]

/-- The branch at the root, the one below it and two leaves stand beside the path or are written
anew; the old nodes are gone. -/
theorem pruned_run_overwritten : ∃ t,
    Complete pruneOpts (trieOf pruneOpts overwritten).db t ∧
      (∀ key v, (trieOf pruneOpts overwritten).db.view key = some v →
        v ∈ nodeStrings pruneOpts t ∧ key = pruneOpts.getDbKey (pruneOpts.hash v)) ∧
      (∃ s', (get pruneOpts [0x12] false).run (trieOf pruneOpts overwritten) =
        (.ok (some (List.replicate 32 4)), s')) ∧
      ∃ s', (get pruneOpts [0x13] false).run (trieOf pruneOpts overwritten) =
        (.ok (some (List.replicate 32 2)), s') := by
  have hS : HashOn pruneOpts {e | e ∈ storedStrings pruneOpts overwritten} :=
    hashOn_storedStrings pruneOpts length_polyHash (by decide +kernel) (by decide +kernel)
  have hfair : FairRun pruneOpts {e | e ∈ storedStrings pruneOpts overwritten} 1 overwritten := by
    refine ⟨?_, fun _ => ⟨?_, ?_, ?_, ?_, trivial⟩, contents_subset_storedStrings _ _⟩
    · have hkeys : ∀ op ∈ overwritten, op.key.1.length = 1 := by decide
      exact fun op hop => ⟨hkeys op hop, op.key.2, nofun⟩
    · exact TrieOp.apart_put _ (by decide) (by decide +kernel)
    · exact TrieOp.apart_put _ (by decide) (by decide +kernel)
    · exact TrieOp.apart_put _ (by decide) (by decide +kernel)
    · exact TrieOp.apart_put _ (by decide) (by decide +kernel)
  obtain ⟨-, t, -, hcomplete, hview, hget, -⟩ := pruned_run rfl hS hfair
  have hkeys : ∀ b : UInt8, [b] ∈ keysOf pruneOpts
    {e | e ∈ storedStrings pruneOpts overwritten} 1 :=
    fun b => ⟨rfl, length_oneByte b, nofun⟩
  exact ⟨t, hcomplete, hview, hget _ (hkeys 0x12), hget _ (hkeys 0x13)⟩

/-- **A node that stands at two places is deleted with the first of them**: a key keeps its value in
the map and loses it in the trie. -/
theorem pruned_sharedLeaf :
    ((runOps pruneOpts sharedLeaf).run (create pruneOpts (ofEntries []))).1 = .ok () ∧
      mapOf sharedLeaf [0x20] = some longValue.1 ∧
      ((get pruneOpts [0x20] false).run (trieOf pruneOpts sharedLeaf)).1 = .ok none ∧
      Set.InjOn pruneOpts.hash (trieOf pruneOpts sharedLeaf).db.contents := by
  refine ⟨by decide +kernel, by decide +kernel, by decide +kernel, ?_⟩
  exact injOn_contents (by decide +kernel)

end Tvmjs
