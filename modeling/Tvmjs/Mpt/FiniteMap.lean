import Tvmjs.Mpt.Runs

/-!
# The trie as a finite map

* `root_of_map` -- **the root depends on the map only**, for keys of one length;
* `get_of_safe_run` -- **lookups are those of the map**, for any keys, as long as no deletion
  keeps the value it should remove or drops another one.
-/

namespace Tvmjs

open PathTrie MerklePatriciaTrie

variable {opts : MPTOpts}

/-- The map after some writes to an empty trie. -/
def mapOf (ops : List TrieOp) : Bytes → Option Bytes := applyOps ops fun _ => none

/-- The trie after some writes to a new trie. -/
def trieOf (opts : MPTOpts) (ops : List TrieOp) : MerklePatriciaTrie :=
  ((runOps opts ops).run (create opts (CheckpointDB.ofEntries []))).2

/-- The keys of a length; where keys are hashed, those the hash is assumed to keep apart. -/
def keysOf (opts : MPTOpts) (S : Set Bytes) (n : ℕ) : Set Bytes :=
  {k | k.length = n ∧ k.length < 2 ^ 53 ∧ (opts.useKeyHashing = true → k ∈ S)}

/-! ### Keys of one length -/

section OneLength

variable {S : Set Bytes} (hlen : ∀ v, (opts.hash v).length = 32) (hS : Set.InjOn opts.hash S)
  (hempty : RLP_EMPTY_STRING ∈ S) (hclosed : opts.useNodePruning = true → Closed S) {n : ℕ}

include hS in
private theorem injOn_appliedKey : Set.InjOn opts.appliedKey (keysOf opts S n) := by
  intro k hk k' hk' h
  rw [MPTOpts.appliedKey, MPTOpts.appliedKey] at h
  split at h
  · rename_i hhash
    exact hS (hk.2.2 hhash) (hk'.2.2 hhash) h
  · exact h

include hlen in
/-- Hashed or not, the keys have one length. -/
private theorem exists_words {s : MerklePatriciaTrie} {m : Bytes → Option Bytes} {t : Tree}
    (h : Reflects opts S (keysOf opts S n) (AtLeast 2) s m t) :
    ∃ N, Words N t ∧ ∀ k ∈ keysOf opts S n, (bytesToNibbles (opts.appliedKey k)).length = N := by
  have hkey : ∀ k ∈ keysOf opts S n, (bytesToNibbles (opts.appliedKey k)).length =
      2 * if opts.useKeyHashing then 32 else n := by
    intro k hk
    rw [length_bytesToNibbles, MPTOpts.appliedKey]
    split
    · rw [hlen]
    · rw [hk.1]
  refine ⟨_, fun w hw => ?_, hkey⟩
  obtain ⟨k, hk, rfl⟩ := h.words w hw
  exact hkey k hk

include hlen hS hempty hclosed in
/-- One deletion. -/
private theorem reflects_del {s : MerklePatriciaTrie} {m : Bytes → Option Bytes} {t : Tree}
    (h : Reflects opts S (keysOf opts S n) (AtLeast 2) s m t) {key : Bytes}
    (hkey : key ∈ keysOf opts S n) (hapart : opts.useNodePruning = true →
      DelApart opts t (bytesToNibbles (opts.appliedKey key))) :
    ∃ s', (del opts key).run s = (.ok (), s') ∧ (s'.db.contents ⊆ S →
      Reflects opts S (keysOf opts S n) (AtLeast 2) s' (Function.update m key none)
        (erase t (bytesToNibbles (opts.appliedKey key)))) := by
  obtain ⟨N, hwords, hN⟩ := exists_words hlen h
  obtain ⟨herase, hpacked⟩ : EraseSafe t (bytesToNibbles (opts.appliedKey key)) ∧
      (erase t (bytesToNibbles (opts.appliedKey key)) = .nil ∨
        Canonical (erase t (bytesToNibbles (opts.appliedKey key)))) := by
    rcases h.packed with rfl | hp
    · exact ⟨trivial, .inl rfl⟩
    · exact ⟨hwords.eraseSafe hp (hN key hkey), hwords.canonical_erase hp _⟩
  refine h.del hlen hS hempty hclosed (fun o h2 => le_trans (by decide) h2) (injOn_appliedKey hS)
    (fun k hk => hk.2.1) hkey herase hpacked fun hprune hc' => ?_
  rcases h.packed with rfl | hp
  · exact fun hfound => absurd hfound (by simp [foundPath, find, foundNode])
  · exact delSafe_of_apart hlen hS hp hwords (hN key hkey) h.roots h.complete hc' (hapart hprune)

include hlen hS hempty hclosed in
/-- **One write**, whichever it is, succeeds and is one in the map. -/
theorem reflects_run {s : MerklePatriciaTrie} {m : Bytes → Option Bytes} {t : Tree}
    (h : Reflects opts S (keysOf opts S n) (AtLeast 2) s m t) {op : TrieOp}
    (hkey : op.key.1 ∈ keysOf opts S n) (hapart : opts.useNodePruning = true → op.Apart opts t) :
    ∃ s', (op.run opts).run s = (.ok (), s') ∧ (s'.db.contents ⊆ S →
      Reflects opts S (keysOf opts S n) (AtLeast 2) s' (op.apply m) (op.tree opts t)) := by
  cases op with
  | del key => exact reflects_del hlen hS hempty hclosed h hkey hapart
  | put key value =>
    by_cases hv : value.1 = []
    · have hput : put opts key.1 value.1 = del opts key.1 := by
        rw [MerklePatriciaTrie.put, hv]
        rfl
      have hmap : (TrieOp.put key value).apply m = Function.update m key.1 none := by
        rw [TrieOp.apply, if_pos hv]
      rw [TrieOp.run, hput, hmap, TrieOp.tree, dif_pos hv]
      rw [TrieOp.Apart, dif_pos hv] at hapart
      exact reflects_del hlen hS hempty hclosed h hkey hapart
    · have hmap : (TrieOp.put key value).apply m = Function.update m key.1 (some value.1) := by
        rw [TrieOp.apply, if_neg hv]
      rw [hmap, TrieOp.tree, dif_neg hv]
      rw [TrieOp.Apart, dif_neg hv] at hapart
      obtain ⟨N, hwords, hN⟩ := exists_words hlen h
      refine h.put hlen hS hempty hclosed (injOn_appliedKey hS) hkey key.2
        ⟨value.1, hv, value.2⟩ fun hprune hne hc' => ?_
      exact putSafe_of_apart hlen hS (h.packed.resolve_left hne).live hwords (hN _ hkey)
        h.roots.committed hc' (hapart hprune)

include hlen hS hempty hclosed in
/-- **Any sequence of writes** succeeds and leaves the trie of the map, as long as, where nodes are
pruned, no write deletes a node that is needed elsewhere. -/
theorem reflects_runOps {s : MerklePatriciaTrie} {m : Bytes → Option Bytes} {t : Tree}
    (h : Reflects opts S (keysOf opts S n) (AtLeast 2) s m t) (ops : List TrieOp)
    (hkeys : ∀ op ∈ ops, op.key.1 ∈ keysOf opts S n)
    (hapart : opts.useNodePruning = true → ApartRun opts ops t)
    (hin : ((runOps opts ops).run s).2.db.contents ⊆ S) :
    ∃ s', (runOps opts ops).run s = (.ok (), s') ∧
      Reflects opts S (keysOf opts S n) (AtLeast 2) s' (applyOps ops m) (treeOf opts ops t) := by
  induction ops generalizing s m t with
  | nil => exact ⟨s, rfl, h⟩
  | cons op ops ih =>
    obtain ⟨s₁, hrun, hreflects⟩ := reflects_run hlen hS hempty hclosed h
      (hkeys op List.mem_cons_self) fun hprune => (hapart hprune).1
    have hcons : (runOps opts (op :: ops)).run s = (runOps opts ops).run s₁ :=
      Prog.run_bind_of_ok hrun
    rw [hcons] at hin ⊢
    have hin₁ : s₁.db.contents ⊆ S := (grows_runOps ops s₁).trans hin
    exact ih (hreflects hin₁) (fun op' hop' => hkeys op' (List.mem_cons_of_mem op hop'))
      (fun hprune => (hapart hprune).2) hin

end OneLength

/-- The writes that store some entries. -/
def putAll (entries : List (Uint8Array × Value)) : List TrieOp :=
  entries.map fun e => .put e.1 ⟨e.2.1, e.2.2.2⟩

private theorem applyOps_putAll {entries : List (Uint8Array × Value)}
    (hnodup : (entries.map Prod.fst).Nodup) (m : Bytes → Option Bytes) (k : Bytes) :
    applyOps (putAll entries) m k =
      ((entries.find? fun e => e.1.1 = k).map fun e => e.2.1).or (m k) := by
  induction entries generalizing m with
  | nil => rfl
  | cons e entries ih =>
    rw [List.map_cons, List.nodup_cons] at hnodup
    have happly : applyOps (putAll (e :: entries)) m =
        applyOps (putAll entries) (Function.update m e.1.1 (some e.2.1)) := by
      change applyOps (putAll entries) (Function.update m e.1.1
        (if e.2.1 = [] then none else some e.2.1)) = _
      rw [if_neg e.2.2.1]
    rw [happly, ih hnodup.2, List.find?_cons, Function.update_apply]
    by_cases hk : e.1.1 = k
    · have hnone : entries.find? (fun e => e.1.1 = k) = none := by
        rw [List.find?_eq_none]
        intro e' he' heq
        refine hnodup.1 (List.mem_map.2 ⟨e', he', Subtype.ext ?_⟩)
        rw [of_decide_eq_true heq, hk]
      simp [hk, hnone]
    · have hk' : ¬ k = e.1.1 := fun h => hk h.symm
      simp [hk, hk']

/-- A sequence of writes with keys of length `n`, of which none, where nodes are pruned, deletes a
node that is needed elsewhere; all strings it stores are in `S`. -/
structure FairRun (opts : MPTOpts) (S : Set Bytes) (n : ℕ) (ops : List TrieOp) : Prop where
  keys : ∀ op ∈ ops, op.key.1 ∈ keysOf opts S n
  apart : opts.useNodePruning = true → ApartRun opts ops .nil
  contents : (trieOf opts ops).db.contents ⊆ S

/-- What is assumed of the hash: it does not collide on `S`. -/
structure HashOn (opts : MPTOpts) (S : Set Bytes) : Prop where
  length : ∀ v, (opts.hash v).length = 32
  injOn : Set.InjOn opts.hash S
  empty : RLP_EMPTY_STRING ∈ S
  closed : opts.useNodePruning = true → Closed S

/-- The state a fair run reaches. -/
theorem FairRun.reflects {S : Set Bytes} (hS : HashOn opts S) {n : ℕ} {ops : List TrieOp}
    (h : FairRun opts S n ops) : (runOps opts ops).run (create opts (CheckpointDB.ofEntries [])) =
      (.ok (), trieOf opts ops) ∧
        Reflects opts S (keysOf opts S n) (AtLeast 2) (trieOf opts ops) (mapOf ops)
          (treeOf opts ops .nil) := by
  obtain ⟨s', hrun, hreflects⟩ := reflects_runOps hS.length hS.injOn hS.empty hS.closed
    (reflects_create S (keysOf opts S n) (AtLeast 2)) ops h.keys h.apart h.contents
  have hstate : trieOf opts ops = s' := congrArg Prod.snd hrun
  rw [hstate]
  exact ⟨hrun, hreflects⟩

/-- **The root depends on the map only.**  Two sequences of writes with keys of one length that
end in one map end in one root, the root of the empty map is the empty root, and every order in
which the entries of the map are put into a new trie leads to the same root. -/
theorem root_of_map {S : Set Bytes} (hS : HashOn opts S) {n : ℕ} {ops : List TrieOp}
    (h : FairRun opts S n ops) :
    (mapOf ops = (fun _ => none) → (trieOf opts ops).root = opts.EMPTY_TRIE_ROOT) ∧
      (∀ ops' : List TrieOp, FairRun opts S n ops' → mapOf ops' = mapOf ops →
        (trieOf opts ops').root = (trieOf opts ops).root) ∧
      ∀ entries : List (Uint8Array × Value), (entries.map Prod.fst).Nodup →
        FairRun opts S n (putAll entries) →
        (∀ k v, mapOf ops k = some v ↔ ∃ e ∈ entries, e.1.1 = k ∧ e.2.1 = v) →
          (trieOf opts (putAll entries)).root = (trieOf opts ops).root := by
  have hroot : ∀ ops' : List TrieOp, FairRun opts S n ops' → mapOf ops' = mapOf ops →
      (trieOf opts ops').root = (trieOf opts ops).root := by
    intro ops' h' hmap
    obtain ⟨-, hreflects⟩ := h.reflects hS
    obtain ⟨-, hreflects'⟩ := h'.reflects hS
    rw [hmap] at hreflects'
    rw [hreflects.roots.root, hreflects'.roots.root, hreflects.tree_eq hreflects']
  refine ⟨fun hnone => ?_, hroot, fun entries hnodup hfair hmap => hroot _ hfair ?_⟩
  · obtain ⟨-, hreflects⟩ := h.reflects hS
    rw [hnone] at hreflects
    have hnil : treeOf opts ops .nil = .nil :=
      hreflects.tree_eq (reflects_create S (keysOf opts S n) (AtLeast 2))
    rw [hreflects.roots.root, hnil]
    rfl
  · funext k
    rw [mapOf, applyOps_putAll hnodup]
    rcases hm : mapOf ops k with _ | v
    · have hnone : entries.find? (fun e => e.1.1 = k) = none := by
        rw [List.find?_eq_none]
        intro e he heq
        have hv := (hmap k e.2.1).2 ⟨e, he, of_decide_eq_true heq, rfl⟩
        rw [hm] at hv
        cases hv
      rw [hnone]
      rfl
    · obtain ⟨e, he, hek, hev⟩ := (hmap k v).1 hm
      obtain ⟨e', he'⟩ : ∃ e', entries.find? (fun e => e.1.1 = k) = some e' := by
        rw [← Option.isSome_iff_exists, List.find?_isSome]
        exact ⟨e, he, decide_eq_true hek⟩
      have hmem := List.mem_of_find?_eq_some he'
      have hkey := List.find?_some he'
      have hv := (hmap k e'.2.1).2 ⟨e', hmem, of_decide_eq_true hkey, rfl⟩
      rw [hm] at hv
      rw [he']
      exact hv.symm

/-- A hash that pads does not collide on short strings. -/
theorem hashOn_short {opts : MPTOpts} (h : opts.hash = padHash) :
    HashOn opts {b | b.length < 32} where
  length b := by
    rw [h]
    exact length_padHash b
  injOn := by
    rw [h]
    exact injOn_padHash
  empty := by decide
  closed _ := closed_short

/-- A run whose nodes are short. -/
private theorem fairRun_short {ops : List TrieOp} (hkeys : ∀ op ∈ ops, op.key.1.length = 1)
    (hprune : opts.useNodePruning = true → ApartRun opts ops .nil)
    (hhash : opts.useKeyHashing = false)
    (hin : ∀ e ∈ (trieOf opts ops).db.entries, ∀ v ∈ e.2, v.length < 32) :
    FairRun opts {b | b.length < 32} 1 ops where
  keys op hop := ⟨hkeys op hop, op.key.2, fun h => absurd (hhash.symm.trans h) (by simp)⟩
  apart := hprune
  contents := by
    rintro v ⟨key, hv⟩
    exact hin _ hv v rfl

/-- The strings that the database has held after some writes to a new trie. -/
def storedStrings (opts : MPTOpts) (ops : List TrieOp) : List Bytes :=
  RLP_EMPTY_STRING :: (trieOf opts ops).db.entries.filterMap Prod.snd

theorem contents_subset_storedStrings (opts : MPTOpts) (ops : List TrieOp) :
    (trieOf opts ops).db.contents ⊆ {e | e ∈ storedStrings opts ops} := by
  rintro e ⟨key, he⟩
  exact List.mem_cons_of_mem _ (List.mem_filterMap.2 ⟨_, he, rfl⟩)

/-- A hash that keeps these strings apart, where no node stands in another one. -/
theorem hashOn_storedStrings (opts : MPTOpts) (hlen : ∀ v, (opts.hash v).length = 32)
    {ops : List TrieOp} (hinj : ((storedStrings opts ops).map opts.hash).Nodup)
    (hflat : ∀ e ∈ storedStrings opts ops, isFlat e ∧ e.length < 2 ^ 64) :
    HashOn opts {e | e ∈ storedStrings opts ops} where
  length := hlen
  injOn _ he _ he' heq := List.inj_on_of_nodup_map hinj he he' heq
  empty := List.mem_cons_self
  closed _ := closed_of_isFlat hflat

theorem hashOn_threeKeys : HashOn polyOpts {e | e ∈ storedStrings polyOpts threeKeys} :=
  hashOn_storedStrings polyOpts length_polyHash (by decide +kernel) (by decide +kernel)

/-- The root of two keys, of which one was deleted. -/
theorem root_of_map_afterDel :
    (trieOf padOpts [.put ⟨[0x12], by decide⟩ ⟨[0xab], by decide⟩]).root =
      (trieOf padOpts [.put ⟨[0x34], by decide⟩ ⟨[0xcd], by decide⟩,
        .put ⟨[0x12], by decide⟩ ⟨[0xab], by decide⟩, .del ⟨[0x34], by decide⟩]).root := by
  refine (root_of_map (hashOn_short rfl) (n := 1) (fairRun_short (by decide)
    (fun h => by cases h) rfl (by decide))).2.1 _ (fairRun_short (by decide)
    (fun h => by cases h) rfl (by decide)) ?_
  funext k
  simp only [mapOf, applyOps, TrieOp.apply, Function.update_apply]
  by_cases h : k = [0x34]
  · simp [h]
  · simp [h]

/-- **Where nodes are pruned, a node that stands at two places is deleted with the first of them.**
The deletion of the second key then finds nothing and changes nothing, so that the root is not that
of the map. -/
theorem sharedLeaf_root :
    ((runOps pruneOpts (sharedLeaf ++ [.del ⟨[0x20], by decide⟩])).run
        (create pruneOpts (CheckpointDB.ofEntries []))).1 = .ok () ∧
      mapOf (sharedLeaf ++ [.del ⟨[0x20], by decide⟩]) =
        mapOf [.put ⟨[0x10], by decide⟩ ⟨[2], by decide⟩, .put ⟨[0x30], by decide⟩ longValue] ∧
      (trieOf pruneOpts (sharedLeaf ++ [.del ⟨[0x20], by decide⟩])).root ≠
        (trieOf pruneOpts [.put ⟨[0x10], by decide⟩ ⟨[2], by decide⟩,
          .put ⟨[0x30], by decide⟩ longValue]).root ∧
      Set.InjOn pruneOpts.hash
        (trieOf pruneOpts (sharedLeaf ++ [.del ⟨[0x20], by decide⟩])).db.contents := by
  refine ⟨by decide +kernel, ?_, by decide +kernel, injOn_contents (by decide +kernel)⟩
  funext k
  simp only [mapOf, sharedLeaf, List.cons_append, List.nil_append, applyOps, TrieOp.apply,
    Function.update_apply]
  by_cases h10 : k = [0x10]
  · simp [h10]
  · by_cases h20 : k = [0x20]
    · simp [h20]
    · simp [h10, h20]

/-! ### Keys of any lengths -/

section AnyLength

variable (opts)

/-- A deletion that loses no other value, does not leave its own and, where nodes are pruned,
deletes none that is needed. -/
def SafeDel (t : Tree) (k : Nibbles) : Prop :=
  EraseSafe t k ∧ (opts.useNodePruning = true → DelSafe opts t k)

/-- A write that is safe in that sense. -/
def TrieOp.Safe : TrieOp → Tree → Prop
  | put key value, t =>
    if h : value.1 = [] then SafeDel opts t (bytesToNibbles (opts.appliedKey key.1))
    else opts.useNodePruning = true →
      PutSafe opts t (bytesToNibbles (opts.appliedKey key.1)) ⟨value.1, isValue_of_ne h⟩
  | del key, t => SafeDel opts t (bytesToNibbles (opts.appliedKey key.1))

/-- All of some writes are. -/
def SafeRun : List TrieOp → Tree → Prop
  | [], _ => True
  | op :: ops, t => op.Safe opts t ∧ SafeRun ops (op.tree opts t)

variable {opts}

/-- All keys an engine can have. -/
def shortKeys : Set Bytes := {k | k.length < 2 ^ 53}

variable {S : Set Bytes} (hS : HashOn opts S) (hhash : opts.useKeyHashing = false)

include hhash in
private theorem injOn_shortKeys : Set.InjOn opts.appliedKey shortKeys := by
  intro k _ k' _ h
  rw [MPTOpts.appliedKey, MPTOpts.appliedKey, hhash] at h
  exact h

include hS hhash in
private theorem safe_del {s : MerklePatriciaTrie} {m : Bytes → Option Bytes} {t : Tree}
    (h : Reflects opts S shortKeys ValuedOrTwo s m t) {key : Bytes} (hkey : key ∈ shortKeys)
    (hsafe : SafeDel opts t (bytesToNibbles (opts.appliedKey key))) :
    ∃ s', (del opts key).run s = (.ok (), s') ∧ (s'.db.contents ⊆ S →
      Reflects opts S shortKeys ValuedOrTwo s' (Function.update m key none)
        (erase t (bytesToNibbles (opts.appliedKey key)))) := by
  have hlive : ∀ o, ValuedOrTwo o → AtLeast 1 o := fun o ho =>
    ho.elim (fun hn => Finset.card_pos.2 ⟨none, hn⟩) fun h2 => le_trans (by decide) h2
  have hpacked : erase t (bytesToNibbles (opts.appliedKey key)) = .nil ∨
      Packed ValuedOrTwo (erase t (bytesToNibbles (opts.appliedKey key))) := by
    rcases h.packed with rfl | hp
    · exact .inl rfl
    · exact packed_erase_valuedOrTwo hp _
  exact h.del hS.length hS.injOn hS.empty hS.closed hlive (injOn_shortKeys hhash) (fun k hk => hk)
    hkey hsafe.1 hpacked fun hprune _ => hsafe.2 hprune

include hS hhash in
/-- **One safe write** is one in the map. -/
theorem safe_run {s : MerklePatriciaTrie} {m : Bytes → Option Bytes} {t : Tree}
    (h : Reflects opts S shortKeys ValuedOrTwo s m t) {op : TrieOp} (hsafe : op.Safe opts t) :
    ∃ s', (op.run opts).run s = (.ok (), s') ∧ (s'.db.contents ⊆ S →
      Reflects opts S shortKeys ValuedOrTwo s' (op.apply m) (op.tree opts t)) := by
  cases op with
  | del key => exact safe_del hS hhash h key.2 hsafe
  | put key value =>
    by_cases hv : value.1 = []
    · have hput : put opts key.1 value.1 = del opts key.1 := by
        rw [MerklePatriciaTrie.put, hv]
        rfl
      have hmap : (TrieOp.put key value).apply m = Function.update m key.1 none := by
        rw [TrieOp.apply, if_pos hv]
      rw [TrieOp.run, hput, hmap, TrieOp.tree, dif_pos hv]
      rw [TrieOp.Safe, dif_pos hv] at hsafe
      exact safe_del hS hhash h key.2 hsafe
    · have hmap : (TrieOp.put key value).apply m = Function.update m key.1 (some value.1) := by
        rw [TrieOp.apply, if_neg hv]
      rw [hmap, TrieOp.tree, dif_neg hv]
      rw [TrieOp.Safe, dif_neg hv] at hsafe
      exact h.put hS.length hS.injOn hS.empty hS.closed (injOn_shortKeys hhash) key.2 key.2
        ⟨value.1, hv, value.2⟩ fun hprune _ _ => hsafe hprune

include hS hhash in
/-- Any sequence of safe writes is one in the map. -/
private theorem safe_runOps {s : MerklePatriciaTrie} {m : Bytes → Option Bytes} {t : Tree}
    (h : Reflects opts S shortKeys ValuedOrTwo s m t) (ops : List TrieOp)
    (hsafe : SafeRun opts ops t) (hin : ((runOps opts ops).run s).2.db.contents ⊆ S) :
    ∃ s' t', (runOps opts ops).run s = (.ok (), s') ∧
      Reflects opts S shortKeys ValuedOrTwo s' (applyOps ops m) t' := by
  induction ops generalizing s m t with
  | nil => exact ⟨s, t, rfl, h⟩
  | cons op ops ih =>
    obtain ⟨s₁, hrun, hreflects⟩ := safe_run hS hhash h hsafe.1
    have hcons : (runOps opts (op :: ops)).run s = (runOps opts ops).run s₁ :=
      Prog.run_bind_of_ok hrun
    rw [hcons] at hin ⊢
    exact ih (hreflects ((grows_runOps ops s₁).trans hin)) hsafe.2 hin

end AnyLength

/-- **Lookups are those of the map**, for keys of any lengths, over every run whose deletions lose
no other value and do not leave their own. -/
theorem get_of_safe_run (hhash : opts.useKeyHashing = false) {S : Set Bytes} (hS : HashOn opts S)
    {ops : List TrieOp} (hsafe : SafeRun opts ops .nil) (hin : (trieOf opts ops).db.contents ⊆ S) :
    (runOps opts ops).run (create opts (CheckpointDB.ofEntries [])) = (.ok (), trieOf opts ops) ∧
      ∀ k : Uint8Array, ∃ s',
        (get opts k.1 false).run (trieOf opts ops) = (.ok (mapOf ops k.1), s') := by
  obtain ⟨s', t, hrun, hreflects⟩ := safe_runOps hS hhash
    (reflects_create S shortKeys ValuedOrTwo) ops hsafe hin
  have hstate : trieOf opts ops = s' := congrArg Prod.snd hrun
  rw [hstate]
  refine ⟨hrun, fun k => ?_⟩
  obtain ⟨s'', -, hget⟩ := hreflects.run_get hS.length hS.injOn k.2
  exact ⟨s'', hget⟩

/-- A key and one that it is a prefix of, which is deleted. -/
theorem get_of_safe_run_prefix : ∃ s', (get padOpts [0x01] false).run (trieOf padOpts
      [.put ⟨[0x01], by decide⟩ ⟨[0xaa], by decide⟩,
        .put ⟨[0x01, 0x02], by decide⟩ ⟨[0xbb], by decide⟩,
        .del ⟨[0x01, 0x02], by decide⟩]) = (.ok (some [0xaa]), s') := by
  have hin : (trieOf padOpts [.put ⟨[0x01], by decide⟩ ⟨[0xaa], by decide⟩,
      .put ⟨[0x01, 0x02], by decide⟩ ⟨[0xbb], by decide⟩,
      .del ⟨[0x01, 0x02], by decide⟩]).db.contents ⊆ {b | b.length < 32} := by
    have hall : ∀ e ∈ (trieOf padOpts [.put ⟨[0x01], by decide⟩ ⟨[0xaa], by decide⟩,
        .put ⟨[0x01, 0x02], by decide⟩ ⟨[0xbb], by decide⟩,
        .del ⟨[0x01, 0x02], by decide⟩]).db.entries, ∀ v ∈ e.2, v.length < 32 := by
      decide
    rintro v ⟨key, hv⟩
    exact hall _ hv v rfl
  have hsafe : SafeRun padOpts [.put ⟨[0x01], by decide⟩ ⟨[0xaa], by decide⟩,
      .put ⟨[0x01, 0x02], by decide⟩ ⟨[0xbb], by decide⟩, .del ⟨[0x01, 0x02], by decide⟩] .nil := by
    refine ⟨(fun h => by cases h), (fun h => by cases h), ⟨?_, (fun h => by cases h)⟩, trivial⟩
    intro _ hone
    exact absurd hone (by decide)
  exact (get_of_safe_run rfl (hashOn_short rfl) hsafe hin).2 ⟨[0x01], by decide⟩

/-- **A key that stands above two others keeps its value when it is deleted.** -/
theorem valued_branch_del :
    ((runOps padOpts [.put ⟨[0x01], by decide⟩ ⟨[0xaa], by decide⟩,
        .put ⟨[0x01, 0x02], by decide⟩ ⟨[0xbb], by decide⟩,
        .put ⟨[0x01, 0x12], by decide⟩ ⟨[0xcc], by decide⟩, .del ⟨[0x01], by decide⟩]).run
          (create padOpts (CheckpointDB.ofEntries []))).1 = .ok () ∧
      mapOf [.put ⟨[0x01], by decide⟩ ⟨[0xaa], by decide⟩,
        .put ⟨[0x01, 0x02], by decide⟩ ⟨[0xbb], by decide⟩,
        .put ⟨[0x01, 0x12], by decide⟩ ⟨[0xcc], by decide⟩, .del ⟨[0x01], by decide⟩] [0x01] =
          none ∧
      ((get padOpts [0x01] false).run (trieOf padOpts
        [.put ⟨[0x01], by decide⟩ ⟨[0xaa], by decide⟩,
          .put ⟨[0x01, 0x02], by decide⟩ ⟨[0xbb], by decide⟩,
          .put ⟨[0x01, 0x12], by decide⟩ ⟨[0xcc], by decide⟩, .del ⟨[0x01], by decide⟩])).1 =
            .ok (some [0xaa]) := by
  exact ⟨by decide +kernel, by decide +kernel, by decide +kernel⟩

end Tvmjs
