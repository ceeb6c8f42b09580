import Tvmjs.Base.PackedTrie
import Tvmjs.Mpt.Trie

/-!
# What a root stands for

The root and the nodes of a trie in the database are those of a path-compressed trie of values.
`treeRef` gives the reference to a trie, `strings` what the database has to hold for it.

* `treeRef_injective` -- where the hash does not collide, a reference stands for one trie only;
* `Resolves` -- a reference can be looked up and gives a known node;
* `run_lookupNode_of_resolves`, `run_lookupNode_of_dangling` -- what a lookup does.
-/

namespace Tvmjs

open RLP (Input)

/-- A value a trie holds: a byte string that is not empty.  No `Uint8Array` is longer. -/
abbrev Value := {b : Bytes // b ≠ [] ∧ b.length < 2 ^ 53}

/-- A trie, taken by itself. -/
abbrev Tree := PathTrie Nibble Value

/-- The value slot of a branch. -/
def valueBytes : Option Value → Bytes
  | none => []
  | some v => v.1

/-- A value and no value are told apart by their bytes. -/
private theorem valueBytes_injective : Function.Injective valueBytes := by
  rintro (_ | v) (_ | w) h
  · rfl
  · exact absurd h.symm w.2.1
  · exact absurd h v.2.1
  · rw [Subtype.ext h]

private theorem length_valueBytes (v : Option Value) : (valueBytes v).length < 2 ^ 53 := by
  cases v with
  | none => exact Nat.two_pow_pos 53
  | some v => exact v.2.2

section Strings

variable (opts : MPTOpts)

/-- The reference to a node which is not the root. -/
def nodeRef (n : MPTNode) : Input :=
  if 32 ≤ n.serialize.length then .bytes (opts.hash n.serialize) else n.raw

/-- The reference to a trie below the root. -/
def treeRef : Tree → Input
  | .nil => .bytes []
  | .leaf p v => nodeRef opts (.leaf p v.1)
  | .ext p c => nodeRef opts (.extension p (treeRef c))
  | .branch c v => nodeRef opts (.branch (fun s => treeRef (c s)) (valueBytes v))

/-- The node at the top of a trie; the empty trie has none. -/
def treeNode : Tree → MPTNode
  | .nil => .emptyBranch
  | .leaf p v => .leaf p v.1
  | .ext p c => .extension p (treeRef opts c)
  | .branch c v => .branch (fun s => treeRef opts (c s)) (valueBytes v)

/-- A node that has to stand in the database by itself. -/
def longString (n : MPTNode) : Set Bytes := {e | e = n.serialize ∧ 32 ≤ e.length}

/-- The nodes of a trie that stand in the database by themselves, as they are written there. -/
def strings : Tree → Set Bytes
  | .nil => ∅
  | .leaf p v => longString (.leaf p v.1)
  | .ext p c => longString (.extension p (treeRef opts c)) ∪ strings c
  | .branch c v =>
    longString (.branch (fun s => treeRef opts (c s)) (valueBytes v)) ∪ ⋃ s, strings (c s)

/-- The root of a trie. -/
def rootHash (t : Tree) : Bytes :=
  if t.isNil then opts.EMPTY_TRIE_ROOT else opts.hash (treeNode opts t).serialize

variable {opts}

/-- What is there is referred to through its node. -/
theorem treeRef_of_ne_nil {t : Tree} (h : t ≠ .nil) :
    treeRef opts t = nodeRef opts (treeNode opts t) := by
  cases t with
  | nil => exact absurd rfl h
  | leaf p v => rfl
  | ext p c => rfl
  | branch c v => rfl

/-- The root hash is that of the node at the root. -/
theorem rootHash_of_ne_nil {t : Tree} (h : t ≠ .nil) :
    rootHash opts t = opts.hash (treeNode opts t).serialize := by
  rw [rootHash, if_neg]
  rwa [PathTrie.isNil_iff]

variable (opts) in
/-- The node at the top, where it is long, is one of the strings. -/
theorem longString_subset {t : Tree} (h : t ≠ .nil) :
    longString (treeNode opts t) ⊆ strings opts t := by
  cases t with
  | nil => exact absurd rfl h
  | leaf p v => exact subset_rfl
  | ext p c => exact Set.subset_union_left
  | branch c v => exact Set.subset_union_left

/-! ### Sizes -/

section Size

variable (hlen : ∀ v, (opts.hash v).length = 32)

include hlen

/-- A reference takes at most 33 bytes. -/
private theorem length_encode_nodeRef (n : MPTNode) :
    (RLP.encode (nodeRef opts n)).length ≤ 33 := by
  rw [nodeRef]
  split
  · rw [RLP.encode]
    unfold RLP.encodeBytes
    split
    · rename_i heq
      have := congrArg List.length heq
      rw [hlen] at this
      simp at this
    · rw [hlen, RLP.encodeLength_of_lt (by norm_num), List.length_append, hlen]
      simp
  · rename_i h
    have h32 : n.serialize.length < 32 := not_le.1 h
    exact h32.le.trans (by norm_num)

/-- A reference takes 33 bytes at most. -/
private theorem length_encode_treeRef (t : Tree) : (RLP.encode (treeRef opts t)).length ≤ 33 := by
  by_cases h : t = .nil
  · subst h
    change (RLP.encode (.bytes [])).length ≤ 33
    decide
  · rw [treeRef_of_ne_nil h]
    exact length_encode_nodeRef hlen _

omit hlen in
/-- An encoded path takes two bytes more at most. -/
private theorem length_encodedKey_le (p : Nibbles) (isLeaf : Bool) :
    (MPTNode.encodedKey p isLeaf).length ≤ p.length + 2 := by
  have h := length_addHexPrefix_le p isLeaf
  rw [MPTNode.encodedKey, length_nibblesTypeToPackedBytes]
  omega

omit hlen in
/-- The bytes of a path, encoded. -/
private theorem length_encode_path {p : Nibbles} (hp : p.length ≤ 2 ^ 60) (isLeaf : Bool) :
    (RLP.encode (.bytes (MPTNode.encodedKey p isLeaf))).length ≤ p.length + 11 := by
  have h := length_encodedKey_le p isLeaf
  have h' := RLP.length_encodeBytes_le (b := MPTNode.encodedKey p isLeaf) (by omega)
  rw [RLP.encode]
  omega

/-- A node of a trie with short paths has a length that RLP can write. -/
theorem length_serialize_treeNode {t : Tree} (h : t.Short (2 ^ 60)) :
    (treeNode opts t).serialize.length < 2 ^ 64 := by
  have hbytes : ∀ {b : Bytes}, b.length < 2 ^ 53 →
      (RLP.encode (.bytes b)).length ≤ 2 ^ 53 + 9 := fun {b} hb => by
    have := RLP.length_encodeBytes_le (b := b) (by omega)
    rw [RLP.encode]
    omega
  have hlist : ∀ {l : List Input}, (RLP.encodeAll l).length < 2 ^ 63 →
      (RLP.encode (.list l)).length < 2 ^ 64 := fun {l} hl => by
    have := RLP.length_encode_list_le (l := l) (by omega)
    omega
  cases t with
  | nil =>
    change MPTNode.emptyBranch.serialize.length < 2 ^ 64
    decide
  | leaf p v =>
    have hshort : p.length ≤ 2 ^ 60 := h
    have hp := length_encode_path (p := p) h true
    have hv := hbytes v.2.2
    refine hlist ?_
    simp only [treeNode, MPTNode.rawList, RLP.encodeAll, List.length_append, List.length_nil]
    omega
  | ext p c =>
    have hp := length_encode_path (p := p) h.1 false
    have hc := length_encode_treeRef hlen c
    have hshort := h.1
    refine hlist ?_
    simp only [treeNode, MPTNode.rawList, RLP.encodeAll, List.length_append, List.length_nil]
    omega
  | branch c v =>
    have hv := hbytes (length_valueBytes v)
    have hslots : ∀ branches : Nibble → Input, (∀ s, (RLP.encode (branches s)).length ≤ 33) →
        (RLP.encodeAll (List.ofFn branches)).length ≤ 16 * 33 := fun branches hb => by
      refine (RLP.length_encodeAll_le (M := 33) fun x hx => ?_).trans_eq (by rw [List.length_ofFn])
      obtain ⟨s, rfl⟩ := (List.mem_ofFn' _ _).1 hx
      exact hb s
    have hc := hslots (fun s => treeRef opts (c s)) fun s => length_encode_treeRef hlen (c s)
    refine hlist ?_
    simp only [treeNode, MPTNode.rawList, RLP.encodeAll_append, RLP.encodeAll, List.length_append,
      List.length_nil]
    omega

end Size

/-! ### A reference stands for one trie -/

section Injective

variable {S : Set Bytes} (hlen : ∀ v, (opts.hash v).length = 32) (hS : Set.InjOn opts.hash S)

include hlen in
/-- No node is referred to by nothing. -/
theorem nodeRef_ne_nil (n : MPTNode) : nodeRef opts n ≠ .bytes [] := by
  rw [nodeRef]
  split
  · intro h
    have := congrArg List.length (Input.bytes.inj h)
    rw [hlen] at this
    cases this
  · intro h
    cases h

include hS in
/-- Equal references are references to one node. -/
private theorem nodeRef_inj {m n : MPTNode} (hm : longString m ⊆ S) (hn : longString n ⊆ S)
    (h64 : m.serialize.length < 2 ^ 64) (h : nodeRef opts m = nodeRef opts n) : m = n := by
  rw [nodeRef, nodeRef] at h
  split at h
  · rename_i hlm
    split at h
    · rename_i hln
      exact MPTNode.serialize_injective h64
        (hS (hm ⟨rfl, hlm⟩) (hn ⟨rfl, hln⟩) (Input.bytes.inj h))
    · cases h
  · split at h
    · cases h
    · exact MPTNode.raw_injective h

include hlen hS in
/-- **Where the hash does not collide, a reference stands for one trie only.** -/
theorem treeRef_injective {t t' : Tree} (ht : strings opts t ⊆ S) (ht' : strings opts t' ⊆ S)
    (hs : t.Short (2 ^ 60)) (h : treeRef opts t = treeRef opts t') : t = t' := by
  -- On the first trie: equal references are of equal nodes, and those have equal children.
  induction t generalizing t' with
  | nil =>
    by_contra hne
    rw [treeRef_of_ne_nil fun h' => hne h'.symm] at h
    exact nodeRef_ne_nil hlen _ h.symm
  | leaf p v =>
    have hne' : t' ≠ .nil := by
      rintro rfl
      exact nodeRef_ne_nil hlen _ h
    rw [treeRef_of_ne_nil hne'] at h
    have hnode := nodeRef_inj hS ht ((longString_subset opts hne').trans ht')
      (length_serialize_treeNode hlen hs) h
    cases t' with
    | leaf q w =>
      obtain ⟨rfl, hv⟩ := MPTNode.leaf.inj hnode
      rw [Subtype.ext hv]
    | nil => exact absurd rfl hne'
    | ext q c => cases hnode
    | branch c w => cases hnode
  | ext p c ih =>
    have hne' : t' ≠ .nil := by
      rintro rfl
      exact nodeRef_ne_nil hlen _ h
    rw [treeRef_of_ne_nil hne'] at h
    have hnode := nodeRef_inj hS (Set.subset_union_left.trans ht)
      ((longString_subset opts hne').trans ht') (length_serialize_treeNode hlen hs) h
    cases t' with
    | ext q c' =>
      obtain ⟨rfl, hc⟩ := MPTNode.extension.inj hnode
      rw [ih (Set.subset_union_right.trans ht) (Set.subset_union_right.trans ht') hs.2 hc]
    | nil => exact absurd rfl hne'
    | leaf q w => cases hnode
    | branch c w => cases hnode
  | branch c v ih =>
    have hne' : t' ≠ .nil := by
      rintro rfl
      exact nodeRef_ne_nil hlen _ h
    rw [treeRef_of_ne_nil hne'] at h
    have hnode := nodeRef_inj hS (Set.subset_union_left.trans ht)
      ((longString_subset opts hne').trans ht') (length_serialize_treeNode hlen hs) h
    cases t' with
    | branch c' w =>
      obtain ⟨hc, hv⟩ := MPTNode.branch.inj hnode
      have hchild : c = c' := by
        funext s
        refine ih s ?_ ?_ (hs s) (congrFun hc s)
        · exact (Set.subset_iUnion (fun s => strings opts (c s)) s).trans
            (Set.subset_union_right.trans ht)
        · exact (Set.subset_iUnion (fun s => strings opts (c' s)) s).trans
            (Set.subset_union_right.trans ht')
      rw [hchild, valueBytes_injective hv]
    | nil => exact absurd rfl hne'
    | leaf q w => cases hnode
    | ext q c' => cases hnode

/-- The strings a root commits to. -/
structure Committed (opts : MPTOpts) (S : Set Bytes) (t : Tree) : Prop where
  strings : strings opts t ⊆ S
  top : t ≠ .nil → (treeNode opts t).serialize ∈ S
  short : t.Short (2 ^ 60)

/-- The encoding of the empty trie is not that of a node. -/
theorem serialize_ne_empty {n : MPTNode} (h64 : n.serialize.length < 2 ^ 64) :
    n.serialize ≠ RLP_EMPTY_STRING := by
  intro h
  have hraw : n.raw = .bytes [] := RLP.encode_injective h64 h
  cases hraw

include hlen hS in
/-- **A root stands for one trie only.** -/
theorem rootHash_injective {t t' : Tree} (hempty : RLP_EMPTY_STRING ∈ S)
    (ht : Committed opts S t) (ht' : Committed opts S t')
    (h : rootHash opts t = rootHash opts t') : t = t' := by
  by_cases hn : t = .nil
  · by_cases hn' : t' = .nil
    · rw [hn, hn']
    · subst hn
      rw [rootHash_of_ne_nil hn'] at h
      exact absurd (hS (ht'.top hn') hempty h.symm)
        (serialize_ne_empty (length_serialize_treeNode hlen ht'.short))
  · by_cases hn' : t' = .nil
    · subst hn'
      rw [rootHash_of_ne_nil hn] at h
      exact absurd (hS (ht.top hn) hempty h)
        (serialize_ne_empty (length_serialize_treeNode hlen ht.short))
    · rw [rootHash_of_ne_nil hn, rootHash_of_ne_nil hn'] at h
      have hnode := MPTNode.serialize_injective (length_serialize_treeNode hlen ht.short)
        (hS (ht.top hn) (ht'.top hn') h)
      refine treeRef_injective hlen hS ht.strings ht'.strings ht.short ?_
      rw [treeRef_of_ne_nil hn, treeRef_of_ne_nil hn', hnode]

end Injective

/-! ### Looking a reference up -/

/-- A reference which the database resolves to a node. -/
def Resolves (opts : MPTOpts) (d : CheckpointDB) : Input → MPTNode → Prop
  | .list raw, n => raw = n.rawList
  | .bytes h, n => d.view (opts.getDbKey h) = some n.serialize ∧ n.serialize.length < 2 ^ 64

/-- A hash that is not in the database. -/
def Dangling (opts : MPTOpts) (d : CheckpointDB) (ref : Input) : Prop :=
  ∃ h, ref = .bytes h ∧ d.view (opts.getDbKey h) = none

/-- The trie's state after some reads. -/
structure MerklePatriciaTrie.Reads (s s' : MerklePatriciaTrie) : Prop where
  root : s'.root = s.root
  db : s.db.Reads s'.db

theorem MerklePatriciaTrie.Reads.refl (s : MerklePatriciaTrie) : s.Reads s := ⟨rfl, .refl⟩

theorem MerklePatriciaTrie.Reads.trans {s s' s'' : MerklePatriciaTrie} (h : s.Reads s')
    (h' : s'.Reads s'') : s.Reads s'' :=
  ⟨h'.root.trans h.root, h.db.trans h'.db⟩

/-- Reading keeps what a reference leads to. -/
theorem Resolves.reads {d d' : CheckpointDB} {ref : Input} {n : MPTNode}
    (h : Resolves opts d ref n) (hr : d.Reads d') : Resolves opts d' ref n := by
  cases ref with
  | bytes b => exact ⟨(hr.view _).trans h.1, h.2⟩
  | list l => exact h

/-- Reading repairs no reference. -/
theorem Dangling.reads {d d' : CheckpointDB} {ref : Input} (h : Dangling opts d ref)
    (hr : d.Reads d') : Dangling opts d' ref := by
  obtain ⟨b, hb, hv⟩ := h
  exact ⟨b, hb, (hr.view _).trans hv⟩

open MerklePatriciaTrie in
/-- The read of one key. -/
theorem run_dbGet (key : Bytes) (s : MerklePatriciaTrie) :
    ∃ s', s.Reads s' ∧ (dbGet key).run s = (.ok (s.db.view key), s') :=
  ⟨{ s with db := (s.db.get key).2 }, ⟨rfl, .get .refl key⟩,
    Prod.ext (congrArg Except.ok (s.db.get_fst key)) rfl⟩

open MerklePatriciaTrie in

/-- A reference that leads to a node is looked up. -/
theorem run_lookupNode_of_resolves {s : MerklePatriciaTrie} {ref : Input} {n : MPTNode}
    (h : Resolves opts s.db ref n) :
    ∃ s', s.Reads s' ∧ (lookupNode opts ref).run s = (.ok n, s') := by
  cases ref with
  | list raw =>
    obtain rfl : raw = n.rawList := h
    refine ⟨s, .refl s, ?_⟩
    rw [lookupNode, Prog.run_ofExcept, decodeRawMPTNode_rawList]
  | bytes b =>
    obtain ⟨s', hs', hget⟩ := run_dbGet (opts.getDbKey b) s
    refine ⟨s', hs', ?_⟩
    rw [lookupNode, Prog.run_bind_of_ok hget, h.1]
    change (Prog.ofExcept (decodeMPTNode n.serialize) : TrieM MPTNode).run s' = _
    rw [Prog.run_ofExcept, MPTNode.decode_serialize h.2]

open MerklePatriciaTrie in

/-- One that leads to none throws. -/
theorem run_lookupNode_of_dangling {s : MerklePatriciaTrie} {ref : Input}
    (h : Dangling opts s.db ref) :
    ∃ s', s.Reads s' ∧ (lookupNode opts ref).run s = (.error .missingNode, s') := by
  obtain ⟨b, rfl, hv⟩ := h
  obtain ⟨s', hs', hget⟩ := run_dbGet (opts.getDbKey b) s
  refine ⟨s', hs', ?_⟩
  rw [lookupNode, Prog.run_bind_of_ok hget, hv]
  rfl

/-! ### Databases that hold a trie -/

/-- The database stores strings under their hashes, and the strings are all in `S`. -/
structure StoresIn (opts : MPTOpts) (S : Set Bytes) (d : CheckpointDB) : Prop where
  addressed : d.Addressed opts.hash
  contents : d.contents ⊆ S

theorem StoresIn.reads {S : Set Bytes} {d d' : CheckpointDB} (h : StoresIn opts S d)
    (hr : d.Reads d') : StoresIn opts S d' :=
  ⟨h.addressed.reads hr, by rw [hr.contents]; exact h.contents⟩

/-- The database holds a string. -/
def Holds (opts : MPTOpts) (d : CheckpointDB) (e : Bytes) : Prop :=
  d.view (opts.getDbKey (opts.hash e)) = some e

/-- The database holds every node of the trie that is not embedded in another one. -/
def Stored (opts : MPTOpts) (d : CheckpointDB) (t : Tree) : Prop :=
  ∀ e ∈ strings opts t, Holds opts d e

/-- A node stands in the database, or is short enough to stand in its parent. -/
def NodeHeld (opts : MPTOpts) (d : CheckpointDB) (n : MPTNode) : Prop :=
  32 ≤ n.serialize.length → Holds opts d n.serialize

theorem Holds.reads {d d' : CheckpointDB} {e : Bytes} (h : Holds opts d e) (hr : d.Reads d') :
    Holds opts d' e := (hr.view _).trans h

theorem Stored.reads {d d' : CheckpointDB} {t : Tree} (h : Stored opts d t) (hr : d.Reads d') :
    Stored opts d' t := fun e he => (h e he).reads hr

theorem NodeHeld.reads {d d' : CheckpointDB} {n : MPTNode} (h : NodeHeld opts d n)
    (hr : d.Reads d') : NodeHeld opts d' n := fun hlong => (h hlong).reads hr

/-- The node at the root of what is stored is held. -/
theorem Stored.nodeHeld {d : CheckpointDB} {t : Tree} (h : Stored opts d t) (ht : t ≠ .nil) :
    NodeHeld opts d (treeNode opts t) := fun hlong => h _ (longString_subset opts ht ⟨rfl, hlong⟩)

section Lookup

variable {S : Set Bytes} (hlen : ∀ v, (opts.hash v).length = 32) (hS : Set.InjOn opts.hash S)
  {d : CheckpointDB}

include hlen hS in
/-- A hash of a string of `S` leads to the string or to nothing. -/
theorem StoresIn.view_or {e : Bytes} (h : StoresIn opts S d) (he : e ∈ S) :
    Holds opts d e ∨ d.view (opts.getDbKey (opts.hash e)) = none := by
  rcases hv : d.view (opts.getDbKey (opts.hash e)) with _ | e'
  · exact .inr rfl
  · obtain rfl := h.addressed.eq_of_view hlen hS h.contents he hv
    exact .inl hv

include hlen hS in
/-- **A reference resolves to its node or dangles**; it dangles only if the node is not stored. -/
theorem StoresIn.resolves_or {t : Tree} (h : StoresIn opts S d) (hne : t ≠ .nil)
    (ht : strings opts t ⊆ S) (hs : t.Short (2 ^ 60)) :
    Resolves opts d (treeRef opts t) (treeNode opts t) ∨
      Dangling opts d (treeRef opts t) ∧ ¬ NodeHeld opts d (treeNode opts t) := by
  rw [treeRef_of_ne_nil hne, nodeRef]
  split
  · rename_i hlong
    have hmem := longString_subset opts hne ⟨rfl, hlong⟩
    rcases h.view_or hlen hS (ht hmem) with hv | hv
    · exact .inl ⟨hv, length_serialize_treeNode hlen hs⟩
    · refine .inr ⟨⟨_, rfl, hv⟩, fun hheld => ?_⟩
      have := (hheld hlong).symm.trans hv
      cases this
  · exact .inl rfl

include hlen hS in
/-- The same for the root. -/
theorem StoresIn.resolves_root_or {t : Tree} (h : StoresIn opts S d) (hne : t ≠ .nil)
    (htop : (treeNode opts t).serialize ∈ S) (hs : t.Short (2 ^ 60)) :
    Resolves opts d (.bytes (rootHash opts t)) (treeNode opts t) ∨
      Dangling opts d (.bytes (rootHash opts t)) ∧
        ¬ Holds opts d (treeNode opts t).serialize := by
  rw [rootHash_of_ne_nil hne]
  rcases h.view_or hlen hS htop with hv | hv
  · exact .inl ⟨hv, length_serialize_treeNode hlen hs⟩
  · refine .inr ⟨⟨_, rfl, hv⟩, fun hstored => ?_⟩
    have := hstored.symm.trans hv
    cases this

end Lookup

end Strings

end Tvmjs
