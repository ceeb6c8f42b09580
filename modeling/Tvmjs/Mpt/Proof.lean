import Tvmjs.Mpt.FiniteMap

/-!
# Merkle proofs

A proof of a key is the list of the nodes on its path.  It is verified by putting the nodes into
an empty database and looking the key up from the root.

* `run_verify` -- verification is a lookup that throws on missing nodes;
* `verify_sound` -- **whatever nodes are given, only the value of the key is returned**;
* `verify_created` -- the proof that was created is accepted, unless the trie is empty;
* `proofsVerify_iff` -- **proofs work exactly for the tries that are not empty**.
-/

namespace Tvmjs

open RLP (Input)

open PathTrie MerklePatriciaTrie CheckpointDB

/-- What a proof is rejected for. -/
inductive ProofError where
  | unexpectedRoot
  | emptyProof
  | invalidNodes
  | invalidProof
  | mpt (e : MPTError)
  deriving DecidableEq

/-- The texts of the errors. -/
def ProofError.message : ProofError → String
  | unexpectedRoot => "The provided proof does not have the expected trie root"
  | emptyProof => "The provided proof is empty and does not match the non-empty trie root"
  | invalidNodes => "Invalid proof nodes given"
  | invalidProof => "Invalid proof provided"
  | mpt e => e.message

/-- The options of a trie of which only the hash function is given. -/
def MPTOpts.ofHash (useKeyHashingFunction : Bytes → Bytes) : MPTOpts := { useKeyHashingFunction }

namespace MerklePatriciaTrie

variable (opts : MPTOpts)

/-- Creates a proof from a trie and a key: the nodes on the path, from the root on. -/
def createMerkleProof (key : Bytes) : TrieM (List Bytes) := do
  let path ← findPath opts (opts.appliedKey key) false
  pure (path.stack.reverse.map MPTNode.serialize)

/-- Updates a trie from a proof by putting all the nodes in the proof into the trie; returns the
root of the proof. -/
def updateMPTFromMerkleProof (proof : List Bytes) (shouldVerifyRoot : Bool) :
    Prog MerklePatriciaTrie ProofError (Option Bytes) := do
  let opStack := proof.map fun nodeValue => (opts.getDbKey (opts.hash nodeValue), nodeValue)
  let root ← Prog.gets MerklePatriciaTrie.root
  match opStack.head? with
  | some op =>
    if shouldVerifyRoot ∧ root ≠ op.1 then Prog.throw .unexpectedRoot
    else do
      Prog.modify fun t => { t with db := t.db.batch (opStack.map fun op => .put op.1 op.2) }
      pure (some op.1)
  | none =>
    if shouldVerifyRoot ∧ root ≠ opts.EMPTY_TRIE_ROOT then Prog.throw .emptyProof
    else pure none

/-- Verifies a proof by putting all of its nodes into a trie and attempting to get the proven key:
the value of the key, or nothing if that is what was proved. -/
def verifyMPTWithMerkleProof (rootHash key : Bytes) (proof : List Bytes) :
    Except ProofError (Option Bytes) :=
  let proofOpts := MPTOpts.ofHash opts.useKeyHashingFunction
  match (setRoot proofOpts rootHash).run (create proofOpts (ofEntries [])) with
  | (.error e, _) => .error (.mpt e)
  | (.ok _, proofTrie) =>
    match (updateMPTFromMerkleProof proofOpts proof true).run proofTrie with
    | (.error _, _) => .error .invalidNodes
    | (.ok _, proofTrie) =>
      match ((get proofOpts (opts.appliedKey key) true).run proofTrie).1 with
      | .ok value => .ok value
      | .error .missingNode => .error .invalidProof
      | .error e => .error (.mpt e)

end MerklePatriciaTrie

variable {opts : MPTOpts}

/-! ### What a root stands for depends on the hash only -/

section OfHash

@[simp] theorem hash_ofHash (hash : Bytes → Bytes) : (MPTOpts.ofHash hash).hash = hash := rfl

@[simp] theorem getDbKey_ofHash (hash : Bytes → Bytes) (b : Bytes) :
    (MPTOpts.ofHash hash).getDbKey b = b := rfl

@[simp] theorem appliedKey_ofHash (hash : Bytes → Bytes) (key : Bytes) :
    (MPTOpts.ofHash hash).appliedKey key = key := rfl

@[simp] theorem treeRef_ofHash (t : Tree) :
    treeRef (MPTOpts.ofHash opts.hash) t = treeRef opts t := by
  induction t with
  | nil => rfl
  | leaf p v => rfl
  | ext p c ih =>
    rw [treeRef, ih]
    rfl
  | branch c v ih =>
    rw [treeRef, funext ih]
    rfl

@[simp] theorem treeNode_ofHash (t : Tree) :
    treeNode (MPTOpts.ofHash opts.hash) t = treeNode opts t := by
  cases t <;> simp [treeNode]

@[simp] theorem strings_ofHash (t : Tree) :
    strings (MPTOpts.ofHash opts.hash) t = strings opts t := by
  induction t with
  | nil => rfl
  | leaf p v => rfl
  | ext p c ih =>
    rw [strings, ih, treeRef_ofHash]
    rfl
  | branch c v ih =>
    rw [strings, funext ih, funext fun s => treeRef_ofHash (c s)]
    rfl

@[simp] theorem rootHash_ofHash (t : Tree) :
    rootHash (MPTOpts.ofHash opts.hash) t = rootHash opts t := by
  rw [rootHash, treeNode_ofHash]
  rfl

private theorem foundPath_ofHash (t : Tree) (k : Nibbles) :
    foundPath (MPTOpts.ofHash opts.hash) t k [] = foundPath opts t k [] := by
  have hspine : ∀ (fs : List (Frame Nibble Value)) (t : Tree),
      spine (MPTOpts.ofHash opts.hash) fs t = spine opts fs t := by
    intro fs t
    induction fs with
    | nil => rfl
    | cons f fs ih => rw [spine, spine, ih, treeNode_ofHash]
  have hfound : ∀ (t : Tree) (k : Nibbles),
      foundNode (MPTOpts.ofHash opts.hash) t k = foundNode opts t k := by
    intro t k
    unfold foundNode
    split <;> simp
  simp only [foundPath, hspine, hfound, treeNode_ofHash]

private theorem Committed.ofHash {S : Set Bytes} {t : Tree} (h : Committed opts S t) :
    Committed (MPTOpts.ofHash opts.hash) S t :=
  ⟨by rw [strings_ofHash]; exact h.strings, by rw [treeNode_ofHash]; exact h.top, h.short⟩

end OfHash

/-! ### Verification is a lookup -/

/-- The trie the nodes of a proof are put into. -/
def proofTrie (opts : MPTOpts) (root : Bytes) (proof : List Bytes) : MerklePatriciaTrie :=
  ⟨root, (ofEntries []).batch (putOps opts.hash [] proof)⟩

/-- What verification makes of the lookup. -/
def ofLookup : Except MPTError (Option Bytes) → Except ProofError (Option Bytes)
  | .ok value => .ok value
  | .error .missingNode => .error .invalidProof
  | .error e => .error (.mpt e)

/-- The root a proof has. -/
def proofRoot (opts : MPTOpts) (proof : List Bytes) : Bytes :=
  (proof.head?.map opts.hash).getD opts.EMPTY_TRIE_ROOT

section Verify

variable {S : Set Bytes}

/-- Putting the nodes of a proof into an empty trie with a root. -/
private theorem run_updateMPTFromMerkleProof (opts : MPTOpts) (root : Bytes) (proof : List Bytes) :
    (updateMPTFromMerkleProof (MPTOpts.ofHash opts.hash) proof true).run ⟨root, ofEntries []⟩ =
      if root = proofRoot opts proof then
        (.ok (proof.head?.map opts.hash), proofTrie opts root proof)
      else (.error (if proof = [] then .emptyProof else .unexpectedRoot), ⟨root,
        ofEntries []⟩) := by
  rcases proof with _ | ⟨e, proof⟩
  · change (if _ then _ else _ : Prog MerklePatriciaTrie ProofError (Option Bytes)).run _ =
      if root = opts.EMPTY_TRIE_ROOT then _ else _
    by_cases hr : root = opts.EMPTY_TRIE_ROOT
    · rw [if_neg fun h => h.2 hr, if_pos hr]
      rfl
    · rw [if_pos ⟨rfl, hr⟩, if_neg hr]
      rfl
  · change (if _ then _ else _ : Prog MerklePatriciaTrie ProofError (Option Bytes)).run _ =
      if root = opts.hash e then _ else _
    by_cases hr : root = opts.hash e
    · rw [if_neg fun h => h.2 hr, if_pos hr]
      refine (Prog.run_bind_of_ok (Prog.run_modify _ _)).trans ?_
      simp [proofTrie, putOps, Function.comp_def]
    · rw [if_pos ⟨rfl, hr⟩, if_neg hr]
      rfl

variable (hlen : ∀ v, (opts.hash v).length = 32)

include hlen in
/-- **Verification is a lookup** in the trie of the nodes given, if its root is the right one. -/
theorem run_verify {root : Bytes} (hroot : root.length = 32) (key : Bytes) (proof : List Bytes) :
    verifyMPTWithMerkleProof opts root key proof =
      if root = proofRoot opts proof then
        ofLookup ((get (MPTOpts.ofHash opts.hash) (opts.appliedKey key) true).run
          (proofTrie opts root proof)).1
      else .error .invalidNodes := by
  have hset : (setRoot (MPTOpts.ofHash opts.hash) root).run
      (create (MPTOpts.ofHash opts.hash) (ofEntries [])) = (.ok (), ⟨root, ofEntries []⟩) :=
    run_setRoot (fun v => hlen v) hroot _
  have hopts : MPTOpts.ofHash opts.useKeyHashingFunction = MPTOpts.ofHash opts.hash := rfl
  unfold verifyMPTWithMerkleProof
  simp only [hopts, hset, run_updateMPTFromMerkleProof]
  by_cases hr : root = proofRoot opts proof
  · simp only [if_pos hr]
    rfl
  · simp only [if_neg hr]

variable (hS : Set.InjOn opts.hash S)

/-- The nodes of a proof in a database. -/
private theorem roots_proofTrie {t : Tree} (h : Committed opts S t) {proof : List Bytes}
    (hproof : ∀ e ∈ proof, e ∈ S) :
    Roots (MPTOpts.ofHash opts.hash) S (proofTrie opts (rootHash opts t) proof) t where
  stores := by
    have hno : Addressed opts.hash (ofEntries []) := fun _ _ h => (List.not_mem_nil h).elim
    refine ⟨hno.batch [] proof, ?_⟩
    rw [proofTrie, contents_batch opts.hash]
    rintro e (he | ⟨key, he⟩)
    · exact hproof e he
    · exact (List.not_mem_nil he).elim
  root := (rootHash_ofHash t).symm
  committed := h.ofHash

include hlen hS in
/-- Nothing can be looked up from the root of the empty trie. -/
private theorem run_get_empty_throwing {s : MerklePatriciaTrie} (hempty : RLP_EMPTY_STRING ∈ S)
    (h : Roots opts S s .nil) (key : Bytes) :
    ∃ e s', (get opts key true).run s = (.error e, s') := by
  obtain ⟨s', -, hget⟩ := run_dbGet (opts.getDbKey opts.EMPTY_TRIE_ROOT) s
  have hlook : ∃ e, (lookupNode opts (.bytes opts.EMPTY_TRIE_ROOT)).run s = (.error e, s') := by
    rw [lookupNode, Prog.run_bind_of_ok hget]
    rcases hv : s.db.view (opts.getDbKey opts.EMPTY_TRIE_ROOT) with _ | e
    · exact ⟨_, rfl⟩
    · have he : e = RLP_EMPTY_STRING :=
        h.stores.addressed.eq_of_view hlen hS h.stores.contents hempty hv
      subst he
      exact ⟨_, rfl⟩
  obtain ⟨e, hlook⟩ := hlook
  have hmap : (some <$> lookupNode opts (.bytes s.root) : TrieM (Option MPTNode)).run s =
      (.error e, s') := by
    rw [map_eq_pure_bind, h.root]
    exact Prog.run_bind_of_error hlook
  have hwalk : (walkLookup opts true (.bytes s.root)).run s = (.error e, s') := by
    rw [walkLookup, Prog.run_tryCatch, hmap]
    simp
  have hfind : (findPath opts (opts.appliedKey key) true).run s = (.error e, s') := by
    change (walkFrom opts true _ (.bytes s.root) _ []).run s = _
    rw [walkFrom]
    exact Prog.run_bind_of_error hwalk
  exact ⟨e, s', Prog.run_bind_of_error hfind⟩

variable (hempty : RLP_EMPTY_STRING ∈ S) {t : Tree} {P : Finset (Option Nibble) → Prop}

include hlen hS hempty in
/-- **Whatever nodes are given, only the value of the key is returned.** -/
theorem verify_sound (h : Committed opts S t) (hp : t = .nil ∨ Packed P t) {key : Bytes}
    {proof : List Bytes} (hproof : ∀ e ∈ proof, e ∈ S) {value : Option Bytes}
    (hv : verifyMPTWithMerkleProof opts (rootHash opts t) key proof = .ok value) :
    value = (t.get (bytesToNibbles (opts.appliedKey key))).map Subtype.val ∧ t ≠ .nil := by
  rw [run_verify hlen (length_rootHash hlen t)] at hv
  have hroots := roots_proofTrie h hproof
  have hlen' : ∀ v, ((MPTOpts.ofHash opts.hash).hash v).length = 32 := hlen
  split at hv
  · rcases hp with rfl | hp
    · obtain ⟨e, s', hrun⟩ := run_get_empty_throwing hlen' hS hempty hroots (opts.appliedKey key)
      rw [hrun] at hv
      cases e <;> cases hv
    · obtain ⟨s', -, hrun | hrun⟩ := run_get_throwing hlen' hS hroots hp
        (opts.appliedKey key)
      · rw [hrun] at hv
        cases hv
        exact ⟨rfl, hp.ne_nil⟩
      · rw [hrun] at hv
        cases hv
  · cases hv

/-! ### The proof that is created -/

/-- The state is a trie with the entries of `t`. -/
structure IsTrie (opts : MPTOpts) (S : Set Bytes) (s : MerklePatriciaTrie) (t : Tree) : Prop where
  roots : Roots opts S s t
  complete : Complete opts s.db t
  packed : t = .nil ∨ Packed (AtLeast 0) t

/-- The nodes on the path of a key, from the root on. -/
def pathProof (opts : MPTOpts) (t : Tree) (key : Bytes) : List Bytes :=
  (foundPath opts t (bytesToNibbles (opts.appliedKey key)) []).stack.reverse.map MPTNode.serialize

include hlen hS in
/-- The proof of a key. -/
private theorem run_createMerkleProof {s : MerklePatriciaTrie} (h : IsTrie opts S s t)
    (key : Bytes) :
    ∃ s', s.Reads s' ∧ (createMerkleProof opts key).run s =
      (.ok (if t.isNil then [] else pathProof opts t key), s') := by
  rcases h.packed with rfl | hp
  · obtain ⟨s', hs', hrun⟩ := run_findPath_nil h.roots.root h.complete (opts.appliedKey key)
    refine ⟨s', hs', ?_⟩
    rw [createMerkleProof, Prog.run_bind_of_ok hrun]
    rfl
  · have hnil : ¬ t.isNil = true := fun hn => hp.ne_nil (isNil_iff.1 hn)
    obtain ⟨s', hs', hrun | ⟨hno, -⟩⟩ := run_findPath hlen hS h.roots hp (opts.appliedKey key) false
    · refine ⟨s', hs', ?_⟩
      rw [createMerkleProof, Prog.run_bind_of_ok hrun, if_neg hnil]
      rfl
    · exact absurd h.complete hno

/-- A proof begins with the node at the root. -/
private theorem proofRoot_pathProof (ht : t ≠ .nil) (key : Bytes) :
    proofRoot opts (pathProof opts t key) = rootHash opts t := by
  have hlast : ∀ (fs : List (Frame Nibble Value)) (u : Tree),
      ((treeNode opts u :: spine opts fs u).reverse.map MPTNode.serialize).head? =
        some (treeNode opts (plug fs u)).serialize := by
    intro fs u
    rcases fs with _ | ⟨f, fs⟩
    · rfl
    · simp [spine]
  rw [proofRoot, pathProof, foundPath]
  simp only [List.append_nil, hlast, plug_find, rootHash_of_ne_nil ht]
  rfl

include hlen hS in
/-- The nodes on the path of a key are all that its lookup needs. -/
private theorem covers_proofTrie (key : Bytes) (hproof : ∀ e ∈ pathProof opts t key, e ∈ S)
    (root : Bytes) :
    Covers (MPTOpts.ofHash opts.hash) (proofTrie opts root (pathProof opts t key)).db t
      (bytesToNibbles (opts.appliedKey key)) := by
  have hholds : ∀ n ∈ (foundPath opts t (bytesToNibbles (opts.appliedKey key)) []).stack,
      Holds (MPTOpts.ofHash opts.hash) (proofTrie opts root (pathProof opts t key)).db
        n.serialize := by
    intro n hn
    have hmem : n.serialize ∈ pathProof opts t key :=
      List.mem_map_of_mem (List.mem_reverse.2 hn)
    exact view_batch hlen hS hproof (p := []) (hproof _ hmem) (.inr ⟨rfl, hmem⟩)
  refine ⟨?_, fun n hn _ => ?_⟩
  · rw [treeNode_ofHash]
    exact hholds _ (treeNode_mem_stack t _)
  · rw [foundPath_ofHash] at hn
    exact hholds n hn

include hlen hS in
/-- **The proof that was created is accepted** and gives the value of the key. -/
theorem verify_created (h : Committed opts S t) (hp : Packed P t) {key : Bytes}
    (hproof : ∀ e ∈ pathProof opts t key, e ∈ S) :
    verifyMPTWithMerkleProof opts (rootHash opts t) key (pathProof opts t key) =
      .ok ((t.get (bytesToNibbles (opts.appliedKey key))).map Subtype.val) := by
  have hlen' : ∀ v, ((MPTOpts.ofHash opts.hash).hash v).length = 32 := hlen
  obtain ⟨s', -, hrun⟩ := run_get_of_covers hlen' hS (roots_proofTrie h hproof) hp
    (opts.appliedKey key) (covers_proofTrie hlen hS key hproof (rootHash opts t)) true
  rw [run_verify hlen (length_rootHash hlen t), if_pos (proofRoot_pathProof hp.ne_nil key).symm,
    hrun]
  rfl

/-- **What proofs of a key are for**: the one that is created verifies to the value of the key, and
no list of nodes verifies to anything else. -/
def ProofsVerify (opts : MPTOpts) (S : Set Bytes) (s : MerklePatriciaTrie) (key : Bytes) : Prop :=
  ∃ value proof s₁ s₂, (get opts key false).run s = (.ok value, s₁) ∧
    (createMerkleProof opts key).run s = (.ok proof, s₂) ∧
    ((∀ e ∈ proof, e ∈ S) → verifyMPTWithMerkleProof opts s.root key proof = .ok value) ∧
    ∀ proof', (∀ e ∈ proof', e ∈ S) → ∀ value',
      verifyMPTWithMerkleProof opts s.root key proof' = .ok value' → value' = value

include hlen hS hempty in
/-- **Proofs work exactly for the tries that are not empty.**  The proof of a key of the empty trie
has no nodes and the root it should have, but the lookup from that root finds no node. -/
theorem proofsVerify_iff {s : MerklePatriciaTrie} (h : IsTrie opts S s t) (key : Bytes) :
    ProofsVerify opts S s key ↔ s.root ≠ opts.EMPTY_TRIE_ROOT := by
  obtain ⟨s₁, -, hget⟩ := run_get hlen hS h.roots h.complete h.packed key
  obtain ⟨s₂, -, hcreate⟩ := run_createMerkleProof hlen hS h key
  have hsound : ∀ proof', (∀ e ∈ proof', e ∈ S) → ∀ value',
      verifyMPTWithMerkleProof opts s.root key proof' = .ok value' →
        value' = (t.get (bytesToNibbles (opts.appliedKey key))).map Subtype.val ∧ t ≠ .nil := by
    intro proof' hproof value' hv
    rw [h.roots.root] at hv
    exact verify_sound hlen hS hempty h.roots.committed h.packed hproof hv
  rw [Ne, h.roots.root_eq_empty hlen hS hempty]
  constructor
  · rintro ⟨value, proof, s₁', s₂', -, hcreate', hok, -⟩ rfl
    rw [hcreate] at hcreate'
    obtain rfl : [] = proof := Except.ok.inj (congrArg Prod.fst hcreate')
    exact (hsound [] (by simp) value (hok (by simp))).2 rfl
  · intro hne
    have hnil : ¬ t.isNil = true := fun hn => hne (isNil_iff.1 hn)
    rw [if_neg hnil] at hcreate
    refine ⟨_, _, s₁, s₂, hget, hcreate, fun hproof => ?_,
      fun proof' hproof value' hv => (hsound proof' hproof value' hv).1⟩
    rw [h.roots.root]
    exact verify_created hlen hS h.roots.committed (h.packed.resolve_left hne) hproof

end Verify

/-- Every state that writes to a new trie can reach is a trie. -/
theorem Built.isTrie {S : Set Bytes} {s : MerklePatriciaTrie} {t : Tree} (h : Built opts S s t) :
    IsTrie opts S s t :=
  ⟨h.roots, h.complete, h.packed.imp_right fun hp => hp.mono fun _ _ => Nat.zero_le _⟩

/-- Writes to a new trie that does not prune. -/
private theorem built_trieOf {S : Set Bytes} (hS : HashOn opts S)
    (hprune : opts.useNodePruning = false)
    {ops : List TrieOp} (hin : (trieOf opts ops).db.contents ⊆ S) :
    Built opts S (trieOf opts ops) (treeOf opts ops .nil) := by
  obtain ⟨s', hrun, hbuilt⟩ :=
    (built_create S).runOps hS.length hS.injOn hS.empty hprune ops hin
  have hstate : trieOf opts ops = s' := congrArg Prod.snd hrun
  rwa [hstate]

/-- A key of a trie with two branches, and one which the lower branch shows to be absent. -/
theorem proofsVerify_threeKeys :
    ProofsVerify polyOpts {e | e ∈ storedStrings polyOpts threeKeys} (trieOf polyOpts threeKeys)
        [0x12] ∧
      ProofsVerify polyOpts {e | e ∈ storedStrings polyOpts threeKeys} (trieOf polyOpts threeKeys)
        [0x14] := by
  have hS := hashOn_threeKeys
  have htrie := (built_trieOf hS rfl (contents_subset_storedStrings polyOpts threeKeys)).isTrie
  have hroot : (trieOf polyOpts threeKeys).root ≠ polyOpts.EMPTY_TRIE_ROOT := by decide +kernel
  exact ⟨(proofsVerify_iff hS.length hS.injOn hS.empty htrie _).2 hroot,
    (proofsVerify_iff hS.length hS.injOn hS.empty htrie _).2 hroot⟩

/-- **In the empty trie no key is proved absent**: the proof that is created is rejected. -/
theorem emptyTrie_proof_rejected :
    IsTrie padOpts {b | b.length < 32} (create padOpts (ofEntries [])) .nil ∧
      verifyMPTWithMerkleProof padOpts padOpts.EMPTY_TRIE_ROOT [0x12] [] = .error .invalidProof ∧
      ¬ ProofsVerify padOpts {b | b.length < 32} (create padOpts (ofEntries [])) [0x12] := by
  have hrejected : verifyMPTWithMerkleProof padOpts padOpts.EMPTY_TRIE_ROOT [0x12] [] =
      .error .invalidProof := by decide
  refine ⟨(built_create _).isTrie, hrejected, ?_⟩
  rintro ⟨value, proof, s₁, s₂, -, hcreate, hok, -⟩
  obtain rfl : [] = proof := Except.ok.inj (congrArg Prod.fst hcreate)
  have hv := hok (by simp)
  rw [show (create padOpts (ofEntries [])).root = padOpts.EMPTY_TRIE_ROOT from rfl, hrejected] at hv
  cases hv

end Tvmjs
