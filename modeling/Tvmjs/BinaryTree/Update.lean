import Tvmjs.BinaryTree.Walk

/-!
# What a put writes

A put goes back up along the stack of its walk.  On every level the nodes pushed so far, with those
that are in the database already, are the nodes of the new trie there.

* `Gathered` -- this invariant of the way up;
* `run_updateParents`, `run_updateRoot`, `run_branchChain`, `run_rootChain` -- the steps of an
  insertion;
* `run_deleteUp` -- the way up of a deletion settles the branchings.
-/

namespace Tvmjs

open RLP (Input)

namespace BinaryTree

open BitTrie

variable {opts : BinaryTreeOpts}

/-! ### The nodes gathered so far -/

/-- The nodes pushed are nodes of the trie, and its other nodes are in the database. -/
structure Gathered (opts : BinaryTreeOpts) (db : CheckpointDB) (ps : List (Bytes × BinaryNode))
    (p : List Bool) (u : StemTrie) : Prop where
  within : ∀ e ∈ ps, ∃ q v, v ≠ .nil ∧ e = (trieHash opts v, trieNode opts q v) ∧
    BitTrie.Within p u q v
  each : u.Each (fun q v => (trieHash opts v, trieNode opts q v) ∈ ps ∨ NodeHeld opts db q v) p

/-- What is stored needs no push. -/
theorem gathered_stored {db : CheckpointDB} {p : List Bool} {u : StemTrie}
    (h : u.Each (NodeHeld opts db) p) : Gathered opts db [] p u :=
  ⟨nofun, h.mono fun _ _ => .inr⟩

variable (opts) in
theorem gathered_leaf (db : CheckpointDB) (p k : List Bool) (values : StemValues) :
    Gathered opts db [(trieHash opts (.leaf k values), .stem (bitsToBytes k) values)] p
      (.leaf k values) where
  within e he := by
    rw [List.mem_singleton] at he
    exact ⟨p, .leaf k values, nofun, he, .refl p _⟩
  each := .inl (List.mem_singleton.2 rfl)

/-- One level up: the new side is gathered and the other one is stored. -/
theorem Gathered.branch {db : CheckpointDB} {ps : List (Bytes × BinaryNode)} {p : List Bool}
    {b : Bool} {u : StemTrie} (h : Gathered opts db ps (p ++ [b]) u) {c : Bool → StemTrie}
    (hother : ∀ b', b' ≠ b → (c b').Each (NodeHeld opts db) (p ++ [b'])) :
    Gathered opts db ((trieHash opts (.branch (Function.update c b u)),
      trieNode opts p (.branch (Function.update c b u))) :: ps) p
      (.branch (Function.update c b u)) where
  within e he := by
    rcases List.mem_cons.1 he with rfl | he
    · exact ⟨p, .branch (Function.update c b u), nofun, rfl, .refl p _⟩
    · obtain ⟨q, v, hv, heq, hw⟩ := h.within e he
      refine ⟨q, v, hv, heq, .side (b := b) ?_⟩
      rwa [Function.update_self]
  each := by
    refine Each.update (.inl List.mem_cons_self) ?_ fun b' hb' => ?_
    · exact h.each.mono fun q v hq => hq.imp_left (List.mem_cons_of_mem _)
    · exact (hother b' hb').mono fun q v hq => .inr hq

variable (opts) in
/-- The children of a node with one of them replaced. -/
private theorem setChildren_trieChild (p : List Bool) (c : Bool → StemTrie) (b : Bool)
    (u : StemTrie) :
    BinaryNode.setChildren (fun b' => trieChild opts (p ++ [b']) (c b')) (some b)
        (trieChild opts (p ++ [b]) u) =
      fun b' => trieChild opts (p ++ [b']) (Function.update c b u b') := by
  funext b'
  rw [BinaryNode.setChildren, Function.update_apply, Function.update_apply]
  split
  · rename_i hb
    rw [hb]
  · rfl

private theorem getElem?_eq_bit {k : List Bool} {d : ℕ} (h : d < k.length) :
    k[d]? = some (bit k d) := by
  rw [bit, List.getD_eq_getElem?_getD, List.getElem?_eq_getElem h]
  rfl

/-- A node on the way of a key with the side of the key replaced. -/
theorem internal_setChildren {k : List Bool} {d : ℕ} (hd : d < k.length) (c : Bool → StemTrie)
    {u : StemTrie} {child : ChildBinaryNode}
    (hchild : trieChild opts (k.take (d + 1)) u = some child) :
    BinaryNode.internal (BinaryNode.setChildren
        (fun b => trieChild opts (k.take d ++ [b]) (c b)) k[(k.take d).length]? (some child)) =
      trieNode opts (k.take d) (.branch (Function.update c (bit k d) u)) := by
  have hlength : (k.take d).length = d := by
    rw [List.length_take]
    omega
  rw [hlength, getElem?_eq_bit hd, ← hchild, take_succ_eq hd, setChildren_trieChild, trieNode]

/-! ### The branchings passed -/

/-- The sides beside the way of a key are in their places and in the database. -/
def Framed (opts : BinaryTreeOpts) (db : CheckpointDB) (k : List Bool) :
    List (Bool → StemTrie) → Prop
  | [] => True
  | c :: cs =>
    (∀ b, b ≠ bit k cs.length → PlacedTrie (k.take cs.length ++ [b]) (c b) ∧
      (c b).Each (NodeHeld opts db) (k.take cs.length ++ [b])) ∧ Framed opts db k cs

/-- What a walk leaves: the branchings passed and the part where it ends. -/
structure Descended (opts : BinaryTreeOpts) (db : CheckpointDB) (k : List Bool)
    (cs : List (Bool → StemTrie)) (focus : StemTrie) : Prop where
  framed : Framed opts db k cs
  depth : cs.length ≤ 248
  placed : PlacedTrie (k.take cs.length) focus
  stored : focus.Each (NodeHeld opts db) (k.take cs.length)
  ends : ∀ c, focus ≠ .branch c

theorem descended_descend {db : CheckpointDB} {k : List Bool} (hk : k.length = 248)
    {t : StemTrie} (cs : List (Bool → StemTrie)) (hframed : Framed opts db k cs)
    (hcs : cs.length ≤ 248) (hplace : PlacedTrie (k.take cs.length) t)
    (hstored : t.Each (NodeHeld opts db) (k.take cs.length)) :
    Descended opts db k (t.descend k cs).1 (t.descend k cs).2 := by
  induction t generalizing cs with
  | nil => exact ⟨hframed, hcs, hplace, hstored, nofun⟩
  | leaf w values => exact ⟨hframed, hcs, hplace, hstored, nofun⟩
  | branch c ih =>
    have hlt := hplace.lt_length hk hcs
    have hnext := take_succ_eq hlt
    rw [descend]
    refine ih (bit k cs.length) (c :: cs) ⟨fun b _ => ⟨hplace.child b, hstored.2 b⟩, hframed⟩
      ?_ ?_ ?_
    · rw [List.length_cons]
      omega
    · rw [List.length_cons, hnext]
      exact hplace.child _
    · rw [List.length_cons, hnext]
      exact hstored.2 _

/-- A part that is plugged in is a part. -/
theorem within_plug (k : List Bool) (cs : List (Bool → StemTrie)) (hcs : cs.length ≤ k.length)
    (u : StemTrie) : BitTrie.Within [] (plug k cs u) (k.take cs.length) u := by
  have htrans : ∀ {p q r : List Bool} {t v x : StemTrie}, BitTrie.Within p t q v →
      BitTrie.Within q v r x → BitTrie.Within p t r x := by
    intro p q r t v x h h'
    induction h with
    | refl p t => exact h'
    | side hside ih => exact .side (ih h')
  induction cs generalizing u with
  | nil => exact .refl [] u
  | cons c cs ih =>
    have hlt : cs.length < k.length := hcs
    refine htrans (ih (Nat.le_of_lt hlt) _) (.side (b := bit k cs.length) ?_)
    rw [Function.update_self, List.length_cons, take_succ_eq hlt]
    exact .refl _ u

variable (hlen : ∀ msg, (opts.hashFunction msg).length = 32)

/-! ### The way up of an insertion -/

/-- The node pushed last is the one of the part below a depth, and its parent will refer to it by
the path updated last. -/
structure Linked (opts : BinaryTreeOpts) (db : CheckpointDB) (k : List Bool)
    (ps : List (Bytes × BinaryNode)) (last : List Bool) (d : ℕ) (u : StemTrie) : Prop where
  head : ps.head? = some (trieHash opts u, trieNode opts (k.take d) u)
  child : trieChild opts (k.take d) u = some ⟨.bytes (trieHash opts u), last⟩
  gathered : Gathered opts db ps (k.take d) u
  leaf : ∀ w values, u = .leaf w values → w = k

theorem Linked.ne_nil {db : CheckpointDB} {k : List Bool} {ps : List (Bytes × BinaryNode)}
    {last : List Bool} {d : ℕ} {u : StemTrie} (h : Linked opts db k ps last d u) : u ≠ .nil := by
  rintro rfl
  have hchild := h.child
  cases hchild

variable (opts) in
/-- The stem node alone. -/
theorem linked_leaf (db : CheckpointDB) (k : List Bool) (d : ℕ) (values : StemValues) :
    Linked opts db k [(trieHash opts (.leaf k values), .stem (bitsToBytes k) values)] k d
      (.leaf k values) where
  head := rfl
  child := rfl
  gathered := gathered_leaf opts db _ k values
  leaf _ _ h := by
    cases h
    rfl

/-- A branching that was just pushed. -/
theorem linked_branch {db : CheckpointDB} {k : List Bool} {ps : List (Bytes × BinaryNode)} {d : ℕ}
    {c : Bool → StemTrie}
    (h : Gathered opts db ((trieHash opts (.branch c), trieNode opts (k.take d) (.branch c)) :: ps)
      (k.take d) (.branch c)) :
    Linked opts db k ((trieHash opts (.branch c), trieNode opts (k.take d) (.branch c)) :: ps)
      (k.take d) d (.branch c) where
  head := rfl
  child := rfl
  gathered := h
  leaf _ _ h := by cases h

section Parents

include hlen

/-- **The remaining parents**: each is stored with the side of the key replaced. -/
theorem run_updateParents {db : CheckpointDB} {k : List Bool} (hk : k.length = 248)
    {cs : List (Bool → StemTrie)} (hframed : Framed opts db k cs) (hne : cs ≠ [])
    (hcs : cs.length ≤ 248) {u : StemTrie} {ps : List (Bytes × BinaryNode)} {last : List Bool}
    (h : Linked opts db k ps last cs.length u) (hplace : PlacedTrie [] (plug k cs u)) :
    ∃ c u' ps' last', updateParents opts k (frameStack opts k cs) ps last =
        .ok (trieNode opts [] (.branch c), ps', last') ∧ Linked opts db k ps' last' 1 u' ∧
      plug k cs u = plug k [c] u' ∧ Framed opts db k [c] := by
  -- On the branches above; each gets the hash of the child below it.
  induction cs generalizing u ps last with
  | nil => exact absurd rfl hne
  | cons c cs ih =>
    rcases cs with _ | ⟨c', cs⟩
    · exact ⟨c, u, ps, last, rfl, h, rfl, hframed⟩
    · have hlt : (c' :: cs).length < k.length := by
        rw [hk]
        exact hcs
      rcases ps with _ | ⟨⟨hash, node⟩, ps⟩
      · have hhead := h.head
        cases hhead
      · obtain ⟨rfl, rfl⟩ := Prod.mk.inj (Option.some.inj h.head)
        have hnode := internal_setChildren hlt c h.child
        have hwithin := within_plug k (c' :: cs) (Nat.le_of_lt hlt)
          (.branch (Function.update c (bit k (c' :: cs).length) u))
        -- the updated branch is hashed, and its hash goes up
        have hmerkle := merkelize_trieNode hlen (p := k.take (c' :: cs).length)
          (t := .branch (Function.update c (bit k (c' :: cs).length) u)) nofun
          (hwithin.canonical hplace.canonical) (hwithin.all hplace.sized)
        have hgathered : Gathered opts db
            ((trieHash opts u, trieNode opts (k.take (c :: c' :: cs).length) u) :: ps)
            (k.take (c' :: cs).length ++ [bit k (c' :: cs).length]) u := by
          rw [← take_succ_eq hlt]
          exact h.gathered
        have hlinked := linked_branch (k := k) (d := (c' :: cs).length)
          (hgathered.branch fun b hb => (hframed.1 b hb).2)
        obtain ⟨c₀, u', ps', last', hrun, hlinked', hplug, hframed'⟩ :=
          ih hframed.2 nofun (Nat.le_of_lt (hk ▸ hlt)) hlinked hplace
        refine ⟨c₀, u', ps', last', ?_, hlinked', hplug, hframed'⟩
        have hstep : updateParents opts k (frameStack opts k (c :: c' :: cs))
            ((trieHash opts u, trieNode opts (k.take (c :: c' :: cs).length) u) :: ps) last =
              (merkelize opts (.internal (BinaryNode.setChildren
                (fun b => trieChild opts (k.take (c' :: cs).length ++ [b]) (c b))
                k[(k.take (c' :: cs).length).length]? (some ⟨.bytes (trieHash opts u), last⟩))) >>=
              fun nodeHash => updateParents opts k (frameStack opts k (c' :: cs))
                ((nodeHash, .internal (BinaryNode.setChildren
                  (fun b => trieChild opts (k.take (c' :: cs).length ++ [b]) (c b))
                  k[(k.take (c' :: cs).length).length]? (some ⟨.bytes (trieHash opts u), last⟩))) ::
                  (trieHash opts u, trieNode opts (k.take (c :: c' :: cs).length) u) :: ps)
                (k.take (c' :: cs).length)) := rfl
        rw [hstep, hnode, hmerkle, ← hrun]
        rfl

/-- The path that the root gives its node as a child: a stem stands at its own bits. -/
def childPath (k last : List Bool) : BinaryNode → List Bool
  | .stem .. => k
  | .internal _ => last

/-- **The root of branchings**: it refers to the part below it. -/
theorem run_updateRoot {db : CheckpointDB} {k : List Bool} (hk : k.length = 248) {stem : Bytes}
    (hstem : allBits stem = k) (stemNode : BinaryNode) {c : Bool → StemTrie} {u : StemTrie}
    {ps : List (Bytes × BinaryNode)} {last : List Bool} (h : Linked opts db k ps last 1 u)
    (hplace : PlacedTrie [] (plug k [c] u)) :
    updateRoot opts stem stemNode (trieNode opts [] (.branch c)) ps last =
      .ok (trieNode opts [] (plug k [c] u), ps) := by
  have hlt : 0 < k.length := by rw [hk]; decide
  rcases ps with _ | ⟨⟨hash, node⟩, ps⟩
  · have hhead := h.head
    cases hhead
  · obtain ⟨rfl, rfl⟩ := Prod.mk.inj (Option.some.inj h.head)
    have hwithin := within_plug k [c] hlt u
    have hmerkle := merkelize_trieNode hlen (p := k.take 1) h.ne_nil
      (hwithin.canonical hplace.canonical) (hwithin.all hplace.sized)
    -- the path is the one its node will have as a child
    have hpath : childPath k last (trieNode opts (k.take 1) u) = last := by
      have hchild := h.child
      rcases u with _ | ⟨w, values⟩ | cu
      · exact absurd rfl h.ne_nil
      · have hw := h.leaf w values rfl
        rw [trieChild] at hchild
        cases hchild
        exact hw.symm
      · rfl
    have hnode := internal_setChildren (d := 0) hlt c h.child
    have hstep : updateRoot opts stem stemNode (trieNode opts [] (.branch c))
        ((trieHash opts u, trieNode opts (k.take 1) u) :: ps) last =
          (merkelize opts (trieNode opts (k.take 1) u) >>= fun hash =>
            pure (.internal (BinaryNode.setChildren (fun b => trieChild opts ([] ++ [b]) (c b))
              (allBits stem)[0]?
              (some ⟨.bytes hash, childPath (allBits stem) last (trieNode opts (k.take 1) u)⟩)),
              (trieHash opts u, trieNode opts (k.take 1) u) :: ps)) := rfl
    rw [hstep, hstem, hpath, hmerkle]
    change Except.ok (_, _) = Except.ok (_, _)
    rw [show trieNode opts [] (plug k [c] u) =
      trieNode opts (k.take 0) (.branch (Function.update c (bit k 0) u)) from rfl, ← hnode]
    rfl

end Parents

/-! ### Two stems that part -/

/-- Two stems with their values, which part at a depth. -/
structure Parting (k w : List Bool) (v u : StemValues) (m : ℕ) : Prop where
  length : k.length = 248
  length' : w.length = 248
  sized : SizedValues v
  sized' : SizedValues u
  matching : matchingBitsLength k w = m
  lt : m < 248
  same : k.take m = w.take m
  differ : bit k m ≠ bit w m

theorem parting {k w : List Bool} {v u : StemValues} (hk : k.length = 248) (hw : w.length = 248)
    (hv : SizedValues v) (hu : SizedValues u) (hne : k ≠ w) :
    Parting k w v u (matchingBitsLength k w) := by
  obtain ⟨q, b, r, r', hkq, hwq, hmatch⟩ := exists_matchingBits (hk.trans hw.symm) hne
  have hbit : ∀ {x : List Bool} {b : Bool} {r : List Bool}, x = q ++ b :: r →
      bit x q.length = b := by
    intro x b r hx
    exact bit_of_isPrefix ⟨r, by rw [hx, List.append_assoc]; rfl⟩
  refine ⟨hk, hw, hv, hu, rfl, ?_, ?_, ?_⟩
  · rw [hmatch, ← hk, hkq, List.length_append, List.length_cons]
    omega
  · rw [hmatch, hkq, hwq, List.take_left, List.take_left]
  · rw [hmatch, hbit hkq, hbit hwq]
    cases b <;> decide

namespace Parting

variable {k w : List Bool} {v u : StemValues} {m : ℕ}

/-- What stands at a depth above the parting. -/
def part (k w : List Bool) (v u : StemValues) (d : ℕ) : StemTrie :=
  fork k v w u (k.drop d) (w.drop d)

private theorem take_eq (h : Parting k w v u m) {d : ℕ} (hd : d ≤ m) : k.take d = w.take d := by
  have htake := congrArg (List.take d) h.same
  rwa [List.take_take, List.take_take, Nat.min_eq_left hd] at htake

theorem ne (h : Parting k w v u m) : k ≠ w := by
  rintro rfl
  exact h.differ rfl

/-- At the parting the stems are side by side. -/
theorem part_self (h : Parting k w v u m) :
    part k w v u m =
      .branch (Function.update (single (bit w m) (.leaf w u)) (bit k m) (.leaf k v)) := by
  rw [part, drop_eq_bit_cons (k := k) (by rw [h.length]; exact h.lt),
    drop_eq_bit_cons (k := w) (by rw [h.length']; exact h.lt), fork, if_neg h.differ]

/-- Above it one side is empty. -/
private theorem part_above (h : Parting k w v u m) {d : ℕ} (hd : d < m) :
    part k w v u d = .branch (single (bit k d) (part k w v u (d + 1))) := by
  have hlt := h.lt
  have hbit : bit k d = bit w d := by
    have hnext := h.take_eq (d := d + 1) hd
    rw [take_succ_eq (by rw [h.length]; omega), take_succ_eq (by rw [h.length']; omega),
      h.take_eq (Nat.le_of_lt hd)] at hnext
    exact List.singleton_inj.1 (List.append_cancel_left hnext)
  rw [part, drop_eq_bit_cons (k := k) (by rw [h.length]; omega),
    drop_eq_bit_cons (k := w) (by rw [h.length']; omega), fork, if_pos hbit]
  rfl

theorem placed (h : Parting k w v u m) {d : ℕ} (hd : d ≤ m) :
    PlacedTrie (k.take d) (part k w v u d) := by
  have hlt := h.lt
  have hlength : (k.take d).length = d := by
    rw [List.length_take, h.length]
    omega
  refine ⟨?_, All.fork h.sized h.sized' _ _⟩
  have hc := canonical_fork v u h.ne h.length h.length' (p := k.take d) ( List.take_prefix d k)
    (by rw [h.take_eq hd]; exact List.take_prefix d w)
  rwa [hlength] at hc

theorem part_ne_nil (h : Parting k w v u m) {d : ℕ} (hd : d ≤ m) : part k w v u d ≠ .nil := by
  rcases Nat.lt_or_eq_of_le hd with hlt | rfl
  · rw [h.part_above hlt]
    nofun
  · rw [h.part_self]
    nofun

end Parting

section Chains

variable {db : CheckpointDB} {k w : List Bool} {v u : StemValues} {m : ℕ}

include hlen

theorem merkelize_part (h : Parting k w v u m) {d : ℕ} (hd : d ≤ m) (p : List Bool) :
    merkelize opts (trieNode opts p (Parting.part k w v u d)) =
      .ok (trieHash opts (Parting.part k w v u d)) :=
  merkelize_trieNode hlen (h.part_ne_nil hd) (h.placed hd).canonical (h.placed hd).sized

theorem merkelize_leaf {w : List Bool} {values : StemValues} (hw : w.length = 248)
    (hvalues : SizedValues values) :
    merkelize opts (.stem (bitsToBytes w) values) = .ok (trieHash opts (.leaf w values)) :=
  merkelize_stem hlen (by rw [length_bitsToBytes, hw]) hvalues

/-- **The node at which two stems part.** -/
theorem run_splitNode (h : Parting k w v u m) :
    splitNode opts (.stem (bitsToBytes k) v) k (.stem (bitsToBytes w) u) w m =
      .ok (trieNode opts (k.take m) (Parting.part k w v u m)) := by
  have hlt := h.lt
  rw [splitNode, merkelize_leaf hlen h.length h.sized, merkelize_leaf hlen h.length' h.sized',
    getElem?_eq_bit (by rw [h.length]; exact hlt), getElem?_eq_bit (by rw [h.length']; exact hlt),
    h.part_self, trieNode]
  change Except.ok (BinaryNode.internal _) = _
  congr 2
  funext b
  simp only [BinaryNode.setChildren, single, Function.update_apply]
  -- each bit is that of one of the stems
  by_cases hb : b = bit w m
  · rw [if_pos hb, if_neg fun hbk => h.differ (hbk.symm.trans hb), if_pos hb]
    rfl
  · have hbk : b = bit k m := by
      have hdiffer := h.differ
      revert hb hdiffer
      cases b <;> cases bit w m <;> cases bit k m <;> simp
    rw [if_neg hb, if_pos hbk, if_pos hbk]
    rfl

/-- A node above the parting. -/
private theorem run_parentOf (h : Parting k w v u m) {d : ℕ} (hd : d < m) (p : List Bool) :
    parentOf opts k d (trieNode opts p (Parting.part k w v u (d + 1))) =
      .ok (trieNode opts (k.take d) (Parting.part k w v u d)) := by
  have hlt : d < k.length := by
    have := h.lt
    rw [h.length]
    omega
  rw [parentOf, merkelize_part hlen h hd]
  change Except.ok (BinaryNode.internal (BinaryNode.setChildren (fun _ => none) k[d]?
    (some ⟨.bytes (trieHash opts (Parting.part k w v u (d + 1))), k.take (d + 1)⟩))) = _
  have hchild : some ⟨.bytes (trieHash opts (Parting.part k w v u (d + 1))), k.take (d + 1)⟩ =
      trieChild opts (k.take (d + 1)) (Parting.part k w v u (d + 1)) := by
    obtain ⟨c, hc⟩ := fork_eq_branch v u h.ne h.length h.length' (h.take_eq (d := d + 1) hd)
    rw [Parting.part, hc]
    rfl
  have hset := setChildren_trieChild opts (k.take d) (fun _ => .nil) (bit k d)
    (Parting.part k w v u (d + 1))
  rw [hchild, getElem?_eq_bit hlt, h.part_above hd, trieNode, take_succ_eq hlt]
  congr 2

omit hlen in
/-- Above the parting the nodes gather. -/
private theorem Gathered.part_above (h : Parting k w v u m) {d : ℕ} (hd : d < m)
    {ps : List (Bytes × BinaryNode)}
    (hps : Gathered opts db ps (k.take (d + 1)) (Parting.part k w v u (d + 1))) :
    Gathered opts db ((trieHash opts (Parting.part k w v u d),
      trieNode opts (k.take d) (Parting.part k w v u d)) :: ps) (k.take d)
      (Parting.part k w v u d) := by
  have hlt : d < k.length := by
    have := h.lt
    rw [h.length]
    omega
  rw [take_succ_eq hlt] at hps
  rw [h.part_above hd]
  exact hps.branch (c := fun _ => .nil) fun b' _ => trivial

omit hlen in
variable (opts) in
/-- At the parting one stem is new and the other one is stored. -/
theorem Gathered.part_self (h : Parting k w v u m) (hw : NodeHeld opts db (k.take m) (.leaf w u)) :
    Gathered opts db [(trieHash opts (Parting.part k w v u m),
        trieNode opts (k.take m) (Parting.part k w v u m)),
      (trieHash opts (.leaf k v), .stem (bitsToBytes k) v)] (k.take m)
      (Parting.part k w v u m) := by
  rw [h.part_self]
  refine Gathered.branch (gathered_leaf opts db _ k v) fun b hb => ?_
  rw [single, Function.update_apply]
  split
  · exact hw
  · trivial

/-- **The nodes between a split and the parent above it.** -/
theorem run_branchChain (h : Parting k w v u m) (low : ℕ) {depth : ℕ} (hlow : low < depth)
    (hdepth : depth ≤ m) {ps : List (Bytes × BinaryNode)} {last : List Bool}
    (hlinked : Linked opts db k ps last depth (Parting.part k w v u depth)) :
    ∃ chain ps' last', branchChain opts k low depth
        (trieNode opts (k.take depth) (Parting.part k w v u depth)) = .ok chain ∧
      pushUpdates opts ps last chain = .ok (ps', last') ∧
      Linked opts db k ps' last' (low + 1) (Parting.part k w v u (low + 1)) := by
  induction depth generalizing ps last with
  | zero => exact absurd hlow (Nat.not_lt_zero low)
  | succ depth ih =>
    rcases Nat.lt_or_eq_of_le (Nat.le_of_lt_succ hlow) with hlt | rfl
    · have hgathered := Gathered.part_above h (Nat.lt_of_succ_le hdepth) hlinked.gathered
      have hlinked' : Linked opts db k ((trieHash opts (Parting.part k w v u depth),
          trieNode opts (k.take depth) (Parting.part k w v u depth)) :: ps) (k.take depth) depth
          (Parting.part k w v u depth) := by
        rw [h.part_above (Nat.lt_of_succ_le hdepth)] at hgathered ⊢
        exact linked_branch hgathered
      obtain ⟨chain, ps', last', hchain, hpush, hend⟩ :=
        ih hlt (Nat.le_of_succ_le hdepth) hlinked'
      refine ⟨(trieNode opts (k.take depth) (Parting.part k w v u depth), k.take depth) :: chain,
        ps', last', ?_, ?_, hend⟩
      · rw [branchChain, if_pos hlt, run_parentOf hlen h (Nat.lt_of_succ_le hdepth)]
        change (branchChain opts k low depth _ >>= fun rest => _) = _
        rw [hchain]
        rfl
      · rw [pushUpdates, merkelize_part hlen h (Nat.le_of_succ_le hdepth)]
        exact hpush
    · refine ⟨[], ps, last, ?_, rfl, hlinked⟩
      rw [branchChain, if_neg (Nat.lt_irrefl low)]
      rfl

/-- **The nodes for a common prefix.** -/
theorem run_rootChain (h : Parting k w v u m) {depth : ℕ} (hdepth : depth ≤ m)
    {ps : List (Bytes × BinaryNode)}
    (hps : Gathered opts db ((trieHash opts (Parting.part k w v u depth),
      trieNode opts (k.take depth) (Parting.part k w v u depth)) :: ps) (k.take depth)
      (Parting.part k w v u depth)) :
    ∃ ps', rootChain opts k depth (trieNode opts (k.take depth) (Parting.part k w v u depth)) ps =
        .ok (trieNode opts [] (Parting.part k w v u 0), ps') ∧
      Gathered opts db ((trieHash opts (Parting.part k w v u 0),
        trieNode opts [] (Parting.part k w v u 0)) :: ps') [] (Parting.part k w v u 0) := by
  induction depth generalizing ps with
  | zero => exact ⟨ps, rfl, hps⟩
  | succ depth ih =>
    have hgathered := Gathered.part_above h (Nat.lt_of_succ_le hdepth) hps
    obtain ⟨ps', hrun, hend⟩ := ih (Nat.le_of_succ_le hdepth) hgathered
    refine ⟨ps', ?_, hend⟩
    rw [rootChain, merkelize_part hlen h hdepth, run_parentOf hlen h (Nat.lt_of_succ_le hdepth)]
    exact hrun

end Chains

/-! ### The way up of a deletion -/

section Delete

variable {db : CheckpointDB} {k : List Bool}

/-- What remains of a part when nothing was pushed is stored. -/
theorem Gathered.stored {p : List Bool} {u : StemTrie} (h : Gathered opts db [] p u) :
    u.Each (NodeHeld opts db) p :=
  h.each.mono fun _ _ hq => hq.resolve_left (List.not_mem_nil)

include hlen

omit hlen in
variable (opts) in
private theorem exists_trieChild (p : List Bool) {t : StemTrie} (ht : t ≠ .nil) :
    ∃ path, trieChild opts p t = some ⟨.bytes (trieHash opts t), path⟩ := by
  cases t with
  | nil => exact absurd rfl ht
  | leaf w values => exact ⟨w, rfl⟩
  | branch c => exact ⟨p, rfl⟩

/-- What is lifted of the only child left: a stem, as a child at its own bits. -/
def liftedChild (hash : Bytes) :
    BinaryNode → Except BinaryTreeError (Option (Option ChildBinaryNode))
  | .stem siblingStem _ => .ok (some (some ⟨.bytes hash, allBits siblingStem⟩))
  | .internal _ => .ok none

/-- **What may be lifted** is the settled trie of the sides, unless that is a branching. -/
theorem run_liftChild {p : List Bool} {c : Bool → StemTrie}
    (hplace : ∀ b, PlacedTrie (p ++ [b]) (c b))
    (hstored : ∀ b, (c b).Each (NodeHeld opts db) (p ++ [b])) :
    (BitTrie.settle c = .branch c ∧
      liftChild db (fun b => trieChild opts (p ++ [b]) (c b)) = .ok none) ∨
      liftChild db (fun b => trieChild opts (p ++ [b]) (c b)) =
        .ok (some (trieChild opts p (BitTrie.settle c))) ∧
      PlacedTrie p (BitTrie.settle c) ∧ (BitTrie.settle c).Each (NodeHeld opts db) p := by
  have hplaced : PlacedTrie p (BitTrie.settle c) :=
    ⟨canonical_settle fun b => (hplace b).canonical, All.settle fun b => (hplace b).sized⟩
  -- a side that is left alone is lifted if it is a stem
  have hlone : ∀ b, c (!b) = .nil → c b ≠ .nil →
      (BitTrie.settle c = .branch c ∧
      liftChild db (fun b => trieChild opts (p ++ [b]) (c b)) = .ok none) ∨
        liftChild db (fun b => trieChild opts (p ++ [b]) (c b)) =
          .ok (some (trieChild opts p (BitTrie.settle c))) ∧
        PlacedTrie p (BitTrie.settle c) ∧ (BitTrie.settle c).Each (NodeHeld opts db) p := by
    intro b hnil hb
    obtain ⟨path, hchild⟩ := exists_trieChild opts (p ++ [b]) hb
    have hload := loadNode_of_view hlen .missingNode (hplace b) ((hstored b).top hb)
    have hrun : liftChild db (fun b => trieChild opts (p ++ [b]) (c b)) =
        liftedChild (trieHash opts (c b)) (trieNode opts (p ++ [b]) (c b)) := by
      cases b with
      | false =>
        change c true = _ at hnil
        rw [liftChild, hnil, hchild]
        change (loadNode db .missingNode (.bytes (trieHash opts (c false))) >>= _) = _
        rw [hload]
        rfl
      | true =>
        change c false = _ at hnil
        rw [liftChild, hnil, hchild]
        change (loadNode db .missingNode (.bytes (trieHash opts (c true))) >>= _) = _
        rw [hload]
        rfl
    rcases hcb : c b with _ | ⟨w, values⟩ | cb
    · exact absurd hcb hb
    · have hsettle : BitTrie.settle c = .leaf w values := by
        cases b with
        | false => rw [BitTrie.settle, hcb, show c true = .nil from hnil]
        | true => rw [BitTrie.settle, hcb, show c false = .nil from hnil]
      have hplace' := hplace b
      have hstored' := hstored b
      rw [hcb] at hplace' hstored' hrun
      have hword : w.length = 248 := by
        cases hplace'.canonical with
        | leaf _ _ hword => exact hword
      refine .inr ⟨?_, hplaced, by rw [hsettle]; exact hstored'⟩
      rw [hrun, hsettle]
      change Except.ok (some (some (ChildBinaryNode.mk _ (allBits (bitsToBytes w))))) = _
      rw [allBits_bitsToBytes (by rw [hword])]
      rfl
    · refine .inl ⟨settle_eq_branch_iff.2 (.inl ⟨b, cb, hcb⟩), ?_⟩
      rw [hrun, hcb]
      rfl
  by_cases hf : c false = .nil
  · by_cases ht : c true = .nil
    · have hsettle : BitTrie.settle c = .nil := by rw [BitTrie.settle, hf, ht]
      refine .inr ⟨?_, hplaced, by rw [hsettle]; trivial⟩
      rw [liftChild, hf, ht, hsettle]
      rfl
    · exact hlone true hf ht
  · by_cases ht : c true = .nil
    · exact hlone false ht hf
    · refine .inl ⟨settle_eq_branch_iff.2 (.inr fun b => by cases b <;> assumption), ?_⟩
      obtain ⟨l, hl⟩ := exists_trieChild opts (p ++ [false]) hf
      obtain ⟨r, hr⟩ := exists_trieChild opts (p ++ [true]) ht
      rw [liftChild, hl, hr]
      rfl

/-- **The way up of a deletion**: what is left of a branching is lifted as long as it is nothing or
one stem, and every other branching stays. -/
theorem run_deleteUp (hk : k.length = 248) {cs : List (Bool → StemTrie)}
    (hframed : Framed opts db k cs) (hcs : cs.length ≤ 248) {u : StemTrie}
    {ps : List (Bytes × BinaryNode)} {collapsing : Bool} (hplace : PlacedTrie (k.take cs.length) u)
    (hgathered : Gathered opts db ps (k.take cs.length) u)
    (hlift : collapsing = true → ps = []) (hkeep : collapsing = false → ∃ c, u = .branch c) :
    ∃ ps', deleteUp opts db k (frameStack opts k cs) (trieChild opts (k.take cs.length) u)
        collapsing ps = .ok (trieChild opts [] (collapse k cs u), ps') ∧
      Gathered opts db ps' [] (collapse k cs u) ∧ PlacedTrie [] (collapse k cs u) := by
  induction cs generalizing u ps collapsing with
  | nil => exact ⟨ps, rfl, hgathered, hplace⟩
  | cons c cs ih =>
    have hlt : cs.length < k.length := by
      rw [hk]
      exact hcs
    have hcs' : cs.length ≤ 248 := Nat.le_of_succ_le hcs
    rw [List.length_cons, take_succ_eq hlt] at hplace hgathered ⊢
    obtain ⟨hother, hframed'⟩ := hframed
    -- the sides of the branching now
    let sides := Function.update c (bit k cs.length) u
    have hsides : ∀ b, PlacedTrie (k.take cs.length ++ [b]) (sides b) := by
      intro b
      change PlacedTrie _ (Function.update c (bit k cs.length) u b)
      rw [Function.update_apply]
      split
      · rename_i hb
        rwa [hb]
      · rename_i hb
        exact (hother b hb).1
    have hchildren : BinaryNode.setChildren
        (fun b => trieChild opts (k.take cs.length ++ [b]) (c b)) k[(k.take cs.length).length]?
          (trieChild opts (k.take cs.length ++ [bit k cs.length]) u) =
        fun b => trieChild opts (k.take cs.length ++ [b]) (sides b) := by
      have hlength : (k.take cs.length).length = cs.length := by
        rw [List.length_take]
        omega
      rw [hlength, getElem?_eq_bit hlt, setChildren_trieChild]
    -- a branching that stays is stored
    have hstay : BitTrie.settle sides = .branch sides →
        ∃ ps', (merkelize opts (.internal fun b =>
            trieChild opts (k.take cs.length ++ [b]) (sides b)) >>= fun hash =>
          deleteUp opts db k (frameStack opts k cs) (some ⟨.bytes hash, k.take cs.length⟩) false
            ((hash, .internal fun b => trieChild opts (k.take cs.length ++ [b]) (sides b)) :: ps)) =
          .ok (trieChild opts [] (collapse k (c :: cs) u), ps') ∧
        Gathered opts db ps' [] (collapse k (c :: cs) u) ∧
          PlacedTrie [] (collapse k (c :: cs) u) := by
      intro hsettle
      have hplaced : PlacedTrie (k.take cs.length) (.branch sides) :=
        ⟨.branch (fun b => (hsides b).canonical) hsettle, fun b => (hsides b).sized⟩
      have hmerkle := merkelize_trieNode hlen (p := k.take cs.length) (t := .branch sides)
        (branch_ne_nil sides) hplaced.canonical hplaced.sized
      rw [trieNode] at hmerkle
      obtain ⟨ps', hrun, hend⟩ := ih hframed' hcs' hplaced
        (hgathered.branch fun b hb => (hother b hb).2) (fun h => absurd h Bool.false_ne_true)
        fun _ => ⟨sides, rfl⟩
      refine ⟨ps', ?_, ?_⟩
      · rw [hmerkle, collapse, hsettle]
        exact hrun
      · rw [collapse, hsettle]
        exact hend
    have hstep : deleteUp opts db k (frameStack opts k (c :: cs))
        (trieChild opts (k.take cs.length ++ [bit k cs.length]) u) collapsing ps =
          ((if collapsing then liftChild db fun b =>
            trieChild opts (k.take cs.length ++ [b]) (sides b) else pure none) >>= fun lifted =>
          lifted.elim (merkelize opts (.internal fun b =>
              trieChild opts (k.take cs.length ++ [b]) (sides b)) >>= fun hash =>
            deleteUp opts db k (frameStack opts k cs) (some ⟨.bytes hash, k.take cs.length⟩) false
              ((hash, .internal fun b =>
                trieChild opts (k.take cs.length ++ [b]) (sides b)) :: ps))
            fun replacement => deleteUp opts db k (frameStack opts k cs) replacement true ps) := by
      rw [← hchildren]
      refine congrArg (bind _) (funext fun lifted => ?_)
      rcases lifted with _ | replacement
      · rfl
      · rfl
    rw [hstep]
    cases collapsing with
    | false =>
      obtain ⟨cu, rfl⟩ := hkeep rfl
      refine hstay (settle_eq_branch_iff.2 (.inl ⟨bit k cs.length, cu, ?_⟩))
      exact Function.update_self ..
    | true =>
      have hps := hlift rfl
      subst hps
      have hstored : ∀ b, (sides b).Each (NodeHeld opts db) (k.take cs.length ++ [b]) := by
        intro b
        change (Function.update c (bit k cs.length) u b).Each _ _
        rw [Function.update_apply]
        split
        · rename_i hb
          rw [hb]
          exact hgathered.stored
        · rename_i hb
          exact (hother b hb).2
      rcases run_liftChild hlen hsides hstored with ⟨hsettle, hrun⟩ | ⟨hrun, hplaced, hheld⟩
      · rw [if_pos rfl, hrun]
        exact hstay hsettle
      · rw [if_pos rfl, hrun, collapse]
        exact ih hframed' hcs' hplaced (gathered_stored hheld) (fun _ => rfl)
          fun h => absurd h.symm Bool.false_ne_true

end Delete

end BinaryTree

end Tvmjs
