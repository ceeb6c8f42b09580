import Tvmjs.Base.BitTrie
import Tvmjs.BinaryTree.Tree

/-!
# What a hash stands for

A root stands for a trie of stems.  The hash of a node says nothing of its place or of the kind of
node it is of, but both follow from the entries below it.

* `merkelize_trieNode` -- hashing the node at the top of a trie gives the hash of the trie;
* `trieHash_injective` -- **where the hash does not collide, it stands for one trie only**.
-/

namespace Tvmjs

open RLP (Input)

namespace BinaryTree

open BitTrie

/-- The stems of a tree with their values. -/
abbrev StemTrie := BitTrie StemValues

/-- The values of a stem that is worth a node: strings of 32 bytes, not all missing. -/
structure GoodValues (values : StemValues) : Prop where
  length : ∀ i, ∀ value ∈ values i, value.length = 32
  exists_some : ∃ i, values i ≠ none

variable (opts : BinaryTreeOpts)

/-! ### Hashes -/

/-- The hash of a string of 32 or 64 bytes. -/
def digest (msg : Bytes) : Bytes :=
  if msg = List.replicate 64 0 then EMPTY_TREE_ROOT else opts.hashFunction msg

/-- The hash of a value or of its absence. -/
def valueHash : Option Bytes → Bytes
  | none => EMPTY_TREE_ROOT
  | some value => digest opts value

/-- The hash at an index of a layer above some values. -/
def layerHash (f : ℕ → Option Bytes) : ℕ → ℕ → Bytes
  | 0, i => valueHash opts (f i)
  | j + 1, i => digest opts (layerHash f j (2 * i) ++ layerHash f j (2 * i + 1))

/-- The values by numbers. -/
def valueAt (values : StemValues) (i : ℕ) : Option Bytes :=
  if h : i < NODE_WIDTH then values ⟨i, h⟩ else none

/-- The hash of the values of a stem. -/
def valuesHash (values : StemValues) : Bytes := layerHash opts (valueAt values) 8 0

/-- The hash of a trie. -/
def trieHash : StemTrie → Bytes
  | .nil => EMPTY_TREE_ROOT
  | .leaf w values => digest opts (bitsToBytes w ++ [0] ++ valuesHash opts values)
  | .branch c => digest opts (trieHash (c false) ++ trieHash (c true))

/-- How a node refers to a trie in a place. -/
def trieChild (p : List Bool) (t : StemTrie) : Option ChildBinaryNode :=
  match t with
  | .nil => none
  | .leaf w _ => some ⟨.bytes (trieHash opts t), w⟩
  | .branch _ => some ⟨.bytes (trieHash opts t), p⟩

/-- The node at the top of a trie in a place. -/
def trieNode (p : List Bool) : StemTrie → BinaryNode
  | .nil => .empty
  | .leaf w values => .stem (bitsToBytes w) values
  | .branch c => .internal fun b => trieChild opts (p ++ [b]) (c b)

variable {opts}

variable (hlen : ∀ msg, (opts.hashFunction msg).length = 32)

section Length

include hlen

private theorem length_digest (msg : Bytes) : (digest opts msg).length = 32 := by
  rw [digest]
  split
  · rfl
  · exact hlen msg

private theorem length_valueHash (value : Option Bytes) : (valueHash opts value).length = 32 := by
  rcases value with _ | value
  · rfl
  · exact length_digest hlen value

private theorem length_layerHash (f : ℕ → Option Bytes) : ∀ j i, (layerHash opts f j i).length = 32
  | 0, i => length_valueHash hlen (f i)
  | _ + 1, _ => length_digest hlen _

theorem length_trieHash (t : StemTrie) : (trieHash opts t).length = 32 := by
  cases t with
  | nil => rfl
  | leaf w values => exact length_digest hlen _
  | branch c => exact length_digest hlen _

end Length

/-! ### Hashing a node -/

private theorem hash_some {msg : Bytes} (h : msg.length = 32 ∨ msg.length = 64) :
    hash opts (some msg) = .ok (digest opts msg) := by
  rw [BinaryTree.hash, digest]
  split
  · rfl
  · rw [if_neg]
    rintro ⟨h32, h64⟩
    rcases h with h | h
    · exact h32 h
    · exact h64 h

private theorem hash_value {value : Option Bytes} (h : ∀ v ∈ value, v.length = 32) :
    hash opts value = .ok (valueHash opts value) := by
  rcases value with _ | v
  · rfl
  · exact hash_some (.inl (h v rfl))

@[simp] theorem childHash_trieChild (p : List Bool) (t : StemTrie) :
    childHash (trieChild opts p t) = trieHash opts t := by
  cases t <;> rfl

section Layers

include hlen

private theorem newLayerHashes_eq (f : ℕ → Option Bytes) (j : ℕ) : ∀ a n : ℕ,
    newLayerHashes opts ((List.range' (2 * a) (2 * n)).map (layerHash opts f j)) =
      .ok ((List.range' a n).map (layerHash opts f (j + 1)))
  | _, 0 => rfl
  | a, n + 1 => by
    have hpair : (layerHash opts f j (2 * a) ++ layerHash opts f j (2 * a + 1)).length = 64 := by
      rw [List.length_append, length_layerHash hlen, length_layerHash hlen]
    rw [Nat.mul_succ, List.range'_succ, List.range'_succ, List.map_cons, List.map_cons,
      newLayerHashes, hash_some (.inr hpair), show 2 * a + 1 + 1 = 2 * (a + 1) from rfl,
      newLayerHashes_eq f j (a + 1) n, List.range'_succ, List.map_cons]
    rfl

/-- Combining the layers pairwise gives the hash on top. -/
private theorem combineLayers_eq (f : ℕ → Option Bytes) : ∀ k j fuel : ℕ, k ≤ fuel →
    combineLayers opts fuel ((List.range' 0 (2 ^ k)).map (layerHash opts f j)) =
      .ok (layerHash opts f (j + k) 0)
  | 0, j, fuel, _ => by
    cases fuel with
    | zero => rfl
    | succ fuel => rfl
  | k + 1, j, fuel, hk => by
    obtain ⟨fuel, rfl⟩ := Nat.exists_eq_add_of_lt hk
    have hpow : 2 ^ (k + 1) = (2 * (2 ^ k - 1)) + 1 + 1 := by
      have := Nat.one_le_two_pow (n := k)
      omega
    have hlayer := newLayerHashes_eq hlen f j 0 (2 ^ k)
    have hrec := combineLayers_eq f k (j + 1) (k + fuel) (Nat.le_add_right _ _)
    rw [Nat.mul_zero, ← Nat.pow_succ'] at hlayer
    rw [Nat.add_right_comm j 1 k] at hrec
    rw [hpow, List.range'_succ, List.range'_succ, List.map_cons, List.map_cons] at hlayer ⊢
    change combineLayers opts (k + fuel + 1) _ = _
    rw [combineLayers, hlayer]
    exact hrec

theorem merkelize_stem {s : Bytes} {values : StemValues} (hs : s.length = 31)
    (hvalues : ∀ i, ∀ value ∈ values i, value.length = 32) :
    merkelize opts (.stem s values) = .ok (digest opts (s ++ [0] ++ valuesHash opts values)) := by
  have hfirst : (List.ofFn values).mapM (hash opts) =
      .ok ((List.range' 0 (2 ^ 8)).map (layerHash opts (valueAt values) 0)) := by
    have hall : ∀ l : List (Fin NODE_WIDTH), (l.map values).mapM (hash opts) =
        .ok (l.map fun i => valueHash opts (values i)) := by
      intro l
      induction l with
      | nil => rfl
      | cons i l ih =>
        rw [List.map_cons, List.mapM_cons, hash_value (hvalues i), ih]
        rfl
    have hlist : ((List.finRange NODE_WIDTH).map fun i => valueHash opts (values i)) =
        (List.range' 0 (2 ^ 8)).map (layerHash opts (valueAt values) 0) := by
      have hcount : ((List.finRange NODE_WIDTH).map fun i =>
          valueHash opts (values i)).length = NODE_WIDTH := by
        rw [List.length_map, List.length_finRange]
      refine List.ext_getElem ?_ fun i hi hi' => ?_
      · rw [hcount, List.length_map, List.length_range']
        rfl
      · have hi256 : i < NODE_WIDTH := hi.trans_eq hcount
        rw [List.getElem_map, List.getElem_map, List.getElem_finRange, List.getElem_range',
          Nat.zero_add, Nat.one_mul, layerHash, valueAt, dif_pos hi256]
        rfl
    rw [List.ofFn_eq_map, hall, hlist]
  have hlength :
      ((List.range' 0 (2 ^ 8)).map (layerHash opts (valueAt values) 0)).length = 256 := by
    rw [List.length_map, List.length_range']
    rfl
  have hpad : setLengthRight32 s = .ok (s ++ [0]) := by
    rw [setLengthRight32, hs]
    rfl
  have hmsg : (s ++ [0] ++ valuesHash opts values).length = 64 := by
    rw [List.length_append, List.length_append, hs, valuesHash, length_layerHash hlen]
    rfl
  rw [merkelize, hfirst]
  change (combineLayers opts _ _ >>= fun layerHash => setLengthRight32 s >>= fun padded =>
    hash opts (some (padded ++ layerHash))) = _
  rw [hlength, combineLayers_eq hlen (valueAt values) 8 0 256 (by decide), hpad]
  exact hash_some (.inr hmsg)

/-- **Hashing the node at the top of a trie gives the hash of the trie.** -/
theorem merkelize_trieNode {p q : List Bool} {t : StemTrie} (ht : t ≠ .nil)
    (hc : Canonical 248 q t)
    (hvalues : t.All fun values => ∀ i, ∀ value ∈ values i, value.length = 32) :
    merkelize opts (trieNode opts p t) = .ok (trieHash opts t) := by
  cases hc with
  | nil => exact absurd rfl ht
  | @leaf _ w values hstart hlength =>
    have hw : (bitsToBytes w).length = 31 := by rw [length_bitsToBytes, hlength]
    exact merkelize_stem hlen hw hvalues
  | @branch _ c hchild hsettled =>
    have hmsg : (trieHash opts (c false) ++ trieHash opts (c true)).length = 64 := by
      rw [List.length_append, length_trieHash hlen, length_trieHash hlen]
    rw [trieNode, merkelize, childHash_trieChild, childHash_trieChild]
    exact hash_some (.inr hmsg)

end Layers

/-! ### What is hashed -/

variable (opts) in
/-- The strings that are hashed for a layer of values up to an index of it. -/
def layerMessages (f : ℕ → Option Bytes) : ℕ → ℕ → Set Bytes
  | 0, i => {value | f i = some value}
  | j + 1, i =>
    {layerHash opts f j (2 * i) ++ layerHash opts f j (2 * i + 1)} ∪
      (layerMessages f j (2 * i) ∪ layerMessages f j (2 * i + 1))

variable (opts) in
/-- The strings that are hashed for a node. -/
def nodeMessages : BinaryNode → Set Bytes
  | .internal children => {childHash (children false) ++ childHash (children true)}
  | .stem stem values =>
    {stem ++ [0] ++ valuesHash opts values} ∪ layerMessages opts (valueAt values) 8 0

variable (opts) in
/-- The strings that are hashed for a trie. -/
def trieMessages : StemTrie → Set Bytes
  | .nil => ∅
  | .leaf w values => nodeMessages opts (.stem (bitsToBytes w) values)
  | .branch c => {trieHash opts (c false) ++ trieHash opts (c true)} ∪ ⋃ b, trieMessages (c b)

/-! ### Injectivity -/

section Injective

variable {S : Set Bytes} (hS : Set.InjOn (digest opts) S) (hzero : List.replicate 64 0 ∈ S)

include hzero hS in
/-- Only 64 zero bytes have the hash of nothing. -/
private theorem eq_zero_of_digest {msg : Bytes} (hmsg : msg ∈ S)
    (h : digest opts msg = EMPTY_TREE_ROOT) : msg = List.replicate 64 0 :=
  hS hmsg hzero (h.trans (if_pos rfl).symm)

private theorem zero_eq_append {a b : Bytes} (ha : a.length = 32)
    (h : a ++ b = List.replicate 64 0) : a = EMPTY_TREE_ROOT ∧ b = EMPTY_TREE_ROOT :=
  List.append_inj (h.trans (List.replicate_append_replicate (n := 32) (m := 32)).symm) ha

/-- The values under an index of a layer are those under the two indices below it. -/
private theorem below_cases {j n i : ℕ} (h : n / 2 ^ (j + 1) = i) :
    n / 2 ^ j = 2 * i ∨ n / 2 ^ j = 2 * i + 1 := by
  rw [Nat.pow_succ, ← Nat.div_div_eq_div_mul] at h
  omega

/-- Nothing hashes to nothing. -/
theorem layerHash_eq_empty_of_none {f : ℕ → Option Bytes} :
    ∀ {j i : ℕ}, (∀ n, n / 2 ^ j = i → f n = none) → layerHash opts f j i = EMPTY_TREE_ROOT
  | 0, i, h => by rw [layerHash, h i (by simp)]; rfl
  | j + 1, i, h => by
    have hdiv : ∀ n, n / 2 ^ (j + 1) = n / 2 ^ j / 2 := fun n => by
      rw [Nat.pow_succ, Nat.div_div_eq_div_mul]
    rw [layerHash, layerHash_eq_empty_of_none fun n hn => h n (by rw [hdiv, hn]; omega),
      layerHash_eq_empty_of_none fun n hn => h n (by rw [hdiv, hn]; omega)]
    exact if_pos rfl

include hlen hS hzero

/-- Only missing values have the hash of nothing. -/
private theorem none_of_layerHash {f : ℕ → Option Bytes} (hf : ∀ n, ∀ v ∈ f n, v.length = 32) :
    ∀ {j i : ℕ}, layerMessages opts f j i ⊆ S → layerHash opts f j i = EMPTY_TREE_ROOT →
      ∀ n, n / 2 ^ j = i → f n = none
  | 0, i, hmem, h, n, hn => by
    rw [Nat.pow_zero, Nat.div_one] at hn
    subst hn
    rcases hv : f n with _ | v
    · rfl
    · rw [layerHash, hv] at h
      have heq := eq_zero_of_digest hS hzero (hmem hv) h
      have hlength := hf n v hv
      rw [heq] at hlength
      cases hlength
  | j + 1, i, hmem, h, n, hn => by
    have hmsg := eq_zero_of_digest hS hzero (hmem (.inl rfl)) h
    obtain ⟨hleft, hright⟩ := zero_eq_append (length_layerHash hlen f j _) hmsg
    rcases below_cases hn with hn | hn
    · exact none_of_layerHash hf (fun m hm => hmem (.inr (.inl hm))) hleft n hn
    · exact none_of_layerHash hf (fun m hm => hmem (.inr (.inr hm))) hright n hn

/-- The hash of a layer stands for the values below. -/
private theorem eq_of_layerHash {f g : ℕ → Option Bytes} (hf : ∀ n, ∀ v ∈ f n, v.length = 32)
    (hg : ∀ n, ∀ v ∈ g n, v.length = 32) :
    ∀ {j i : ℕ}, layerMessages opts f j i ⊆ S → layerMessages opts g j i ⊆ S →
      layerHash opts f j i = layerHash opts g j i → ∀ n, n / 2 ^ j = i → f n = g n
  | 0, i, hmem, hmem', h, n, hn => by
    have hnone : ∀ {f g : ℕ → Option Bytes}, (∀ n, ∀ v ∈ g n, v.length = 32) →
        layerMessages opts g 0 i ⊆ S → layerHash opts f 0 i = layerHash opts g 0 i →
        f i = none → g i = none := by
      intro f g hg hmem' h hv
      refine none_of_layerHash hlen hS hzero hg (j := 0) hmem' ?_ i (by simp)
      rw [← h, layerHash, hv]
      rfl
    rw [Nat.pow_zero, Nat.div_one] at hn
    subst hn
    rcases hv : f n with _ | v
    · exact (hnone hg hmem' h hv).symm
    · rcases hv' : g n with _ | v'
      · rw [hnone hf hmem h.symm hv'] at hv
        cases hv
      · rw [layerHash, layerHash, hv, hv'] at h
        rw [hS (hmem hv) (hmem' hv') h]
  | j + 1, i, hmem, hmem', h, n, hn => by
    have hmsg := hS (hmem (.inl rfl)) (hmem' (.inl rfl)) h
    obtain ⟨hleft, hright⟩ := List.append_inj hmsg
      ((length_layerHash hlen f j _).trans (length_layerHash hlen g j _).symm)
    rcases below_cases hn with hn | hn
    · exact eq_of_layerHash hf hg (fun m hm => hmem (.inr (.inl hm)))
        (fun m hm => hmem' (.inr (.inl hm))) hleft n hn
    · exact eq_of_layerHash hf hg (fun m hm => hmem (.inr (.inr hm)))
        (fun m hm => hmem' (.inr (.inr hm))) hright n hn

/-- Layers of different heights agree on nothing but missing values. -/
private theorem none_of_layerHash_eq {f g : ℕ → Option Bytes} (hf : ∀ n, ∀ v ∈ f n, v.length = 32)
    (hg : ∀ n, ∀ v ∈ g n, v.length = 32) :
    ∀ {j h i i' : ℕ}, j < h → layerMessages opts f h i ⊆ S → layerMessages opts g j i' ⊆ S →
      layerHash opts f h i = layerHash opts g j i' → ∀ n, n / 2 ^ h = i → f n = none
  | 0, h + 1, i, i', _, hmem, hmem', heq, n, hn => by
    rcases hv : g i' with _ | v
    · rw [layerHash.eq_1 (f := g), hv] at heq
      exact none_of_layerHash hlen hS hzero hf hmem heq n hn
    · rw [layerHash.eq_1 (f := g), hv] at heq
      have hmsg := hS (hmem (.inl rfl)) (hmem' hv) heq
      have hlength := hg i' v hv
      rw [← hmsg, List.length_append, length_layerHash hlen, length_layerHash hlen] at hlength
      cases hlength
  | j + 1, h + 1, i, i', hlt, hmem, hmem', heq, n, hn => by
    have hmsg := hS (hmem (.inl rfl)) (hmem' (.inl rfl)) heq
    obtain ⟨hleft, hright⟩ := List.append_inj hmsg
      ((length_layerHash hlen f h _).trans (length_layerHash hlen g j _).symm)
    have hlt' := Nat.lt_of_succ_lt_succ hlt
    rcases below_cases hn with hn | hn
    · exact none_of_layerHash_eq hf hg hlt' (fun m hm => hmem (.inr (.inl hm)))
        (fun m hm => hmem' (.inr (.inl hm))) hleft n hn
    · exact none_of_layerHash_eq hf hg hlt' (fun m hm => hmem (.inr (.inr hm)))
        (fun m hm => hmem' (.inr (.inr hm))) hright n hn

omit hlen hS hzero in
private theorem length_valueAt {values : StemValues}
    (h : ∀ i, ∀ value ∈ values i, value.length = 32)
    (n : ℕ) : ∀ v ∈ valueAt values n, v.length = 32 := by
  intro v hv
  rw [valueAt] at hv
  split at hv
  · exact h _ v hv
  · cases hv

omit hlen hS hzero in
/-- All values of a stem are under the hash on top. -/
private theorem values_eq {values values' : StemValues}
    (h : ∀ n, n / 2 ^ 8 = 0 → valueAt values n = valueAt values' n) : values = values' := by
  funext i
  have hi := h i (Nat.div_eq_of_lt i.isLt)
  rwa [valueAt, valueAt, dif_pos i.isLt, dif_pos i.isLt] at hi

/-- The values of a stem that is worth a node do not hash to nothing. -/
private theorem GoodValues.valuesHash_ne {values : StemValues} (h : GoodValues values)
    (hmem : layerMessages opts (valueAt values) 8 0 ⊆ S) :
    valuesHash opts values ≠ EMPTY_TREE_ROOT := by
  intro heq
  obtain ⟨i, hi⟩ := h.exists_some
  have hnone := none_of_layerHash hlen hS hzero (length_valueAt h.length) hmem heq i
    (Nat.div_eq_of_lt i.isLt)
  rw [valueAt, dif_pos i.isLt] at hnone
  exact hi hnone

omit hlen hS hzero in
private theorem trieMessages_child {c : Bool → StemTrie} (h : trieMessages opts (.branch c) ⊆ S)
    (b : Bool) : trieMessages opts (c b) ⊆ S :=
  fun _ hm => h (.inr (Set.mem_iUnion.2 ⟨b, hm⟩))

/-- Only the empty trie hashes to nothing. -/
theorem eq_nil_of_trieHash {p : List Bool} {t : StemTrie} (hc : Canonical 248 p t)
    (hgood : t.All GoodValues) (hmem : trieMessages opts t ⊆ S)
    (h : trieHash opts t = EMPTY_TREE_ROOT) : t = .nil := by
  induction hc with
  | nil p => rfl
  | @leaf p w values hstart hlength =>
    have hmsg := eq_zero_of_digest hS hzero (hmem (.inl rfl)) h
    have hw : (bitsToBytes w ++ [0]).length = 32 := by
      rw [List.length_append, length_bitsToBytes, hlength]
      rfl
    exact absurd (zero_eq_append hw hmsg).2
      (GoodValues.valuesHash_ne hlen hS hzero hgood fun m hm => hmem (.inr hm))
  | @branch p c hchild hsettled ih =>
    have hmsg := eq_zero_of_digest hS hzero (hmem (.inl rfl)) h
    obtain ⟨hleft, hright⟩ := zero_eq_append (length_trieHash hlen _) hmsg
    have hf := ih false (hgood false) (trieMessages_child hmem false) hleft
    have ht := ih true (hgood true) (trieMessages_child hmem true) hright
    rw [BitTrie.settle, hf, ht] at hsettled
    cases hsettled

/-- A trie and a layer of values agree on nothing but missing values. -/
private theorem none_of_trieHash_eq {f : ℕ → Option Bytes} (hf : ∀ n, ∀ v ∈ f n, v.length = 32) :
    ∀ {j i : ℕ} {p : List Bool} {t : StemTrie}, j ≤ 8 → Canonical 248 p t → t.All GoodValues →
      trieMessages opts t ⊆ S → layerMessages opts f j i ⊆ S →
      trieHash opts t = layerHash opts f j i → ∀ n, n / 2 ^ j = i → f n = none
  | j, i, p, .nil, _, _, _, _, hmem', heq, n, hn =>
    none_of_layerHash hlen hS hzero hf hmem' heq.symm n hn
  | 0, i, p, t@(.leaf w values), _, hc, _, hmem, hmem', heq, n, hn => by
    rw [Nat.pow_zero, Nat.div_one] at hn
    subst hn
    rcases hv : f n with _ | v
    · rfl
    · rw [layerHash, hv] at heq
      have hlength := hf n v hv
      cases hc with
      | leaf _ hstart hword =>
        rw [← hS (hmem (.inl rfl)) (hmem' hv) heq, List.length_append, List.length_append,
          length_bitsToBytes, hword, valuesHash, length_layerHash hlen] at hlength
        cases hlength
  | 0, i, p, .branch c, _, _, _, hmem, hmem', heq, n, hn => by
    rw [Nat.pow_zero, Nat.div_one] at hn
    subst hn
    rcases hv : f n with _ | v
    · rfl
    · rw [layerHash, hv] at heq
      have hlength := hf n v hv
      rw [← hS (hmem (.inl rfl)) (hmem' hv) heq, List.length_append, length_trieHash hlen,
        length_trieHash hlen] at hlength
      cases hlength
  | j + 1, i, p, .leaf w values, hj, hc, hgood, hmem, hmem', heq, n, hn => by
    -- the values of a stem have eight layers, and those below a half of `f` have fewer
    have hmsg := hS (hmem (.inl rfl)) (hmem' (.inl rfl)) heq
    have hw : (bitsToBytes w ++ [0]).length = 32 := by
      cases hc with
      | leaf _ hstart hword =>
        rw [List.length_append, length_bitsToBytes, hword]
        rfl
    have hright := (List.append_inj hmsg (hw.trans (length_layerHash hlen f j _).symm)).2
    have hnone := none_of_layerHash_eq hlen hS hzero (length_valueAt hgood.length) hf
      (Nat.lt_of_succ_le hj) (fun m hm => hmem (.inr hm))
        (fun m hm => hmem' (.inr (.inr hm))) hright
    obtain ⟨k, hk⟩ := hgood.exists_some
    have hkn := hnone k (Nat.div_eq_of_lt k.isLt)
    rw [valueAt, dif_pos k.isLt] at hkn
    exact absurd hkn hk
  | j + 1, i, p, .branch c, hj, hc, hgood, hmem, hmem', heq, n, hn => by
    have hmsg := hS (hmem (.inl rfl)) (hmem' (.inl rfl)) heq
    obtain ⟨hleft, hright⟩ := List.append_inj hmsg
      ((length_trieHash hlen _).trans (length_layerHash hlen f j _).symm)
    have hj' := Nat.le_of_succ_le hj
    rcases below_cases hn with hn | hn
    · exact none_of_trieHash_eq hf hj' (hc.child false) (hgood false)
        (trieMessages_child hmem false) (fun m hm => hmem' (.inr (.inl hm))) hleft n hn
    · exact none_of_trieHash_eq hf hj' (hc.child true) (hgood true)
        (trieMessages_child hmem true) (fun m hm => hmem' (.inr (.inr hm))) hright n hn

/-- **Where the hash does not collide, it stands for one trie only.** -/
theorem trieHash_injective {p p' : List Bool} {t t' : StemTrie} (hc : Canonical 248 p t)
    (hc' : Canonical 248 p' t') (hgood : t.All GoodValues) (hgood' : t'.All GoodValues)
    (hmem : trieMessages opts t ⊆ S) (hmem' : trieMessages opts t' ⊆ S)
    (h : trieHash opts t = trieHash opts t') : t = t' := by
  -- a stem is no branching: its values are no trie
  have hno : ∀ {q q' w : List Bool} {values : StemValues} {c : Bool → StemTrie},
      Canonical 248 q (.leaf w values) → Canonical 248 q' (.branch c) → GoodValues values →
      (∀ b, (c b).All GoodValues) → trieMessages opts (.leaf w values) ⊆ S →
      trieMessages opts (.branch c) ⊆ S →
      trieHash opts (.leaf w values) ≠ trieHash opts (.branch c) := by
    intro q q' w values c hq hq' hv hcg hm hm' heq
    have hmsg := hS (hm (.inl rfl)) (hm' (.inl rfl)) heq
    have hw : (bitsToBytes w ++ [0]).length = 32 := by
      cases hq with
      | leaf _ hstart hword =>
        rw [List.length_append, length_bitsToBytes, hword]
        rfl
    have hright := (List.append_inj hmsg (hw.trans (length_trieHash hlen _).symm)).2
    have hnone := none_of_trieHash_eq hlen hS hzero (length_valueAt hv.length) (j := 8) (i := 0)
      le_rfl (hq'.child true) (hcg true) (trieMessages_child hm' true)
      (fun m hm₁ => hm (.inr hm₁)) hright.symm
    obtain ⟨k, hk⟩ := hv.exists_some
    have hkn := hnone k (Nat.div_eq_of_lt k.isLt)
    rw [valueAt, dif_pos k.isLt] at hkn
    exact hk hkn
  induction hc generalizing t' p' with
  | nil p => exact (eq_nil_of_trieHash hlen hS hzero hc' hgood' hmem' h.symm).symm
  | @leaf p w values hstart hlength =>
    rcases t' with _ | ⟨w', values'⟩ | c'
    · exact eq_nil_of_trieHash hlen hS hzero (.leaf values hstart hlength) hgood hmem h
    · have hmsg := hS (hmem (.inl rfl)) (hmem' (.inl rfl)) h
      have hword' : w'.length = 248 := by
        cases hc' with
        | leaf _ _ hword => exact hword
      obtain ⟨hstem, hvalues⟩ := List.append_inj hmsg (by
        rw [List.length_append, List.length_append, length_bitsToBytes, length_bitsToBytes,
          hlength, hword'])
      have hbits := congrArg allBits (List.append_cancel_right hstem)
      rw [allBits_bitsToBytes (by rw [hlength]), allBits_bitsToBytes (by rw [hword'])] at hbits
      rw [hbits, values_eq (eq_of_layerHash hlen hS hzero (length_valueAt hgood.length)
        (length_valueAt hgood'.length) (fun m hm => hmem (.inr hm)) (fun m hm => hmem' (.inr hm))
        hvalues)]
    · exact absurd h (hno (.leaf values hstart hlength) hc' hgood hgood' hmem hmem')
  | @branch p c hchild hsettled ih =>
    rcases t' with _ | ⟨w', values'⟩ | c'
    · exact eq_nil_of_trieHash hlen hS hzero (.branch hchild hsettled) hgood hmem h
    · exact absurd h.symm (hno hc' (.branch hchild hsettled) hgood' hgood hmem' hmem)
    · have hmsg := hS (hmem (.inl rfl)) (hmem' (.inl rfl)) h
      obtain ⟨hleft, hright⟩ := List.append_inj hmsg
        ((length_trieHash hlen _).trans (length_trieHash hlen _).symm)
      have hside : ∀ b, trieHash opts (c b) = trieHash opts (c' b) := by
        intro b
        cases b
        · exact hleft
        · exact hright
      congr 1
      funext b
      exact ih b (hc'.child b) (hgood b) (hgood' b) (trieMessages_child hmem b)
        (trieMessages_child hmem' b) (hside b)

end Injective

end BinaryTree

end Tvmjs
