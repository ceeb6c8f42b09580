import Mathlib.Data.List.Infix
import Mathlib.Logic.Function.Basic

/-!
# Bit tries with lifted leaves

A trie of words over two letters in which a subtrie of one entry is a leaf that holds the whole
word, however far down the word could be followed, and a subtrie of several entries is a branching
at every bit, also where only one side is occupied.

* `BitTrie.find_insert`, `BitTrie.find_erase` -- the operations are updates of a finite map;
* `BitTrie.Canonical` -- no branching with fewer than two entries; `Canonical.insert` and
  `Canonical.erase` keep it;
* `Canonical.ext` -- **a canonical trie is determined by its map**;
* `BitTrie.All`, `BitTrie.Each` -- a property of all values, of all parts;
* `BitTrie.descend`, `BitTrie.plug` -- the branchings on the way along a word, and a trie put
  together from them.
-/

namespace Tvmjs

universe u

/-- A trie: empty, one entry with its word, or a branching at the next bit. -/
inductive BitTrie (ν : Type u) where
  | nil
  | leaf (word : List Bool) (v : ν)
  | branch (child : Bool → BitTrie ν)

namespace BitTrie

variable {ν : Type u}

/-- A leaf is not empty. -/
theorem leaf_ne_nil (w : List Bool) (v : ν) : leaf w v ≠ nil := by
  intro h
  cases h

/-- A branch is not empty, whatever its children. -/
theorem branch_ne_nil (c : Bool → BitTrie ν) : branch c ≠ nil := by
  intro h
  cases h

/-- The bit of a word at a depth. -/
def bit (k : List Bool) (d : ℕ) : Bool := k.getD d false

/-- The value at a word, in a trie at depth `d`. -/
def find : BitTrie ν → ℕ → List Bool → Option ν
  | nil, _, _ => none
  | leaf w v, _, k => if k = w then some v else none
  | branch c, d, k => (c (bit k d)).find (d + 1) k

/-- A branching with one side occupied. -/
def single (b : Bool) (t : BitTrie ν) : Bool → BitTrie ν := Function.update (fun _ => nil) b t

/-- Two leaves, with what is left of their words: branchings down to the first bit where the words
differ. -/
def fork (w : List Bool) (v : ν) (w' : List Bool) (v' : ν) : List Bool → List Bool → BitTrie ν
  | a :: r, b :: r' =>
    if a = b then branch (single a (fork w v w' v' r r'))
    else branch (Function.update (single b (leaf w' v')) a (leaf w v))
  | _, _ => nil

/-- The trie with an entry written. -/
def insert : BitTrie ν → ℕ → List Bool → ν → BitTrie ν
  | nil, _, k, v => leaf k v
  | leaf w u, d, k, v => if k = w then leaf k v else fork k v w u (k.drop d) (w.drop d)
  | branch c, d, k, v =>
    branch (Function.update c (bit k d) ((c (bit k d)).insert (d + 1) k v))

/-- The trie of two sides: what has fewer than two entries is not a branching. -/
def settle (c : Bool → BitTrie ν) : BitTrie ν :=
  match c false, c true with
  | nil, nil => nil
  | leaf w v, nil => leaf w v
  | nil, leaf w v => leaf w v
  | _, _ => branch c

/-- The trie with an entry removed. -/
def erase : BitTrie ν → ℕ → List Bool → BitTrie ν
  | nil, _, _ => nil
  | leaf w u, _, k => if k = w then nil else leaf w u
  | branch c, d, k => settle (Function.update c (bit k d) ((c (bit k d)).erase (d + 1) k))

/-! ### Lookups -/

@[simp] theorem find_nil (d : ℕ) (k : List Bool) : (nil : BitTrie ν).find d k = none := rfl

@[simp] theorem find_leaf (w k : List Bool) (v : ν) (d : ℕ) :
    (leaf w v).find d k = if k = w then some v else none := rfl

@[simp] theorem find_branch (c : Bool → BitTrie ν) (d : ℕ) (k : List Bool) :
    (branch c).find d k = (c (bit k d)).find (d + 1) k := rfl

/-- The bit after a prefix. -/
theorem bit_of_isPrefix {p k : List Bool} {b : Bool} (h : p ++ [b] <+: k) : bit k p.length = b := by
  obtain ⟨r, rfl⟩ := h
  rw [bit, List.getD_eq_getElem?_getD, List.append_assoc,
    List.getElem?_append_right (Nat.le_refl _), Nat.sub_self]
  rfl

/-- A prefix is followed by the next bit. -/
theorem prefix_bit {p k : List Bool} (h : p <+: k) (hlt : p.length < k.length) :
    p ++ [bit k p.length] <+: k := by
  obtain ⟨r, rfl⟩ := h
  rcases r with _ | ⟨b, r⟩
  · rw [List.append_nil] at hlt
    exact absurd hlt (Nat.lt_irrefl _)
  · have hb : bit (p ++ b :: r) p.length = b := bit_of_isPrefix ⟨r, by simp⟩
    rw [hb]
    exact ⟨r, by simp⟩

/-- What is left of a word at a depth begins with its bit there. -/
theorem drop_eq_bit_cons {k : List Bool} {d : ℕ} (h : d < k.length) :
    k.drop d = bit k d :: k.drop (d + 1) := by
  rw [List.drop_eq_getElem_cons h, bit, List.getD_eq_getElem?_getD, List.getElem?_eq_getElem h]
  rfl

/-- Looking up in a branching of which one side was replaced. -/
theorem find_update (c : Bool → BitTrie ν) (b : Bool) (t : BitTrie ν) (d : ℕ) (k : List Bool) :
    (branch (Function.update c b t)).find d k =
      if bit k d = b then t.find (d + 1) k else (branch c).find d k := by
  rw [find_branch, Function.update_apply]
  split
  · rfl
  · rfl

/-- With one child only its bit leads on. -/
@[simp] theorem find_single (b : Bool) (t : BitTrie ν) (d : ℕ) (k : List Bool) :
    (branch (single b t)).find d k = if bit k d = b then t.find (d + 1) k else none := by
  rw [single, find_update]
  rfl

/-- A branching that is settled has the same lookups. -/
theorem find_settle {c : Bool → BitTrie ν} {d : ℕ} {k : List Bool}
    (h : ∀ b w v, c b = leaf w v → bit w d = b) : (settle c).find d k = (branch c).find d k := by
  have hone : ∀ b w v, c b = leaf w v → c (!b) = nil →
      (leaf w v).find d k = (branch c).find d k := by
    intro b w v hb hnil
    rw [find_branch]
    by_cases hk : bit k d = b
    · rw [hk, hb]
      rfl
    · have hother : bit k d = !b := by
        revert hk
        cases bit k d <;> cases b <;> simp
      rw [hother, hnil, find_leaf, if_neg]
      · rfl
      · rintro rfl
        exact hk (h b k v hb)
  rw [settle]
  split
  · rename_i hf ht
    rw [find_branch]
    cases bit k d
    · rw [hf]
      rfl
    · rw [ht]
      rfl
  · rename_i w v hf ht
    exact hone false w v hf ht
  · rename_i w v hf ht
    exact hone true w v ht hf
  · rfl

/-! ### Canonical tries -/

/-- A trie at the place `p`, of words of length `n`: every word is in its place, and every
branching has two entries. -/
inductive Canonical (n : ℕ) : List Bool → BitTrie ν → Prop
  | nil (p : List Bool) : Canonical n p nil
  | leaf {p w : List Bool} (v : ν) (hstart : p <+: w) (hlength : w.length = n) :
    Canonical n p (leaf w v)
  | branch {p : List Bool} {c : Bool → BitTrie ν} (hchild : ∀ b, Canonical n (p ++ [b]) (c b))
    (hsettled : settle c = branch c) : Canonical n p (branch c)

variable {n : ℕ} {p : List Bool}

/-- What stands below a branch is canonical one bit further down. -/
theorem Canonical.child {c : Bool → BitTrie ν} (h : Canonical n p (BitTrie.branch c)) (b : Bool) :
    Canonical n (p ++ [b]) (c b) := by
  cases h with
  | branch hchild hsettled => exact hchild b

/-- A canonical branch has nothing to settle. -/
theorem Canonical.settled {c : Bool → BitTrie ν} (h : Canonical n p (BitTrie.branch c)) :
    settle c = BitTrie.branch c := by
  cases h with
  | branch hchild hsettled => exact hsettled

/-- Words that are found are in their place. -/
theorem Canonical.prefix_of_find {t : BitTrie ν} (h : Canonical n p t) {k : List Bool} {v : ν}
    (hv : t.find p.length k = some v) : p <+: k ∧ k.length = n := by
  induction h with
  | nil p => cases hv
  | leaf u hstart hlength =>
    rw [find_leaf] at hv
    split at hv
    · rename_i heq
      rw [heq]
      exact ⟨hstart, hlength⟩
    · cases hv
  | @branch p c hchild hsettled ih =>
    rw [find_branch] at hv
    obtain ⟨hstart, hlength⟩ := ih (bit k p.length) (by rwa [List.length_append])
    exact ⟨(List.prefix_append p _).trans hstart, hlength⟩

/-- A trie that is not empty has an entry. -/
theorem Canonical.exists_find {t : BitTrie ν} (h : Canonical n p t) (ht : t ≠ BitTrie.nil) :
    ∃ k v, t.find p.length k = some v := by
  induction h with
  | nil p => exact absurd rfl ht
  | @leaf p w v hstart hlength => exact ⟨w, v, if_pos rfl⟩
  | @branch p c hchild hsettled ih =>
    -- one of the sides is not empty, or the branching would not be settled
    obtain ⟨b, hb⟩ : ∃ b, c b ≠ BitTrie.nil := by
      by_contra hno
      have hall : ∀ b, c b = BitTrie.nil := fun b => not_not.1 fun hb => hno ⟨b, hb⟩
      rw [settle, hall, hall] at hsettled
      cases hsettled
    obtain ⟨k, v, hk⟩ := ih b hb
    have hplace := (hchild b).prefix_of_find hk
    refine ⟨k, v, ?_⟩
    rw [find_branch, bit_of_isPrefix hplace.1]
    rwa [List.length_append] at hk

/-- A branching has two entries. -/
theorem Canonical.exists_two {t : BitTrie ν} (h : Canonical n p t) {c : Bool → BitTrie ν}
    (ht : t = BitTrie.branch c) : ∃ k k' v v', k ≠ k' ∧ t.find p.length k = some v ∧
      t.find p.length k' = some v' := by
  induction h generalizing c with
  | nil p => cases ht
  | leaf v hstart hlength => cases ht
  | @branch p c' hchild hsettled ih =>
    have hup : ∀ {b : Bool} {k : List Bool} {v : ν},
        (c' b).find (p ++ [b]).length k = some v →
          (BitTrie.branch c').find p.length k = some v := by
      intro b k v hk
      rw [find_branch, bit_of_isPrefix ((hchild b).prefix_of_find hk).1]
      rwa [List.length_append] at hk
    have hdown : ∀ b c'', c' b = BitTrie.branch c'' → ∃ k k' v v', k ≠ k' ∧
        (BitTrie.branch c').find p.length k = some v ∧
          (BitTrie.branch c').find p.length k' = some v' := by
      intro b c'' hb
      obtain ⟨k, k', v, v', hne, hk, hk'⟩ := ih b hb
      exact ⟨k, k', v, v', hne, hup hk, hup hk'⟩
    by_cases hboth : c' false ≠ BitTrie.nil ∧ c' true ≠ BitTrie.nil
    · obtain ⟨k, v, hk⟩ := (hchild false).exists_find hboth.1
      obtain ⟨k', v', hk'⟩ := (hchild true).exists_find hboth.2
      refine ⟨k, k', v, v', ?_, hup hk, hup hk'⟩
      rintro rfl
      have hfalse := bit_of_isPrefix ((hchild false).prefix_of_find hk).1
      rw [bit_of_isPrefix ((hchild true).prefix_of_find hk').1] at hfalse
      cases hfalse
    · -- with one side empty the other one is a branching
      rcases hf : c' false with _ | ⟨w, u⟩ | cf
      · rcases ht' : c' true with _ | ⟨w, u⟩ | ct
        · rw [settle, hf, ht'] at hsettled
          cases hsettled
        · rw [settle, hf, ht'] at hsettled
          cases hsettled
        · exact hdown true ct ht'
      · rcases ht' : c' true with _ | ⟨w', u'⟩ | ct
        · rw [settle, hf, ht'] at hsettled
          cases hsettled
        · exact absurd ⟨by rw [hf]; nofun, by rw [ht']; nofun⟩ hboth
        · exact hdown true ct ht'
      · exact hdown false cf hf

/-- **A canonical trie is determined by its map.** -/
theorem Canonical.ext {t t' : BitTrie ν} (h : Canonical n p t) (h' : Canonical n p t')
    (hfind : ∀ k, t.find p.length k = t'.find p.length k) : t = t' := by
  have hnil : ∀ {q : List Bool} {s s' : BitTrie ν}, Canonical n q s' → s = BitTrie.nil →
      (∀ k, s.find q.length k = s'.find q.length k) → s' = BitTrie.nil := by
    intro q s s' hs' hs heq
    by_contra hne
    obtain ⟨k, v, hk⟩ := hs'.exists_find hne
    rw [← heq, hs] at hk
    cases hk
  have hleaf : ∀ {q w : List Bool} {v : ν} {c : Bool → BitTrie ν},
      Canonical n q (BitTrie.branch c) →
      (∀ k, (BitTrie.leaf w v).find q.length k = (BitTrie.branch c).find q.length k) → False := by
    intro q w v c hc heq
    have hword : ∀ {k : List Bool} {u : ν},
        (BitTrie.branch c).find q.length k = some u → k = w := by
      intro k u hk
      rw [← heq, find_leaf] at hk
      by_contra hne
      rw [if_neg hne] at hk
      cases hk
    obtain ⟨k, k', u, u', hne, hk, hk'⟩ := hc.exists_two rfl
    exact hne ((hword hk).trans (hword hk').symm)
  induction h generalizing t' with
  | nil p => exact (hnil h' rfl hfind).symm
  | @leaf p w v hstart hlength =>
    rcases t' with _ | ⟨w', v'⟩ | c'
    · have := hfind w
      rw [find_leaf, if_pos rfl] at this
      cases this
    · have hw := hfind w
      rw [find_leaf, if_pos rfl, find_leaf] at hw
      split at hw
      · rename_i heq
        cases heq
        cases hw
        rfl
      · cases hw
    · exact (hleaf h' hfind).elim
  | @branch p c hchild hsettled ih =>
    rcases t' with _ | ⟨w', v'⟩ | c'
    · exact hnil (.branch hchild hsettled) rfl fun k => (hfind k).symm
    · exact (hleaf (.branch hchild hsettled) fun k => (hfind k).symm).elim
    · congr 1
      funext b
      refine ih b (h'.child b) fun k => ?_
      rw [List.length_append]
      -- a word that is not on this side is found on neither
      by_cases hb : bit k p.length = b
      · have hk := hfind k
        rwa [find_branch, find_branch, hb] at hk
      · have hmiss : ∀ {s : BitTrie ν}, Canonical n (p ++ [b]) s →
            s.find (p.length + 1) k = none := by
          intro s hs
          by_contra hne
          obtain ⟨v, hv⟩ := Option.ne_none_iff_exists'.1 hne
          refine hb (bit_of_isPrefix (hs.prefix_of_find (v := v) ?_).1)
          rwa [List.length_append]
        exact (hmiss (hchild b)).trans (hmiss (h'.child b)).symm

/-! ### Settled branchings -/

/-- A branching is settled if both sides are occupied or one of them branches. -/
theorem settle_eq_branch_iff {c : Bool → BitTrie ν} :
    settle c = branch c ↔ (∃ b c', c b = branch c') ∨ ∀ b, c b ≠ nil := by
  constructor
  · -- with two empty sides or one leaf alone there is no branch left
    intro h
    rcases hf : c false with _ | ⟨w, u⟩ | cf
    · rcases ht : c true with _ | ⟨w, u⟩ | ct
      · rw [settle, hf, ht] at h
        cases h
      · rw [settle, hf, ht] at h
        cases h
      · exact .inl ⟨true, ct, ht⟩
    · rcases ht : c true with _ | ⟨w', u'⟩ | ct
      · rw [settle, hf, ht] at h
        cases h
      · refine .inr fun b => ?_
        cases b
        · rw [hf]
          nofun
        · rw [ht]
          nofun
      · exact .inl ⟨true, ct, ht⟩
    · exact .inl ⟨false, cf, hf⟩
  · -- where the branch goes, both sides of the condition fail
    intro h
    rw [settle]
    split
    · rename_i hf ht
      rcases h with ⟨b, c', hb⟩ | h
      · cases b
        · rw [hf] at hb
          cases hb
        · rw [ht] at hb
          cases hb
      · exact absurd hf (h false)
    · rename_i w v hf ht
      rcases h with ⟨b, c', hb⟩ | h
      · cases b
        · rw [hf] at hb
          cases hb
        · rw [ht] at hb
          cases hb
      · exact absurd ht (h true)
    · rename_i w v hf ht
      rcases h with ⟨b, c', hb⟩ | h
      · cases b
        · rw [hf] at hb
          cases hb
        · rw [ht] at hb
          cases hb
      · exact absurd hf (h false)
    · rfl

/-- Settling a branch over canonical children is canonical. -/
theorem canonical_settle {c : Bool → BitTrie ν} (h : ∀ b, Canonical n (p ++ [b]) (c b)) :
    Canonical n p (settle c) := by
  have hlift : ∀ b w v, c b = leaf w v → Canonical n p (leaf w v) := by
    intro b w v hb
    have hleaf := h b
    rw [hb] at hleaf
    cases hleaf with
    | leaf _ hstart hlength => exact .leaf v ((List.prefix_append p _).trans hstart) hlength
  rw [settle]
  split
  · exact .nil p
  · rename_i w v hf ht
    exact hlift false w v hf
  · rename_i w v hf ht
    exact hlift true w v ht
  · rename_i hnn hln hnl
    refine .branch h ?_
    rw [settle]
    split
    · rename_i hf ht
      exact (hnn hf ht).elim
    · rename_i w v hf ht
      exact (hln w v hf ht).elim
    · rename_i w v hf ht
      exact (hnl w v hf ht).elim
    · rfl

/-! ### Insertion -/

variable {w w' : List Bool} (v v' : ν)

/-- A fork has two entries. -/
theorem find_fork (hne : w ≠ w') (hw : w.length = n) (hw' : w'.length = n) :
    ∀ {d : ℕ}, w.take d = w'.take d → ∀ k : List Bool,
      (fork w v w' v' (w.drop d) (w'.drop d)).find d k =
        if k = w then some v else if k = w' then some v' else none := by
  intro d
  -- the bits left are induced on, and the words differ in them
  induction hr : n - d generalizing d with
  | zero =>
    intro hsame
    have hd : n ≤ d := Nat.le_of_sub_eq_zero hr
    rw [List.take_of_length_le (by omega), List.take_of_length_le (by omega)] at hsame
    exact absurd hsame hne
  | succ r ih =>
    intro hsame k
    have hlt : d < n := by omega
    rw [drop_eq_bit_cons (k := w) (d := d) (by omega),
      drop_eq_bit_cons (k := w') (d := d) (by omega), fork]
    have hbit : ∀ {x : List Bool}, x.length = n → x.take (d + 1) = x.take d ++ [bit x d] := by
      intro x hx
      rw [List.take_add_one, List.getElem?_eq_getElem (by omega), bit, List.getD_eq_getElem?_getD,
        List.getElem?_eq_getElem (by omega)]
      rfl
    split
    · rename_i heq
      have hrec := ih (d := d + 1) (by omega) (by rw [hbit hw, hbit hw', hsame, heq]) k
      rw [find_single, hrec]
      split
      · rfl
      · rename_i hk
        rw [if_neg fun h : k = w => hk (by rw [h]), if_neg fun h : k = w' => hk (by rw [h, heq])]
    · rename_i heq
      rw [find_update, find_single]
      by_cases hk : bit k d = bit w d
      · have hkw' : k ≠ w' := fun h => heq (by rw [← hk, h])
        rw [if_pos hk, find_leaf, if_neg hkw']
      · have hkw : k ≠ w := fun h => hk (h ▸ rfl)
        rw [if_neg hk, if_neg hkw]
        split
        · rfl
        · rename_i hk'
          rw [if_neg fun h : k = w' => hk' (by rw [h])]

/-- Two keys that agree so far are told apart by a branch. -/
theorem fork_eq_branch (hne : w ≠ w') (hw : w.length = n) (hw' : w'.length = n) {d : ℕ}
    (hsame : w.take d = w'.take d) : ∃ c, fork w v w' v' (w.drop d) (w'.drop d) = branch c := by
  have hlt : d < n := by
    by_contra hge
    rw [List.take_of_length_le (by omega), List.take_of_length_le (by omega)] at hsame
    exact hne hsame
  rw [drop_eq_bit_cons (k := w) (d := d) (by omega),
    drop_eq_bit_cons (k := w') (d := d) (by omega), fork]
  split
  · exact ⟨_, rfl⟩
  · exact ⟨_, rfl⟩

/-- Telling two keys apart is canonical. -/
theorem canonical_fork (hne : w ≠ w') (hw : w.length = n) (hw' : w'.length = n) :
    ∀ {p : List Bool}, p <+: w → p <+: w' →
      Canonical n p (fork w v w' v' (w.drop p.length) (w'.drop p.length)) := by
  intro p
  -- On the bits below the prefix; at the full length the words would be equal.
  induction hr : n - p.length generalizing p with
  | zero =>
    intro hp hp'
    have hp₁ := hp.length_le
    have hp₂ := hp'.length_le
    exact absurd ((hp.eq_of_length (by omega)).symm.trans (hp'.eq_of_length (by omega))) hne
  | succ r ih =>
    intro hp hp'
    have hlt : p.length < w.length := by omega
    have hlt' : p.length < w'.length := by omega
    have hnext := prefix_bit hp hlt
    have hnext' := prefix_bit hp' hlt'
    rw [drop_eq_bit_cons hlt, drop_eq_bit_cons hlt', fork]
    split
    · -- the next bit is shared: a branch with one child, which is a branch again
      rename_i heq
      -- the next bit is shared: a branch with one child, which is itself a branch
      rw [← heq] at hnext'
      have hlen : (p ++ [bit w p.length]).length = p.length + 1 := by
        rw [List.length_append, List.length_singleton]
      have hrec := ih (p := p ++ [bit w p.length]) (by omega) hnext hnext'
      rw [hlen] at hrec
      obtain ⟨c, hc⟩ := fork_eq_branch v v' hne hw hw' (d := p.length + 1) (by
        rw [← hlen, ← List.prefix_iff_eq_take.1 hnext, ← List.prefix_iff_eq_take.1 hnext'])
      refine .branch (fun b => ?_) (settle_eq_branch_iff.2 (.inl ⟨bit w p.length, c, ?_⟩))
      · rw [single, Function.update_apply]
        split
        · rename_i hb
          rw [hb]
          exact hrec
        · exact .nil _
      · rw [single, Function.update_self, hc]
    · rename_i heq
      -- the next bits differ, and each side gets its leaf
      have hside : ∀ b, b ≠ bit w p.length → b = bit w' p.length := by
        intro b hb
        revert heq hb
        cases b <;> cases bit w p.length <;> cases bit w' p.length <;> simp
      refine .branch (fun b => ?_) (settle_eq_branch_iff.2 (.inr fun b => ?_))
      · rw [Function.update_apply]
        split
        · rename_i hb
          rw [hb]
          exact .leaf v hnext hw
        · rename_i hb
          rw [hside b hb, single, Function.update_self]
          exact .leaf v' hnext' hw'
      · rw [Function.update_apply]
        split
        · nofun
        · rename_i hb
          rw [hside b hb, single, Function.update_self]
          nofun

/-- What an entry was written to is not empty. -/
theorem insert_ne_nil {t : BitTrie ν} (h : Canonical n p t) {k : List Bool} (hk : k.length = n)
    (hp : p <+: k) (v : ν) : t.insert p.length k v ≠ nil := by
  rcases t with _ | ⟨w, u⟩ | c
  · nofun
  · rw [insert]
    split
    · nofun
    · rename_i hne
      cases h with
      | leaf _ hstart hlength =>
        have hsame : k.take p.length = w.take p.length := by
          rw [← List.prefix_iff_eq_take.1 hp, ← List.prefix_iff_eq_take.1 hstart]
        obtain ⟨c, hc⟩ := fork_eq_branch v u hne hk hlength hsame
        rw [hc]
        nofun
  · nofun

/-- **Insertion is the update of the map at one word.** -/
theorem find_insert {t : BitTrie ν} (h : Canonical n p t) {k : List Bool} (hk : k.length = n)
    (hp : p <+: k) (v : ν) (k' : List Bool) :
    (t.insert p.length k v).find p.length k' =
      if k' = k then some v else t.find p.length k' := by
  induction h with
  | nil p => rfl
  | @leaf p w u hstart hlength =>
    rw [insert]
    split
    · rename_i heq
      rw [find_leaf, find_leaf, heq]
      split
      · rfl
      · rfl
    · rename_i hne
      have hsame : k.take p.length = w.take p.length := by
        rw [← List.prefix_iff_eq_take.1 hp, ← List.prefix_iff_eq_take.1 hstart]
      rw [find_fork v u hne hk hlength hsame, find_leaf]
  | @branch p c hchild hsettled ih =>
    rw [insert, find_update, find_branch]
    by_cases hlt : p.length < k.length
    · have hnext := prefix_bit hp hlt
      have hrec := ih (bit k p.length) hnext
      rw [List.length_append, List.length_singleton] at hrec
      by_cases hbit : bit k' p.length = bit k p.length
      · rw [if_pos hbit, hrec, hbit]
      · rw [if_neg hbit, if_neg fun heq : k' = k => hbit (by rw [heq])]
    · -- a branching has words longer than its place
      obtain ⟨k₁, k₂, v₁, v₂, hne, hk₁, hk₂⟩ :=
        (Canonical.branch hchild hsettled).exists_two rfl
      have hplace₁ := (Canonical.branch hchild hsettled).prefix_of_find hk₁
      have hplace₂ := (Canonical.branch hchild hsettled).prefix_of_find hk₂
      have hpn := hp.length_le
      exact absurd ((hplace₁.1.eq_of_length (by omega)).symm.trans
        (hplace₂.1.eq_of_length (by omega))) hne

/-- A branching stands above the ends of the words. -/
theorem Canonical.lt_length {c : Bool → BitTrie ν} (h : Canonical n p (BitTrie.branch c)) :
    p.length < n := by
  by_contra hge
  obtain ⟨k₁, k₂, v₁, v₂, hne, hk₁, hk₂⟩ := h.exists_two rfl
  have hplace₁ := h.prefix_of_find hk₁
  have hplace₂ := h.prefix_of_find hk₂
  have hpn := hplace₁.1.length_le
  exact hne ((hplace₁.1.eq_of_length (by omega)).symm.trans
    (hplace₂.1.eq_of_length (by omega)))

/-- Inserting keeps a trie canonical. -/
theorem Canonical.insert {t : BitTrie ν} (h : Canonical n p t) {k : List Bool} (hk : k.length = n)
    (hp : p <+: k) (v : ν) : Canonical n p (t.insert p.length k v) := by
  induction h with
  | nil p => exact .leaf v hp hk
  | @leaf p w u hstart hlength =>
    rw [BitTrie.insert]
    split
    · exact .leaf v hp hk
    · rename_i hne
      exact canonical_fork v u hne hk hlength hp hstart
  | @branch p c hchild hsettled ih =>
    have hlt := (Canonical.branch hchild hsettled).lt_length
    have hnext := prefix_bit hp (hk ▸ hlt)
    have hrec := ih (bit k p.length) hnext
    have hnew := insert_ne_nil (hchild (bit k p.length)) hk hnext v
    rw [List.length_append, List.length_singleton] at hrec hnew
    rw [BitTrie.insert]
    refine .branch (fun b => ?_) (settle_eq_branch_iff.2 ?_)
    · rw [Function.update_apply]
      split
      · rename_i hb
        rw [hb]
        exact hrec
      · exact hchild b
    · -- a side that branched still does, and an occupied side stays occupied
      rcases settle_eq_branch_iff.1 hsettled with ⟨b, c', hb⟩ | hall
      · by_cases heq : b = bit k p.length
        · refine .inl ⟨b, ?_⟩
          rw [heq, Function.update_self, ← heq, hb]
          exact ⟨_, rfl⟩
        · exact .inl ⟨b, c', by rw [Function.update_of_ne heq, hb]⟩
      · refine .inr fun b => ?_
        rw [Function.update_apply]
        split
        · exact hnew
        · exact hall b

/-- **A branching has one place.** -/
theorem Canonical.place_eq {t : BitTrie ν} (h : Canonical n p t) {p' : List Bool}
    (h' : Canonical n p' t) {c : Bool → BitTrie ν} (ht : t = BitTrie.branch c) : p = p' := by
  -- a place above another one would decide a bit where the words of both sides differ
  have hle : ∀ {q q' w w' : List Bool}, q ++ [false] <+: w → q ++ [true] <+: w' → q' <+: w →
      q' <+: w' → ¬ q.length < q'.length := by
    intro q q' w w' hw hw' hq hq' hlt
    have hlen : ∀ b, (q ++ [b]).length ≤ q'.length := fun b => by
      rw [List.length_append]
      exact hlt
    have hfalse := bit_of_isPrefix (List.prefix_of_prefix_length_le hw hq (hlen false))
    rw [bit_of_isPrefix (List.prefix_of_prefix_length_le hw' hq' (hlen true))] at hfalse
    cases hfalse
  induction h generalizing p' c with
  | nil p => cases ht
  | leaf v hstart hlength => cases ht
  | @branch p c₀ hchild hsettled ih =>
    have hchild' := h'.child
    rcases settle_eq_branch_iff.1 hsettled with ⟨b, c', hb⟩ | hall
    · exact List.append_cancel_right (ih b (hchild' b) hb)
    · by_cases hbranch : ∃ b c', c₀ b = BitTrie.branch c'
      · obtain ⟨b, c', hb⟩ := hbranch
        exact List.append_cancel_right (ih b (hchild' b) hb)
      · have hleaf : ∀ b, ∃ w v, c₀ b = BitTrie.leaf w v := by
          intro b
          rcases hb : c₀ b with _ | ⟨w, v⟩ | c'
          · exact absurd hb (hall b)
          · exact ⟨w, v, rfl⟩
          · exact absurd ⟨b, c', hb⟩ hbranch
        have hstart : ∀ {q : List Bool} {b : Bool} {w : List Bool} {v : ν},
            Canonical n (q ++ [b]) (c₀ b) → c₀ b = BitTrie.leaf w v → q ++ [b] <+: w := by
          intro q b w v hc hb
          rw [hb] at hc
          cases hc with
          | leaf _ hpre _ => exact hpre
        obtain ⟨w, v, hw⟩ := hleaf false
        obtain ⟨w', v', hw'⟩ := hleaf true
        have hpw := hstart (hchild false) hw
        have hpw' := hstart (hchild true) hw'
        have hqw := hstart (hchild' false) hw
        have hqw' := hstart (hchild' true) hw'
        have hup : ∀ {q : List Bool} {b : Bool} {x : List Bool}, q ++ [b] <+: x → q <+: x :=
          fun hx => (List.prefix_append _ _).trans hx
        have hlt := hle hpw hpw' (hup hqw) (hup hqw')
        have hgt := hle hqw hqw' (hup hpw) (hup hpw')
        exact (List.prefix_of_prefix_length_le (hup hpw) (hup hqw) (by omega)).eq_of_length
          (by omega)

/-! ### Removal -/

/-- Erasing keeps a trie canonical. -/
theorem Canonical.erase {t : BitTrie ν} (h : Canonical n p t) (k : List Bool) :
    Canonical n p (t.erase p.length k) := by
  induction h with
  | nil p => exact .nil p
  | leaf u hstart hlength =>
    rw [BitTrie.erase]
    split
    · exact .nil _
    · exact .leaf u hstart hlength
  | @branch p c hchild hsettled ih =>
    rw [BitTrie.erase]
    refine canonical_settle fun b => ?_
    rw [Function.update_apply]
    split
    · rename_i hb
      have hrec := ih b
      rw [List.length_append, List.length_singleton] at hrec
      rwa [← hb]
    · exact hchild b

/-- **Removal is the update of the map at one word.** -/
theorem find_erase {t : BitTrie ν} (h : Canonical n p t) (k k' : List Bool) :
    (t.erase p.length k).find p.length k' = if k' = k then none else t.find p.length k' := by
  induction h with
  | nil p => simp [erase]
  | @leaf p w u hstart hlength =>
    rw [erase]
    split
    · rename_i heq
      rw [find_leaf, find_nil, heq]
      split
      · rfl
      · rfl
    · rename_i hne
      rw [find_leaf]
      split
      · rename_i heq
        rw [if_neg (heq ▸ Ne.symm hne)]
      · split
        · rfl
        · rfl
  | @branch p c hchild hsettled ih =>
    have hcanonical : ∀ b, Canonical n (p ++ [b])
        (Function.update c (bit k p.length) ((c (bit k p.length)).erase (p.length + 1) k) b) := by
      intro b
      rw [Function.update_apply]
      split
      · rename_i hb
        have hrec := (hchild b).erase k
        rw [List.length_append, List.length_singleton] at hrec
        rwa [← hb]
      · exact hchild b
    rw [erase, find_settle, find_update, find_branch]
    · have hrec := ih (bit k p.length)
      rw [List.length_append, List.length_singleton] at hrec
      by_cases hbit : bit k' p.length = bit k p.length
      · rw [if_pos hbit, hrec, hbit]
      · rw [if_neg hbit, if_neg fun heq : k' = k => hbit (by rw [heq])]
    · intro b w u hb
      have hleaf := hcanonical b
      rw [hb] at hleaf
      cases hleaf with
      | leaf _ hstart hlength => exact bit_of_isPrefix hstart

/-- Removing a word that is not there changes nothing. -/
theorem Canonical.erase_of_find_eq_none {t : BitTrie ν} (h : Canonical n p t) {k : List Bool}
    (hk : t.find p.length k = none) : t.erase p.length k = t := by
  refine (h.erase k).ext h fun k' => ?_
  rw [find_erase h]
  split
  · rename_i heq
    rw [heq, hk]
  · rfl

/-! ### Values -/

/-- All values have a property. -/
def All (P : ν → Prop) : BitTrie ν → Prop
  | nil => True
  | leaf _ v => P v
  | branch c => ∀ b, (c b).All P

variable {P : ν → Prop}

/-- What holds of all values holds of one that is found. -/
theorem All.of_find {t : BitTrie ν} (h : t.All P) {d : ℕ} {k : List Bool} {v : ν}
    (hv : t.find d k = some v) : P v := by
  induction t generalizing d with
  | nil => cases hv
  | leaf w u =>
    rw [find_leaf] at hv
    split at hv
    · cases hv
      exact h
    · cases hv
  | branch c ih => exact ih _ (h _) hv

/-- One child may be replaced by another of which it holds. -/
theorem All.update {c : Bool → BitTrie ν} (h : ∀ b, (c b).All P) {b : Bool} {t : BitTrie ν}
    (ht : t.All P) (b' : Bool) : (Function.update c b t b').All P := by
  rw [Function.update_apply]
  split
  · exact ht
  · exact h b'

theorem All.fork {w w' : List Bool} {v v' : ν} (hv : P v) (hv' : P v') :
    ∀ r r' : List Bool, (fork w v w' v' r r').All P
  | [], _ => trivial
  | _ :: _, [] => trivial
  | a :: r, b :: r' => by
    rw [BitTrie.fork]
    split
    · exact All.update (c := fun _ => nil) (fun _ => trivial) (All.fork hv hv' r r')
    · have hleaf' : (leaf w' v').All P := hv'
      have hleaf : (leaf w v).All P := hv
      exact All.update (All.update (c := fun _ => nil) (fun _ => trivial) hleaf') hleaf

/-- It holds after an insertion of a value of which it holds. -/
theorem All.insert {t : BitTrie ν} (h : t.All P) (d : ℕ) (k : List Bool) {v : ν} (hv : P v) :
    (t.insert d k v).All P := by
  induction t generalizing d with
  | nil => exact hv
  | leaf w u =>
    rw [BitTrie.insert]
    split
    · exact hv
    · exact All.fork hv h _ _
  | branch c ih => exact All.update h (ih _ (h _) _)

theorem All.settle {c : Bool → BitTrie ν} (h : ∀ b, (c b).All P) : (settle c).All P := by
  rw [BitTrie.settle]
  split
  · trivial
  · rename_i w v hf ht
    have hleaf := h false
    rwa [hf] at hleaf
  · rename_i w v hf ht
    have hleaf := h true
    rwa [ht] at hleaf
  · exact h

/-- It holds of what is left. -/
theorem All.erase {t : BitTrie ν} (h : t.All P) (d : ℕ) (k : List Bool) : (t.erase d k).All P := by
  induction t generalizing d with
  | nil => trivial
  | leaf w u =>
    rw [BitTrie.erase]
    split
    · trivial
    · exact h
  | branch c ih => exact All.settle (All.update h (ih _ (h _) _))

/-! ### Parts -/

/-- A property of every part that is not empty, in its place. -/
def Each (Q : List Bool → BitTrie ν → Prop) : List Bool → BitTrie ν → Prop
  | _, nil => True
  | p, leaf w v => Q p (leaf w v)
  | p, branch c => Q p (branch c) ∧ ∀ b, (c b).Each Q (p ++ [b])

/-- A part of a trie, each in its place. -/
inductive Within : List Bool → BitTrie ν → List Bool → BitTrie ν → Prop
  | refl (p : List Bool) (t : BitTrie ν) : Within p t p t
  | side {p q : List Bool} {c : Bool → BitTrie ν} {b : Bool} {t : BitTrie ν}
    (h : Within (p ++ [b]) (c b) q t) : Within p (branch c) q t

variable {Q R : List Bool → BitTrie ν → Prop} {q : List Bool}

/-- What follows from it holds at every node as well. -/
theorem Each.mono {t : BitTrie ν} (h : t.Each Q p) (hQR : ∀ p t, Q p t → R p t) : t.Each R p := by
  induction t generalizing p with
  | nil => trivial
  | leaf w v => exact hQR _ _ h
  | branch c ih => exact ⟨hQR _ _ h.1, fun b => ih b (h.2 b)⟩

/-- It holds at the root. -/
theorem Each.top {t : BitTrie ν} (h : t.Each Q p) (ht : t ≠ nil) : Q p t := by
  cases t with
  | nil => exact absurd rfl ht
  | leaf w v => exact h
  | branch c => exact h.1

/-- It holds at every node of a part of the trie. -/
theorem Within.each {t u : BitTrie ν} (h : Within p t q u) (hQ : t.Each Q p) : u.Each Q q := by
  induction h with
  | refl p t => exact hQ
  | @side p q c b u hside ih => exact ih (hQ.2 b)

/-- It is enough to know it of the parts. -/
theorem Each.of_within {t : BitTrie ν}
    (h : ∀ q (u : BitTrie ν), u ≠ nil → Within p t q u → Q q u) : t.Each Q p := by
  induction t generalizing p with
  | nil => trivial
  | leaf w v => exact h p _ nofun (.refl p _)
  | branch c ih =>
    refine ⟨h p _ nofun (.refl p _), fun b => ih b fun q u hu hw => ?_⟩
    exact h q u hu (.side hw)

/-- The parts of a canonical trie are canonical. -/
theorem Within.canonical {t u : BitTrie ν} (h : Within p t q u) (hc : Canonical n p t) :
    Canonical n q u := by
  induction h with
  | refl p t => exact hc
  | @side p q c b u hside ih => exact ih (hc.child b)

/-- What holds of all values holds of those of a part. -/
theorem Within.all {t u : BitTrie ν} (h : Within p t q u) (hP : t.All P) : u.All P := by
  induction h with
  | refl p t => exact hP
  | @side p q c b u hside ih => exact ih (hP b)

/-- A property that holds of the parts of a part is a property of the parts of a branching. -/
theorem Each.update {c : Bool → BitTrie ν} {b : Bool} {t : BitTrie ν}
    (htop : Q p (branch (Function.update c b t))) (ht : t.Each Q (p ++ [b]))
    (hother : ∀ b', b' ≠ b → (c b').Each Q (p ++ [b'])) :
    (branch (Function.update c b t)).Each Q p := by
  refine ⟨htop, fun b' => ?_⟩
  rw [Function.update_apply]
  split
  · rename_i hb
    rw [hb]
    exact ht
  · rename_i hb
    exact hother b' hb

/-! ### The way along a word -/

/-- The branchings on the way along a word, the deepest first, and where it ends; `cs` are the
branchings already passed. -/
def descend (k : List Bool) :
    BitTrie ν → List (Bool → BitTrie ν) → List (Bool → BitTrie ν) × BitTrie ν
  | branch c, cs => (c (bit k cs.length)).descend k (c :: cs)
  | nil, cs => (cs, nil)
  | leaf w v, cs => (cs, leaf w v)

/-- The trie with the way along a word put back above a part. -/
def plug (k : List Bool) : List (Bool → BitTrie ν) → BitTrie ν → BitTrie ν
  | [], t => t
  | c :: cs, t => plug k cs (branch (Function.update c (bit k cs.length) t))

/-- The same where every branching is settled. -/
def collapse (k : List Bool) : List (Bool → BitTrie ν) → BitTrie ν → BitTrie ν
  | [], t => t
  | c :: cs, t => collapse k cs (settle (Function.update c (bit k cs.length) t))

/-- A way does not end at a branching. -/
theorem descend_ne_branch (k : List Bool) (t : BitTrie ν) (cs : List (Bool → BitTrie ν))
    (c : Bool → BitTrie ν) : (t.descend k cs).2 ≠ branch c := by
  induction t generalizing cs with
  | nil => nofun
  | leaf w v => nofun
  | branch c' ih => exact ih _ _

/-- A way from a branching passes it. -/
theorem length_le_descend (k : List Bool) (t : BitTrie ν) (cs : List (Bool → BitTrie ν)) :
    cs.length ≤ (t.descend k cs).1.length := by
  induction t generalizing cs with
  | nil => exact le_rfl
  | leaf w v => exact le_rfl
  | branch c ih => exact (Nat.le_succ _).trans (ih _ (c :: cs))

/-- The descent passes a branch at the root. -/
theorem descend_branch_ne_nil (k : List Bool) (c : Bool → BitTrie ν) :
    ((branch c).descend k []).1 ≠ [] := by
  intro hnil
  have hlength := length_le_descend k (c (bit k 0)) [c]
  change ((c (bit k 0)).descend k [c]).1 = [] at hnil
  rw [hnil] at hlength
  cases hlength

/-- Looking up may begin where the descent ended. -/
theorem find_descend (k : List Bool) (t : BitTrie ν) (cs : List (Bool → BitTrie ν)) :
    (t.descend k cs).2.find (t.descend k cs).1.length k = t.find cs.length k := by
  induction t generalizing cs with
  | nil => rfl
  | leaf w v => rfl
  | branch c ih => rw [descend, ih, List.length_cons, find_branch]

/-- Insertion happens where the way ends. -/
theorem plug_descend_insert (k : List Bool) (v : ν) (t : BitTrie ν)
    (cs : List (Bool → BitTrie ν)) :
    plug k (t.descend k cs).1 ((t.descend k cs).2.insert (t.descend k cs).1.length k v) =
      plug k cs (t.insert cs.length k v) := by
  induction t generalizing cs with
  | nil => rfl
  | leaf w u => rfl
  | branch c ih =>
    rw [descend, ih, plug, List.length_cons]
    rfl

/-- Removal happens where the way ends. -/
theorem collapse_descend_erase (k : List Bool) (t : BitTrie ν) (cs : List (Bool → BitTrie ν)) :
    collapse k (t.descend k cs).1 ((t.descend k cs).2.erase (t.descend k cs).1.length k) =
      collapse k cs (t.erase cs.length k) := by
  induction t generalizing cs with
  | nil => rfl
  | leaf w u => rfl
  | branch c ih =>
    rw [descend, ih, collapse, List.length_cons]
    rfl

end BitTrie

end Tvmjs
