import Mathlib.Data.Fintype.Card
import Mathlib.Data.Finset.Card
import Mathlib.Data.Fintype.Option
import Tvmjs.Base.PathTrie

/-!
# Packed path-compressed tries

`PathTrie.Packed P` says that every path leads to a branching and that the occupied slots of every
branching, its own entry being one of them, satisfy `P`.  `AtLeast n` asks for `n` of them.

* `PathTrie.Packed.insert`, `PathTrie.Packed.graft` -- insertion keeps a trie packed, and so does
  the exchange of a subtrie when paths are merged;
* `PathTrie.Packed.ext_get` -- with `AtLeast 2` a trie is **canonical**: it is determined by its
  map.
-/

namespace Tvmjs

universe u v

namespace PathTrie

variable {σ : Type u} {ν : Type v} [Fintype σ]

/-- The occupied slots of a branching, `none` standing for its own entry. -/
def occupied (c : σ → PathTrie σ ν) (v : Option ν) : Finset (Option σ) :=
  Finset.univ.filter fun o => o.elim v.isSome fun s => !(c s).isNil

@[simp] theorem none_mem_occupied {c : σ → PathTrie σ ν} {v : Option ν} :
    none ∈ occupied c v ↔ v.isSome := by
  simp [occupied]

@[simp] theorem some_mem_occupied {c : σ → PathTrie σ ν} {v : Option ν} {s : σ} :
    some s ∈ occupied c v ↔ c s ≠ nil := by
  simp [occupied]

/-- A condition on the occupied slots of a branching which holds where two are occupied, and is
not broken when more are. -/
class SlotCondition (P : Finset (Option σ) → Prop) : Prop where
  mono : ∀ {o o' : Finset (Option σ)}, o ⊆ o' → P o → P o'
  two : ∀ {o : Finset (Option σ)}, 2 ≤ o.card → P o

/-- At least `n` slots are occupied. -/
def AtLeast (n : ℕ) (o : Finset (Option σ)) : Prop := n ≤ o.card

instance : SlotCondition (AtLeast 0 : Finset (Option σ) → Prop) :=
  ⟨fun _ _ => Nat.zero_le _, fun _ => Nat.zero_le _⟩

instance : SlotCondition (AtLeast 1 : Finset (Option σ) → Prop) :=
  ⟨fun h h1 => le_trans h1 (Finset.card_le_card h), fun h => le_trans (by decide) h⟩

instance : SlotCondition (AtLeast 2 : Finset (Option σ) → Prop) :=
  ⟨fun h h2 => le_trans h2 (Finset.card_le_card h), fun h => h⟩

/-- Every path is not empty and leads to a branching, and the occupied slots of every branching
satisfy `P`. -/
inductive Packed (P : Finset (Option σ) → Prop) : PathTrie σ ν → Prop
  | leaf (p : List σ) (v : ν) : Packed P (leaf p v)
  | ext {p : List σ} {c : σ → PathTrie σ ν} {v : Option ν} (hp : p ≠ [])
      (h : Packed P (branch c v)) : Packed P (ext p (branch c v))
  | branch {c : σ → PathTrie σ ν} {v : Option ν} (hc : ∀ s, c s ≠ nil → Packed P (c s))
      (hP : P (occupied c v)) : Packed P (branch c v)

/-- A packed trie whose map determines it. -/
abbrev Canonical (t : PathTrie σ ν) : Prop := Packed (AtLeast 2) t

/-- A packed trie in which every branching has an entry below it. -/
abbrev Live (t : PathTrie σ ν) : Prop := Packed (AtLeast 1) t

variable {P : Finset (Option σ) → Prop}

theorem Packed.ne_nil {t : PathTrie σ ν} (h : Packed P t) : t ≠ nil := by
  cases h <;> simp

theorem Packed.mono {Q : Finset (Option σ) → Prop} {t : PathTrie σ ν} (hPQ : ∀ o, P o → Q o)
    (h : Packed P t) : Packed Q t := by
  induction h with
  | leaf p v => exact .leaf p v
  | ext hp _ ih => exact .ext hp ih
  | branch _ hP ih => exact .branch ih (hPQ _ hP)

theorem Packed.live {t : PathTrie σ ν} (h : Canonical t) : Live t :=
  h.mono fun _ h2 => le_trans (by decide) h2

theorem Packed.child {c : σ → PathTrie σ ν} {v : Option ν} (h : Packed P (PathTrie.branch c v))
    {s : σ} (hs : c s ≠ nil) : Packed P (c s) := by
  cases h with
  | branch hc _ => exact hc s hs

theorem Packed.slots {c : σ → PathTrie σ ν} {v : Option ν}
    (h : Packed P (PathTrie.branch c v)) : P (occupied c v) := by
  cases h with
  | branch _ hP => exact hP

/-- The end of a path is a branching. -/
theorem Packed.of_ext {p : List σ} {t : PathTrie σ ν} (h : Packed P (PathTrie.ext p t)) :
    p ≠ [] ∧ Packed P t ∧ ∃ c v, t = PathTrie.branch c v := by
  cases h with
  | ext hp h => exact ⟨hp, h, _, _, rfl⟩

variable [DecidableEq σ]

/-- A path may be put before a packed trie. -/
theorem Packed.extend {p : List σ} {t : PathTrie σ ν} (h : Packed P t) :
    Packed P (PathTrie.extend p t) := by
  cases h with
  | leaf q v => exact .leaf _ v
  | ext hq hc => exact .ext (by simp [hq]) hc
  | branch hc hn =>
    rw [PathTrie.extend]
    split
    · exact .branch hc hn
    · rename_i hp
      exact .ext hp (.branch hc hn)

/-- A slot may be filled. -/
theorem Packed.update [SlotCondition P] {c : σ → PathTrie σ ν} {v : Option ν} {s : σ}
    {t : PathTrie σ ν}
    (h : Packed P (PathTrie.branch c v)) (ht : Packed P t) :
    Packed P (PathTrie.branch (Function.update c s t) v) := by
  refine .branch (fun x hx => ?_) (SlotCondition.mono (fun o ho => ?_) h.slots)
  · rw [Function.update_apply] at hx ⊢
    split
    · exact ht
    · rename_i hxs
      rw [if_neg hxs] at hx
      exact h.child hx
  · cases o with
    | none => simpa using ho
    | some x =>
      rw [some_mem_occupied] at ho ⊢
      rw [Function.update_apply]
      split
      · exact ht.ne_nil
      · exact ho

/-- What stands below the steps of a packed trie is packed. -/
theorem Packed.of_plug (fs : List (Frame σ ν)) {t : PathTrie σ ν} (h : Packed P (plug fs t))
    (ht : t ≠ nil) : Packed P t := by
  induction fs with
  | nil => exact h
  | cons f fs ih =>
    have hne : plug fs t ≠ nil := by
      cases fs with
      | nil => exact ht
      | cons g gs => cases g <;> simp [Frame.fill]
    cases f with
    | ext p => exact ih h.of_ext.2.1
    | branch c v s =>
      have hs := h.child (s := s) (by simpa using hne)
      rw [Function.update_self] at hs
      exact ih hs

omit [Fintype σ] in
theorem fill_ne_nil (f : Frame σ ν) (t : PathTrie σ ν) : f.fill t ≠ nil := by
  cases f <;> simp [Frame.fill]

/-- One step of a context: what fills it may be replaced. -/
private theorem Packed.fill_branch [SlotCondition P] {c : σ → PathTrie σ ν} {v : Option ν} {s : σ}
    {t t' : PathTrie σ ν} (h : Packed P ((Frame.branch c v s).fill t)) (ht' : Packed P t') :
    Packed P ((Frame.branch c v s).fill t') := by
  have h' := h.update (s := s) ht'
  rwa [Function.update_idem] at h'

/-- **A context stays packed** when another packed trie is put in, paths being merged. -/
theorem Packed.graft [SlotCondition P] {fs : List (Frame σ ν)} {t t' : PathTrie σ ν}
    (h : Packed P (plug fs t))
    (ht' : Packed P t') : Packed P (PathTrie.graft fs t') := by
  induction fs with
  | nil => exact ht'
  | cons f fs ih =>
    cases fs with
    | nil =>
      cases f with
      | ext p => exact ht'.extend
      | branch c v s => exact h.fill_branch ht'
    | cons g gs =>
      have hgraft : PathTrie.graft (f :: g :: gs) t' = f.fill (PathTrie.graft (g :: gs) t') := by
        cases f <;> rfl
      rw [hgraft]
      cases f with
      | ext p =>
        obtain ⟨hp, hsub, c, v, hb⟩ := h.of_ext
        have ihg := ih hsub
        -- the step after a path goes into a branching
        cases g with
        | ext q => cases hb
        | branch c' v' s' =>
          have hshape : PathTrie.graft (.branch c' v' s' :: gs) t' =
              (Frame.branch c' v' s').fill (PathTrie.graft gs t') := by cases gs <;> rfl
          rw [hshape] at ihg ⊢
          exact .ext hp ihg
      | branch c v s =>
        have hsub := h.child (s := s) (by simpa using fill_ne_nil g (plug gs t))
        rw [Function.update_self] at hsub
        exact h.fill_branch (ih hsub)

/-- A walk along a word does not leave a packed trie. -/
theorem Packed.find_focus_ne_nil {t : PathTrie σ ν} (h : Packed P t) (k : List σ) :
    (t.find k).focus ≠ nil := by
  induction h generalizing k with
  | leaf p v => simp [find]
  | ext _ _ ih =>
    rw [find]
    split
    · exact ih _
    · simp
  | branch _ _ ih =>
    cases k with
    | nil => simp [find]
    | cons s k =>
      rw [find]
      split
      · simp
      · rename_i hs
        exact ih s (fun h => hs (isNil_iff.2 h)) k

/-- The end of the walk is packed. -/
theorem Packed.find {t : PathTrie σ ν} (h : Packed P t) (k : List σ) :
    Packed P (t.find k).focus :=
  Packed.of_plug (t.find k).frames (by rwa [plug_find]) (h.find_focus_ne_nil k)

/-! ### Insertion into a packed trie -/

omit [DecidableEq σ] in
/-- Two occupied slots are enough. -/
private theorem slots_of_two [SlotCondition P] {c : σ → PathTrie σ ν} {v : Option ν}
    (o o' : Option σ) (ho : o ∈ occupied c v) (ho' : o' ∈ occupied c v) (hne : o ≠ o') :
    P (occupied c v) :=
  SlotCondition.two (Finset.one_lt_card.2 ⟨o, ho, o', ho', hne⟩)

theorem Packed.fork [SlotCondition P] {t : PathTrie σ ν} {v : ν} (ht : Packed P t) :
    ∀ {p r : List σ}, (p <+: r → p ≠ r ∧ ∃ w, t = PathTrie.leaf [] w) →
      Packed P (PathTrie.fork t p r v)
  | a :: p, b :: r, h => by
    rw [PathTrie.fork]
    split
    · -- the paths go on together
      rename_i hab
      subst hab
      -- the two paths go on together
      refine Packed.extend (Packed.fork ht fun hpr => ?_)
      obtain ⟨hne, hw⟩ := h ((List.prefix_cons_inj a).2 hpr)
      exact ⟨fun heq => hne (heq ▸ rfl), hw⟩
    · rename_i hab
      -- they part here, so that the branch has two children
      have hext := ht.extend (p := p)
      refine .branch (fun s hs => ?_)
        (slots_of_two (some a) (some b) ?_ ?_ (by simpa using hab))
      · rw [Function.update_apply] at hs ⊢
        split
        · exact .leaf r v
        · rename_i hsb
          rw [if_neg hsb, Function.update_apply] at hs
          rw [Function.update_apply]
          split
          · exact hext
          · rename_i hsa
            exact absurd rfl (if_neg hsa ▸ hs)
      · rw [some_mem_occupied, Function.update_of_ne hab, Function.update_self]
        exact hext.ne_nil
      · rw [some_mem_occupied, Function.update_self]
        simp
  | a :: p, [], h => by
    have hext := ht.extend (p := p)
    rw [PathTrie.fork]
    refine .branch (fun s hs => ?_)
      (slots_of_two (some a) none ?_ (by simp) (by simp))
    · rw [Function.update_apply] at hs ⊢
      split
      · exact hext
      · rename_i hsa
        exact absurd rfl (if_neg hsa ▸ hs)
    · rw [some_mem_occupied, Function.update_self]
      exact hext.ne_nil
  | [], b :: r, h => by
    obtain ⟨-, w, rfl⟩ := h List.nil_prefix
    rw [PathTrie.fork]
    refine .branch (fun s hs => ?_)
      (slots_of_two (some b) none ?_ (by simp) (by simp))
    · rw [Function.update_apply] at hs ⊢
      split
      · exact .leaf r v
      · rename_i hsb
        exact absurd rfl (if_neg hsb ▸ hs)
    · rw [some_mem_occupied, Function.update_self]
      simp
  | [], [], h => absurd rfl (h List.nil_prefix).1

omit [Fintype σ] in
/-- Insertion into a branching is a branching. -/
theorem insert_branch (c : σ → PathTrie σ ν) (w : Option ν) (k : List σ) (v : ν) :
    ∃ c' w', (branch c w).insert k v = branch c' w' := by
  cases k with
  | nil => exact ⟨_, _, rfl⟩
  | cons s k => exact ⟨_, _, rfl⟩

/-- **Insertion keeps a trie packed.** -/
theorem Packed.insert [SlotCondition P] {t : PathTrie σ ν} (h : Packed P t) (k : List σ) (v : ν) :
    Packed P (t.insert k v) := by
  induction h generalizing k with
  | leaf p w =>
    rw [PathTrie.insert]
    split
    · exact .leaf p v
    · rename_i hk
      exact Packed.fork (.leaf [] w) fun _ => ⟨fun h => hk h.symm, w, rfl⟩
  | @ext p c w hp hc ih =>
    rw [PathTrie.insert]
    split
    · have ih := ih (k.drop p.length)
      obtain ⟨c', w', hb⟩ := insert_branch c w (k.drop p.length) v
      rw [hb] at ih ⊢
      exact .ext hp ih
    · rename_i hpk
      exact Packed.fork hc fun h => absurd h hpk
  | @branch c w hc hcard ih =>
    cases k with
    | nil =>
      refine .branch hc (SlotCondition.mono (fun o ho => ?_) hcard)
      cases o with
      | none => simp
      | some s => rwa [some_mem_occupied] at ho ⊢
    | cons s k =>
      refine Packed.update (.branch hc hcard) ?_
      by_cases hs : c s = nil
      · rw [hs]
        exact .leaf k v
      · exact ih s hs k

/-! ### Canonicity -/

/-- A packed trie is not empty as a map. -/
theorem Packed.exists_get {t : PathTrie σ ν} (h : Live t) : ∃ k v, t.get k = some v := by
  induction h with
  | leaf p v => exact ⟨p, v, if_pos rfl⟩
  | @ext p c w hp hc ih =>
    obtain ⟨k, v, hk⟩ := ih
    exact ⟨p ++ k, v, by rw [get_ext_append, hk]⟩
  | @branch c w hc hcard ih =>
    obtain ⟨o, ho⟩ := Finset.card_pos.1 hcard
    cases o with
    | none =>
      obtain ⟨v, hv⟩ := Option.isSome_iff_exists.1 (none_mem_occupied.1 ho)
      exact ⟨[], v, hv⟩
    | some s =>
      obtain ⟨k, v, hk⟩ := ih s (some_mem_occupied.1 ho)
      exact ⟨s :: k, v, hk⟩

/-- An occupied slot of a packed branching has an entry, whose word begins as the slot says. -/
private theorem Packed.exists_get_slot {c : σ → PathTrie σ ν} {w : Option ν} {o : Option σ}
    (h : Live (PathTrie.branch c w)) (ho : o ∈ occupied c w) :
    ∃ k, k.head? = o ∧ ((PathTrie.branch c w).get k).isSome := by
  cases o with
  | none => exact ⟨[], rfl, none_mem_occupied.1 ho⟩
  | some s =>
    obtain ⟨k, v, hk⟩ := (h.child (some_mem_occupied.1 ho)).exists_get
    exact ⟨s :: k, rfl, by rw [get_branch_cons, hk]; rfl⟩

/-- A branching of a canonical trie has two entries whose words part at once. -/
theorem Packed.exists_ne_head {c : σ → PathTrie σ ν} {w : Option ν}
    (h : Canonical (PathTrie.branch c w)) :
    ∃ k k', k.head? ≠ k'.head? ∧ ((PathTrie.branch c w).get k).isSome ∧
      ((PathTrie.branch c w).get k').isSome := by
  obtain ⟨o, ho, o', ho', hne⟩ := Finset.one_lt_card.1 h.slots
  have h1 : Live (PathTrie.branch c w) := h.live
  obtain ⟨k, hk, hget⟩ := h1.exists_get_slot ho
  obtain ⟨k', hk', hget'⟩ := h1.exists_get_slot ho'
  exact ⟨k, k', by rw [hk, hk']; exact hne, hget, hget'⟩

omit [Fintype σ] in
theorem prefix_of_get_ext {p k : List σ} {t : PathTrie σ ν} (h : ((ext p t).get k).isSome) :
    p <+: k := by
  by_contra hp
  rw [get_ext, if_neg hp] at h
  exact Bool.false_ne_true h

omit [Fintype σ] in
/-- A path is as long as the words of the entries below it allow. -/
private theorem prefix_of_ext_path {p q : List σ} (t t' : PathTrie σ ν) (hbranch : ∃ k k',
    k.head? ≠ k'.head? ∧ (t.get k).isSome ∧ (t.get k').isSome)
    (h : ∀ k, (ext p t).get k = (ext q t').get k) : q <+: p := by
  obtain ⟨k, k', hne, hk, hk'⟩ := hbranch
  have hq : ∀ k, (t.get k).isSome → q <+: p ++ k := fun k hk =>
    prefix_of_get_ext (t := t') (by rwa [← h, get_ext_append])
  rcases List.prefix_or_prefix_of_prefix (hq k hk) (List.prefix_append p k) with hqp | ⟨r, rfl⟩
  · exact hqp
  · -- the part of `q` beyond `p` would begin both words
    have hr : r <+: k := (List.prefix_append_right_inj p).1 (hq k hk)
    have hr' : r <+: k' := (List.prefix_append_right_inj p).1 (hq k' hk')
    cases r with
    | nil => simp
    | cons a r =>
      obtain ⟨u, rfl⟩ := hr
      obtain ⟨u', rfl⟩ := hr'
      exact absurd rfl hne

/-- Below a path a canonical branching has two entries. -/
private theorem Packed.exists_ne {c : σ → PathTrie σ ν} {w : Option ν} (p : List σ)
    (h : Canonical (PathTrie.branch c w)) :
    ∃ k k', k ≠ k' ∧ ((PathTrie.ext p (PathTrie.branch c w)).get k).isSome ∧
      ((PathTrie.ext p (PathTrie.branch c w)).get k').isSome := by
  obtain ⟨k, k', hne, hk, hk'⟩ := h.exists_ne_head
  refine ⟨p ++ k, p ++ k', fun heq => hne ?_, ?_, ?_⟩
  · rw [List.append_cancel_left heq]
  · rwa [get_ext_append]
  · rwa [get_ext_append]

/-- An entry alone is no branching. -/
private theorem Packed.get_ne_leaf {c : σ → PathTrie σ ν} {w : Option ν} (p q : List σ) (v : ν)
    (h : Canonical (PathTrie.branch c w)) :
    ¬ ∀ k, (PathTrie.ext p (PathTrie.branch c w)).get k = (PathTrie.leaf q v).get k := by
  intro hget
  obtain ⟨k, k', hne, hk, hk'⟩ := h.exists_ne p
  have hq : ∀ k, ((PathTrie.leaf q v).get k).isSome → k = q := fun k hk => by
    by_contra hkq
    rw [get_leaf, if_neg hkq] at hk
    exact Bool.false_ne_true hk
  rw [hget] at hk hk'
  exact hne ((hq k hk).trans (hq k' hk').symm)

/-- A path is no branching. -/
private theorem Packed.get_ne_ext {c : σ → PathTrie σ ν} {w : Option ν} {p : List σ}
    {t : PathTrie σ ν} (hp : p ≠ []) (h : Canonical (PathTrie.branch c w)) :
    ¬ ∀ k, (PathTrie.branch c w).get k = (PathTrie.ext p t).get k := by
  intro hget
  refine hp (List.prefix_nil.1 (prefix_of_ext_path (PathTrie.branch c w) t
    h.exists_ne_head fun k => ?_))
  rw [get_ext_nil, hget]

/-- **A canonical trie is determined by its map.** -/
theorem Packed.ext_get {t t' : PathTrie σ ν} (h : Canonical t) (h' : Canonical t')
    (hget : ∀ k, t.get k = t'.get k) : t = t' := by
  induction h generalizing t' with
  | leaf p v =>
    cases h' with
    | leaf q w =>
      have hp := hget p
      rw [get_leaf, if_pos rfl, get_leaf] at hp
      by_cases hpq : p = q
      · rw [if_pos hpq] at hp
        rw [hpq, Option.some.inj hp]
      · rw [if_neg hpq] at hp
        cases hp
    | ext _ hb => exact absurd (fun k => (hget k).symm) (hb.get_ne_leaf _ p v)
    | branch hc hn =>
      refine absurd (fun k => ?_) (Packed.get_ne_leaf [] p v (.branch hc hn))
      rw [get_ext_nil, hget]
  | @ext p c w hp hb ih =>
    cases h' with
    | leaf q v => exact absurd hget (hb.get_ne_leaf p q v)
    | @ext q c' w' hq hb' =>
      have hqp : q <+: p := prefix_of_ext_path _ _ hb.exists_ne_head hget
      have hpq : p <+: q := prefix_of_ext_path _ _ hb'.exists_ne_head fun k => (hget k).symm
      obtain rfl := List.IsPrefix.eq_of_length_le hpq hqp.length_le
      rw [ih hb' fun k => by rw [← get_ext_append p, hget, get_ext_append]]
    | branch hc hn => exact absurd (fun k => (hget k).symm) (Packed.get_ne_ext hp (.branch hc hn))
  | @branch c w hc hn ih =>
    cases h' with
    | leaf q v =>
      refine absurd (fun k => ?_) (Packed.get_ne_leaf [] q v (.branch hc hn))
      rw [get_ext_nil, hget]
    | ext hq _ => exact absurd hget (Packed.get_ne_ext hq (.branch hc hn))
    | @branch c' w' hc' hn' =>
      have hw : w = w' := hget []
      have hchild : ∀ s k, (c s).get k = (c' s).get k := fun s k => hget (s :: k)
      have hcc : c = c' := by
        funext s
        by_cases hs : c s = nil
        · by_contra hs'
          obtain ⟨k, v, hk⟩ := (hc' s fun h => hs' (hs.trans h.symm)).live.exists_get
          rw [← hchild, hs] at hk
          cases hk
        · refine ih s hs (hc' s fun h => ?_) (hchild s)
          obtain ⟨k, v, hk⟩ := (hc s hs).live.exists_get
          rw [hchild, h] at hk
          cases hk
      rw [hw, hcc]

/-! ### Bounded paths -/

/-- No path of the trie is longer than `N`. -/
def Short (N : ℕ) : PathTrie σ ν → Prop
  | nil => True
  | leaf p _ => p.length ≤ N
  | ext p c => p.length ≤ N ∧ c.Short N
  | branch c _ => ∀ s, (c s).Short N

variable {N : ℕ}

section Short

omit [Fintype σ]

theorem Short.of_plug (fs : List (Frame σ ν)) {t : PathTrie σ ν} (h : (plug fs t).Short N) :
    t.Short N := by
  induction fs with
  | nil => exact h
  | cons f fs ih =>
    cases f with
    | ext p => exact ih h.2
    | branch c v s =>
      have hs := h s
      rw [Function.update_self] at hs
      exact ih hs

/-- What is plugged into a context with short paths may be replaced. -/
theorem Short.plug {fs : List (Frame σ ν)} {t t' : PathTrie σ ν} (h : (plug fs t).Short N)
    (ht' : t'.Short N) : (PathTrie.plug fs t').Short N := by
  induction fs with
  | nil => exact ht'
  | cons f fs ih =>
    cases f with
    | ext p => exact ⟨h.1, ih h.2⟩
    | branch c v s =>
      intro x
      have hx := h x
      rw [Function.update_apply] at hx ⊢
      split
      · rename_i hxs
        rw [if_pos hxs] at hx
        exact ih hx
      · rename_i hxs
        rwa [if_neg hxs] at hx

/-- The path at the top of a trie, as far as nothing branches off. -/
def topLength : PathTrie σ ν → ℕ
  | leaf p _ => p.length
  | ext p _ => p.length
  | _ => 0

theorem Short.extend {p : List σ} {t : PathTrie σ ν} (h : t.Short N)
    (hp : p.length + t.topLength ≤ N) : (PathTrie.extend p t).Short N := by
  cases t with
  | nil => trivial
  | leaf q v =>
    change (p ++ q).length ≤ N
    rwa [List.length_append]
  | ext q c =>
    refine ⟨?_, h.2⟩
    rwa [List.length_append]
  | branch c v =>
    rw [PathTrie.extend]
    split
    · exact h
    · exact ⟨hp, h⟩

/-- A fork has no longer paths than the two words. -/
theorem Short.fork {t : PathTrie σ ν} {v : ν} (ht : t.Short N) : ∀ {p r : List σ},
    p.length + t.topLength ≤ N → r.length ≤ N →
      (PathTrie.fork t p r v).Short N ∧ (PathTrie.fork t p r v).topLength ≤ r.length
  | a :: p, b :: r, hp, hr => by
    have hp' : p.length + t.topLength ≤ N := by
      rw [List.length_cons] at hp
      omega
    have hr' : r.length ≤ N := (Nat.le_succ _).trans hr
    rw [PathTrie.fork]
    split
    · obtain ⟨hs, htop⟩ := Short.fork ht (v := v) hp' hr'
      constructor
      · refine hs.extend ?_
        rw [List.length_singleton]
        exact (Nat.add_le_add_left htop 1).trans ((Nat.add_comm 1 _).trans_le hr)
      · generalize PathTrie.fork t p r v = u at htop ⊢
        cases u with
        | branch c w => exact Nat.succ_le_succ (Nat.zero_le _)
        | nil => exact Nat.zero_le _
        | leaf q w => exact Nat.succ_le_succ htop
        | ext q c => exact Nat.succ_le_succ htop
    · refine ⟨fun x => ?_, Nat.zero_le _⟩
      rw [Function.update_apply, Function.update_apply]
      split
      · exact hr'
      · split
        · exact ht.extend hp'
        · trivial
  | a :: p, [], hp, hr => by
    rw [PathTrie.fork]
    refine ⟨fun x => ?_, Nat.zero_le _⟩
    rw [Function.update_apply]
    split
    · refine ht.extend ?_
      rw [List.length_cons] at hp
      omega
    · trivial
  | [], b :: r, hp, hr => by
    rw [PathTrie.fork]
    refine ⟨fun x => ?_, Nat.zero_le _⟩
    rw [Function.update_apply]
    split
    · exact (Nat.le_succ _).trans hr
    · trivial
  | [], [], hp, hr => ⟨Nat.zero_le N, le_rfl⟩

end Short

/-- Insertion at a short word makes no long path. -/
theorem Short.insert {t : PathTrie σ ν} (hp : Packed P t) (h : t.Short N) {k : List σ}
    (v : ν) (hk : k.length ≤ N) : (t.insert k v).Short N := by
  induction hp generalizing k with
  | leaf p w =>
    rw [PathTrie.insert]
    split
    · exact h
    · exact (Short.fork (t := PathTrie.leaf [] w) (Nat.zero_le N) h hk).1
  | @ext p c w hne hb ih =>
    rw [PathTrie.insert]
    split
    · exact ⟨h.1, ih h.2 (le_trans (by simp) hk)⟩
    · exact (Short.fork h.2 h.1 hk).1
  | @branch c w hc hn ih =>
    cases k with
    | nil => exact h
    | cons s k =>
      intro x
      change (Function.update c s ((c s).insert k v) x).Short N
      rw [Function.update_apply]
      split
      · have hk' : k.length ≤ N := (Nat.le_succ _).trans hk
        by_cases hs : c s = nil
        · rw [hs]
          exact hk'
        · exact ih s hs (h s) hk'
      · exact h x

/-- A packed trie whose words are short has short paths. -/
theorem Packed.short {t : PathTrie σ ν} (h : Live t) {N : ℕ}
    (hwords : ∀ k, (t.get k).isSome → k.length ≤ N) : t.Short N := by
  induction h generalizing N with
  | leaf p v => exact hwords p (by simp)
  | @ext p c v hp hb ih =>
    have hlen : ∀ k, ((PathTrie.branch c v).get k).isSome → p.length + k.length ≤ N := by
      intro k hk
      rw [← List.length_append]
      exact hwords (p ++ k) (by rwa [get_ext_append])
    obtain ⟨k, w, hk⟩ := hb.exists_get
    have hpN := hlen k (by rw [hk]; rfl)
    refine ⟨by omega, ih fun k hk => ?_⟩
    have := hlen k hk
    omega
  | @branch c v hc hn ih =>
    intro s
    by_cases hs : c s = nil
    · rw [hs]
      trivial
    · exact ih s hs fun k hk => (Nat.le_succ _).trans (hwords (s :: k) hk)

end PathTrie

end Tvmjs
