import Tvmjs.Mpt.Delete

/-!
# What a deletion does to the map

`erase` follows the code, which keeps the value of a branch it is asked to delete and drops the one
of a branch it collapses.

* `EraseSafe` -- neither happens;
* `get_erase`, `packed_erase` -- then the key is gone and no other one is touched;
* `subMap_erase` -- no deletion adds an entry;
* `Words.eraseSafe`, `Words.canonical_erase` -- among keys of one length every deletion is safe and
  leaves a canonical trie.
-/

namespace Tvmjs

open PathTrie

/-- The deletion of a key loses no other value and does not leave its own. -/
def EraseSafe (t : Tree) (k : Nibbles) : Prop :=
  let d := t.find k
  match d.focus, d.frames.reverse with
  | .leaf p _, .branch c w s :: _ =>
    d.rest = p → (childSlots (Function.update c s .nil)).length = 1 → w = none
  | .branch c _, [] => d.rest = [] → ∀ i, c i = .nil
  | .branch c w, _ :: _ => d.rest = [] → w = none ∨ (childSlots c).length = 1
  | _, _ => True

/-- What deletions keep of a branch: a value or two occupied slots. -/
def ValuedOrTwo (o : Finset (Option Nibble)) : Prop := none ∈ o ∨ 2 ≤ o.card

instance : SlotCondition ValuedOrTwo where
  mono h := fun
    | .inl hn => .inl (h hn)
    | .inr h2 => .inr (h2.trans (Finset.card_le_card h))
  two h := .inr h

/-- A trie of values and forks has an entry below every branch. -/
theorem live_of_valuedOrTwo {t : Tree} (h : Packed ValuedOrTwo t) : Live t :=
  h.mono fun o ho => ho.elim (fun hn => Finset.card_pos.2 ⟨none, hn⟩)
    fun h2 => le_trans (by decide) h2

/-! ### Settling a branch -/

/-- A branch with one child and no value may be given up. -/
private theorem get_settle {c : Nibble → Tree} {w : Option Value}
    (h : (childSlots c).length = 1 → w = none)
    (k : Nibbles) : (settle c w).get k = (PathTrie.branch c w).get k := by
  rw [settle]
  split
  · rename_i i hi
    obtain rfl := h (by rw [hi]; rfl)
    cases k with
    | nil => simp
    | cons x k =>
      rw [get_extend, get_ext_cons_cons, get_branch_cons]
      split
      · rename_i hx
        rw [hx, get_ext_nil]
      · rename_i hx
        have hnil : c x = .nil := by
          by_contra hne
          have hmem := mem_childSlots.2 hne
          rw [hi, List.mem_singleton] at hmem
          exact hx hmem
        rw [hnil]
        rfl
  · rfl

private theorem packed_settle {P : Finset (Option Nibble) → Prop} {c : Nibble → Tree}
    {w : Option Value}
    (hc : ∀ i, c i ≠ .nil → Packed P (c i))
    (h : (childSlots c).length ≠ 1 → P (occupied c w)) : Packed P (settle c w) := by
  rw [settle]
  split
  · rename_i i hi
    have hne : c i ≠ .nil := mem_childSlots.1 (by rw [hi]; exact List.mem_cons_self)
    exact (hc i hne).extend
  · rename_i hmany
    refine .branch hc (h fun h1 => ?_)
    obtain ⟨i, hi⟩ := List.length_eq_one_iff.1 h1
    exact hmany i hi

/-- The occupied slots of a branch without a value are its children. -/
private theorem card_occupied_none (c : Nibble → Tree) :
    (occupied c (none : Option Value)).card = (childSlots c).length := by
  have hnodup : ((childSlots c).map some).Nodup :=
    ((List.nodup_finRange 16).filter _).map (Option.some_injective _)
  have hset : occupied c (none : Option Value) = ((childSlots c).map some).toFinset := by
    ext o
    rw [List.mem_toFinset, List.mem_map]
    cases o with
    | none => simp
    | some i => simp [mem_childSlots]
  rw [hset, List.toFinset_card_of_nodup hnodup, List.length_map]

/-- Emptying a slot takes one slot. -/
private theorem card_occupied_update_nil {c : Nibble → Tree} {i : Nibble} {u : Tree} (hu : u ≠ .nil)
    (w : Option Value) : (occupied (Function.update c i .nil) w).card + 1 =
      (occupied (Function.update c i u) w).card := by
  have hmem : some i ∈ occupied (Function.update c i u) w := by simpa using hu
  have herase : occupied (Function.update c i .nil) w =
      (occupied (Function.update c i u) w).erase (some i) := by
    ext o
    rw [Finset.mem_erase]
    cases o with
    | none => simp
    | some j =>
      rw [some_mem_occupied, some_mem_occupied, Function.update_apply, Function.update_apply]
      by_cases hj : j = i
      · simp [hj]
      · simp [hj]
  rw [herase, Finset.card_erase_add_one hmem]

/-! ### The map after a deletion -/

/-- A change below a context at one word. -/
private theorem get_plug_erase {fs : List (Frame Nibble Value)} {t t' : Tree} {r : Nibbles}
    (h : ∀ k, t'.get k = if k = r then none else t.get k) (k : Nibbles) :
    (plug fs t').get k = if k = pathOf fs ++ r then none else (plug fs t).get k := by
  by_cases hp : pathOf fs <+: k
  · obtain ⟨q, rfl⟩ := hp
    rw [get_plug_append, get_plug_append, h]
    simp
  · have hne : k ≠ pathOf fs ++ r := fun heq => hp (heq ▸ List.prefix_append _ _)
    rw [if_neg hne]
    exact get_plug_of_beside hp t' t

/-- **A safe deletion removes its key and nothing else.** -/
theorem get_erase {t : Tree} {k : Nibbles} (h : EraseSafe t k)
    {P : Finset (Option Nibble) → Prop} (hp : Packed P t) (k' : Nibbles) :
    (erase t k).get k' = if k' = k then none else t.get k' := by
  have hstuck := stuck_find t k
  have hplug := plug_find t k
  have hpath := pathOf_find t k
  have hget := get_find t k
  have habsent : t.get k = none → t.get k' = if k' = k then none else t.get k' := fun h => by
    split
    · rename_i hk
      rw [hk, h]
    · rfl
  rw [EraseSafe] at h
  rw [erase]
  generalize t.find k = d at *
  obtain ⟨fs, focus, rest⟩ := d
  simp only at *
  cases hstuck with
  | nil q => exact habsent hget
  | @ext p q c hpre =>
    rw [get_ext, if_neg hpre] at hget
    exact habsent hget
  | @slot c i w q hi =>
    rw [get_branch_cons, hi] at hget
    rcases fs.reverse with _ | ⟨f, gs⟩
    · exact habsent hget
    · exact habsent hget
  | leaf p v =>
    by_cases hrest : rest = p
    · subst hrest
      rcases List.eq_nil_or_concat fs with rfl | ⟨gs, f, rfl⟩
      · obtain rfl : rest = k := hpath
        rw [← hplug]
        simp only [List.reverse_nil, if_true, plug_nil, get_leaf, get_nil]
        split <;> rfl
      · rw [List.concat_eq_append] at hplug hpath h ⊢
        obtain ⟨c, w, i, rfl⟩ := last_frame_branch (by rw [hplug]; exact hp)
        simp only [List.reverse_append, List.reverse_cons, List.reverse_nil, List.nil_append,
          List.singleton_append, if_true, List.reverse_reverse] at h ⊢
        have hnil : (plug gs (.branch (Function.update c i .nil) w) : Tree) =
            plug (gs ++ [.branch c w i]) .nil := by
          rw [plug_append]
          rfl
        rw [get_graft, get_plug_congr gs (get_settle (h trivial)), hnil, ← hpath, ← hplug]
        refine get_plug_erase (fun q => ?_) k'
        rw [get_leaf]
        split <;> rfl
    · have hnone : t.get k = none := by
        rw [hget, get_leaf, if_neg hrest]
      rcases fs.reverse with _ | ⟨_ | ⟨c, w, i⟩, gs⟩
      · simp only [if_neg hrest]
        exact habsent hnone
      · exact habsent hnone
      · simp only [if_neg hrest]
        exact habsent hnone
  | done c w =>
    rw [List.append_nil] at hpath
    rcases List.eq_nil_or_concat fs with rfl | ⟨gs, f, rfl⟩
    · obtain rfl : [] = k := hpath
      rw [← hplug]
      simp only [List.reverse_nil, if_true, plug_nil, get_nil]
      cases k' with
      | nil => rfl
      | cons x k' =>
        rw [if_neg (by simp), get_branch_cons, h rfl x]
        rfl
    · rw [List.concat_eq_append] at hplug hpath h ⊢
      simp only [List.reverse_append, List.reverse_cons, List.reverse_nil, List.nil_append,
        List.singleton_append, if_true] at h ⊢
      -- the value goes, or there was none
      have hsettle : settle c w = settle c none := by
        rcases h trivial with rfl | h1
        · rfl
        · obtain ⟨i, hi⟩ := List.length_eq_one_iff.1 h1
          rw [settle, settle, hi]
      rw [hsettle, get_graft, get_plug_congr (gs ++ [f]) (get_settle fun _ => rfl), ← hpath,
        ← hplug, ← List.append_nil (pathOf (gs ++ [f]))]
      refine get_plug_erase (fun q => ?_) k'
      cases q with
      | nil => rfl
      | cons x q => rfl

/-- Every entry of the first trie is one of the second. -/
def SubMap (t' t : Tree) : Prop := ∀ k v, t'.get k = some v → t.get k = some v

theorem SubMap.plug {t' t : Tree} (h : SubMap t' t) (fs : List (Frame Nibble Value)) :
    SubMap (plug fs t') (plug fs t) := by
  intro k v hv
  by_cases hp : pathOf fs <+: k
  · obtain ⟨q, rfl⟩ := hp
    rw [get_plug_append] at hv ⊢
    exact h q v hv
  · rwa [get_plug_of_beside hp t t']

private theorem subMap_settle (c : Nibble → Tree) (w : Option Value) :
    SubMap (settle c w) (.branch c w) := by
  intro k v hv
  by_cases h1 : (childSlots c).length = 1
  · obtain ⟨i, hi⟩ := List.length_eq_one_iff.1 h1
    have hsettle : settle c w = settle c none := by rw [settle, settle, hi]
    rw [hsettle, get_settle fun _ => rfl] at hv
    cases k with
    | nil => cases hv
    | cons x k => exact hv
  · rwa [get_settle fun h => absurd h h1] at hv

/-- **A deletion, safe or not, adds nothing.** -/
theorem subMap_erase {t : Tree} {P : Finset (Option Nibble) → Prop} (hp : Packed P t)
    (k : Nibbles) : SubMap (erase t k) t := by
  have hplug := plug_find t k
  have hself : SubMap t t := fun _ _ h => h
  have hnil : SubMap .nil t := fun _ _ h => by cases h
  rw [erase]
  generalize t.find k = d at *
  obtain ⟨fs, focus, rest⟩ := d
  simp only at *
  -- Where the walk found nothing the trie is unchanged, so only a leaf and a branch are left.
  cases focus with
  | nil => exact hself
  | ext p c => exact hself
  | leaf p v =>
    rcases List.eq_nil_or_concat fs with rfl | ⟨gs, f, rfl⟩
    · dsimp only [List.reverse_nil]
      split
      · exact hnil
      · exact hself
    · rw [List.concat_eq_append] at hplug ⊢
      obtain ⟨c, w, i, rfl⟩ := last_frame_branch (by rw [hplug]; exact hp)
      simp only [List.reverse_append, List.reverse_cons, List.reverse_nil, List.nil_append,
        List.singleton_append, List.reverse_reverse]
      split
      · -- the slot of the leaf is emptied, so no other key changes
        have hsub : SubMap (settle (Function.update c i .nil) w)
            (.branch (Function.update c i (.leaf p v)) w) := by
          intro q x hx
          have hx := subMap_settle _ _ _ _ hx
          cases q with
          | nil => exact hx
          | cons j q =>
            rw [get_update_cons] at hx ⊢
            split at hx
            · cases hx
            · rename_i hj
              rwa [if_neg hj]
        intro q x hx
        rw [get_graft] at hx
        rw [← hplug, plug_append]
        exact hsub.plug gs q x hx
      · exact hself
  | branch c w =>
    rcases fs.reverse with _ | ⟨f, gs⟩
    · dsimp only
      split
      · exact hnil
      · exact hself
    · dsimp only
      split
      · intro q x hx
        rw [get_graft] at hx
        rw [← hplug]
        exact (subMap_settle c w).plug fs q x hx
      · exact hself

/-! ### The shape after a deletion -/

/-- **A deletion keeps a trie packed** if the condition asks for two slots of a branch without a
value, and nothing but the value of one that loses a leaf. -/
theorem packed_erase {P : Finset (Option Nibble) → Prop} [SlotCondition P]
    (hP : ∀ o, P o → none ∉ o → 2 ≤ o.card) {t : Tree} {k : Nibbles} (hp : Packed P t)
    (hvalue : ∀ gs c w i, (t.find k).frames = gs ++ [.branch c w i] → w ≠ none →
      ∀ o, none ∈ o → P o) : erase t k = .nil ∨ Packed P (erase t k) := by
  have hplug := plug_find t k
  have hpacked := hp.find k
  rw [erase]
  generalize t.find k = d at *
  obtain ⟨fs, focus, rest⟩ := d
  simp only at *
  cases focus with
  | nil => exact .inr hp
  | ext p c => exact .inr hp
  | leaf p v =>
    by_cases hrest : rest = p
    · subst hrest
      rcases List.eq_nil_or_concat fs with rfl | ⟨gs, f, rfl⟩
      · simp
      · rw [List.concat_eq_append] at hplug hvalue ⊢
        obtain ⟨c, w, i, rfl⟩ := last_frame_branch (by rw [hplug]; exact hp)
        simp only [List.reverse_append, List.reverse_cons, List.reverse_nil, List.nil_append,
          List.singleton_append, if_true, List.reverse_reverse]
        have hbefore : Packed P (plug gs (.branch (Function.update c i (.leaf rest v)) w)) := by
          rw [plug_append] at hplug
          exact hplug ▸ hp
        have hbranch : Packed P (.branch (Function.update c i (.leaf rest v)) w : Tree) :=
          Packed.of_plug gs hbefore (by simp)
        refine .inr (hbefore.graft (packed_settle (fun j hj => ?_) fun hmany => ?_))
        · rw [Function.update_apply] at hj ⊢
          split
          · rename_i hji
            rw [if_pos hji] at hj
            exact absurd rfl hj
          · rename_i hji
            rw [if_neg hji] at hj
            have h := hbranch.child (s := j) (by rwa [Function.update_of_ne hji])
            rwa [Function.update_of_ne hji] at h
        · -- without a value two children are left, since there was more than one before
          have hcard := card_occupied_update_nil (c := c) (i := i) (u := .leaf rest v) (by simp) w
          cases w with
          | some x => exact hvalue gs c (some x) i rfl (by simp) _ (by simp)
          | none =>
            have h2 := hP _ hbranch.slots (by simp)
            rw [← card_occupied_none] at hmany
            exact SlotCondition.two (by omega)
    · rcases fs.reverse with _ | ⟨_ | ⟨c, w, i⟩, gs⟩
      · simp only [if_neg hrest]
        exact .inr hp
      · exact .inr hp
      · simp only [if_neg hrest]
        exact .inr hp
  | branch c w =>
    rcases fs.reverse with _ | ⟨f, gs⟩
    · by_cases hrest : rest = []
      · simp [hrest]
      · simp only [if_neg hrest]
        exact .inr hp
    · by_cases hrest : rest = []
      · simp only [if_pos hrest]
        have hbefore : Packed P (plug fs (.branch c w)) := hplug ▸ hp
        exact .inr (hbefore.graft (packed_settle (fun i hi => hpacked.child hi)
          fun _ => hpacked.slots))
      · simp only [if_neg hrest]
        exact .inr hp

/-- A safe deletion leaves values and forks. -/
theorem packed_erase_valuedOrTwo {t : Tree} (hp : Packed ValuedOrTwo t) (k : Nibbles) :
    erase t k = .nil ∨ Packed ValuedOrTwo (erase t k) :=
  packed_erase (fun _ ho hn => ho.resolve_left hn) hp fun _ _ _ _ _ _ _ ho => .inl ho

/-! ### Keys of one length -/

/-- Every word of the trie has length `n`. -/
def Words (n : ℕ) (t : Tree) : Prop := ∀ k, (t.get k).isSome → k.length = n

theorem Words.insert {n : ℕ} {t : Tree} (h : Words n t) {k : Nibbles} (hk : k.length = n)
    (v : Value) : Words n (t.insert k v) := by
  intro k' hk'
  rw [get_insert] at hk'
  split at hk'
  · rename_i heq
    rw [heq, hk]
  · exact h k' hk'

/-- The words below some steps. -/
theorem Words.of_plug {n : ℕ} {fs : List (Frame Nibble Value)} {t : Tree} (h : Words n (plug fs t))
    {k : Nibbles} (hk : (t.get k).isSome) : (pathOf fs).length + k.length = n := by
  rw [← List.length_append]
  exact h _ (by rwa [get_plug_append])

/-- A branch with a child holds no value, and stands above the ends of the words. -/
theorem Words.branch {n : ℕ} {fs : List (Frame Nibble Value)} {c : Nibble → Tree}
    {w : Option Value} (h : Words n (plug fs (.branch c w))) {i : Nibble} (hi : Live (c i)) :
    w = none ∧ (pathOf fs).length < n := by
  obtain ⟨k, v, hk⟩ := hi.exists_get
  have hlong : (pathOf fs).length + (i :: k).length = n :=
    h.of_plug (by rw [get_branch_cons, hk]; rfl)
  rw [List.length_cons] at hlong
  refine ⟨?_, by omega⟩
  by_contra hw
  have hshort : (pathOf fs).length + [].length = n :=
    h.of_plug (t := .branch c w) (Option.isSome_iff_ne_none.2 hw)
  rw [List.length_nil] at hshort
  omega

/-- A branch of a canonical trie has a child. -/
theorem exists_child_of_canonical {c : Nibble → Tree} {w : Option Value}
    (h : Canonical (PathTrie.branch c w)) : ∃ i, Live (c i) := by
  obtain ⟨o, ho, o', ho', hne⟩ := Finset.one_lt_card.1 h.slots
  have hchild : ∀ i, some i ∈ occupied c w → ∃ i, Live (c i) := fun i hi =>
    ⟨i, (h.child (some_mem_occupied.1 hi)).live⟩
  cases o with
  | some i => exact hchild i ho
  | none =>
    cases o' with
    | some i => exact hchild i ho'
    | none => exact absurd rfl hne

/-- Among words of one length a deletion is safe. -/
theorem Words.eraseSafe {n : ℕ} {t : Tree} (h : Words n t) (hp : Canonical t) {k : Nibbles}
    (hk : k.length = n) : EraseSafe t k := by
  have hplug := plug_find t k
  have hpath := pathOf_find t k
  have hpacked := hp.find k
  rw [EraseSafe]
  generalize t.find k = d at *
  obtain ⟨fs, focus, rest⟩ := d
  simp only at *
  cases focus with
  | nil => cases hpacked
  | ext p c => trivial
  | leaf p v =>
    rcases List.eq_nil_or_concat fs with rfl | ⟨gs, f, rfl⟩
    · trivial
    · rw [List.concat_eq_append] at hplug ⊢
      obtain ⟨c, w, i, rfl⟩ := last_frame_branch (by rw [hplug]; exact hp)
      simp only [List.reverse_append, List.reverse_cons, List.reverse_nil, List.nil_append,
        List.singleton_append]
      rw [plug_append] at hplug
      have hwords : Words n (plug gs (.branch (Function.update c i (.leaf p v)) w)) := hplug ▸ h
      exact fun _ _ => (hwords.branch (i := i) (by
        rw [Function.update_self]
        exact .leaf p v)).1
  | branch c w =>
    obtain ⟨i, hi⟩ := exists_child_of_canonical hpacked
    have hwords : Words n (plug fs (.branch c w)) := hplug ▸ h
    have hlt := (hwords.branch hi).2
    have hrest : rest ≠ [] := by
      rintro rfl
      rw [List.append_nil] at hpath
      rw [hpath] at hlt
      omega
    rcases fs.reverse with _ | ⟨f, gs⟩
    · exact fun h0 => absurd h0 hrest
    · exact fun h0 => absurd h0 hrest

/-- Among words of one length a deletion leaves a canonical trie. -/
theorem Words.canonical_erase {n : ℕ} {t : Tree} (h : Words n t) (hp : Canonical t)
    (k : Nibbles) : erase t k = .nil ∨ Canonical (erase t k) := by
  refine packed_erase (P := AtLeast 2) (fun _ ho _ => ho) hp fun gs c w i hframes hw => ?_
  have hplug := plug_find t k
  rw [hframes, plug_append] at hplug
  have hwords : Words n (plug gs (.branch (Function.update c i (t.find k).focus) w)) := by
    change Words n (plug gs (plug [.branch c w i] (t.find k).focus))
    rwa [hplug]
  refine absurd (hwords.branch (i := i) ?_).1 hw
  rw [Function.update_self]
  exact (hp.find k).live

end Tvmjs
