import Mathlib.Data.List.Lex
import Mathlib.Data.List.FinRange
import Mathlib.Data.List.Flatten
import Mathlib.Order.Fin.Basic
import Tvmjs.Base.PackedTrie

/-!
# Walking a trie once through
The walk visits the subtries of a trie, each before the ones below it, and lists the entries it
comes by.  It passes over a subtrie that looks like one it has visited before, and over the subtries
below a branching that it cannot reach.

* `mem_entries`, `sorted_entries` -- the entries of a trie, each once, in ascending order;
* `walk_of_complete` -- a walk that passes over nothing visits every place;
* `entriesOf_walk_iff` -- **a walk lists all the entries exactly if it passes over nothing**;
* `leavesOf_walk_iff` -- the same for a walk that lists the entries of leaves only.
-/

namespace Tvmjs

namespace PathTrie

variable {n : ℕ} {ν : Type*}

/-! ### Entries and places -/

/-- The words of a list moved down by a path. -/
def under {α : Type*} (p : List (Fin n)) (l : List (List (Fin n) × α)) : List (List (Fin n) × α) :=
  l.map fun e => (p ++ e.1, e.2)

/-- The entries of a trie. -/
def entries : PathTrie (Fin n) ν → List (List (Fin n) × ν)
  | nil => []
  | leaf p v => [(p, v)]
  | ext p c => under p c.entries
  | branch c v => v.toList.map (([], ·)) ++ (List.finRange n).flatMap
      fun s => under [s] (c s).entries

/-- The subtries of a trie with the words that lead to them. -/
def places : PathTrie (Fin n) ν → List (List (Fin n) × PathTrie (Fin n) ν)
  | nil => []
  | leaf p v => [([], leaf p v)]
  | ext p c => ([], ext p c) :: under p c.places
  | branch c v =>
    ([], branch c v) :: (List.finRange n).flatMap fun s => under [s] (c s).places

/-- The entry a place holds itself. -/
def entryAt : List (Fin n) × PathTrie (Fin n) ν → List (List (Fin n) × ν)
  | (w, leaf p v) => [(w ++ p, v)]
  | (w, branch _ v) => v.toList.map ((w, ·))
  | _ => []

/-- The entries some places hold. -/
def entriesOf (l : List (List (Fin n) × PathTrie (Fin n) ν)) : List (List (Fin n) × ν) :=
  l.flatMap entryAt

section Under

variable {α β : Type*} (p : List (Fin n))

@[simp] theorem under_nil : under p ([] : List (List (Fin n) × α)) = [] := rfl

@[simp] theorem under_append (l l' : List (List (Fin n) × α)) :
    under p (l ++ l') = under p l ++ under p l' := List.map_append

@[simp] theorem map_snd_under (f : α → β) (l : List (List (Fin n) × α)) :
    (under p l).map (fun e => f e.2) = l.map fun e => f e.2 := by
  rw [under, List.map_map]
  rfl

theorem mem_under {l : List (List (Fin n) × α)} {e : List (Fin n) × α} :
    e ∈ under p l ↔ ∃ w, (w, e.2) ∈ l ∧ p ++ w = e.1 := by
  obtain ⟨w, a⟩ := e
  constructor
  · intro h
    obtain ⟨e', he', heq⟩ := List.mem_map.1 h
    obtain ⟨rfl, rfl⟩ := Prod.mk.inj heq
    exact ⟨e'.1, he', rfl⟩
  · rintro ⟨w', hw', rfl⟩
    exact List.mem_map.2 ⟨(w', a), hw', rfl⟩

theorem under_injective : Function.Injective (under (α := α) p) := by
  refine List.map_injective_iff.2 fun e e' h => ?_
  obtain ⟨hword, hvalue⟩ := Prod.mk.inj h
  exact Prod.ext (List.append_cancel_left hword) hvalue

theorem entryAt_under (e : List (Fin n) × PathTrie (Fin n) ν) :
    entryAt (p ++ e.1, e.2) = under p (entryAt e) := by
  obtain ⟨w, t⟩ := e
  cases t with
  | nil => rfl
  | leaf q v => simp [entryAt, under]
  | ext q c => rfl
  | branch c v => simp [entryAt, under]

theorem entriesOf_append (l l' : List (List (Fin n) × PathTrie (Fin n) ν)) :
    entriesOf (l ++ l') = entriesOf l ++ entriesOf l' := List.flatMap_append

theorem entriesOf_cons (e : List (Fin n) × PathTrie (Fin n) ν)
    (l : List (List (Fin n) × PathTrie (Fin n) ν)) :
    entriesOf (e :: l) = entryAt e ++ entriesOf l := List.flatMap_cons

theorem entriesOf_under (l : List (List (Fin n) × PathTrie (Fin n) ν)) :
    entriesOf (under p l) = under p (entriesOf l) := by
  induction l with
  | nil => rfl
  | cons e l ih =>
    have hcons : under p (e :: l) = (p ++ e.1, e.2) :: under p l := rfl
    rw [hcons, entriesOf_cons, entryAt_under, ih, entriesOf_cons, under_append]

end Under

/-- The entries below some slots. -/
theorem entriesOf_slots {c : Fin n → PathTrie (Fin n) ν}
    (h : ∀ s, entriesOf (c s).places = (c s).entries) (l : List (Fin n)) :
    entriesOf (l.flatMap fun s => under [s] (c s).places) =
      l.flatMap fun s => under [s] (c s).entries := by
  induction l with
  | nil => rfl
  | cons s l ih =>
    rw [List.flatMap_cons, entriesOf_append, entriesOf_under, h, ih, List.flatMap_cons]

/-- Every entry stands at a place. -/
theorem entriesOf_places (t : PathTrie (Fin n) ν) : entriesOf t.places = t.entries := by
  induction t with
  | nil => rfl
  | leaf p v => rfl
  | ext p c ih =>
    have hext : entryAt ([], ext p c) = [] := rfl
    rw [places, entriesOf_cons, hext, entriesOf_under, ih, entries, List.nil_append]
  | branch c v ih =>
    rw [places, entriesOf_cons, entriesOf_slots ih, entries, entryAt]

/-- A place is what a context leaves open. -/
theorem exists_plug_of_mem_places {t u : PathTrie (Fin n) ν} {w : List (Fin n)}
    (h : (w, u) ∈ t.places) : u ≠ nil ∧ ∃ fs, plug fs u = t ∧ pathOf fs = w := by
  induction t generalizing w with
  | nil => cases h
  | leaf p v =>
    obtain ⟨rfl, rfl⟩ := Prod.mk.inj (List.mem_singleton.1 h)
    exact ⟨nofun, [], rfl, rfl⟩
  | ext p c ih =>
    obtain heq | h := List.mem_cons.1 h
    · obtain ⟨rfl, rfl⟩ := Prod.mk.inj heq
      exact ⟨nofun, [], rfl, rfl⟩
    · obtain ⟨w', hw', rfl⟩ := (mem_under p).1 h
      obtain ⟨hne, fs, rfl, rfl⟩ := ih hw'
      exact ⟨hne, .ext p :: fs, rfl, rfl⟩
  | branch c v ih =>
    obtain heq | h := List.mem_cons.1 h
    · obtain ⟨rfl, rfl⟩ := Prod.mk.inj heq
      exact ⟨nofun, [], rfl, rfl⟩
    · obtain ⟨s, -, hs⟩ := List.mem_flatMap.1 h
      obtain ⟨w', hw', rfl⟩ := (mem_under [s]).1 hs
      obtain ⟨hne, fs, hplug, rfl⟩ := ih s hw'
      refine ⟨hne, .branch c v s :: fs, ?_, rfl⟩
      rw [plug_cons, hplug, Frame.fill, Function.update_eq_self]

/-- **The entries are those of the map.** -/
theorem mem_entries {t : PathTrie (Fin n) ν} {w : List (Fin n)} {v : ν} :
    (w, v) ∈ t.entries ↔ t.get w = some v := by
  induction t generalizing w with
  | nil => simp [entries]
  | leaf p u =>
    rw [entries, List.mem_singleton, get_leaf, Prod.mk.injEq]
    split
    · rename_i h
      simp [h, eq_comm]
    · rename_i h
      simp [h]
  | ext p c ih =>
    rw [entries, mem_under, get_ext]
    constructor
    · rintro ⟨w', hw', rfl⟩
      rw [if_pos (List.prefix_append p w'), List.drop_left]
      exact ih.1 hw'
    · intro h
      split at h
      · rename_i hp
        obtain ⟨w', rfl⟩ := hp
        rw [List.drop_left] at h
        exact ⟨w', ih.2 h, rfl⟩
      · cases h
  | branch c u ih =>
    rw [entries, List.mem_append, List.mem_map, List.mem_flatMap]
    cases w with
    | nil =>
      rw [get_branch_nil]
      constructor
      · rintro (⟨u', hu', heq⟩ | ⟨s, -, hs⟩)
        · obtain ⟨-, rfl⟩ := Prod.mk.inj heq
          exact Option.mem_toList.1 hu'
        · obtain ⟨w', -, heq⟩ := (mem_under [s]).1 hs
          cases heq
      · intro h
        exact Or.inl ⟨v, Option.mem_toList.2 h, rfl⟩
    | cons s w =>
      rw [get_branch_cons]
      constructor
      · rintro (⟨u', -, heq⟩ | ⟨s', -, hs⟩)
        · cases heq
        · obtain ⟨w', hw', heq⟩ := (mem_under [s']).1 hs
          obtain ⟨rfl, rfl⟩ := List.cons.inj heq
          exact (ih _).1 hw'
      · intro h
        exact Or.inr ⟨s, List.mem_finRange s, (mem_under [s]).2 ⟨w, (ih s).2 h, rfl⟩⟩

/-- **The entries ascend.** -/
theorem sorted_entries (t : PathTrie (Fin n) ν) : t.entries.Pairwise fun e e' => e.1 < e'.1 := by
  have hunder : ∀ (p : List (Fin n)) {l : List (List (Fin n) × ν)},
      l.Pairwise (fun e e' => e.1 < e'.1) → (under p l).Pairwise fun e e' => e.1 < e'.1 := by
    intro p l h
    refine List.pairwise_map.2 (h.imp fun {e e'} hlt => ?_)
    induction p with
    | nil => exact hlt
    | cons a p ih => exact List.cons_lt_cons_iff.2 (Or.inr ⟨rfl, ih⟩)
  induction t with
  | nil => exact List.Pairwise.nil
  | leaf p v => exact List.pairwise_singleton _ _
  | ext p c ih => exact hunder p ih
  | branch c v ih =>
    rw [entries, List.pairwise_append]
    refine ⟨?_, ?_, ?_⟩
    · cases v with
      | none => exact List.Pairwise.nil
      | some v => exact List.pairwise_singleton _ _
    · rw [List.pairwise_flatMap]
      refine ⟨fun s _ => hunder [s] (ih s), (List.pairwise_lt_finRange n).imp fun {s s'} hlt => ?_⟩
      intro e he e' he'
      obtain ⟨w, -, hw⟩ := (mem_under [s]).1 he
      obtain ⟨w', -, hw'⟩ := (mem_under [s']).1 he'
      rw [← hw, ← hw']
      exact List.cons_lt_cons_iff.2 (Or.inl hlt)
    · intro e he e' he'
      obtain ⟨u, -, rfl⟩ := List.mem_map.1 he
      obtain ⟨s, -, hs⟩ := List.mem_flatMap.1 he'
      obtain ⟨w, -, hw⟩ := (mem_under [s]).1 hs
      rw [← hw]
      exact List.nil_lt_cons s w

/-! ### The walk -/

section Walk

variable {μ : Type*} [DecidableEq μ] (mark : PathTrie (Fin n) ν → μ)
  (reached : PathTrie (Fin n) ν → Prop) [DecidablePred reached]

/-- Walk some slots one after the other. -/
def walkSlots {α : Type*} (walk : Fin n → List μ → List (List (Fin n) × α) × List μ) :
    List (Fin n) → List μ → List (List (Fin n) × α) × List μ
  | [], visited => ([], visited)
  | s :: l, visited =>
    let here := walk s visited
    let rest := walkSlots walk l here.2
    (under [s] here.1 ++ rest.1, rest.2)

/-- The places a walk visits, and the marks of what has been visited after it. -/
def walk : PathTrie (Fin n) ν → List μ → List (List (Fin n) × PathTrie (Fin n) ν) × List μ
  | nil, visited => ([], visited)
  | leaf p v, visited =>
    if mark (leaf p v) ∈ visited then ([], visited)
    else ([([], leaf p v)], mark (leaf p v) :: visited)
  | ext p c, visited =>
    if mark (ext p c) ∈ visited then ([], visited)
    else
      let below := c.walk (mark (ext p c) :: visited)
      (([], ext p c) :: under p below.1, below.2)
  | branch c v, visited =>
    if mark (branch c v) ∈ visited then ([], visited)
    else
      let below := walkSlots
        (fun s visited => if reached (c s) then (c s).walk visited else ([], visited))
        (List.finRange n) (mark (branch c v) :: visited)
      (([], branch c v) :: below.1, below.2)

/-- No mark of some places is that of another one or of something visited. -/
def Fresh (visited : List μ) (l : List (List (Fin n) × PathTrie (Fin n) ν)) : Prop :=
  (l.map fun e => mark e.2).Nodup ∧ ∀ e ∈ l, mark e.2 ∉ visited

/-- Everything below a branching is reached. -/
def Reaching : PathTrie (Fin n) ν → Prop
  | ext _ c => c.Reaching
  | branch c _ => ∀ s, (c s ≠ nil → reached (c s)) ∧ (c s).Reaching
  | _ => True

instance decidableReaching :
    DecidablePred (Reaching reached : PathTrie (Fin n) ν → Prop)
  | nil => isTrue trivial
  | leaf _ _ => isTrue trivial
  | ext _ c => decidableReaching c
  | branch c _ =>
    have (s : Fin n) : Decidable ((c s).Reaching reached) := decidableReaching (c s)
    have (s : Fin n) : Decidable (c s ≠ nil → reached (c s)) :=
      decidable_of_iff ((c s).isNil = false → reached (c s))
        (imp_congr_left (Bool.eq_false_iff.trans isNil_iff.not))
    inferInstanceAs (Decidable (∀ s, (c s ≠ nil → reached (c s)) ∧ (c s).Reaching reached))

variable {mark reached}

omit [DecidableEq μ] in
theorem fresh_append {visited : List μ} {l l' : List (List (Fin n) × PathTrie (Fin n) ν)} :
    Fresh mark visited (l ++ l') ↔ Fresh mark visited l ∧
      Fresh mark ((l.map fun e => mark e.2).reverse ++ visited) l' := by
  simp only [Fresh, List.map_append, List.nodup_append, List.mem_append, List.mem_reverse,
    List.mem_map]
  constructor
  · rintro ⟨⟨hl, hl', hne⟩, hfresh⟩
    refine ⟨⟨hl, fun e he => hfresh e (Or.inl he)⟩, hl', fun e he hmem => ?_⟩
    obtain hmem | hmem := hmem
    · exact hne _ hmem _ ⟨e, he, rfl⟩ rfl
    · exact hfresh e (Or.inr he) hmem
  · rintro ⟨⟨hl, hfresh⟩, hl', hfresh'⟩
    refine ⟨⟨hl, hl', ?_⟩, fun e he => ?_⟩
    · rintro m hm m' ⟨e, he, rfl⟩ rfl
      exact hfresh' e he (Or.inl hm)
    · obtain he | he := he
      · exact hfresh e he
      · exact fun hmem => hfresh' e he (Or.inr hmem)

omit [DecidableEq μ] in
theorem fresh_cons {visited : List μ} {e : List (Fin n) × PathTrie (Fin n) ν}
    {l : List (List (Fin n) × PathTrie (Fin n) ν)} :
    Fresh mark visited (e :: l) ↔ mark e.2 ∉ visited ∧ Fresh mark (mark e.2 :: visited) l := by
  have hsingle : Fresh mark visited [e] ↔ mark e.2 ∉ visited := by simp [Fresh]
  rw [← List.singleton_append, fresh_append, hsingle]
  rfl

omit [DecidableEq μ] in
@[simp] theorem fresh_under {visited : List μ} (p : List (Fin n))
    {l : List (List (Fin n) × PathTrie (Fin n) ν)} :
    Fresh mark visited (under p l) ↔ Fresh mark visited l := by
  rw [Fresh, Fresh, map_snd_under]
  refine and_congr_right fun _ => ?_
  constructor
  · intro h e he
    exact h (p ++ e.1, e.2) (List.mem_map_of_mem he)
  · intro h e he
    obtain ⟨w, hw, -⟩ := (mem_under p).1 he
    exact h (w, e.2) hw

/-- Walk some slots of a branching. -/
def walkChildren (mark : PathTrie (Fin n) ν → μ) (reached : PathTrie (Fin n) ν → Prop)
    [DecidablePred reached] (c : Fin n → PathTrie (Fin n) ν) :
    List (Fin n) → List μ → List (List (Fin n) × PathTrie (Fin n) ν) × List μ :=
  walkSlots fun s visited =>
    if reached (c s) then (c s).walk mark reached visited else ([], visited)

/-- A walk of slots visits places below them only. -/
theorem walkChildren_sublist {c : Fin n → PathTrie (Fin n) ν}
    (h : ∀ s visited, ((c s).walk mark reached visited).1.Sublist (c s).places)
    (l : List (Fin n)) (visited : List μ) :
    (walkChildren mark reached c l visited).1.Sublist
      (l.flatMap fun s => under [s] (c s).places) := by
  induction l generalizing visited with
  | nil => exact List.Sublist.refl _
  | cons s l ih =>
    rw [walkChildren, walkSlots, List.flatMap_cons]
    refine List.Sublist.append (List.Sublist.map _ ?_) (ih _)
    split
    · exact h s visited
    · exact List.nil_sublist _

/-- A walk visits places only. -/
theorem walk_sublist (t : PathTrie (Fin n) ν) (visited : List μ) :
    (t.walk mark reached visited).1.Sublist t.places := by
  induction t generalizing visited with
  | nil => exact List.Sublist.refl _
  | leaf p v =>
    rw [walk]
    split
    · exact List.nil_sublist _
    · exact List.Sublist.refl _
  | ext p c ih =>
    rw [walk]
    split
    · exact List.nil_sublist _
    · exact ((ih _).map _).cons_cons _
  | branch c v ih =>
    rw [walk]
    split
    · exact List.nil_sublist _
    · exact (walkChildren_sublist ih _ _).cons_cons _

/-- What a walk leaves behind where it passes over nothing. -/
def visitedAll (mark : PathTrie (Fin n) ν → μ) (l : List (List (Fin n) × PathTrie (Fin n) ν))
    (visited : List μ) : List (List (Fin n) × PathTrie (Fin n) ν) × List μ :=
  (l, (l.map fun e => mark e.2).reverse ++ visited)

/-- A slot that is walked in full. -/
theorem walk_slot {c : Fin n → PathTrie (Fin n) ν} {s : Fin n} {visited : List μ}
    (hreached : c s ≠ nil → reached (c s))
    (h : (c s).walk mark reached visited = visitedAll mark (c s).places visited) :
    (if reached (c s) then (c s).walk mark reached visited else ([], visited)) =
      visitedAll mark (c s).places visited := by
  split
  · exact h
  · rename_i hnot
    have hnil : c s = nil := not_not.1 fun hne => hnot (hreached hne)
    rw [hnil]
    rfl

/-- **A walk that passes over nothing** visits every place. -/
theorem walk_of_complete {t : PathTrie (Fin n) ν} (hreach : t.Reaching reached) {visited : List μ}
    (hfresh : Fresh mark visited t.places) :
    t.walk mark reached visited = visitedAll mark t.places visited := by
  induction t generalizing visited with
  | nil => rfl
  | leaf p v =>
    rw [walk, if_neg (fresh_cons.1 hfresh).1]
    rfl
  | ext p c ih =>
    obtain ⟨hnew, hbelow⟩ := fresh_cons.1 hfresh
    rw [walk, if_neg hnew, ih hreach ((fresh_under p).1 hbelow)]
    simp [visitedAll, places]
  | branch c v ih =>
    have hslots : ∀ (l : List (Fin n)) (visited : List μ),
        Fresh mark visited (l.flatMap fun s => under [s] (c s).places) →
          walkChildren mark reached c l visited =
            visitedAll mark (l.flatMap fun s => under [s] (c s).places) visited := by
      intro l
      induction l with
      | nil => exact fun _ _ => rfl
      | cons s l ihl =>
        intro visited hfresh
        rw [List.flatMap_cons, fresh_append, fresh_under, map_snd_under] at hfresh
        have hhere := walk_slot (hreach s).1 (ih s (hreach s).2 hfresh.1)
        have hrest := ihl (visitedAll mark (c s).places visited).2 hfresh.2
        rw [walkChildren] at hrest
        rw [walkChildren, walkSlots]
        simp only [hhere, hrest]
        simp [visitedAll]
    obtain ⟨hnew, hbelow⟩ := fresh_cons.1 hfresh
    have hall := hslots _ _ hbelow
    rw [walkChildren] at hall
    rw [walk, if_neg hnew]
    simp only [hall]
    simp [visitedAll, places]

/-- Two lists that are made of parts of two others. -/
private theorem sublist_append_inj {α : Type*} {a b a' b' : List α} (ha : a.Sublist a')
    (hb : b.Sublist b') (h : a ++ b = a' ++ b') : a = a' ∧ b = b' := by
  have hlength := congrArg List.length h
  rw [List.length_append, List.length_append] at hlength
  have hle := ha.length_le
  have hle' := hb.length_le
  exact ⟨ha.eq_of_length (by omega), hb.eq_of_length (by omega)⟩

/-- A walk lists entries only. -/
theorem entriesOf_walk_sublist (t : PathTrie (Fin n) ν) (visited : List μ) :
    (entriesOf (t.walk mark reached visited).1).Sublist t.entries := by
  rw [← entriesOf_places]
  exact (walk_sublist t visited).flatMap entryAt

/-- A trie with an entry below every branching lists one. -/
theorem entries_ne_nil {t : PathTrie (Fin n) ν} (h : Live t) : t.entries ≠ [] := by
  obtain ⟨k, v, hk⟩ := h.exists_get
  exact List.ne_nil_of_mem (mem_entries.2 hk)

/-- A walk that lists all the entries passes over nothing. -/
theorem complete_of_entriesOf {t : PathTrie (Fin n) ν} (ht : Live t) {visited : List μ}
    (h : entriesOf (t.walk mark reached visited).1 = t.entries) :
    Fresh mark visited t.places ∧ t.Reaching reached := by
  induction ht generalizing visited with
  | leaf p v =>
    rw [walk] at h
    split at h
    · cases h
    · rename_i hnew
      exact ⟨fresh_cons.2 ⟨hnew, List.nodup_nil, nofun⟩, trivial⟩
  | @ext p c v hp hlive ih =>
    rw [walk] at h
    split at h
    · exact absurd h.symm (entries_ne_nil (Packed.ext hp hlive))
    · rename_i hnew
      have hbelow : entriesOf ((branch c v).walk mark reached
        (mark (ext p (branch c v)) :: visited)).1 =
          (branch c v).entries := by
        refine under_injective p ?_
        rw [← entriesOf_under]
        exact h
      obtain ⟨hfresh, hreach⟩ := ih hbelow
      exact ⟨fresh_cons.2 ⟨hnew, (fresh_under p).2 hfresh⟩, hreach⟩
  | @branch c v hc hP ih =>
    have hslots : ∀ (l : List (Fin n)) (visited : List μ),
        entriesOf (walkChildren mark reached c l visited).1 =
          l.flatMap (fun s => under [s] (c s).entries) →
        Fresh mark visited (l.flatMap fun s => under [s] (c s).places) ∧
          ∀ s ∈ l, (c s ≠ nil → reached (c s)) ∧ (c s).Reaching reached := by
      intro l
      induction l with
      | nil => exact fun _ _ => ⟨⟨List.nodup_nil, nofun⟩, nofun⟩
      | cons s l ihl =>
        intro visited hall
        rw [walkChildren, walkSlots, List.flatMap_cons] at hall
        simp only [entriesOf_append, entriesOf_under] at hall
        -- a slot lists a part of its entries, so together they list all only if each does
        have hhere : (entriesOf (if reached (c s) then (c s).walk mark reached visited
            else ([], visited)).1).Sublist (c s).entries := by
          split
          · exact entriesOf_walk_sublist (c s) visited
          · exact List.nil_sublist _
        have hbelow : ∀ s visited, ((c s).walk mark reached visited).1.Sublist (c s).places :=
          fun s => walk_sublist (c s)
        have hrest := (walkChildren_sublist hbelow l
          (if reached (c s) then (c s).walk mark reached visited else ([], visited)).2).flatMap
          entryAt
        rw [← entriesOf, ← entriesOf, entriesOf_slots fun s => entriesOf_places (c s)] at hrest
        obtain ⟨hheq, hreq⟩ := sublist_append_inj (hhere.map _) hrest hall
        have hslot : Fresh mark visited (c s).places ∧ (c s ≠ nil → reached (c s)) ∧
            (c s).Reaching reached := by
          by_cases hnil : c s = nil
          · rw [hnil]
            exact ⟨⟨List.nodup_nil, nofun⟩, fun hne => absurd rfl hne, trivial⟩
          · have hlisted := under_injective [s] hheq
            split at hlisted
            · rename_i hreached
              obtain ⟨hfresh, hreach⟩ := ih s hnil hlisted
              exact ⟨hfresh, fun _ => hreached, hreach⟩
            · exact absurd hlisted.symm (entries_ne_nil (hc s hnil))
        obtain ⟨hfresh, hreached, hreach⟩ := hslot
        rw [walk_slot hreached (walk_of_complete hreach hfresh)] at hreq
        obtain ⟨hfresh', hreach'⟩ := ihl _ hreq
        refine ⟨?_, List.forall_mem_cons.2 ⟨⟨hreached, hreach⟩, hreach'⟩⟩
        rw [List.flatMap_cons, fresh_append, fresh_under, map_snd_under]
        exact ⟨hfresh, hfresh'⟩
    rw [walk] at h
    split at h
    · exact absurd h.symm (entries_ne_nil (Packed.branch hc hP))
    · rename_i hnew
      rw [entriesOf_cons, entries] at h
      obtain ⟨hfresh, hreach⟩ := hslots _ _ (List.append_cancel_left h)
      exact ⟨fresh_cons.2 ⟨hnew, hfresh⟩, fun s => hreach s (List.mem_finRange s)⟩

/-- **A walk lists all the entries exactly if it passes over nothing.** -/
theorem entriesOf_walk_iff {t : PathTrie (Fin n) ν} (ht : t = nil ∨ Live t) {visited : List μ} :
    entriesOf (t.walk mark reached visited).1 = t.entries ↔
      Fresh mark visited t.places ∧ t.Reaching reached := by
  constructor
  · intro h
    obtain rfl | hlive := ht
    · exact ⟨⟨List.nodup_nil, nofun⟩, trivial⟩
    · exact complete_of_entriesOf hlive h
  · rintro ⟨hfresh, hreach⟩
    rw [walk_of_complete hreach hfresh]
    exact entriesOf_places t

/-! ### Walks that list leaves only -/

/-- The entry of a leaf. -/
def leafAt : List (Fin n) × PathTrie (Fin n) ν → List (List (Fin n) × ν)
  | (w, leaf p v) => [(w ++ p, v)]
  | _ => []

/-- The entries of the leaves among some places. -/
def leavesOf (l : List (List (Fin n) × PathTrie (Fin n) ν)) : List (List (Fin n) × ν) :=
  l.flatMap leafAt

/-- No branching has an entry of its own. -/
def Valueless (t : PathTrie (Fin n) ν) : Prop :=
  ∀ w c v, (w, branch c v) ∈ t.places → v = none

/-- The value of a branching. -/
def branchValue : PathTrie (Fin n) ν → Option ν
  | branch _ v => v
  | _ => none

theorem valueless_iff_all {t : PathTrie (Fin n) ν} :
    t.Valueless ↔ ∀ e ∈ t.places, e.2.branchValue.isNone := by
  constructor
  · rintro h ⟨w, u⟩ he
    cases u with
    | branch c v => exact Option.isNone_iff_eq_none.2 (h w c v he)
    | _ => rfl
  · exact fun h w c v he => Option.isNone_iff_eq_none.1 (h _ he)

instance (t : PathTrie (Fin n) ν) : Decidable t.Valueless :=
  decidable_of_iff _ valueless_iff_all.symm

theorem leafAt_sublist (e : List (Fin n) × PathTrie (Fin n) ν) :
    (leafAt e).Sublist (entryAt e) := by
  obtain ⟨w, t⟩ := e
  cases t with
  | leaf p v => exact List.Sublist.refl _
  | nil => exact List.nil_sublist _
  | ext p c => exact List.nil_sublist _
  | branch c v => exact List.nil_sublist _

theorem leavesOf_sublist (l : List (List (Fin n) × PathTrie (Fin n) ν)) :
    (leavesOf l).Sublist (entriesOf l) :=
  List.Sublist.flatMap_right l fun e _ => leafAt_sublist e

theorem leavesOf_cons (e : List (Fin n) × PathTrie (Fin n) ν)
    (l : List (List (Fin n) × PathTrie (Fin n) ν)) :
    leavesOf (e :: l) = leafAt e ++ leavesOf l := List.flatMap_cons

/-- The leaves of some places are all their entries exactly if no branching among them has one. -/
theorem leavesOf_eq_iff {l : List (List (Fin n) × PathTrie (Fin n) ν)} :
    leavesOf l = entriesOf l ↔ ∀ w c v, (w, branch c v) ∈ l → v = none := by
  constructor
  · intro h
    induction l with
    | nil => nofun
    | cons e l ih =>
      rw [leavesOf_cons, entriesOf_cons] at h
      obtain ⟨he, hl⟩ := sublist_append_inj (leafAt_sublist e) (leavesOf_sublist l) h
      intro w c v hmem
      obtain rfl | hmem := List.mem_cons.1 hmem
      · cases v with
        | none => rfl
        | some v => cases he
      · exact ih hl w c v hmem
  · intro h
    induction l with
    | nil => rfl
    | cons e l ih =>
      have he : leafAt e = entryAt e := by
        obtain ⟨w, t⟩ := e
        cases t with
        | nil => rfl
        | leaf p v => rfl
        | ext p c => rfl
        | branch c v =>
          rw [h w c v List.mem_cons_self]
          rfl
      rw [leavesOf_cons, he, entriesOf_cons]
      exact congrArg _ (ih fun w c v hmem => h w c v (List.mem_cons_of_mem e hmem))

/-- **A walk lists all the entries by leaves exactly if** it passes over nothing and no branching
has an entry. -/
theorem leavesOf_walk_iff {t : PathTrie (Fin n) ν} (ht : t = nil ∨ Live t) {visited : List μ} :
    leavesOf (t.walk mark reached visited).1 = t.entries ↔
      (Fresh mark visited t.places ∧ t.Reaching reached) ∧ t.Valueless := by
  constructor
  · intro h
    have hsub := leavesOf_sublist (t.walk mark reached visited).1
    have hsub' : (entriesOf (t.walk mark reached visited).1).Sublist t.entries :=
      entriesOf_walk_sublist t visited
    have hentries : entriesOf (t.walk mark reached visited).1 = t.entries := by
      refine hsub'.eq_of_length (le_antisymm hsub'.length_le ?_)
      rw [← h]
      exact hsub.length_le
    have hcomplete := (entriesOf_walk_iff ht).1 hentries
    refine ⟨hcomplete, ?_⟩
    rw [walk_of_complete hcomplete.2 hcomplete.1, ← entriesOf_places] at h
    exact leavesOf_eq_iff.1 h
  · rintro ⟨⟨hfresh, hreach⟩, hvalueless⟩
    rw [walk_of_complete hreach hfresh, ← entriesOf_places]
    exact leavesOf_eq_iff.2 hvalueless

end Walk

end PathTrie

end Tvmjs
