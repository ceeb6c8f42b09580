import Mathlib.Data.List.Sort
import Tvmjs.Base.InsertionMap

/-!
# Maps read in the order of their keys

What is read off a map in the order of its keys does not depend on the order in which the keys were
inserted, if the order tells the keys of the map apart.

* `InsertionMap.lexLe` -- the lexicographic order;
* `InsertionMap.sortedBy` -- the entries in the order of the keys;
* `InsertionMap.ofEntries` -- a map written entry by entry;
* `InsertionMap.filterMap_sortedBy_congr` -- **what two maps with the same lookups list is the
  same**.
-/

namespace Tvmjs

namespace InsertionMap

variable {κ α β : Type*}

/-- A relation that sorts keys. -/
structure Sorts (r : κ → κ → Prop) (S : Set κ) : Prop where
  total : ∀ a b, r a b ∨ r b a
  trans : ∀ a b c, r a b → r b c → r a c
  antisymm : ∀ a ∈ S, ∀ b ∈ S, r a b → r b a → a = b

theorem sorts_le [LinearOrder κ] (S : Set κ) : Sorts (· ≤ ·) S :=
  ⟨le_total, fun _ _ _ => le_trans, fun _ _ _ _ => le_antisymm⟩

theorem Sorts.mono {r : κ → κ → Prop} {S T : Set κ} (h : Sorts r T) (hST : S ⊆ T) : Sorts r S :=
  ⟨h.total, h.trans, fun a ha b hb => h.antisymm a (hST ha) b (hST hb)⟩

/-! ### The lexicographic order -/

/-- Lists in lexicographic order, the items in the order of their keys. -/
def lexLe (key : β → ℕ) : List β → List β → Bool
  | [], _ => true
  | _ :: _, [] => false
  | a :: as, b :: bs => key a < key b || (key a = key b && lexLe key as bs)

theorem lexLe_cons_iff {key : β → ℕ} {a b : β} {as bs : List β} :
    lexLe key (a :: as) (b :: bs) = true ↔
      key a < key b ∨ key a = key b ∧ lexLe key as bs = true := by
  rw [lexLe, Bool.or_eq_true, Bool.and_eq_true, decide_eq_true_eq, decide_eq_true_eq]

theorem lexLe_total (key : β → ℕ) (as bs : List β) :
    lexLe key as bs = true ∨ lexLe key bs as = true := by
  induction as generalizing bs with
  | nil => exact Or.inl rfl
  | cons a as ih =>
    rcases bs with _ | ⟨b, bs⟩
    · exact Or.inr rfl
    · rw [lexLe_cons_iff, lexLe_cons_iff]
      obtain hlt | heq | hgt := lt_trichotomy (key a) (key b)
      · exact Or.inl (Or.inl hlt)
      · exact (ih bs).imp (fun h => Or.inr ⟨heq, h⟩) fun h => Or.inr ⟨heq.symm, h⟩
      · exact Or.inr (Or.inl hgt)

theorem lexLe_trans (key : β → ℕ) {as bs cs : List β} (hab : lexLe key as bs = true)
    (hbc : lexLe key bs cs = true) : lexLe key as cs = true := by
  induction as generalizing bs cs with
  | nil => rfl
  | cons a as ih =>
    rcases bs with _ | ⟨b, bs⟩
    · cases hab
    · rcases cs with _ | ⟨c, cs⟩
      · cases hbc
      · rw [lexLe_cons_iff] at hab hbc ⊢
        obtain hab | ⟨hab, has⟩ := hab
        · exact Or.inl (hbc.elim (fun h => hab.trans h) fun h => h.1 ▸ hab)
        · obtain hbc | ⟨hbc, hbs⟩ := hbc
          · exact Or.inl (hab ▸ hbc)
          · exact Or.inr ⟨hab.trans hbc, ih has hbs⟩

theorem lexLe_antisymm {key : β → ℕ} (hkey : Function.Injective key) {as bs : List β}
    (hab : lexLe key as bs = true) (hba : lexLe key bs as = true) : as = bs := by
  induction as generalizing bs with
  | nil =>
    rcases bs with _ | ⟨b, bs⟩
    · rfl
    · cases hba
  | cons a as ih =>
    rcases bs with _ | ⟨b, bs⟩
    · cases hab
    · rw [lexLe_cons_iff] at hab hba
      obtain hab | ⟨heq, has⟩ := hab
      · obtain hba | ⟨heq, -⟩ := hba
        · exact absurd hba (lt_asymm hab)
        · exact absurd heq (ne_of_gt hab)
      · obtain hba | ⟨-, hbs⟩ := hba
        · exact absurd heq (ne_of_gt hba)
        · rw [hkey heq, ih has hbs]

theorem sorts_lexLe {key : β → ℕ} (hkey : Function.Injective key) (S : Set (List β)) :
    Sorts (fun as bs => lexLe key as bs = true) S :=
  ⟨lexLe_total key, fun _ _ _ => lexLe_trans key, fun _ _ _ _ => lexLe_antisymm hkey⟩

variable (r : κ → κ → Prop) [DecidableRel r]

/-- Every value changed in its place. -/
def mapValues (f : α → β) (m : InsertionMap κ α) : InsertionMap κ β where
  entries := m.entries.map fun e => (e.1, f e.2)
  nodup := by
    rw [List.map_map]
    exact m.nodup

/-- The entries in the order of their keys. -/
def sortedBy (m : InsertionMap κ α) : List (κ × α) := m.entries.insertionSort fun a b => r a.1 b.1

theorem perm_sortedBy (m : InsertionMap κ α) : (m.sortedBy r).Perm m.entries :=
  List.perm_insertionSort _ _

theorem nodup_sortedBy (m : InsertionMap κ α) : ((m.sortedBy r).map Prod.fst).Nodup :=
  ((m.perm_sortedBy r).map Prod.fst).nodup_iff.2 m.nodup

section Sorts

variable {r} {S : Set κ} (h : Sorts r S)

include h

/-- What is sorted by a key is in its order. -/
theorem Sorts.pairwise (key : β → κ) (l : List β) :
    (l.insertionSort fun a b => r (key a) (key b)).Pairwise fun a b => r (key a) (key b) := by
  have : Std.Total fun a b => r (key a) (key b) := ⟨fun a b => h.total (key a) (key b)⟩
  have : IsTrans β fun a b => r (key a) (key b) := ⟨fun a b c => h.trans (key a) (key b) (key c)⟩
  exact List.pairwise_insertionSort _ _

/-- What is in order already stays as it is. -/
theorem Sorts.insertionSort_idem (key : β → κ) (l : List β) :
    (l.insertionSort fun a b => r (key a) (key b)).insertionSort (fun a b => r (key a) (key b)) =
      l.insertionSort fun a b => r (key a) (key b) :=
  (h.pairwise key l).insertionSort_eq

/-- **Two orders of the same items sort alike**, if each item has a key of its own. -/
theorem Sorts.insertionSort_congr (key : β → κ) {l l' : List β} (hperm : l.Perm l')
    (hkeys : (l.map key).Nodup) (hS : ∀ b ∈ l, key b ∈ S) :
    l.insertionSort (fun a b => r (key a) (key b)) =
      l'.insertionSort fun a b => r (key a) (key b) := by
  refine List.Perm.eq_of_pairwise ?_ (h.pairwise key l) (h.pairwise key l')
    ((List.perm_insertionSort _ _).trans (hperm.trans (List.perm_insertionSort _ _).symm))
  intro a b ha hb hab hba
  have ha : a ∈ l := (List.mem_insertionSort _).1 ha
  have hb : b ∈ l := hperm.mem_iff.2 ((List.mem_insertionSort _).1 hb)
  exact List.inj_on_of_nodup_map hkeys ha hb (h.antisymm _ (hS a ha) _ (hS b hb) hab hba)

end Sorts

variable [DecidableEq κ]

theorem get_mapValues (f : α → β) (m : InsertionMap κ α) (k : κ) :
    (m.mapValues f).get k = (m.get k).map f := by
  rw [get, get, mapValues, List.find?_map, Option.map_map, Option.map_map]
  rfl

theorem mem_sortedBy {m : InsertionMap κ α} {e : κ × α} :
    e ∈ m.sortedBy r ↔ m.get e.1 = some e.2 := by
  rw [(m.perm_sortedBy r).mem_iff]
  refine ⟨get_of_mem, fun h => ?_⟩
  obtain ⟨e', he', hfst⟩ := List.mem_map.1 (mem_keys_of_get h)
  have hget := get_of_mem he'
  rw [hfst, h] at hget
  have hsnd : e.2 = e'.2 := Option.some.inj hget
  rwa [show e = e' from Prod.ext hfst.symm hsnd]

theorem isEmpty_entries_congr {m m' : InsertionMap κ α}
    (h : ∀ k, (m.get k).isSome = (m'.get k).isSome) :
    m.entries.isEmpty = m'.entries.isEmpty := by
  have hnil : ∀ m : InsertionMap κ α, m.entries.isEmpty = true ↔ ∀ k, (m.get k).isSome = false := by
    intro m
    rw [List.isEmpty_iff]
    constructor
    · intro hnil k
      rw [get, hnil]
      rfl
    · intro hnone
      refine List.eq_nil_iff_forall_not_mem.2 fun e he => ?_
      have hfalse := hnone e.1
      rw [get_of_mem he] at hfalse
      cases hfalse
  refine Bool.eq_iff_iff.2 ?_
  rw [hnil, hnil]
  exact forall_congr' fun k => by rw [h k]

variable {r}

/-- **A map is read alike in whatever order it was written**, also where some entries are left
out. -/
theorem filterMap_sortedBy_congr {m m' : InsertionMap κ α} (h : Sorts r {k | k ∈ m.keys})
    (f : κ → α → Option β) (hget : ∀ k, (m.get k).bind (f k) = (m'.get k).bind (f k)) :
    (m.sortedBy r).filterMap (fun e => (f e.1 e.2).map (Prod.mk e.1)) =
      (m'.sortedBy r).filterMap fun e => (f e.1 e.2).map (Prod.mk e.1) := by
  have hmem : ∀ (m : InsertionMap κ α) (p : κ × β),
      p ∈ (m.sortedBy r).filterMap (fun e => (f e.1 e.2).map (Prod.mk e.1)) ↔
        (m.get p.1).bind (f p.1) = some p.2 := by
    intro m p
    rw [List.mem_filterMap, Option.bind_eq_some_iff]
    constructor
    · rintro ⟨e, he, hp⟩
      obtain ⟨v, hv, rfl⟩ := Option.map_eq_some_iff.1 hp
      exact ⟨e.2, (mem_sortedBy r).1 he, hv⟩
    · rintro ⟨v, hv, hp⟩
      exact ⟨(p.1, v), (mem_sortedBy r).2 hv, Option.map_eq_some_iff.2 ⟨p.2, hp, rfl⟩⟩
  have hlisted : ∀ e : κ × α, ∀ p ∈ (f e.1 e.2).map (Prod.mk e.1), p.1 = e.1 := by
    intro e p hp
    obtain ⟨v, -, rfl⟩ := Option.map_eq_some_iff.1 hp
    rfl
  have hkeys : ∀ m : InsertionMap κ α, ((m.sortedBy r).filterMap fun e =>
      (f e.1 e.2).map (Prod.mk e.1)).Pairwise fun a b => a.1 ≠ b.1 := by
    intro m
    refine (List.pairwise_map.1 (m.nodup_sortedBy r)).filterMap _ fun e e' hne p hp p' hp' => ?_
    rw [hlisted e p hp, hlisted e' p' hp']
    exact hne
  have hsorted : ∀ m : InsertionMap κ α, ((m.sortedBy r).filterMap fun e =>
      (f e.1 e.2).map (Prod.mk e.1)).Pairwise fun a b => r a.1 b.1 := by
    intro m
    refine (h.pairwise Prod.fst m.entries).filterMap _ fun e e' hle p hp p' hp' => ?_
    rw [hlisted e p hp, hlisted e' p' hp']
    exact hle
  have hnodup : ∀ m : InsertionMap κ α,
      ((m.sortedBy r).filterMap fun e => (f e.1 e.2).map (Prod.mk e.1)).Nodup :=
    fun m => (hkeys m).imp fun hne heq => hne (congrArg Prod.fst heq)
  refine List.Perm.eq_of_pairwise ?_ (hsorted m) (hsorted m') ?_
  · intro a b ha hb hab hba
    have hkey : ∀ p, p ∈ (m.sortedBy r).filterMap (fun e => (f e.1 e.2).map (Prod.mk e.1)) →
        p.1 ∈ m.keys := by
      intro p hp
      obtain ⟨v, hv, -⟩ := Option.bind_eq_some_iff.1 ((hmem m p).1 hp)
      exact mem_keys_of_get hv
    have hb' : b ∈ (m.sortedBy r).filterMap fun e => (f e.1 e.2).map (Prod.mk e.1) := by
      rw [hmem, hget, ← hmem]
      exact hb
    exact List.inj_on_of_nodup_map (List.pairwise_map.2 (hkeys m)) ha hb'
      (h.antisymm _ (hkey a ha) _ (hkey b hb') hab hba)
  · refine (List.perm_ext_iff_of_nodup (hnodup m) (hnodup m')).2 fun p => ?_
    rw [hmem, hmem, hget]

theorem map_sortedBy_congr {γ : Type*} {m m' : InsertionMap κ α} (h : Sorts r {k | k ∈ m.keys})
    (f : κ → α → β) (g : κ × β → γ) (hget : ∀ k, (m.get k).map (f k) = (m'.get k).map (f k)) :
    (m.sortedBy r).map (fun e => g (e.1, f e.1 e.2)) =
      (m'.sortedBy r).map fun e => g (e.1, f e.1 e.2) := by
  have hbind : ∀ k, (m.get k).bind (fun v => some (f k v)) =
      (m'.get k).bind fun v => some (f k v) := by
    intro k
    have hk := hget k
    rw [Option.map_eq_bind, Option.map_eq_bind] at hk
    exact hk
  have hall := filterMap_sortedBy_congr h (fun k v => some (f k v)) hbind
  have hmap : ∀ m : InsertionMap κ α, (m.sortedBy r).map (fun e => g (e.1, f e.1 e.2)) =
      ((m.sortedBy r).filterMap fun e => (some (f e.1 e.2)).map (Prod.mk e.1)).map g := by
    intro m
    rw [List.map_filterMap]
    exact (congrFun List.filterMap_eq_map _).symm
  rw [hmap, hmap, hall]

/-! ### Writing entry by entry -/

/-- The entries written one after the other. -/
def ofEntries (l : List (κ × α)) : InsertionMap κ α := l.foldl (fun m e => m.set e.1 e.2) empty

theorem entries_foldl_set (l : List (κ × α)) (m : InsertionMap κ α)
    (h : (m.entries ++ l).Pairwise fun a b => a.1 ≠ b.1) :
    (l.foldl (fun m e => m.set e.1 e.2) m).entries = m.entries ++ l := by
  induction l generalizing m with
  | nil => exact (List.append_nil _).symm
  | cons e l ih =>
    have hnew : e.1 ∉ m.keys := by
      intro hmem
      obtain ⟨e', he', heq⟩ := List.mem_map.1 hmem
      exact (List.pairwise_append.1 h).2.2 e' he' e List.mem_cons_self heq
    have hset : (m.set e.1 e.2).entries = m.entries ++ [e] := entries_set_of_not_mem e.2 hnew
    rw [List.foldl_cons, ih, hset, List.append_assoc]
    · rfl
    · rw [hset, List.append_assoc]
      exact h

/-- Entries with keys of their own are kept as they are. -/
theorem entries_ofEntries {l : List (κ × α)} (h : (l.map Prod.fst).Nodup) :
    (ofEntries l).entries = l :=
  entries_foldl_set l empty (List.pairwise_map.1 h)

theorem get_ofEntries {l : List (κ × α)} (h : (l.map Prod.fst).Nodup) {k : κ} {v : α} :
    (ofEntries l).get k = some v ↔ (k, v) ∈ l := by
  rw [← entries_ofEntries h, ← ((ofEntries l).perm_sortedBy (fun _ _ => True)).mem_iff,
    mem_sortedBy, entries_ofEntries h]

/-- A map that is read in order and written again, entry by entry. -/
theorem get_ofEntries_sortedBy (m : InsertionMap κ α) (f : κ → α → β) (k : κ) :
    (ofEntries ((m.sortedBy r).map fun e => (e.1, f e.1 e.2))).get k = (m.get k).map (f k) := by
  have hnodup : (((m.sortedBy r).map fun e => (e.1, f e.1 e.2)).map Prod.fst).Nodup := by
    rw [List.map_map]
    exact m.nodup_sortedBy r
  refine Option.ext fun v => ?_
  rw [get_ofEntries hnodup, List.mem_map, Option.map_eq_some_iff]
  constructor
  · rintro ⟨e, he, heq⟩
    obtain ⟨rfl, rfl⟩ := Prod.mk.inj heq
    exact ⟨e.2, (mem_sortedBy r).1 he, rfl⟩
  · rintro ⟨v', hv', rfl⟩
    exact ⟨(k, v'), (mem_sortedBy r).2 hv', rfl⟩

end InsertionMap

end Tvmjs
