import Mathlib.Data.List.Basic

/-!
# Nested brackets

A log in which frames are opened and closed is well nested when it is the log of a forest.

* `Bracket` -- the entries of a log: an opening, a closing, or a single entry between them;
* `Nested` -- a forest of frames and single entries, in the order of the log;
* `Nested.events` -- its log;
* `Nested.At` -- every frame satisfies a condition on its depth, every single entry one of its own;
* `Nested.Extends` -- a log goes on with a forest: reflexive, transitive, and **closed under
  frames**;
* `Nested.preorder` -- the entries of a forest in the order they are opened, each with the numbers
  of the frames around it, the innermost first;
* `Nested.preorder_opening` -- these are the openings of the log;
* `Nested.preorder_linked` -- **the innermost of these frames comes before**, and has the others.
-/

namespace Tvmjs

universe u v w

/-- An entry of a log. -/
inductive Bracket (ι : Type u) (ρ : Type v) (σ : Type w) where
  | opened (i : ι)
  | closed (r : ρ)
  | single (s : σ)

/-- A forest of frames and single entries. -/
inductive Nested (ι : Type u) (ρ : Type v) (σ : Type w) where
  | nil
  | single (s : σ) (rest : Nested ι ρ σ)
  | frame (i : ι) (inner : Nested ι ρ σ) (r : ρ) (rest : Nested ι ρ σ)

namespace Nested

variable {ι : Type u} {ρ : Type v} {σ : Type w}

/-- The log of a forest. -/
def events : Nested ι ρ σ → List (Bracket ι ρ σ)
  | nil => []
  | single s rest => .single s :: rest.events
  | frame i inner r rest => .opened i :: (inner.events ++ .closed r :: rest.events)

/-- One forest after the other. -/
def append : Nested ι ρ σ → Nested ι ρ σ → Nested ι ρ σ
  | nil, t => t
  | single s rest, t => single s (rest.append t)
  | frame i inner r rest, t => frame i inner r (rest.append t)

theorem events_append (t t' : Nested ι ρ σ) : (t.append t').events = t.events ++ t'.events := by
  induction t with
  | nil => rfl
  | single s rest ih => rw [append, events, events, ih, List.cons_append]
  | frame i inner r rest _ ih =>
    rw [append, events, events, ih, List.cons_append, List.append_assoc, List.cons_append]

/-- The frames of a forest at depth `d` satisfy `p`, which also sees how deep they are; its single
entries satisfy `q`. -/
def At (p : ℕ → ι → Prop) (q : σ → Prop) : ℕ → Nested ι ρ σ → Prop
  | _, nil => True
  | d, single s rest => q s ∧ rest.At p q d
  | d, frame i inner _ rest => p d i ∧ inner.At p q (d + 1) ∧ rest.At p q d

variable {p : ℕ → ι → Prop} {q : σ → Prop} {d : ℕ}

theorem At.append {t t' : Nested ι ρ σ} (h : t.At p q d) (h' : t'.At p q d) :
    (t.append t').At p q d := by
  induction t with
  | nil => exact h'
  | single s rest ih =>
    obtain ⟨hs, hrest⟩ := h
    exact ⟨hs, ih hrest⟩
  | frame i inner r rest _ ih =>
    obtain ⟨hi, hinner, hrest⟩ := h
    exact ⟨hi, hinner, ih hrest⟩

/-- What is opened in the log of a forest satisfies the condition on its depth. -/
theorem At.of_mem {t : Nested ι ρ σ} (h : t.At p q d) {i : ι} (hi : .opened i ∈ t.events) :
    ∃ k, p (d + k) i := by
  induction t generalizing d with
  | nil => cases hi
  | single s rest ih =>
    obtain ⟨-, hrest⟩ := h
    rcases List.mem_cons.1 hi with hi | hi
    · cases hi
    · exact ih hrest hi
  | frame i' inner r rest hinner hrest =>
    obtain ⟨hp, hin, hout⟩ := h
    rcases List.mem_cons.1 hi with hi | hi
    · cases hi
      exact ⟨0, hp⟩
    · rcases List.mem_append.1 hi with hi | hi
      · obtain ⟨k, hk⟩ := hinner hin hi
        exact ⟨k + 1, by rwa [Nat.add_right_comm, Nat.add_assoc] at hk⟩
      · rcases List.mem_cons.1 hi with hi | hi
        · cases hi
        · exact hrest hout hi

/-- The log `l` goes on to `l'` with a forest at depth `d`. -/
def Extends (p : ℕ → ι → Prop) (q : σ → Prop) (d : ℕ) (l l' : List (Bracket ι ρ σ)) : Prop :=
  ∃ t : Nested ι ρ σ, t.At p q d ∧ l' = l ++ t.events

theorem Extends.refl (l : List (Bracket ι ρ σ)) : Extends p q d l l :=
  ⟨nil, trivial, (List.append_nil l).symm⟩

theorem Extends.trans {l l' l'' : List (Bracket ι ρ σ)} (h : Extends p q d l l')
    (h' : Extends p q d l' l'') : Extends p q d l l'' := by
  obtain ⟨t, ht, rfl⟩ := h
  obtain ⟨t', ht', rfl⟩ := h'
  refine ⟨t.append t', ht.append ht', ?_⟩
  rw [events_append, List.append_assoc]

theorem Extends.single (l : List (Bracket ι ρ σ)) {s : σ} (hs : q s) :
    Extends p q d l (l ++ [.single s]) := ⟨Nested.single s nil, ⟨hs, trivial⟩, rfl⟩

/-- What happens between an opening and its closing happens one level deeper. -/
theorem Extends.frame {l l' : List (Bracket ι ρ σ)} {i : ι} (hi : p d i)
    (h : Extends p q (d + 1) (l ++ [.opened i]) l') (r : ρ) :
    Extends p q d l (l' ++ [.closed r]) := by
  obtain ⟨t, ht, rfl⟩ := h
  refine ⟨Nested.frame i t r nil, ⟨hi, ht, trivial⟩, ?_⟩
  rw [events, events, List.append_assoc, List.append_assoc]
  rfl

/-! ### The order of opening -/

/-- What is numbered: a frame, with its result, or a single entry. -/
inductive Entry (ι : Type u) (ρ : Type v) (σ : Type w) where
  | frame (i : ι) (r : ρ)
  | single (s : σ)

/-- The entry of the log which opens it. -/
def Entry.opening : Entry ι ρ σ → Bracket ι ρ σ
  | .frame i _ => .opened i
  | .single s => .single s

/-- Whether an entry of the log opens something that is numbered. -/
def opens (keep : σ → Bool) : Bracket ι ρ σ → Bool
  | .opened _ => true
  | .closed _ => false
  | .single s => keep s

/-- The frames of a forest and the single entries it keeps, in the order they are opened, where
`first` came before them; each with the numbers of the frames around it, the innermost first. -/
def preorder (keep : σ → Bool) : ℕ → List ℕ → Nested ι ρ σ → List (Entry ι ρ σ × List ℕ)
  | _, _, nil => []
  | first, around, single s rest =>
    if keep s then (.single s, around) :: rest.preorder keep (first + 1) around
    else rest.preorder keep first around
  | first, around, frame i inner r rest =>
    let below := inner.preorder keep (first + 1) (first :: around)
    (.frame i r, around) :: (below ++ rest.preorder keep (first + 1 + below.length) around)

variable {keep : σ → Bool} {around : List ℕ}

/-- **What is numbered** are the openings of the log. -/
theorem preorder_opening (t : Nested ι ρ σ) (first : ℕ) :
    (t.preorder keep first around).map (fun e => e.1.opening) = t.events.filter (opens keep) := by
  induction t generalizing first around with
  | nil => rfl
  | single s rest ih =>
    rw [preorder, events]
    have hopens : opens keep (.single s : Bracket ι ρ σ) = keep s := rfl
    by_cases hs : keep s = true
    · rw [if_pos hs, List.map_cons, ih, List.filter_cons_of_pos (hopens.trans hs)]
      rfl
    · rw [if_neg hs, ih, List.filter_cons_of_neg (by rwa [hopens])]
  | frame i inner r rest hinner hrest =>
    have hopened : opens keep (.opened i : Bracket ι ρ σ) = true := rfl
    have hclosed : ¬opens keep (.closed r : Bracket ι ρ σ) = true := Bool.false_ne_true
    rw [preorder, events, List.map_cons, List.map_append, hinner, hrest,
      List.filter_cons_of_pos hopened, List.filter_append, List.filter_cons_of_neg hclosed]
    rfl

/-- The innermost frame around an entry comes before it, within the other frames. -/
def IsLinked (l : List (Entry ι ρ σ × List ℕ)) : Prop :=
  ∀ (n : ℕ) (e : Entry ι ρ σ) (j : ℕ) (around : List ℕ), l[n]? = some (e, j :: around) →
    j < n ∧ ∃ i r, l[j]? = some (Entry.frame i r, around)

/-- The frames around what comes next have been numbered. -/
def IsOpen (l : List (Entry ι ρ σ × List ℕ)) (around : List ℕ) : Prop :=
  ∀ (j : ℕ) (outer : List ℕ), around = j :: outer → ∃ i r, l[j]? = some (Entry.frame i r, outer)

variable {l : List (Entry ι ρ σ × List ℕ)}

theorem IsOpen.append (h : IsOpen l around) (l' : List (Entry ι ρ σ × List ℕ)) :
    IsOpen (l ++ l') around := by
  rintro j outer rfl
  obtain ⟨i, r, hj⟩ := h j outer rfl
  obtain ⟨hlt, -⟩ := List.getElem?_eq_some_iff.1 hj
  exact ⟨i, r, (List.getElem?_append_left hlt).trans hj⟩

/-- A frame is around what comes next. -/
theorem isOpen_push (l : List (Entry ι ρ σ × List ℕ)) (around : List ℕ) (i : ι) (r : ρ) :
    IsOpen (l ++ [(.frame i r, around)]) (l.length :: around) := by
  intro j outer h
  obtain ⟨rfl, rfl⟩ := List.cons.inj h
  exact ⟨i, r, List.getElem?_concat_length⟩

theorem IsLinked.concat (h : IsLinked l) (hopen : IsOpen l around) (e : Entry ι ρ σ) :
    IsLinked (l ++ [(e, around)]) := by
  intro n e' j outer hn
  have hstays : ∀ {j outer}, (∃ i r, l[j]? = some (Entry.frame i r, outer)) → j < l.length ∧
      ∃ i r, (l ++ [(e, around)])[j]? = some (Entry.frame i r, outer) := by
    rintro j outer ⟨i, r, hj⟩
    obtain ⟨hlt, -⟩ := List.getElem?_eq_some_iff.1 hj
    exact ⟨hlt, i, r, (List.getElem?_append_left hlt).trans hj⟩
  rcases Nat.lt_trichotomy n l.length with hlt | rfl | hgt
  · rw [List.getElem?_append_left hlt] at hn
    obtain ⟨hj, hframe⟩ := h n e' j outer hn
    exact ⟨hj, (hstays hframe).2⟩
  · rw [List.getElem?_concat_length, Option.some.injEq, Prod.mk.injEq] at hn
    exact hstays (hopen j outer hn.2)
  · rw [List.getElem?_eq_none (by rw [List.length_append, List.length_singleton]; omega)] at hn
    cases hn

/-- **The entries of a forest are linked**, after what is. -/
theorem preorder_linked (t : Nested ι ρ σ) (h : IsLinked l) (hopen : IsOpen l around) :
    IsLinked (l ++ t.preorder keep l.length around) := by
  induction t generalizing l around with
  | nil => rwa [preorder, List.append_nil]
  | single s rest ih =>
    rw [preorder]
    split
    · have hrest := ih (h.concat hopen (.single s)) (hopen.append _)
      rwa [List.length_append, List.append_assoc] at hrest
    · exact ih h hopen
  | frame i inner r rest hinner hrest =>
    -- the frame is around what is opened within it, and no longer around what follows
    have hbelow := hinner (h.concat hopen (.frame i r)) (isOpen_push l around i r)
    have hafter := hrest hbelow ((hopen.append _).append _)
    simp only [List.length_append, List.length_singleton, List.append_assoc] at hafter
    rwa [← Nat.add_assoc] at hafter

end Nested

end Tvmjs
