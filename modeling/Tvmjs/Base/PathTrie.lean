import Mathlib.Data.List.Infix
import Mathlib.Logic.Function.Basic

/-!
# Path-compressed tries

A trie over an alphabet `σ` whose unbranching paths are single nodes, as a finite map from words
to values.

* `PathTrie.get_insert` -- insertion is the update of the map at one word;
* `PathTrie.Frame`, `PathTrie.plug` -- the contexts of a subtrie; `PathTrie.find` descends to the
  node where the walk along a word ends, and `PathTrie.plug_find` puts the trie together again;
* `PathTrie.get_graft` -- plugging which merges consecutive paths changes no lookup.
-/

namespace Tvmjs

universe u v

/-- A trie: empty, one entry, a path to a trie, or a branching with an entry of its own. -/
inductive PathTrie (σ : Type u) (ν : Type v) where
  | nil
  | leaf (path : List σ) (v : ν)
  | ext (path : List σ) (child : PathTrie σ ν)
  | branch (child : σ → PathTrie σ ν) (v : Option ν)

namespace PathTrie

variable {σ : Type u} {ν : Type v}

/-- Whether the trie is the empty one. -/
def isNil : PathTrie σ ν → Bool
  | nil => true
  | _ => false

@[simp] theorem isNil_iff {t : PathTrie σ ν} : t.isNil = true ↔ t = nil := by
  cases t <;> simp [isNil]

@[simp] theorem isNil_eq_false_iff {t : PathTrie σ ν} : t.isNil = false ↔ t ≠ nil := by
  cases t <;> simp [isNil]

/-- The trie moved down by a path. -/
def extend [DecidableEq σ] (p : List σ) : PathTrie σ ν → PathTrie σ ν
  | nil => nil
  | leaf q v => leaf (p ++ q) v
  | ext q c => ext (p ++ q) c
  | branch c v => if p = [] then branch c v else ext p (branch c v)

variable [DecidableEq σ]

/-- The value at a word. -/
def get : PathTrie σ ν → List σ → Option ν
  | nil, _ => none
  | leaf p v, k => if k = p then some v else none
  | ext p c, k => if p <+: k then c.get (k.drop p.length) else none
  | branch _ v, [] => v
  | branch c _, s :: k => (c s).get k

/-- The trie with `t` below `p` and a value at `r`, for words that part. -/
def fork (t : PathTrie σ ν) : List σ → List σ → ν → PathTrie σ ν
  | a :: p, b :: r, v =>
    if a = b then extend [a] (fork t p r v)
    else branch (Function.update (Function.update (fun _ => nil) a (extend p t)) b (leaf r v)) none
  | a :: p, [], v => branch (Function.update (fun _ => nil) a (extend p t)) (some v)
  | [], b :: r, v => branch (Function.update (fun _ => nil) b (leaf r v)) (t.get [])
  | [], [], v => leaf [] v

/-- The trie with a value put at a word. -/
def insert : PathTrie σ ν → List σ → ν → PathTrie σ ν
  | nil, k, v => leaf k v
  | leaf p w, k, v => if k = p then leaf p v else fork (leaf [] w) p k v
  | ext p c, k, v => if p <+: k then ext p (c.insert (k.drop p.length) v) else fork c p k v
  | branch c _, [], v => branch c (some v)
  | branch c w, s :: k, v => branch (Function.update c s ((c s).insert k v)) w

/-! ### Lookups -/

@[simp] theorem get_nil (k : List σ) : (nil : PathTrie σ ν).get k = none := rfl

@[simp] theorem get_leaf (p k : List σ) (v : ν) :
    (leaf p v).get k = if k = p then some v else none := rfl

theorem get_ext (p k : List σ) (c : PathTrie σ ν) :
    (ext p c).get k = if p <+: k then c.get (k.drop p.length) else none := rfl

@[simp] theorem get_ext_append (p k : List σ) (c : PathTrie σ ν) :
    (ext p c).get (p ++ k) = c.get k := by
  rw [get_ext, if_pos (List.prefix_append p k), List.drop_left]

@[simp] theorem get_branch_nil (c : σ → PathTrie σ ν) (v : Option ν) :
    (branch c v).get [] = v := rfl

@[simp] theorem get_branch_cons (c : σ → PathTrie σ ν) (v : Option ν) (s : σ) (k : List σ) :
    (branch c v).get (s :: k) = (c s).get k := rfl

@[simp] theorem get_ext_nil (k : List σ) (c : PathTrie σ ν) : (ext [] c).get k = c.get k :=
  get_ext_append [] k c

@[simp] theorem get_ext_cons_nil (a : σ) (p : List σ) (c : PathTrie σ ν) :
    (ext (a :: p) c).get [] = none := by
  rw [get_ext, if_neg (by simp)]

@[simp] theorem get_ext_cons_cons (a x : σ) (p k : List σ) (c : PathTrie σ ν) :
    (ext (a :: p) c).get (x :: k) = if x = a then (ext p c).get k else none := by
  rw [get_ext, get_ext]
  by_cases hx : x = a
  · subst hx
    simp only [List.prefix_cons_inj, List.length_cons, List.drop_succ_cons, if_true]
  · rw [if_neg fun hp => hx (List.cons_prefix_cons.1 hp).1.symm, if_neg hx]

/-- A path in two parts. -/
theorem get_ext_append_path (p q k : List σ) (c : PathTrie σ ν) :
    (ext (p ++ q) c).get k = (ext p (ext q c)).get k := by
  induction p generalizing k with
  | nil => simp
  | cons a p ih =>
    cases k with
    | nil => simp
    | cons x k => simp [ih]

/-- A leaf reads like an extension over a leaf without a path. -/
theorem get_leaf_eq_ext (p k : List σ) (v : ν) :
    (leaf p v).get k = (ext p (leaf [] v)).get k := by
  rw [get_leaf, get_ext]
  by_cases hp : p <+: k
  · obtain ⟨r, rfl⟩ := hp
    simp
  · rw [if_neg hp, if_neg]
    rintro rfl
    exact hp List.prefix_rfl

/-- Extending a trie reads like an extension above it. -/
@[simp] theorem get_extend (p k : List σ) (t : PathTrie σ ν) :
    (extend p t).get k = (ext p t).get k := by
  cases t with
  | nil => simp [extend, get_ext]
  | leaf q v =>
    rw [extend, get_leaf_eq_ext, get_ext_append_path, get_ext, get_ext p]
    simp only [get_leaf_eq_ext q]
  | ext q c => exact get_ext_append_path p q k c
  | branch c v =>
    rw [extend]
    split
    · rename_i hp
      subst hp
      exact (get_ext_nil k _).symm
    · rfl

@[simp] theorem extend_nil (t : PathTrie σ ν) : extend [] t = t := by
  cases t <;> simp [extend]

/-- Extensions on top of each other join. -/
theorem extend_extend (p q : List σ) (t : PathTrie σ ν) :
    extend p (extend q t) = extend (p ++ q) t := by
  cases t with
  | nil => rfl
  | leaf r v => simp [extend]
  | ext r c => simp [extend]
  | branch c v =>
    by_cases hq : q = []
    · simp [extend, hq]
    · simp [extend, hq]

/-- One child of a branch is replaced. -/
theorem get_update_cons (c : σ → PathTrie σ ν) (w : Option ν) (t : PathTrie σ ν) (s x : σ)
    (k : List σ) : (branch (Function.update c s t) w).get (x :: k) =
      if x = s then t.get k else (c x).get k := by
  rw [get_branch_cons, Function.update_apply]
  split <;> rfl

/-- A fork holds the new value at its word and the old trie below its path. -/
theorem get_fork {t : PathTrie σ ν} {v : ν} : ∀ {p r : List σ},
    (p <+: r → p ≠ r ∧ ∃ w, t = leaf [] w) → ∀ k,
    (fork t p r v).get k = if k = r then some v else (ext p t).get k
  | a :: p, b :: r, h, [] => by
    rw [fork]
    split <;> simp
  | a :: p, b :: r, h, x :: k => by
    rw [fork]
    by_cases hab : a = b
    · subst hab
      have ih := get_fork (t := t) (v := v) (p := p) (r := r) (fun hpr => by
        obtain ⟨hne, hw⟩ := h ((List.prefix_cons_inj a).2 hpr)
        exact ⟨fun heq => hne (heq ▸ rfl), hw⟩) k
      by_cases hx : x = a
      · simp [hx, ih]
      · simp [hx]
    · rw [if_neg hab, get_update_cons, Function.update_apply]
      by_cases hxb : x = b
      · have hba : ¬ b = a := fun h => hab h.symm
        simp [hxb, hba]
      · by_cases hxa : x = a
        · simp [hxa, hab]
        · simp [hxb, hxa]
  | a :: p, [], h, [] => by simp [fork]
  | a :: p, [], h, x :: k => by
    rw [fork, get_update_cons]
    by_cases hxa : x = a
    · simp [hxa]
    · simp [hxa]
  | [], b :: r, h, k => by
    obtain ⟨-, w, rfl⟩ := h List.nil_prefix
    rw [fork]
    cases k with
    | nil => simp
    | cons x k =>
      rw [get_update_cons]
      by_cases hxb : x = b
      · simp [hxb]
      · simp [hxb]
  | [], [], h, k => absurd rfl (h List.nil_prefix).1

/-- **Insertion is the update of the map at one word.** -/
theorem get_insert : ∀ (t : PathTrie σ ν) (k : List σ) (v : ν) (k' : List σ),
    (t.insert k v).get k' = if k' = k then some v else t.get k'
  | nil, _, _, _ => rfl
  | leaf p w, k, v, k' => by
    rw [insert]
    by_cases hk : k = p
    · subst hk
      rw [if_pos rfl, get_leaf, get_leaf]
      split <;> rfl
    · rw [if_neg hk, get_fork fun _ => ⟨fun h => hk h.symm, w, rfl⟩, get_leaf_eq_ext]
  | ext p c, k, v, k' => by
    rw [insert]
    by_cases hp : p <+: k
    · obtain ⟨r, rfl⟩ := hp
      rw [if_pos (List.prefix_append p r), List.drop_left, get_ext, get_ext, get_insert c r v]
      by_cases hp' : p <+: k'
      · obtain ⟨r', rfl⟩ := hp'
        simp
      · have hne : k' ≠ p ++ r := by
          rintro rfl
          exact hp' (List.prefix_append p r)
        rw [if_neg hp', if_neg hp', if_neg hne]
    · rw [if_neg hp, get_fork fun h => absurd h hp]
  | branch c w, [], v, k' => by
    rw [insert]
    cases k' with
    | nil => rfl
    | cons x k' => simp
  | branch c w, s :: k, v, k' => by
    rw [insert]
    cases k' with
    | nil => simp
    | cons x k' =>
      rw [get_update_cons, get_branch_cons, get_insert (c s) k v]
      by_cases hx : x = s
      · subst hx
        simp
      · rw [if_neg hx, if_neg (by simp [hx])]

/-! ### Contexts -/

/-- One step of a descent: along a path, or into one slot of a branching. -/
inductive Frame (σ : Type u) (ν : Type v) where
  | ext (path : List σ)
  | branch (child : σ → PathTrie σ ν) (v : Option ν) (s : σ)

namespace Frame

/-- The part of the word a step takes. -/
def path : Frame σ ν → List σ
  | ext p => p
  | branch _ _ s => [s]

/-- The trie one step above `t`. -/
def fill : Frame σ ν → PathTrie σ ν → PathTrie σ ν
  | ext p, t => .ext p t
  | branch c v s, t => .branch (Function.update c s t) v

end Frame

/-- The words of a list of steps, outermost first. -/
def pathOf (fs : List (Frame σ ν)) : List σ := fs.flatMap Frame.path

/-- The trie whose subtrie after the steps is `t`. -/
def plug : List (Frame σ ν) → PathTrie σ ν → PathTrie σ ν
  | [], t => t
  | f :: fs, t => f.fill (plug fs t)

/-- As `plug`, but a path that would lead to an entry or to another path is merged with it. -/
def graft : List (Frame σ ν) → PathTrie σ ν → PathTrie σ ν
  | [], t => t
  | [.ext p], t => extend p t
  | f :: fs, t => f.fill (graft fs t)

omit [DecidableEq σ] in
@[simp] theorem pathOf_nil : pathOf ([] : List (Frame σ ν)) = [] := rfl

omit [DecidableEq σ] in
@[simp] theorem pathOf_cons (f : Frame σ ν) (fs : List (Frame σ ν)) :
    pathOf (f :: fs) = f.path ++ pathOf fs := rfl

omit [DecidableEq σ] in
@[simp] theorem pathOf_append (fs gs : List (Frame σ ν)) :
    pathOf (fs ++ gs) = pathOf fs ++ pathOf gs := List.flatMap_append

@[simp] theorem plug_nil (t : PathTrie σ ν) : plug [] t = t := rfl

@[simp] theorem plug_cons (f : Frame σ ν) (fs : List (Frame σ ν)) (t : PathTrie σ ν) :
    plug (f :: fs) t = f.fill (plug fs t) := rfl

@[simp] theorem plug_append (fs gs : List (Frame σ ν)) (t : PathTrie σ ν) :
    plug (fs ++ gs) t = plug fs (plug gs t) := by
  induction fs with
  | nil => rfl
  | cons f fs ih => simp [ih]

/-- Different tries make different ones in one context. -/
theorem plug_injective {fs : List (Frame σ ν)} {t t' : PathTrie σ ν}
    (h : plug fs t = plug fs t') : t = t' := by
  induction fs with
  | nil => exact h
  | cons f fs ih =>
    refine ih ?_
    cases f with
    | ext p => exact (ext.inj h).2
    | branch c v s =>
      have hs := congrFun (branch.inj h).1 s
      rwa [Function.update_self, Function.update_self] at hs

/-- What a frame is filled with stands below its path. -/
theorem get_fill_append (f : Frame σ ν) (t : PathTrie σ ν) (k : List σ) :
    (f.fill t).get (f.path ++ k) = t.get k := by
  cases f with
  | ext p => exact get_ext_append p k t
  | branch c v s => exact (get_update_cons c v t s s k).trans (if_pos rfl)

/-- Off the path of a frame the filling does not matter. -/
theorem get_fill_of_not_prefix {f : Frame σ ν} {k : List σ} (h : ¬ f.path <+: k)
    (t t' : PathTrie σ ν) : (f.fill t).get k = (f.fill t').get k := by
  cases f with
  | ext p => exact (if_neg h).trans (if_neg h).symm
  | branch c v s =>
    cases k with
    | nil => rfl
    | cons x k =>
      have hx : x ≠ s := by
        rintro rfl
        exact h ⟨k, rfl⟩
      rw [Frame.fill, Frame.fill, get_update_cons, get_update_cons, if_neg hx, if_neg hx]

/-- Below the steps a plugged trie is the one plugged in. -/
@[simp] theorem get_plug_append (fs : List (Frame σ ν)) (t : PathTrie σ ν) (k : List σ) :
    (plug fs t).get (pathOf fs ++ k) = t.get k := by
  induction fs with
  | nil => rfl
  | cons f fs ih => rw [plug_cons, pathOf_cons, List.append_assoc, get_fill_append, ih]

/-- Elsewhere it does not matter which trie is plugged in. -/
theorem get_plug_of_beside {fs : List (Frame σ ν)} {k : List σ} (h : ¬ pathOf fs <+: k)
    (t t' : PathTrie σ ν) : (plug fs t).get k = (plug fs t').get k := by
  induction fs generalizing k with
  | nil => exact absurd List.nil_prefix h
  | cons f fs ih =>
    by_cases hf : f.path <+: k
    · obtain ⟨r, rfl⟩ := hf
      rw [plug_cons, plug_cons, get_fill_append, get_fill_append]
      refine ih fun hr => h ?_
      rw [pathOf_cons]
      exact (List.prefix_append_right_inj _).2 hr
    · exact get_fill_of_not_prefix hf _ _

/-- The lookups of a plugged trie where those of the plugged in one are known. -/
theorem get_plug_congr (fs : List (Frame σ ν)) {t t' : PathTrie σ ν}
    (h : ∀ k, t.get k = t'.get k) (k : List σ) : (plug fs t).get k = (plug fs t').get k := by
  by_cases hp : pathOf fs <+: k
  · obtain ⟨r, rfl⟩ := hp
    rw [get_plug_append, get_plug_append, h]
  · exact get_plug_of_beside hp t t'

/-- Merging paths changes no lookup. -/
theorem get_graft (fs : List (Frame σ ν)) (t : PathTrie σ ν) (k : List σ) :
    (graft fs t).get k = (plug fs t).get k := by
  induction fs generalizing k with
  | nil => rfl
  | cons f fs ih =>
    cases fs with
    | nil =>
      cases f with
      | ext p => exact get_extend p k t
      | branch c v s => rfl
    | cons g fs =>
      have hgraft : graft (f :: g :: fs) t = f.fill (graft (g :: fs) t) := by cases f <;> rfl
      rw [hgraft, plug_cons]
      exact get_plug_congr [f] ih k

/-- Insertion below a context. -/
theorem insert_plug (fs : List (Frame σ ν)) (t : PathTrie σ ν) (k : List σ) (v : ν) :
    (plug fs t).insert (pathOf fs ++ k) v = plug fs (t.insert k v) := by
  induction fs with
  | nil => rfl
  | cons f fs ih =>
    rw [pathOf_cons, List.append_assoc]
    cases f with
    | ext p =>
      change (ext p (plug fs t)).insert (p ++ (pathOf fs ++ k)) v = _
      rw [insert, if_pos (List.prefix_append p _), List.drop_left, ih]
      rfl
    | branch c w s =>
      change (branch (Function.update c s (plug fs t)) w).insert (s :: (pathOf fs ++ k)) v = _
      rw [insert, Function.update_self, ih, Function.update_idem]
      rfl

/-! ### The descent along a word -/

/-- Where a walk along a word ends: the steps taken, the trie reached, and the rest of the
word. -/
structure Descent (σ : Type u) (ν : Type v) where
  /-- The steps taken, outermost first. -/
  frames : List (Frame σ ν)
  /-- The trie reached. -/
  focus : PathTrie σ ν
  /-- What is left of the word. -/
  rest : List σ

/-- The same walk, one step longer. -/
def Descent.under (f : Frame σ ν) (d : Descent σ ν) : Descent σ ν :=
  { d with frames := f :: d.frames }

/-- Walk along a word as far as the trie goes. -/
def find : PathTrie σ ν → List σ → Descent σ ν
  | nil, k => ⟨[], nil, k⟩
  | leaf p v, k => ⟨[], leaf p v, k⟩
  | ext p c, k => if p <+: k then (c.find (k.drop p.length)).under (.ext p) else ⟨[], ext p c, k⟩
  | branch c v, [] => ⟨[], branch c v, []⟩
  | branch c v, s :: k =>
    if (c s).isNil then ⟨[], branch c v, s :: k⟩ else ((c s).find k).under (.branch c v s)

/-- The trie is the one reached in the context of the steps. -/
theorem plug_find : ∀ (t : PathTrie σ ν) (k : List σ),
    plug (t.find k).frames (t.find k).focus = t
  | nil, _ => rfl
  | leaf _ _, _ => rfl
  | ext p c, k => by
    rw [find]
    split
    · exact congrArg (ext p) (plug_find c _)
    · rfl
  | branch c v, [] => rfl
  | branch c v, s :: k => by
    rw [find]
    split
    · rfl
    · change branch (Function.update c s (plug ((c s).find k).frames ((c s).find k).focus)) v = _
      rw [plug_find (c s) k, Function.update_eq_self]

/-- The word is the one of the steps, followed by the rest. -/
theorem pathOf_find : ∀ (t : PathTrie σ ν) (k : List σ),
    pathOf (t.find k).frames ++ (t.find k).rest = k
  | nil, _ => rfl
  | leaf _ _, _ => rfl
  | ext p c, k => by
    rw [find]
    split
    · rename_i hp
      change p ++ pathOf (c.find (k.drop p.length)).frames ++ (c.find (k.drop p.length)).rest = k
      rw [List.append_assoc, pathOf_find c]
      exact (List.prefix_append_drop hp).symm
    · rfl
  | branch c v, [] => rfl
  | branch c v, s :: k => by
    rw [find]
    split
    · rfl
    · change [s] ++ pathOf ((c s).find k).frames ++ ((c s).find k).rest = s :: k
      rw [List.append_assoc, pathOf_find (c s) k]
      rfl

/-- Looking up may begin where the walk got stuck. -/
theorem get_find (t : PathTrie σ ν) (k : List σ) :
    t.get k = (t.find k).focus.get (t.find k).rest := by
  have h := get_plug_append (t.find k).frames (t.find k).focus (t.find k).rest
  rwa [plug_find, pathOf_find] at h

/-- An insertion happens where the walk got stuck. -/
theorem insert_find (t : PathTrie σ ν) (k : List σ) (v : ν) :
    t.insert k v = plug (t.find k).frames ((t.find k).focus.insert (t.find k).rest v) := by
  have h := insert_plug (t.find k).frames (t.find k).focus (t.find k).rest v
  rwa [plug_find, pathOf_find] at h

/-- What the walk ends at: an entry, a path the rest does not follow, a branching with nothing
left of the word, or one whose slot for the next letter is empty. -/
inductive Stuck : PathTrie σ ν → List σ → Prop
  | nil (k : List σ) : Stuck nil k
  | leaf (p : List σ) (v : ν) (k : List σ) : Stuck (leaf p v) k
  | ext {p k : List σ} (c : PathTrie σ ν) (h : ¬ p <+: k) : Stuck (ext p c) k
  | done (c : σ → PathTrie σ ν) (v : Option ν) : Stuck (branch c v) []
  | slot {c : σ → PathTrie σ ν} {s : σ} (v : Option ν) (k : List σ) (h : c s = nil) :
      Stuck (branch c v) (s :: k)

/-- The walk goes on for as long as it can. -/
theorem stuck_find : ∀ (t : PathTrie σ ν) (k : List σ), Stuck (t.find k).focus (t.find k).rest
  | nil, k => .nil k
  | leaf p v, k => .leaf p v k
  | ext p c, k => by
    rw [find]
    split
    · exact stuck_find c _
    · rename_i h
      exact .ext c h
  | branch c v, [] => .done c v
  | branch c v, s :: k => by
    rw [find]
    split
    · rename_i h
      exact .slot v k (isNil_iff.1 h)
    · exact stuck_find (c s) k

end PathTrie

end Tvmjs
