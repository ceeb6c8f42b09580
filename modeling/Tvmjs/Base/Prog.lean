import Mathlib.Logic.Basic
import Mathlib.Order.Defs.Unbundled

/-!
# Stateful programs whose errors keep the state

A `Prog σ ε α` runs on a state of type `σ` and either returns a value or throws.  A throw does
**not** roll the state back: every write made before it stays, as in an imperative language with
exceptions.  Undoing partial writes is therefore something a program has to do, and something
that has to be proved.

* `Prog.run_bind`, `Prog.run_bind_ok` -- evaluation of sequential composition;
* `Prog.Rel` -- a relation between the state before and the state after, whatever the outcome;
  it is closed under every combinator when the relation is reflexive and transitive;
* `Prog.RelUnless` -- the same for relations that errors of some kind may break;
* `Prog.Ensures` -- what every return from a state satisfies, with one rule for each combinator;
* `Prog.Yields` -- a return of a value in a state, built up along the program.
-/

namespace Tvmjs

universe u v w

/-- A program over the state `σ` which returns an `α` or throws an `ε`. -/
def Prog (σ : Type u) (ε : Type v) (α : Type w) := σ → Except ε α × σ

namespace Prog

variable {σ : Type u} {ε : Type v} {α β : Type w}

/-- The outcome and the final state of `x` started in `s`. -/
def run (x : Prog σ ε α) (s : σ) : Except ε α × σ := x s

/-- Two programs with the same runs are equal. -/
theorem ext {x y : Prog σ ε α} (h : ∀ s, x.run s = y.run s) : x = y := funext h

instance : Monad (Prog σ ε) where
  pure a s := (.ok a, s)
  bind x f s := match x s with
    | (.ok a, s') => f a s'
    | (.error e, s') => (.error e, s')

/-- Read the state through a function. -/
def gets (f : σ → α) : Prog σ ε α := fun s => (.ok (f s), s)

/-- Replace the state. -/
def modify (f : σ → σ) : Prog σ ε PUnit.{w + 1} := fun s => (.ok PUnit.unit, f s)

/-- Throw, keeping the state as it is. -/
def throw (e : ε) : Prog σ ε α := fun s => (.error e, s)

/-- Return or throw as `x` says, keeping the state as it is. -/
def ofExcept (x : Except ε α) : Prog σ ε α := fun s => (x, s)

/-- Run `x`; on a throw continue with the handler **in the state the throw left behind**. -/
def tryCatch (x : Prog σ ε α) (handler : ε → Prog σ ε α) : Prog σ ε α := fun s =>
  match x s with
  | (.ok a, s') => (.ok a, s')
  | (.error e, s') => handler e s'

/-- Run `x`, then change the final state by `onOk` after a return and by `onError` after a
throw: the shape of a `try … finally` whose clean-up cannot throw. -/
def finish (onOk onError : σ → σ) (x : Prog σ ε α) : Prog σ ε α := fun s =>
  match x s with
  | (.ok a, s') => (.ok a, onOk s')
  | (.error e, s') => (.error e, onError s')

/-! ### Evaluation -/

@[simp] theorem run_pure (a : α) (s : σ) : (pure a : Prog σ ε α).run s = (.ok a, s) := rfl

@[simp] theorem run_gets (f : σ → α) (s : σ) :
    (gets f : Prog σ ε α).run s = (.ok (f s), s) := rfl

@[simp] theorem run_modify (f : σ → σ) (s : σ) :
    (modify f : Prog σ ε PUnit).run s = (.ok PUnit.unit, f s) := rfl

@[simp] theorem run_throw (e : ε) (s : σ) : (throw e : Prog σ ε α).run s = (.error e, s) := rfl

@[simp] theorem run_ofExcept (x : Except ε α) (s : σ) :
    (ofExcept x : Prog σ ε α).run s = (x, s) := rfl

/-- The second program runs where the first returned. -/
theorem run_bind (x : Prog σ ε α) (f : α → Prog σ ε β) (s : σ) :
    (x >>= f).run s = match x.run s with
      | (.ok a, s') => (f a).run s'
      | (.error e, s') => (.error e, s') := rfl

/-- The handler runs in the state that was left by the throw. -/
theorem run_tryCatch (x : Prog σ ε α) (handler : ε → Prog σ ε α) (s : σ) :
    (x.tryCatch handler).run s = match x.run s with
      | (.ok a, s') => (.ok a, s')
      | (.error e, s') => (handler e).run s' := rfl

/-- The state is touched up by how the program ended. -/
theorem run_finish (onOk onError : σ → σ) (x : Prog σ ε α) (s : σ) :
    (x.finish onOk onError).run s = match x.run s with
      | (.ok a, s') => (.ok a, onOk s')
      | (.error e, s') => (.error e, onError s') := rfl

/-- A composition after a return continues from the state reached. -/
theorem run_bind_of_ok {x : Prog σ ε α} {f : α → Prog σ ε β} {s s' : σ} {a : α}
    (h : x.run s = (.ok a, s')) : (x >>= f).run s = (f a).run s' := by
  rw [run_bind, h]

/-- A composition after a throw stops in the state reached. -/
theorem run_bind_of_error {x : Prog σ ε α} {f : α → Prog σ ε β} {s s' : σ} {e : ε}
    (h : x.run s = (.error e, s')) : (x >>= f).run s = (.error e, s') := by
  rw [run_bind, h]

/-- **Inversion of a return.**  A composition returns exactly when both parts do. -/
theorem run_bind_ok {x : Prog σ ε α} {f : α → Prog σ ε β} {s s' : σ} {b : β} :
    (x >>= f).run s = (.ok b, s') ↔
      ∃ a t, x.run s = (.ok a, t) ∧ (f a).run t = (.ok b, s') := by
  rw [run_bind]
  rcases hx : x.run s with ⟨_ | a, t⟩
  · simp
  · simp only [Prod.mk.injEq, Except.ok.injEq]
    constructor
    · intro h
      exact ⟨a, t, ⟨rfl, rfl⟩, h⟩
    · rintro ⟨a', t', ⟨rfl, rfl⟩, h⟩
      exact h

/-- **Inversion of a throw.**  A composition throws when its first part does, or its second one
after a return of the first. -/
theorem run_bind_error {x : Prog σ ε α} {f : α → Prog σ ε β} {s s' : σ} {e : ε} :
    (x >>= f).run s = (.error e, s') ↔
      x.run s = (.error e, s') ∨ ∃ a t, x.run s = (.ok a, t) ∧ (f a).run t = (.error e, s') := by
  rw [run_bind]
  rcases hx : x.run s with ⟨_ | a, t⟩
  · simp
  · simp only [Prod.mk.injEq, reduceCtorEq, false_and, false_or, Except.ok.injEq]
    constructor
    · intro h
      exact ⟨a, t, ⟨rfl, rfl⟩, h⟩
    · rintro ⟨a', t', ⟨rfl, rfl⟩, h⟩
      exact h

instance : LawfulMonad (Prog σ ε) := LawfulMonad.mk' (Prog σ ε)
  (fun x => ext fun s => by
    change (x >>= pure).run s = x.run s
    rw [run_bind]
    rcases x.run s with ⟨_ | _, _⟩ <;> rfl)
  (fun _ _ => rfl)
  (fun x f g => ext fun s => by
    simp only [run_bind]
    rcases x.run s with ⟨_ | _, _⟩ <;> rfl)

/-! ### Relations between the state before and the state after -/

/-- Whatever the outcome, `x` leads from a state to an `R`-related one. -/
def Rel (R : σ → σ → Prop) (x : Prog σ ε α) : Prop := ∀ s, R s (x.run s).2

section Rel

variable {R : σ → σ → Prop}

/-- Returning is reflexive. -/
theorem Rel.pure [Std.Refl R] (a : α) : Rel R (pure a : Prog σ ε α) := fun s => refl_of R s

theorem Rel.throw [Std.Refl R] (e : ε) : Rel R (throw e : Prog σ ε α) := fun s => refl_of R s

theorem Rel.gets [Std.Refl R] (f : σ → α) : Rel R (gets f : Prog σ ε α) := fun s => refl_of R s

/-- A change in the relation is followed. -/
theorem Rel.modify {f : σ → σ} (h : ∀ s, R s (f s)) : Rel R (modify f : Prog σ ε PUnit) := h

/-- A coarser relation is followed as well. -/
theorem Rel.mono {R' : σ → σ → Prop} {x : Prog σ ε α} (hx : Rel R x)
    (h : ∀ s s', R s s' → R' s s') : Rel R' x := fun s => h s _ (hx s)

/-- Sequential composition from one state keeps a transitive relation. -/
theorem Rel.bind_at [IsTrans σ R] {x : Prog σ ε α} {f : α → Prog σ ε β} {s : σ}
    (hx : R s (x.run s).2) (hf : ∀ a, Rel R (f a)) : R s ((x >>= f).run s).2 := by
  rw [run_bind]
  generalize x.run s = r at hx ⊢
  rcases r with ⟨_ | a, t⟩
  · exact hx
  · exact trans_of R hx (hf a t)

/-- Sequential composition keeps a transitive relation. -/
theorem Rel.bind [IsTrans σ R] {x : Prog σ ε α} {f : α → Prog σ ε β}
    (hx : Rel R x) (hf : ∀ a, Rel R (f a)) : Rel R (x >>= f) := fun s => Rel.bind_at (hx s) hf

/-- A handler continues from the state the throw left. -/
theorem Rel.tryCatch [IsTrans σ R] {x : Prog σ ε α} {handler : ε → Prog σ ε α}
    (hx : Rel R x) (hh : ∀ e, Rel R (handler e)) : Rel R (x.tryCatch handler) := by
  intro s
  have hs := hx s
  rw [run_tryCatch]
  generalize x.run s = r at hs ⊢
  rcases r with ⟨e | a, t⟩
  · exact trans_of R hs (hh e t)
  · exact hs

/-- A clean-up that keeps the relation. -/
theorem Rel.finish [IsTrans σ R] {x : Prog σ ε α} {onOk onError : σ → σ} (hx : Rel R x)
    (hok : ∀ s, R s (onOk s)) (herror : ∀ s, R s (onError s)) :
    Rel R (x.finish onOk onError) := by
  intro s
  have hs := hx s
  rw [run_finish]
  generalize x.run s = r at hs ⊢
  rcases r with ⟨e | a, t⟩
  · exact trans_of R hs (herror t)
  · exact trans_of R hs (hok t)

/-- Either branch is followed. -/
theorem Rel.ite {c : Prop} [Decidable c] {x y : Prog σ ε α} (hx : Rel R x) (hy : Rel R y) :
    Rel R (if c then x else y) := by
  split
  · exact hx
  · exact hy

end Rel

/-! ### Relations that some errors break -/

/-- From `s` the program leads to an `R`-related state, unless it throws an error in `E`. -/
def RelUnlessAt (E : ε → Prop) (R : σ → σ → Prop) (x : Prog σ ε α) (s : σ) : Prop :=
  (∃ e, (x.run s).1 = .error e ∧ E e) ∨ R s (x.run s).2

/-- Whatever the outcome but an error in `E`, `x` leads from a state to an `R`-related one. -/
def RelUnless (E : ε → Prop) (R : σ → σ → Prop) (x : Prog σ ε α) : Prop := ∀ s, x.RelUnlessAt E R s

section RelUnless

variable {E : ε → Prop} {R : σ → σ → Prop} {s : σ}

/-- A relation that always holds needs no excuse. -/
theorem Rel.relUnless {x : Prog σ ε α} (hx : Rel R x) : RelUnless E R x := fun s => Or.inr (hx s)

/-- From one state a coarser relation is followed as well. -/
theorem RelUnlessAt.mono {R' : σ → σ → Prop} {x : Prog σ ε α} (hx : x.RelUnlessAt E R s)
    (h : ∀ s', R s s' → R' s s') : x.RelUnlessAt E R' s := hx.imp_right (h _)

theorem RelUnless.pure [Std.Refl R] (a : α) : RelUnless E R (pure a : Prog σ ε α) :=
  (Rel.pure a).relUnless

theorem RelUnless.throw [Std.Refl R] (e : ε) : RelUnless E R (throw e : Prog σ ε α) :=
  (Rel.throw e).relUnless

theorem RelUnless.gets [Std.Refl R] (f : σ → α) : RelUnless E R (gets f : Prog σ ε α) :=
  (Rel.gets f).relUnless

/-- Sequential composition, when what the second part does depends on the state it starts in. -/
theorem RelUnlessAt.bind [IsTrans σ R] {x : Prog σ ε α} {f : α → Prog σ ε β}
    (hx : x.RelUnlessAt E R s)
    (hf : ∀ a t, x.run s = (.ok a, t) → (f a).RelUnlessAt E R t) : (x >>= f).RelUnlessAt E R s := by
  rw [RelUnlessAt, run_bind]
  rcases hrun : x.run s with ⟨e | a, t⟩
  · rw [RelUnlessAt, hrun] at hx
    obtain ⟨e', he, hE⟩ | hR := hx
    · cases he
      exact Or.inl ⟨e, rfl, hE⟩
    · exact Or.inr hR
  · rw [RelUnlessAt, hrun] at hx
    obtain ⟨e', he, -⟩ | hR := hx
    · cases he
    · exact (hf a t hrun).imp_right fun ht => trans_of R hR ht

/-- Sequential composition keeps a transitive relation. -/
theorem RelUnless.bind [IsTrans σ R] {x : Prog σ ε α} {f : α → Prog σ ε β} (hx : RelUnless E R x)
    (hf : ∀ a, RelUnless E R (f a)) : RelUnless E R (x >>= f) :=
  fun s => (hx s).bind fun a t _ => hf a t

/-- Without such errors nothing breaks the relation. -/
theorem RelUnlessAt.related {x : Prog σ ε α} (hx : x.RelUnlessAt (fun _ => False) R s) :
    R s (x.run s).2 := by
  obtain ⟨e, -, hfalse⟩ | hR := hx
  · exact hfalse.elim
  · exact hR

/-- Where nothing is excused the relation always holds. -/
theorem RelUnless.rel {x : Prog σ ε α} (hx : RelUnless (fun _ => False) R x) : Rel R x :=
  fun s => (hx s).related

end RelUnless

/-! ### What a return satisfies -/

/-- Every return of `x` from `s` satisfies `Q`; a throw satisfies anything. -/
def Ensures (x : Prog σ ε α) (Q : α → σ → Prop) (s : σ) : Prop :=
  ∀ a s', x.run s = (.ok a, s') → Q a s'

section Ensures

variable {Q : α → σ → Prop} {s : σ}

/-- A weaker postcondition is ensured as well. -/
theorem Ensures.mono {x : Prog σ ε α} {Q' : α → σ → Prop} (h : Ensures x Q s)
    (hQ : ∀ a s', Q a s' → Q' a s') : Ensures x Q' s := fun a s' hx => hQ a s' (h a s' hx)

/-- The rule for returning. -/
theorem Ensures.pure {a : α} (h : Q a s) : Ensures (pure a : Prog σ ε α) Q s := by
  intro a' s' hx
  cases hx
  exact h

/-- What throws ensures anything. -/
theorem Ensures.throw {e : ε} : Ensures (throw e : Prog σ ε α) Q s := nofun

/-- The rule for reading. -/
theorem Ensures.gets {f : σ → α} (h : Q (f s) s) : Ensures (gets f : Prog σ ε α) Q s := by
  intro a s' hx
  cases hx
  exact h

/-- The rule for a change of the state. -/
theorem Ensures.modify {f : σ → σ} {Q : PUnit → σ → Prop} (h : Q PUnit.unit (f s)) :
    Ensures (modify f : Prog σ ε PUnit) Q s := by
  intro a s' hx
  cases hx
  exact h

/-- The rule for a pure computation that may fail. -/
theorem Ensures.ofExcept {x : Except ε α} (h : ∀ a, x = .ok a → Q a s) :
    Ensures (ofExcept x) Q s := by
  intro a s' hx
  cases hx
  exact h a rfl

/-- Sequential composition. -/
theorem Ensures.bind {x : Prog σ ε α} {f : α → Prog σ ε β} {Q : β → σ → Prop}
    (h : Ensures x (fun a t => Ensures (f a) Q t) s) : Ensures (x >>= f) Q s := by
  intro b s' hx
  obtain ⟨a, t, hxa, hfb⟩ := run_bind_ok.1 hx
  exact h a t hxa b s' hfb

/-- The rule for a branch. -/
theorem Ensures.ite {c : Prop} [Decidable c] {x y : Prog σ ε α} (hx : c → Ensures x Q s)
    (hy : ¬ c → Ensures y Q s) : Ensures (if c then x else y) Q s := by
  split
  · exact hx ‹_›
  · exact hy ‹_›

/-- A relation that holds whatever the outcome holds after a return. -/
theorem Rel.ensures {R : σ → σ → Prop} {x : Prog σ ε α} (h : Rel R x) :
    Ensures x (fun _ s' => R s s') s := by
  intro a s' hx
  have hs := h s
  rwa [hx] at hs

/-- Sequential composition, when the second part keeps the relation on what the first one
returns. -/
theorem Rel.bind_of_ensures {R : σ → σ → Prop} [IsTrans σ R] {x : Prog σ ε α}
    {f : α → Prog σ ε β} {P : α → Prop} (hx : Rel R x) (hP : ∀ s, Ensures x (fun a _ => P a) s)
    (hf : ∀ a, P a → Rel R (f a)) : Rel R (x >>= f) := by
  intro s
  have hs := hx s
  rw [run_bind]
  rcases hrun : x.run s with ⟨e | a, t⟩
  · rw [hrun] at hs
    exact hs
  · rw [hrun] at hs
    exact trans_of R hs (hf a (hP s a t hrun) t)

/-- A clean-up after the body. -/
theorem Ensures.finish {x : Prog σ ε α} {onOk onError : σ → σ}
    (h : Ensures x (fun a s' => Q a (onOk s')) s) : Ensures (x.finish onOk onError) Q s := by
  intro a s' hx
  rw [run_finish] at hx
  rcases hrun : x.run s with ⟨e | b, t⟩
  · rw [hrun] at hx
    cases hx
  · rw [hrun] at hx
    cases hx
    exact h _ _ hrun

/-- What both the body and the handler ensure. -/
theorem Ensures.tryCatch {x : Prog σ ε α} {handler : ε → Prog σ ε α} (hx : Ensures x Q s)
    (hh : ∀ e s', x.run s = (.error e, s') → Ensures (handler e) Q s') :
    Ensures (x.tryCatch handler) Q s := by
  intro a s' h
  rw [run_tryCatch] at h
  rcases hrun : x.run s with ⟨e | b, t⟩
  · rw [hrun] at h
    exact hh e t hrun a s' h
  · rw [hrun] at h
    cases h
    exact hx _ _ hrun

end Ensures

/-! ### Returns built up along a program -/

/-- From `s` the program returns `a` in the state `t`. -/
def Yields (x : Prog σ ε α) (s : σ) (a : α) (t : σ) : Prop := x.run s = (.ok a, t)

section Yields

variable {s t : σ} {a : α}

theorem Yields.pure (a : α) (s : σ) : Yields (pure a : Prog σ ε α) s a s := rfl

theorem Yields.gets (f : σ → α) (s : σ) : Yields (gets f : Prog σ ε α) s (f s) s := rfl

theorem Yields.modify (f : σ → σ) (s : σ) :
    Yields (modify f : Prog σ ε PUnit) s PUnit.unit (f s) := rfl

/-- A pure computation that succeeds yields its value. -/
theorem Yields.ofExcept {x : Except ε α} (h : x = .ok a) (s : σ) : Yields (ofExcept x) s a s :=
  congrArg (fun x => (x, s)) h

/-- Sequential composition. -/
theorem Yields.bind {x : Prog σ ε α} {f : α → Prog σ ε β} {b : β} {u : σ} (hx : Yields x s a t)
    (hf : Yields (f a) t b u) : Yields (x >>= f) s b u := run_bind_ok.2 ⟨a, t, hx, hf⟩

/-- A branch is taken where its condition holds. -/
theorem Yields.ite_pos {c : Prop} [Decidable c] {x y : Prog σ ε α} (hc : c) (hx : Yields x s a t) :
    Yields (if c then x else y) s a t := by
  rw [if_pos hc]
  exact hx

/-- The other branch is taken where it does not. -/
theorem Yields.ite_neg {c : Prop} [Decidable c] {x y : Prog σ ε α} (hc : ¬ c)
    (hy : Yields y s a t) : Yields (if c then x else y) s a t := by
  rw [if_neg hc]
  exact hy

/-- A program has one return at most. -/
theorem Yields.unique {x : Prog σ ε α} {a' : α} {t' : σ} (h : Yields x s a t)
    (h' : Yields x s a' t') : a = a' ∧ t = t' := by
  have heq : (Except.ok a, t) = (Except.ok a', t') := h.symm.trans h'
  cases heq
  exact ⟨rfl, rfl⟩

end Yields

end Prog

end Tvmjs
