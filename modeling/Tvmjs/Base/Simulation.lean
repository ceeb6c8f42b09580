import Tvmjs.Base.Prog

/-!
# Programs seen through a projection

A program on a detailed state does the same as one on a plain state when, seen through a projection
of the states, every run of the one is the run of the other: the same outcome, and a final state
that projects to the other's.

* `Prog.Simulates` -- the relation, with one rule for each combinator;
* `Prog.Simulates.fst`, `Prog.Simulates.snd` -- what it says of a run.
-/

namespace Tvmjs

namespace Prog

universe u u' v w

variable {σ : Type u} {τ : Type u'} {ε : Type v} {α β : Type w}

/-- Through the projection `π`, every run of `y` is the run of `x` from the projected state. -/
def Simulates (π : σ → τ) (y : Prog σ ε α) (x : Prog τ ε α) : Prop :=
  ∀ s, x.run (π s) = ((y.run s).1, π (y.run s).2)

namespace Simulates

variable {π : σ → τ}

theorem fst {y : Prog σ ε α} {x : Prog τ ε α} (h : Simulates π y x) (s : σ) :
    (x.run (π s)).1 = (y.run s).1 := congrArg Prod.fst (h s)

theorem snd {y : Prog σ ε α} {x : Prog τ ε α} (h : Simulates π y x) (s : σ) :
    (x.run (π s)).2 = π (y.run s).2 := congrArg Prod.snd (h s)

theorem pure (a : α) : Simulates π (pure a : Prog σ ε α) (pure a : Prog τ ε α) := fun _ => rfl

theorem throw (e : ε) : Simulates π (throw e : Prog σ ε α) (throw e : Prog τ ε α) := fun _ => rfl

theorem ofExcept (x : Except ε α) :
    Simulates π (ofExcept x : Prog σ ε α) (ofExcept x : Prog τ ε α) := fun _ => rfl

/-- Reading what the projection shows. -/
theorem gets {f : σ → α} {g : τ → α} (h : ∀ s, g (π s) = f s) :
    Simulates π (gets f : Prog σ ε α) (gets g : Prog τ ε α) :=
  fun s => congrArg (fun a => (Except.ok a, π s)) (h s)

theorem modify {f : σ → σ} {g : τ → τ} (h : ∀ s, g (π s) = π (f s)) :
    Simulates π (modify f : Prog σ ε PUnit) (modify g : Prog τ ε PUnit) :=
  fun s => congrArg (Prod.mk _) (h s)

/-- Sequential composition. -/
theorem bind {y : Prog σ ε α} {x : Prog τ ε α} {f : α → Prog σ ε β} {g : α → Prog τ ε β}
    (hx : Simulates π y x) (hf : ∀ a, Simulates π (f a) (g a)) :
    Simulates π (y >>= f) (x >>= g) := by
  intro s
  rw [run_bind, run_bind, hx s]
  rcases y.run s with ⟨e | a, t⟩
  · rfl
  · exact hf a t

theorem ite {c : Prop} [Decidable c] {y y' : Prog σ ε α} {x x' : Prog τ ε α}
    (h : Simulates π y x) (h' : Simulates π y' x') :
    Simulates π (if c then y else y') (if c then x else x') := by
  split
  · exact h
  · exact h'

/-- A clean-up whose effect the projection shows alike. -/
theorem finish {onOk onError : σ → σ} {onOk' onError' : τ → τ} {y : Prog σ ε α} {x : Prog τ ε α}
    (h : Simulates π y x) (hok : ∀ s, onOk' (π s) = π (onOk s))
    (herror : ∀ s, onError' (π s) = π (onError s)) :
    Simulates π (y.finish onOk onError) (x.finish onOk' onError') := by
  intro s
  rw [run_finish, run_finish, h s]
  rcases y.run s with ⟨e | a, t⟩
  · exact congrArg (Prod.mk _) (herror t)
  · exact congrArg (Prod.mk _) (hok t)

end Simulates

end Prog

end Tvmjs
