import Mathlib.Data.List.Basic
import Mathlib.Tactic.Common

/-!
# Instruction streams with immediates

A code is a list of symbols read from the front; a symbol `b` is followed by `width b` immediates,
which are not instructions.  An immediate block may be cut off by the end of the code.

* `Boundary width code i` -- reading from the front reaches the position `i`;
* `sweep width` -- one pass over the code which visits every instruction once;
* `mem_sweep_iff` -- the pass visits exactly the boundaries.
-/

namespace Tvmjs

namespace InstrStream

universe u

variable {α : Type u} (width : α → ℕ)

/-- The positions at which reading `code` from the front expects an instruction. -/
inductive Boundary (code : List α) : ℕ → Prop
  | start : Boundary code 0
  | next {i : ℕ} {b : α} (hi : Boundary code i) (hb : code[i]? = some b) :
      Boundary code (i + 1 + width b)

/-- The instructions of the code with their positions, the first symbol standing at `i` and the
next `skip` symbols being immediates. -/
def sweep : (skip i : ℕ) → (code : List α) → List (ℕ × α)
  | _, _, [] => []
  | skip + 1, i, _ :: code => sweep skip (i + 1) code
  | 0, i, b :: code => (i, b) :: sweep (width b) (i + 1) code

variable {width} {code rest : List α} {i j skip : ℕ} {b : α}

/-- Skipping is dropping. -/
theorem sweep_skip (skip i : ℕ) (code : List α) :
    sweep width skip i code = sweep width 0 (i + skip) (code.drop skip) := by
  induction skip generalizing i code with
  | zero => rfl
  | succ skip ih =>
    cases code with
    | nil => rfl
    | cons b code =>
      rw [sweep, ih, List.drop_succ_cons, Nat.add_right_comm, Nat.add_assoc]

theorem le_of_mem_sweep (h : (j, b) ∈ sweep width skip i code) : i + skip ≤ j := by
  induction code generalizing skip i with
  | nil => simp [sweep] at h
  | cons c code ih =>
    cases skip with
    | succ skip =>
      have := ih h
      omega
    | zero =>
      rw [sweep, List.mem_cons, Prod.mk.injEq] at h
      rcases h with ⟨rfl, -⟩ | h
      · omega
      · have := ih h
        omega

/-- The pass visits from the front to the back. -/
theorem pairwise_sweep (skip i : ℕ) (code : List α) :
    (sweep width skip i code).Pairwise fun p q => p.1 < q.1 := by
  induction code generalizing skip i with
  | nil => exact List.Pairwise.nil
  | cons b code ih =>
    cases skip with
    | succ skip => exact ih skip (i + 1)
    | zero =>
      refine List.pairwise_cons.2 ⟨fun q hq => ?_, ih (width b) (i + 1)⟩
      have := le_of_mem_sweep hq
      omega

/-- What the pass visits is on a boundary. -/
theorem boundary_of_mem_sweep (hrest : rest = code.drop i) (hi : Boundary width code (i + skip))
    (h : (j, b) ∈ sweep width skip i rest) : Boundary width code j ∧ code[j]? = some b := by
  induction rest generalizing skip i with
  | nil => simp [sweep] at h
  | cons c rest ih =>
    have hc : code[i]? = some c := by
      rw [← Nat.add_zero i, ← List.getElem?_drop, ← hrest]
      rfl
    have hdrop : rest = code.drop (i + 1) := by
      rw [← List.drop_drop, ← hrest]
      rfl
    cases skip with
    | succ skip => exact ih hdrop (by rwa [Nat.add_right_comm, Nat.add_assoc]) h
    | zero =>
      rw [sweep, List.mem_cons, Prod.mk.injEq] at h
      rcases h with ⟨rfl, rfl⟩ | h
      · exact ⟨hi, hc⟩
      · exact ih hdrop (.next hi hc) h

/-- From a boundary on, the pass over the whole code is the pass over what is left. -/
theorem suffix_sweep (h : Boundary width code i) :
    sweep width 0 i (code.drop i) <:+ sweep width 0 0 code := by
  induction h with
  | start => exact List.suffix_rfl
  | @next i b hi hb ih =>
    have hdrop : code.drop i = b :: code.drop (i + 1) := by
      obtain ⟨hlt, rfl⟩ := List.getElem?_eq_some_iff.1 hb
      exact List.drop_eq_getElem_cons hlt
    rw [hdrop, sweep, sweep_skip, List.drop_drop] at ih
    exact (List.suffix_cons ..).trans ih

/-- **The pass visits exactly the instructions.** -/
theorem mem_sweep_iff :
    (i, b) ∈ sweep width 0 0 code ↔ Boundary width code i ∧ code[i]? = some b := by
  refine ⟨fun h => boundary_of_mem_sweep rfl .start h, fun ⟨hi, hb⟩ => ?_⟩
  refine (suffix_sweep hi).subset ?_
  obtain ⟨hlt, rfl⟩ := List.getElem?_eq_some_iff.1 hb
  rw [List.drop_eq_getElem_cons hlt, sweep]
  exact List.mem_cons_self

/-! ### Tables built in one pass -/

section Scan

universe v w

variable {σ : Type v} {τ : Type w} (visit : σ → ℕ → α → σ)

/-- One pass over the code which updates a table at every instruction. -/
def scan (width : α → ℕ) : (skip i : ℕ) → (code : List α) → σ → σ
  | _, _, [], s => s
  | skip + 1, i, _ :: code, s => scan width skip (i + 1) code s
  | 0, i, b :: code, s => scan width (width b) (i + 1) code (visit s i b)

theorem scan_eq_foldl (skip i : ℕ) (code : List α) (s : σ) :
    scan visit width skip i code s =
      (sweep width skip i code).foldl (fun s p => visit s p.1 p.2) s := by
  induction code generalizing skip i s with
  | nil => rfl
  | cons b code ih =>
    cases skip with
    | succ skip => exact ih skip (i + 1) s
    | zero => exact ih (width b) (i + 1) (visit s i b)

variable {visit} {entry : σ → ℕ → τ}

/-- Where every visit touches the entry of its own position only, a position which is not visited
keeps its entry. -/
theorem foldl_entry_of_not_mem (hother : ∀ s i b j, j ≠ i → entry (visit s i b) j = entry s j)
    {l : List (ℕ × α)} (h : ∀ b, (j, b) ∉ l) (s : σ) :
    entry (l.foldl (fun s p => visit s p.1 p.2) s) j = entry s j := by
  induction l generalizing s with
  | nil => rfl
  | cons p l ih =>
    obtain ⟨i, b⟩ := p
    have hne : j ≠ i := by
      rintro rfl
      exact h b List.mem_cons_self
    rw [List.foldl_cons, ih fun c hc => h c (List.mem_cons_of_mem _ hc), hother s i b j hne]

/-- A boundary keeps what its own visit wrote. -/
theorem scan_entry_of_boundary
    (hother : ∀ s i b j, j ≠ i → entry (visit s i b) j = entry s j)
    (hi : Boundary width code i) (hb : code[i]? = some b) (s : σ) :
    ∃ s', entry s' i = entry s i ∧ entry (scan visit width 0 0 code s) i =
      entry (visit s' i b) i := by
  rw [scan_eq_foldl]
  obtain ⟨hlt, rfl⟩ := List.getElem?_eq_some_iff.1 hb
  obtain ⟨before, hsplit⟩ := suffix_sweep hi
  rw [List.drop_eq_getElem_cons hlt, sweep] at hsplit
  have hbefore := (List.pairwise_append.1 (hsplit ▸ pairwise_sweep 0 0 code)).2.2
  rw [← hsplit, List.foldl_append, List.foldl_cons]
  refine ⟨before.foldl (fun s p => visit s p.1 p.2) s, ?_, ?_⟩
  · refine foldl_entry_of_not_mem hother (fun c hc => ?_) s
    exact Nat.lt_irrefl i (hbefore _ hc _ List.mem_cons_self)
  · refine foldl_entry_of_not_mem hother (fun c hc => ?_) _
    have := le_of_mem_sweep hc
    omega

/-- A position which is no boundary keeps the entry it had. -/
theorem scan_entry_of_not_boundary
    (hother : ∀ s i b j, j ≠ i → entry (visit s i b) j = entry s j)
    (h : ¬ (Boundary width code j ∧ j < code.length)) (s : σ) :
    entry (scan visit width 0 0 code s) j = entry s j := by
  rw [scan_eq_foldl]
  refine foldl_entry_of_not_mem hother (fun b hb => h ?_) s
  obtain ⟨hj, hb⟩ := mem_sweep_iff.1 hb
  exact ⟨hj, (List.getElem?_eq_some_iff.1 hb).1⟩

end Scan

end InstrStream

end Tvmjs
