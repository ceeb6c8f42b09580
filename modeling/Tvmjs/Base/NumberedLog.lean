import Mathlib.Data.List.DropRight
import Mathlib.Data.List.Sort

/-!
# Logs of numbered entries

A log holds entries in ascending order of their numbers.  Three things happen to it: a new entry is
put last, the entries above a number are cut off, and the entries below a bound are trimmed away.

* `trimKeeping` -- trimming which always leaves the last entry; on an ascending log it trims the
  entries before the last one, so trimming twice is trimming by the higher bound;
* `pushRecent` -- a log which holds the most recent entries only; what is left after some pushes
  depends on the last entries pushed alone, once there are as many as the log holds.
-/

namespace Tvmjs

namespace NumberedLog

variable {α : Type*}

/-- The numbers of the entries ascend. -/
def Ascending (log : List (ℕ × α)) : Prop := log.Pairwise fun a b => a.1 < b.1

/-- The entries from a bound on, or the last entry where there is none. -/
def trimKeeping (bound : ℤ) (log : List (ℕ × α)) : List (ℕ × α) :=
  if log.filter (fun e => bound ≤ (e.1 : ℤ)) = [] then log.getLast?.toList
  else log.filter fun e => bound ≤ (e.1 : ℤ)

@[simp] theorem trimKeeping_nil (bound : ℤ) : trimKeeping bound ([] : List (ℕ × α)) = [] := rfl

/-- The last entry of an ascending log stays; the others are trimmed. -/
theorem trimKeeping_append {log : List (ℕ × α)} {last : ℕ × α}
    (h : Ascending (log ++ [last])) (bound : ℤ) :
    trimKeeping bound (log ++ [last]) =
      log.filter (fun e => bound ≤ (e.1 : ℤ)) ++ [last] := by
  rw [trimKeeping, List.filter_append]
  by_cases hlast : bound ≤ (last.1 : ℤ)
  · have hkept : [last].filter (fun e => bound ≤ (e.1 : ℤ)) = [last] := by simp [hlast]
    rw [hkept, if_neg (List.append_ne_nil_of_right_ne_nil _ (List.cons_ne_nil _ _))]
  · -- all entries are below the last one
    have hnone : log.filter (fun e => bound ≤ (e.1 : ℤ)) = [] := by
      rw [List.filter_eq_nil_iff]
      intro e he
      have hlt : e.1 < last.1 :=
        (List.pairwise_append.1 h).2.2 e he last (List.mem_singleton_self last)
      rw [decide_eq_true_eq]
      omega
    have hgone : [last].filter (fun e => bound ≤ (e.1 : ℤ)) = [] := by
      rw [List.filter_cons_of_neg (by simpa using hlast), List.filter_nil]
    rw [hgone, hnone, List.append_nil, if_pos rfl, List.getLast?_concat]
    rfl

/-- Nothing is trimmed by a bound that all entries reach. -/
theorem trimKeeping_eq_self {bound : ℤ} {log : List (ℕ × α)} (h : ∀ e ∈ log, bound ≤ (e.1 : ℤ)) :
    trimKeeping bound log = log := by
  have hall : log.filter (fun e => bound ≤ (e.1 : ℤ)) = log :=
    List.filter_eq_self.2 fun e he => decide_eq_true (h e he)
  rw [trimKeeping, hall]
  split
  · subst log
    rfl
  · rfl

/-- An ascending log is empty or has a last entry above all others. -/
theorem eq_nil_or_append (log : List (ℕ × α)) :
    log = [] ∨ ∃ init last, log = init ++ [last] := by
  obtain rfl | h := eq_or_ne log []
  · exact Or.inl rfl
  · exact Or.inr ⟨log.dropLast, log.getLast h, (List.dropLast_append_getLast h).symm⟩

theorem trimKeeping_sublist (bound : ℤ) (log : List (ℕ × α)) :
    (trimKeeping bound log).Sublist log := by
  rw [trimKeeping]
  split
  · obtain rfl | ⟨init, last, rfl⟩ := eq_nil_or_append log
    · exact List.Sublist.refl _
    · rw [List.getLast?_append_of_ne_nil _ (by simp)]
      exact List.sublist_append_right init [last]
  · exact List.filter_sublist

theorem trimKeeping_ne_nil (bound : ℤ) {log : List (ℕ × α)} (h : log ≠ []) :
    trimKeeping bound log ≠ [] := by
  obtain rfl | ⟨init, last, rfl⟩ := eq_nil_or_append log
  · exact absurd rfl h
  · rw [trimKeeping]
    split
    · rw [List.getLast?_append_of_ne_nil _ (by simp)]
      simp
    · assumption

theorem Ascending.sublist {log log' : List (ℕ × α)} (h : Ascending log) (hsub : log'.Sublist log) :
    Ascending log' := List.Pairwise.sublist hsub h

/-- Trimming by a bound and then by a higher one is trimming by the higher one. -/
theorem trimKeeping_trimKeeping {log : List (ℕ × α)} (h : Ascending log) {bound bound' : ℤ}
    (hle : bound ≤ bound') :
    trimKeeping bound' (trimKeeping bound log) = trimKeeping bound' log := by
  obtain rfl | ⟨init, last, rfl⟩ := eq_nil_or_append log
  · rfl
  · have hasc := h.sublist (trimKeeping_sublist bound (init ++ [last]))
    rw [trimKeeping_append h] at hasc ⊢
    rw [trimKeeping_append h, trimKeeping_append hasc, List.filter_filter]
    congr 1
    refine List.filter_congr fun e _ => ?_
    rw [← Bool.decide_and, decide_eq_decide]
    omega

/-- Two bounds trim alike if they agree on the entries before the last one. -/
theorem trimKeeping_congr {log : List (ℕ × α)} (h : Ascending log) {bound bound' : ℤ}
    (hsame : ∀ e ∈ log.dropLast, bound ≤ (e.1 : ℤ) ↔ bound' ≤ (e.1 : ℤ)) :
    trimKeeping bound log = trimKeeping bound' log := by
  obtain rfl | ⟨init, last, rfl⟩ := eq_nil_or_append log
  · rfl
  · rw [List.dropLast_concat] at hsame
    rw [trimKeeping_append h, trimKeeping_append h]
    congr 1
    exact List.filter_congr fun e he => decide_eq_decide.2 (hsame e he)

/-! ### The most recent entries -/

/-- Put an entry last, and keep the last `limit` entries. -/
def pushRecent (limit : ℕ) (log : List α) (e : α) : List α := (log ++ [e]).rtake limit

theorem rtake_append_of_le {limit : ℕ} (log : List α) {entries : List α}
    (h : limit ≤ entries.length) : (log ++ entries).rtake limit = entries.rtake limit := by
  rw [List.rtake, List.rtake, List.length_append, Nat.add_sub_assoc h, List.drop_append]
  rw [List.drop_eq_nil_of_le (Nat.le_add_right _ _), List.nil_append, Nat.add_sub_cancel_left]

theorem rtake_rtake_append (limit : ℕ) (log entries : List α) :
    (log.rtake limit ++ entries).rtake limit = (log ++ entries).rtake limit := by
  rw [List.rtake_eq_reverse_take_reverse, List.rtake_eq_reverse_take_reverse,
    List.rtake_eq_reverse_take_reverse, List.reverse_append, List.reverse_append,
    List.reverse_reverse]
  congr 1
  rw [List.take_append, List.take_append, List.take_take]
  congr 2
  omega

/-- After some pushes the log holds the last entries of the log and of what was pushed. -/
theorem foldl_pushRecent (limit : ℕ) (log : List α) {entries : List α} (h : entries ≠ []) :
    entries.foldl (pushRecent limit) log = (log ++ entries).rtake limit := by
  induction entries generalizing log with
  | nil => exact absurd rfl h
  | cons e entries ih =>
    rw [List.foldl_cons]
    obtain rfl | hne := eq_or_ne entries []
    · rfl
    · rw [ih _ hne, pushRecent, rtake_rtake_append, List.append_assoc, List.singleton_append]

theorem rtake_sublist (limit : ℕ) (log : List α) : (log.rtake limit).Sublist log :=
  List.drop_sublist _ _

end NumberedLog

end Tvmjs
