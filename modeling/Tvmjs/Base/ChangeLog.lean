import Mathlib.Data.List.Nodup
import Mathlib.Order.Basic
import Mathlib.Data.Nat.Basic

/-!
# Changes of a value, filed under periods
A value is followed over periods that are numbered upwards: `h j` is what it is at the start of
period `j`, and so `h (j + 1)` what it is at the end.  A log lists the periods over which the value
changed, each with what it ended in.

* `Records` -- a log that lists exactly the changes, each once;
* `Records.write` -- what the log must become when the value is written;
* `earlier` -- the part of a log about the periods before one.
-/

namespace Tvmjs

namespace ChangeLog

variable {β : Type*}

/-- The history after `v` has been written in period `j`. -/
def write (h : ℕ → β) (j : ℕ) (v : β) : ℕ → β := fun k => if j < k then v else h k

/-- The log lists the periods, `now` being the last of them, at whose end the value is not what it
was at the start. -/
structure Records (log : List (ℕ × β)) (h : ℕ → β) (now : ℕ) : Prop where
  nodup : (log.map Prod.fst).Nodup
  mem : ∀ j v, (j, v) ∈ log ↔ h (j + 1) = v ∧ v ≠ h j
  settled : ∀ k, now < k → h k = h (now + 1)

/-- The entries of a log about earlier periods. -/
def earlier (j : ℕ) (log : List (ℕ × β)) : List (ℕ × β) := log.filter fun e => e.1 < j

variable {log log' : List (ℕ × β)} {h : ℕ → β} {now j : ℕ} {v : β}

theorem records_nil (v : β) (now : ℕ) : Records [] (fun _ => v) now where
  nodup := List.nodup_nil
  mem _ _ := ⟨nofun, fun hw => absurd hw.1.symm hw.2⟩
  settled _ _ := rfl

/-- Nothing is listed for a period that has not begun. -/
theorem Records.le_now (hr : Records log h now) (hmem : (j, v) ∈ log) : j ≤ now := by
  by_contra hlt
  obtain ⟨hend, hne⟩ := (hr.mem j v).1 hmem
  rw [hr.settled (j + 1) (by omega), ← hr.settled j (by omega)] at hend
  exact hne hend.symm

/-- Time passes without a write. -/
theorem Records.mono (hr : Records log h now) (hj : now ≤ j) : Records log h j where
  nodup := hr.nodup
  mem := hr.mem
  settled k hk := by rw [hr.settled k (by omega), hr.settled (j + 1) (by omega)]

/-- **A write**: the log keeps what it lists for other periods, and lists the period of the write if
the value is not what it was at its start. -/
theorem Records.write (hr : Records log h now) (hj : now ≤ j) (hnodup : (log'.map Prod.fst).Nodup)
    (hmem : ∀ i w, (i, w) ∈ log' ↔ if i = j then w = v ∧ v ≠ h j else (i, w) ∈ log) :
    Records log' (write h j v) j where
  nodup := hnodup
  mem i w := by
    rw [hmem i w, ChangeLog.write, ChangeLog.write]
    obtain hlt | rfl | hgt := lt_trichotomy i j
    · rw [if_neg hlt.ne, hr.mem, if_neg (by omega), if_neg (by omega)]
    · rw [if_pos rfl, if_pos (by omega), if_neg (by omega), eq_comm]
      exact and_congr_right fun hv => by rw [hv]
    · rw [if_neg hgt.ne', if_pos (by omega), if_pos (by omega)]
      constructor
      · exact fun hlog => absurd (hr.le_now hlog) (by omega)
      · exact fun ⟨heq, hne⟩ => absurd heq.symm hne
  settled k hk := by
    rw [ChangeLog.write, ChangeLog.write, if_pos hk, if_pos (by omega)]

/-- A value that the period does not list yet is added. -/
theorem Records.push (hr : Records log h now) (hj : now ≤ j) (hfresh : ∀ e ∈ log, e.1 ≠ j)
    (hv : v ≠ h j) : Records (log ++ [(j, v)]) (ChangeLog.write h j v) j := by
  refine hr.write hj ?_ fun i w => ?_
  · rw [List.map_append, List.map_singleton]
    refine List.nodup_append.2 ⟨hr.nodup, List.nodup_singleton j, fun i hi k hk => ?_⟩
    obtain ⟨e, he, rfl⟩ := List.mem_map.1 hi
    rw [List.mem_singleton.1 hk]
    exact hfresh e he
  · rw [List.mem_append, List.mem_singleton, Prod.mk.injEq]
    by_cases hi : i = j
    · have hnot : (i, w) ∉ log := fun hmem => hfresh _ hmem hi
      rw [if_pos hi, or_iff_right hnot, and_iff_right hi, and_iff_left hv]
    · rw [if_neg hi]
      simp only [hi, false_and, or_false]

/-- A write of the value at the start of a period that is not listed. -/
theorem Records.skip (hr : Records log h now) (hj : now ≤ j) (hfresh : ∀ e ∈ log, e.1 ≠ j)
    (hv : v = h j) : Records log (ChangeLog.write h j v) j := by
  refine hr.write hj hr.nodup fun i w => ?_
  by_cases hi : i = j
  · rw [if_pos hi]
    constructor
    · exact fun hmem => absurd hi (hfresh _ hmem)
    · exact fun hw => absurd hv hw.2
  · rw [if_neg hi]

/-- A log that says nothing about earlier periods is emptied by a write back. -/
theorem Records.clear (hr : Records log h now) (hj : now ≤ j) (hlate : ∀ e ∈ log, j ≤ e.1)
    (hv : v = h j) : Records [] (ChangeLog.write h j v) j := by
  refine hr.write hj List.nodup_nil fun i w => ?_
  by_cases hi : i = j
  · rw [if_pos hi]
    exact ⟨nofun, fun hw => absurd hv hw.2⟩
  · rw [if_neg hi]
    refine ⟨nofun, fun hmem => ?_⟩
    have hge : j ≤ i := hlate _ hmem
    have hle := hr.le_now hmem
    omega

/-- An entry of a log is the only one about its period. -/
theorem Records.ne_of_split (hr : Records log h now) {l₁ l₂ : List (ℕ × β)} {e : ℕ × β}
    (hsplit : log = l₁ ++ e :: l₂) : ∀ e' ∈ l₁ ++ l₂, e'.1 ≠ e.1 := by
  have hnodup := hr.nodup
  rw [hsplit, List.map_append, List.map_cons, List.nodup_middle, List.nodup_cons,
    ← List.map_append] at hnodup
  intro e' he' heq
  exact hnodup.1 (heq ▸ List.mem_map_of_mem he')

/-- **A write back** to the value at the start of the period strikes its entry out. -/
theorem Records.strike (hr : Records log h now) (hj : now ≤ j) {l₁ l₂ : List (ℕ × β)} {u : β}
    (hsplit : log = l₁ ++ (j, u) :: l₂) (hv : v = h j) :
    Records (l₁ ++ l₂) (ChangeLog.write h j v) j := by
  have hsub : (l₁ ++ l₂).Sublist log := by
    rw [hsplit]
    exact (List.Sublist.refl l₁).append (List.sublist_cons_self _ l₂)
  refine hr.write hj (hr.nodup.sublist (hsub.map _)) fun i w => ?_
  by_cases hi : i = j
  · rw [if_pos hi]
    exact ⟨fun hmem => absurd hi (hr.ne_of_split hsplit _ hmem), fun hw => absurd hv hw.2⟩
  · rw [if_neg hi, hsplit, List.mem_append, List.mem_append, List.mem_cons]
    have hne : (i, w) ≠ (j, u) := fun heq => hi (Prod.mk.inj heq).1
    rw [or_iff_right hne]

/-- Another value of the same period takes the place of the one that is listed. -/
theorem Records.replace (hr : Records log h now) (hj : now ≤ j) {l₁ l₂ : List (ℕ × β)} {u : β}
    (hsplit : log = l₁ ++ (j, u) :: l₂) (hv : v ≠ h j) :
    Records (l₁ ++ (j, v) :: l₂) (ChangeLog.write h j v) j := by
  refine hr.write hj ?_ fun i w => ?_
  · have hnodup := hr.nodup
    rw [hsplit, List.map_append, List.map_cons] at hnodup
    rwa [List.map_append, List.map_cons]
  · by_cases hi : i = j
    · have hnot : (i, w) ∉ l₁ ++ l₂ := fun hmem => hr.ne_of_split hsplit _ hmem hi
      rw [List.mem_append, not_or] at hnot
      rw [if_pos hi, List.mem_append, List.mem_cons, or_iff_right hnot.1, or_iff_left hnot.2,
        Prod.mk.injEq, and_iff_right hi, and_iff_left hv]
    · have hne : ∀ x, (i, w) ≠ (j, x) := fun x heq => hi (Prod.mk.inj heq).1
      rw [if_neg hi, hsplit, List.mem_append, List.mem_append, List.mem_cons, List.mem_cons,
        or_iff_right (hne v), or_iff_right (hne u)]

/-! ### Earlier periods -/

@[simp] theorem earlier_append (j : ℕ) (log log' : List (ℕ × β)) :
    earlier j (log ++ log') = earlier j log ++ earlier j log' := List.filter_append log log'

/-- An entry about a period that is not earlier does not count. -/
theorem earlier_cons_of_le {i : ℕ} (hi : j ≤ i) (v : β) :
    earlier j ((i, v) :: log) = earlier j log :=
  List.filter_cons_of_neg (by simpa using hi)

theorem earlier_of_le (he : ∀ e ∈ log, j ≤ e.1) : earlier j log = [] :=
  List.filter_eq_nil_iff.2 fun e hmem => by simpa using he e hmem

/-- Logs that agree about the periods before one agree about those before an earlier one. -/
theorem earlier_mono {i : ℕ} (hi : i ≤ j) (heq : earlier j log = earlier j log') :
    earlier i log = earlier i log' := by
  have hcut : ∀ l : List (ℕ × β), earlier i l = earlier i (earlier j l) := by
    intro l
    rw [earlier, earlier, earlier, List.filter_filter]
    refine List.filter_congr fun e _ => ?_
    rw [← Bool.decide_and, decide_eq_decide]
    exact ⟨fun h => ⟨h, h.trans_le hi⟩, fun h => h.1⟩
  rw [hcut log, heq, ← hcut log']

end ChangeLog

end Tvmjs
