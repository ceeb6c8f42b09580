import Tvmjs.Base.FixedPoint
import Tvmjs.Client.Writes
import Mathlib.Data.Rat.Floor

/-!
# Usage over a window

`windowedUsage` with exact rationals in place of doubles: usage is held as a per-slot average which
recovers over a day.

* `windowedUsage` -- a ledger read or charged;
* `windowedUsage_of_elapsed_nonpos`, `windowedUsage_of_window`, `windowedUsage_nonneg`,
  `windowedUsage_antitone`, `windowedUsage_mono` -- what recovery does;
* `ChargedTo`, `JoinedTo` -- what a charge does to a ledger;
* `charged_bounds` -- what a charge stores against what the admission check read.
-/

namespace Tvmjs

/-! ### The arithmetic -/

/-- The window over which usage recovers, a day. -/
def BANDWIDTH_WINDOW_MS : ℚ := 86400000

/-- The window in slots. -/
def USAGE_WINDOW_SLOTS : ℚ := BANDWIDTH_WINDOW_MS / BLOCK_INTERVAL_MS

/-- The factor with which averages are kept. -/
def USAGE_PRECISION : ℚ := 1000000

/-- The slot a time lies in. -/
def slotOf (ms : ℤ) : ℤ := ⌊(ms : ℚ) / BLOCK_INTERVAL_MS⌋

/-- The slots between two times. -/
def elapsedSlots (lastMs nowMs : ℤ) : ℤ := slotOf nowMs - slotOf lastMs

/-- `windowedUsage(held, lastMs, nowMs, bytes)`: the ceilings, the rounding and the floor are the
source's. -/
def windowedUsage (held lastMs nowMs bytes : ℤ) : ℤ :=
  let window := USAGE_WINDOW_SLOTS
  let average : ℤ := ⌈held * USAGE_PRECISION / window⌉
  let delta := slotOf nowMs - slotOf lastMs
  let average : ℤ :=
    if delta > 0 then
      if (delta : ℚ) < window then ⌊average * (window - delta) / window + 1 / 2⌋ else 0
    else average
  let average := average + ⌈bytes * USAGE_PRECISION / window⌉
  ⌊average * window / USAGE_PRECISION⌋

open FixedPoint

private theorem windowedUsage_eq (held lastMs nowMs bytes : ℤ) :
    windowedUsage held lastMs nowMs bytes =
      scaleDown USAGE_PRECISION USAGE_WINDOW_SLOTS
        (fade USAGE_WINDOW_SLOTS (scaleUp USAGE_PRECISION USAGE_WINDOW_SLOTS held)
            (elapsedSlots lastMs nowMs) +
          scaleUp USAGE_PRECISION USAGE_WINDOW_SLOTS bytes) := rfl

private theorem USAGE_PRECISION_pos : 0 < USAGE_PRECISION := by norm_num [USAGE_PRECISION]

private theorem USAGE_WINDOW_SLOTS_pos : 0 < USAGE_WINDOW_SLOTS := by
  norm_num [USAGE_WINDOW_SLOTS, BANDWIDTH_WINDOW_MS, BLOCK_INTERVAL_MS]

/-- The precision is fine enough for two roundings. -/
private theorem two_mul_window_le : 2 * USAGE_WINDOW_SLOTS ≤ USAGE_PRECISION := by
  norm_num [USAGE_WINDOW_SLOTS, BANDWIDTH_WINDOW_MS, BLOCK_INTERVAL_MS, USAGE_PRECISION]

/-! ### Recovery -/

/-- Within a slot nothing is lost. -/
theorem windowedUsage_of_elapsed_nonpos {lastMs nowMs : ℤ} (h : elapsedSlots lastMs nowMs ≤ 0)
    (held bytes : ℤ) : windowedUsage held lastMs nowMs bytes = held + bytes := by
  rw [windowedUsage_eq, fade_of_nonpos h]
  exact scaleDown_scaleUp_add USAGE_PRECISION_pos USAGE_WINDOW_SLOTS_pos two_mul_window_le _ _

private theorem elapsedSlots_self (ms : ℤ) : elapsedSlots ms ms = 0 := sub_self _

/-- After a window only what joins is there. -/
theorem windowedUsage_of_window {lastMs nowMs : ℤ}
    (h : USAGE_WINDOW_SLOTS ≤ elapsedSlots lastMs nowMs) (held : ℤ) :
    windowedUsage held lastMs nowMs 0 = 0 := by
  have hpos : 0 < elapsedSlots lastMs nowMs := by
    exact_mod_cast USAGE_WINDOW_SLOTS_pos.trans_le h
  rw [windowedUsage_eq, fade_of_ge hpos h, scaleUp_zero, add_zero, scaleDown_zero]

theorem windowedUsage_nonneg {held bytes : ℤ} (hheld : 0 ≤ held) (hbytes : 0 ≤ bytes)
    (lastMs nowMs : ℤ) : 0 ≤ windowedUsage held lastMs nowMs bytes := by
  have hP := USAGE_PRECISION_pos.le
  have hW := USAGE_WINDOW_SLOTS_pos
  rw [windowedUsage_eq]
  exact scaleDown_nonneg hP hW.le (add_nonneg (fade_nonneg hW (scaleUp_nonneg hP hW.le hheld) _)
    (scaleUp_nonneg hP hW.le hbytes))

/-- Waiting longer never leaves more. -/
theorem windowedUsage_antitone {held : ℤ} (hheld : 0 ≤ held) (bytes : ℤ)
    {lastMs nowMs lastMs' nowMs' : ℤ}
    (h : elapsedSlots lastMs nowMs ≤ elapsedSlots lastMs' nowMs') :
    windowedUsage held lastMs' nowMs' bytes ≤ windowedUsage held lastMs nowMs bytes := by
  have hP := USAGE_PRECISION_pos.le
  have hW := USAGE_WINDOW_SLOTS_pos
  have hfade := fade_antitone hW (scaleUp_nonneg hP hW.le hheld) h
  rw [windowedUsage_eq, windowedUsage_eq]
  exact scaleDown_mono hP hW.le (add_le_add hfade le_rfl)

theorem windowedUsage_mono {held held' bytes bytes' : ℤ} (hheld : held ≤ held')
    (hbytes : bytes ≤ bytes') (lastMs nowMs : ℤ) :
    windowedUsage held lastMs nowMs bytes ≤ windowedUsage held' lastMs nowMs bytes' := by
  have hP := USAGE_PRECISION_pos.le
  have hW := USAGE_WINDOW_SLOTS_pos
  rw [windowedUsage_eq, windowedUsage_eq]
  exact scaleDown_mono hP hW.le (add_le_add
    (fade_mono hW (scaleUp_mono hP hW.le hheld) _) (scaleUp_mono hP hW.le hbytes))

/-- What joins shows up as itself or as one more, whatever the wait. -/
private theorem windowedUsage_join (held lastMs nowMs bytes : ℤ) :
    windowedUsage held lastMs nowMs 0 + bytes ≤ windowedUsage held lastMs nowMs bytes ∧
      windowedUsage held lastMs nowMs bytes ≤ windowedUsage held lastMs nowMs 0 + bytes + 1 := by
  have hP := USAGE_PRECISION_pos
  have hW := USAGE_WINDOW_SLOTS_pos
  have hfine : USAGE_WINDOW_SLOTS ≤ USAGE_PRECISION := by linarith [two_mul_window_le]
  rw [windowedUsage_eq, windowedUsage_eq, scaleUp_zero, add_zero]
  exact ⟨le_scaleDown_add_scaleUp hP hW _ _, scaleDown_add_scaleUp_le hP hW hfine _ _⟩

/-! ### Charging -/

/-- The surroundings with usage computed exactly. -/
def NodeEnv.exact (env : NodeEnv) : NodeEnv :=
  { env with usage := { env.usage with windowedUsage := windowedUsage } }

/-- The ledger `after` holds what `before` read, with `amount` added: rounded up by one at most. -/
structure ChargedTo (env : NodeEnv) (before : Option Ledger) (amount : ℤ) (after : Option Ledger) :
    Prop where
  stored : ∃ entry, after = some entry ∧ entry.lastMs = env.currentTimeMs ∧
    decayedUsage env before + amount ≤ entry.used ∧
    entry.used ≤ decayedUsage env before + amount + 1

/-- Every charge stores the reading and what is added, or one more. -/
theorem charged_bounds (env : NodeEnv) (ledger : Option Ledger) (amount : ℤ) :
    ChargedTo env.exact ledger amount (some (charged env.exact ledger amount)) := by
  refine ⟨_, rfl, rfl, ?_⟩
  rcases ledger with _ | entry
  · have hnew : (charged env.exact none amount).used = 0 + amount :=
      windowedUsage_of_elapsed_nonpos (elapsedSlots_self _).le 0 amount
    rw [hnew, decayedUsage]
    omega
  · exact windowedUsage_join entry.used entry.lastMs env.currentTimeMs amount

/-- The ledger `after` is `before` with `amount` joined now: `windowedUsage` of what it held since
its last charge, which for exact rationals is the reading with `amount` added, or one more. -/
structure JoinedTo (env : NodeEnv) (before : Option Ledger) (amount : ℤ) (after : Option Ledger) :
    Prop where
  fresh : before = none → after =
    some ⟨env.usage.windowedUsage 0 env.currentTimeMs env.currentTimeMs amount, env.currentTimeMs⟩
  held : ∀ entry, before = some entry → after =
    some ⟨env.usage.windowedUsage entry.used entry.lastMs env.currentTimeMs amount,
      env.currentTimeMs⟩
  exact : env.usage.windowedUsage = windowedUsage → ChargedTo env before amount after

/-- Surroundings that compute usage exactly are the exact ones. -/
private theorem NodeEnv.exact_eq {env : NodeEnv} (h : env.usage.windowedUsage = windowedUsage) :
    env.exact = env := by
  rw [NodeEnv.exact, ← h]

/-- Every charge joins the ledger. -/
theorem joinedTo_charged (env : NodeEnv) (ledger : Option Ledger) (amount : ℤ) :
    JoinedTo env ledger amount (some (charged env ledger amount)) where
  fresh h := by rw [h]; rfl
  held entry h := by rw [h]; rfl
  exact h := by
    have hbounds := charged_bounds env ledger amount
    rwa [NodeEnv.exact_eq h] at hbounds

end Tvmjs
