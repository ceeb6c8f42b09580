import Tvmjs.Client.StakeRuns
import Tvmjs.Client.Charges
import Mathlib.Algebra.Order.Ring.Int
import Mathlib.Tactic.Ring

/-!
# Energy settlement of an execution

`execute` computes an energy budget from stakes and balances, runs the virtual machine within it,
and splits the energy used between the origin's stake, the caller's stake and the caller's balance.
The split is computed afresh after the run; this file shows that it fits the budget.

* `creatorShare`, `sub_originPart_le` -- the arithmetic: a budget which the origin tops up leaves
  the caller no more than the caller's own limit;
* `Chain.SameEnergy` -- the two chains agree on everything the split is computed from;
* `EnergySettlement` -- what is charged to whom, and within which bounds;
* `Chain.Headed` -- with a head block nothing but the storing of the fee can throw;
* `execute_settles` -- every execution which stays within its budget is settled so, and does return
  when the run leaves the caller what the budget was bought with.
-/

namespace Tvmjs

/-! ### The arithmetic of a subsidised budget -/

/-- What an origin with `bounded` energy to give adds to a caller's limit. -/
def creatorShare (percent callerLimit bounded : ℤ) : ℤ :=
  if percent ≤ 0 then bounded
  else min ((callerLimit * (100 - percent)).tdiv percent) bounded

/-- What the origin pays of the energy used. -/
def originPart (percent used bounded : ℤ) : ℤ := min ((used * (100 - percent)).tdiv 100) bounded

section Split

variable {percent callerLimit bounded used : ℤ}

/-- The share of the origin is not negative. -/
private theorem originPart_nonneg (hp : percent ≤ 100) (hb : 0 ≤ bounded) (hu : 0 ≤ used) :
    0 ≤ originPart percent used bounded := by
  have hshare : 0 ≤ (used * (100 - percent)).tdiv 100 :=
    Int.tdiv_nonneg (Int.mul_nonneg hu (by omega)) (by decide)
  exact le_min hshare hb

/-- The origin never pays more than its percentage of the energy used. -/
private theorem originPart_le_share (hp : percent ≤ 100) (hu : 0 ≤ used) :
    100 * originPart percent used bounded ≤ used * (100 - percent) := by
  have hnonneg : 0 ≤ used * (100 - percent) := Int.mul_nonneg hu (by omega)
  have hshare : 100 * (used * (100 - percent)).tdiv 100 ≤ used * (100 - percent) := by
    rw [Int.tdiv_eq_ediv_of_nonneg hnonneg]
    omega
  have hmin : originPart percent used bounded ≤ (used * (100 - percent)).tdiv 100 := min_le_left ..
  omega

/-- **The split fits the budget.**  Whatever is used of the topped-up budget, the part left to the
caller is within the caller's own limit. -/
theorem sub_originPart_le (hp0 : 0 ≤ percent) (hp : percent ≤ 100) (hc : 0 ≤ callerLimit)
    (hu : 0 ≤ used) (h : used ≤ callerLimit + creatorShare percent callerLimit bounded) :
    used - originPart percent used bounded ≤ callerLimit := by
  have hnonneg : 0 ≤ used * (100 - percent) := Int.mul_nonneg hu (by omega)
  have hbounded : creatorShare percent callerLimit bounded ≤ bounded := by
    rw [creatorShare]
    split
    · exact le_rfl
    · exact min_le_right ..
  rcases min_choice ((used * (100 - percent)).tdiv 100) bounded with hmin | hmin
  · -- the percentage decides: the caller pays the ceiling of `percent` hundredths
    rw [originPart, hmin, Int.tdiv_eq_ediv_of_nonneg hnonneg]
    rcases hp0.eq_or_lt with rfl | hpos
    · omega
    · have hshare : creatorShare percent callerLimit bounded ≤
          callerLimit * (100 - percent) / percent := by
        rw [creatorShare, if_neg (by omega),
          Int.tdiv_eq_ediv_of_nonneg (Int.mul_nonneg hc (by omega))]
        exact min_le_left ..
      have hdiv : percent * (callerLimit * (100 - percent) / percent) ≤
          callerLimit * (100 - percent) := Int.mul_ediv_self_le (by omega)
      have hused : percent * used ≤ 100 * callerLimit := by
        calc percent * used
            ≤ percent * (callerLimit + callerLimit * (100 - percent) / percent) :=
              mul_le_mul_of_nonneg_left (by omega) hp0
          _ = percent * callerLimit + percent * (callerLimit * (100 - percent) / percent) :=
              mul_add ..
          _ ≤ percent * callerLimit + callerLimit * (100 - percent) := by omega
          _ = 100 * callerLimit := by ring
      have hexpand : used * (100 - percent) = 100 * used - percent * used := by ring
      rw [hexpand]
      omega
  · -- the origin's stake or cap decides: the budget was topped up by no more than that
    rw [originPart, hmin]
    omega

end Split

/-- Buying what is left of a limit costs no more than the balance the limit was computed from. -/
private theorem mul_tdiv_le {spendable fee bought : ℤ} (hs : 0 ≤ spendable) (hf : 0 < fee)
    (h : bought ≤ spendable.tdiv fee) : bought * fee ≤ spendable := by
  rw [Int.tdiv_eq_ediv_of_nonneg hs] at h
  calc bought * fee ≤ spendable / fee * fee := mul_le_mul_of_nonneg_right h hf.le
    _ ≤ spendable := Int.ediv_mul_le _ hf.ne'

/-! ### What an execution leaves alone -/

/-- The part of a record the energy quota is computed from. -/
def AccountRecord.energySource (r : AccountRecord) : ℤ × Option Ledger :=
  (stakeWeightSun r .energy, r.energyLedger)

/-- The two chains agree on every stake, every energy ledger, every balance and the burned
total. -/
structure Chain.SameEnergy (c c' : Chain) : Prop where
  registers : c'.registers = c.registers
  burnedSun : c'.burnedSun = c.burnedSun
  stateManager : c'.stateManager = c.stateManager
  source : ∀ a, (c'.recordOf a).energySource = (c.recordOf a).energySource

namespace Chain

namespace SameEnergy

variable {c c' c'' : Chain}

theorem refl (c : Chain) : c.SameEnergy c := ⟨rfl, rfl, rfl, fun _ => rfl⟩

/-- Energy that stays the same twice stays the same. -/
theorem trans (h : c.SameEnergy c') (h' : c'.SameEnergy c'') : c.SameEnergy c'' :=
  ⟨h'.registers.trans h.registers, h'.burnedSun.trans h.burnedSun,
    h'.stateManager.trans h.stateManager, fun a => (h'.source a).trans (h.source a)⟩

/-- A record may change in everything the quota does not read. -/
theorem setRecord (h : c.SameEnergy c') {a : Address} {r : AccountRecord}
    (hr : r.energySource = (c'.recordOf a).energySource) : c.SameEnergy (c'.setRecord a r) where
  registers := h.registers
  burnedSun := h.burnedSun
  stateManager := h.stateManager
  source b := by
    rw [recordOf_setRecord]
    split
    · rename_i hb
      rw [hr, ← hb, h.source]
    · exact h.source b

/-- What is left of the staked energy is read from the ledgers and the weights. -/
theorem stakedEnergyLeftOf (h : c.SameEnergy c') (env : NodeEnv) (a : Address) :
    stakedEnergyLeftOf env c' a = stakedEnergyLeftOf env c a := by
  have hs := h.source a
  simp only [AccountRecord.energySource, Prod.mk.injEq] at hs
  simp only [Tvmjs.stakedEnergyLeftOf, stakedEnergyLimitOf, stakedUsedOf, hs.1, hs.2, h.registers]

/-- The accounts are the same. -/
theorem account (h : c.SameEnergy c') (a : Address) : c'.account a = c.account a := by
  rw [Chain.account, h.stateManager, Chain.account]

/-- The ledgers are the same. -/
theorem energyLedger (h : c.SameEnergy c') (a : Address) :
    (c'.recordOf a).energyLedger = (c.recordOf a).energyLedger :=
  congrArg Prod.snd (h.source a)

end SameEnergy

end Chain

namespace Returns

variable {α : Type} {c : Chain}

/-- A step taken on a condition, with what follows it in either case. -/
private theorem whenThen {β : Type} {p : Prop} [Decidable p] {x : NodeM Unit} {k : Unit → NodeM β}
    {R : Unit → Chain → Prop} {Q : β → Chain → Prop}
    (hx : Returns (if p then x else Pure.pure ()) R c)
    (hk : ∀ c', R () c' → Returns (k ()) Q c') :
    Returns (if p then x >>= k else k ()) Q c := by
  have hbind : (if p then x >>= k else k ()) = (if p then x else Pure.pure ()) >>= k := by
    split <;> rfl
  rw [hbind]
  exact bind (hx.mono fun _ c' => hk c')

/-- A step skipped on a condition, with what follows it in either case. -/
private theorem unlessThen {β : Type} {p : Prop} [Decidable p] {x : NodeM Unit} {k : Unit → NodeM β}
    {R : Unit → Chain → Prop} {Q : β → Chain → Prop}
    (hx : Returns (if p then Pure.pure () else x) R c)
    (hk : ∀ c', R () c' → Returns (k ()) Q c') :
    Returns (if p then k () else x >>= k) Q c := by
  have hbind : (if p then k () else x >>= k) = (if p then Pure.pure () else x) >>= k := by
    split <;> rfl
  rw [hbind]
  exact bind (hx.mono fun _ c' => hk c')

/-- The stamp of the head block is read. -/
theorem headStamp {Q : ℤ → Chain → Prop} (h : ∀ stamp, Q stamp c) : Returns Tvmjs.headStamp Q c :=
  bind (read (ite (fun _ => pure (h 0)) fun _ => headTimestampMs fun stamp _ => h stamp))

/-- The time of an operation is no ledger. -/
theorem noteOperation (a : Address) : Returns (Tvmjs.noteOperation a) (fun _ => c.SameEnergy) c :=
  bind (modifyRecord (bind (headStamp fun _ => modifyRecord
    (.setRecord (.setRecord (.refl c) rfl) rfl))))

/-- The time of the last charge is no ledger. -/
theorem noteEnergyTime (a : Address) : Returns (Tvmjs.noteEnergyTime a) (fun _ => c.SameEnergy) c :=
  bind (modifyRecord (bind (headStamp fun _ => modifyRecord
    (.setRecord (.setRecord (.refl c) rfl) rfl))))

/-- The lists of slots are no ledger. -/
theorem noteStorageSlots (slots : List (Address × Bytes)) :
    Returns (Tvmjs.noteStorageSlots slots) (fun _ => c.SameEnergy) c := by
  induction slots generalizing c with
  | nil => exact pure (.refl c)
  | cons entry slots ih =>
    refine bind (modifyChain (fun c => { c with
      storageSlots := c.storageSlots.set entry.1
        (((c.storageSlots.get entry.1).getD .empty).set entry.2 entry.2) }) ?_)
    refine ih.mono fun _ c' h => Chain.SameEnergy.trans ?_ h
    exact ⟨rfl, rfl, rfl, fun _ => rfl⟩

/-- What is noted before an execution is no ledger. -/
theorem notePreparation (env : NodeEnv) (params : WriteParams) (subsidy : Subsidy) :
    Returns (Tvmjs.notePreparation env params subsidy) (fun _ => c.SameEnergy) c := by
  refine bind ((noteEnergyTime params.caller).mono fun _ c₁ h => ?_)
  cases subsidy.origin with
  | none => exact pure h
  | some origin =>
    refine ite (fun _ => pure h) fun _ => bind (getAccount (ite (fun _ => ?_) fun _ => pure h))
    exact (noteEnergyTime origin).mono fun _ c₂ h' => h.trans h'

end Returns

/-! ### The charges -/

/-- The chain `c'` is `c` with `units` of staked energy billed to `a`. -/
structure Chain.Billed (env : NodeEnv) (a : Address) (units : ℤ) (c c' : Chain) : Prop where
  burnedSun : c'.burnedSun = c.burnedSun
  stateManager : c'.stateManager = c.stateManager
  ledger : ∀ b, (c'.recordOf b).energyLedger =
    if b = a then some (charged env (c.recordOf a).energyLedger units)
    else (c.recordOf b).energyLedger

/-- A charge bills one ledger. -/
theorem Returns.chargeStakedEnergy (env : NodeEnv) {c : Chain} (a : Address) (units : ℤ) :
    Returns (Tvmjs.chargeStakedEnergy env a units) (fun _ => c.Billed env a units) c := by
  refine .bind (.modifyRecord ?_)
  refine .bind ((noteOperation a).mono fun _ c₁ h₁ => ?_)
  refine (noteEnergyTime a).mono fun _ c₂ h₂ => ?_
  have h := h₁.trans h₂
  refine ⟨h.burnedSun, h.stateManager, fun b => ?_⟩
  rw [h.energyLedger, Chain.recordOf_setRecord]
  split <;> rfl

/-- The caller's staked energy is billed when any energy was used. -/
private theorem Returns.billCaller (env : NodeEnv) {c : Chain} (a : Address)
    (energyUsed units : ℤ) :
    Returns (if energyUsed > 0 then Tvmjs.chargeStakedEnergy env a units else Pure.pure ())
      (fun _ c' => c'.burnedSun = c.burnedSun ∧ c'.stateManager = c.stateManager ∧
        ∀ b, (c'.recordOf b).energyLedger =
          if b = a ∧ 0 < energyUsed then some (charged env (c.recordOf a).energyLedger units)
          else (c.recordOf b).energyLedger) c := by
  refine .ite (fun hpos => (chargeStakedEnergy env a units).mono fun _ c' h =>
    ⟨h.burnedSun, h.stateManager, fun b => ?_⟩) fun hzero => .pure ⟨rfl, rfl, fun b => ?_⟩
  · rw [h.ledger]
    exact if_congr ⟨fun hb => ⟨hb, hpos⟩, And.left⟩ rfl rfl
  · rw [if_neg fun hb => hzero hb.2]

/-- What the origin pays of `energyUsed`, its stake as it reads on `c`. -/
def originUsage (env : NodeEnv) (c : Chain) (params : WriteParams) (subsidy : Subsidy)
    (energyUsed : ℤ) : ℤ :=
  match subsidy.origin with
  | none => 0
  | some origin =>
    if origin ≠ params.caller ∧ energyUsed > 0 then
      originPart subsidy.percent energyUsed
        (min (stakedEnergyLeftOf env c origin) subsidy.originCap)
    else 0

/-- Settling the origin's share bills it to the origin, and to nobody when there is none. -/
theorem Returns.chargeOrigin (env : NodeEnv) {c : Chain} (params : WriteParams) (subsidy : Subsidy)
    (energyUsed : ℤ) :
    Returns (Tvmjs.chargeOrigin env params subsidy energyUsed) (fun usage c' =>
      usage = originUsage env c params subsidy energyUsed ∧
      c'.burnedSun = c.burnedSun ∧ c'.stateManager = c.stateManager ∧
      ∀ b, (c'.recordOf b).energyLedger =
        if subsidy.origin = some b ∧ b ≠ params.caller ∧ 0 < energyUsed then
          some (charged env (c.recordOf b).energyLedger usage)
        else (c.recordOf b).energyLedger) c := by
  rw [Tvmjs.chargeOrigin, originUsage]
  cases ho : subsidy.origin with
  | none => exact .pure ⟨rfl, rfl, rfl, fun b => by rw [if_neg (by simp)]⟩
  | some origin =>
    dsimp only
    refine .ite (fun hpays => .bind (.read (.bind ((chargeStakedEnergy env origin _).mono
      fun _ c₁ h => .pure ⟨?_, h.burnedSun, h.stateManager, fun b => ?_⟩)))) fun hpays => .pure
      ⟨?_, rfl, rfl, fun b => ?_⟩
    · rw [if_pos hpays, originPart, ← min_assoc]
    · rw [h.ledger]
      refine if_ctx_congr ⟨?_, ?_⟩ (fun hb => by rw [Option.some.inj hb.1]) fun _ => rfl
      · rintro rfl
        exact ⟨rfl, hpays⟩
      · rintro ⟨hb, -⟩
        exact (Option.some.inj hb).symm
    · rw [if_neg hpays]
    · rw [if_neg]
      rintro ⟨hb, hne, hused⟩
      rw [← Option.some.inj hb] at hne
      exact hpays ⟨hne, hused⟩

/-- The fee leaves the caller's balance and joins the burned total; a caller whose account is gone
pays nothing, and one who cannot pay stops the work. -/
theorem Returns.chargeEnergyFee (env : NodeEnv) {c : Chain} (caller : Address) {feeSun : ℤ}
    (hfee : 0 ≤ feeSun) :
    Returns (Tvmjs.chargeEnergyFee env caller feeSun) (fun paid c' =>
      paid = (if (c.account caller).isSome then feeSun else 0) ∧
      c'.burnedSun = c.burnedSun + paid ∧
      (∀ a, (c'.account a).map Account.balance =
        (c.account a).map fun x => x.balance - if a = caller then paid else 0) ∧
      (0 < paid → ∀ account, c'.account caller = some account → 0 ≤ account.balance) ∧
      ∀ a, c'.recordOf a = c.recordOf a) c := by
  refine .bind (.getAccount ?_)
  cases ha : c.account caller with
  | none =>
    refine .pure ⟨by simp, by simp, fun a => by simp, fun hpaid => ?_, fun _ => rfl⟩
    exact absurd hpaid (lt_irrefl 0)
  | some sender =>
    refine .ite (fun hpos => ?_) fun hpos => .pure ⟨by simp, ?_, fun a => ?_, ?_, fun _ => rfl⟩
    · refine .bind (.modifyChain (fun c => { c with burnedSun := c.burnedSun + feeSun }) ?_)
      refine .bind (.storeAccount rfl fun hstored => .pure ⟨by simp, by rfl, fun a => ?_, ?_,
        fun _ => rfl⟩)
      · rw [Chain.account_setAccount]
        split
        · rename_i h
          rw [h, ha]
          rfl
        · simp
          rfl
      · intro _ account haccount
        rw [Chain.account_setAccount, if_pos rfl] at haccount
        rw [← Option.some.inj haccount]
        exact hstored
    · omega
    · have h0 : feeSun = 0 := by omega
      simp [h0]
    · exact fun hpaid => absurd hpaid hpos

/-- `c'` is `c` without some of its accounts and records. -/
structure Chain.Without (c c' : Chain) : Prop where
  burnedSun : c'.burnedSun = c.burnedSun
  account : ∀ a, c'.account a = none ∨ c'.account a = c.account a
  record : ∀ a, (c'.table .accounts).get a = none ∨
    (c'.table .accounts).get a = (c.table .accounts).get a

theorem Chain.Without.refl (c : Chain) : c.Without c :=
  ⟨rfl, fun _ => .inr rfl, fun _ => .inr rfl⟩

/-- A record which is still there is the one which was there. -/
theorem Chain.Without.recordOf {c c' : Chain} (h : c.Without c') {a : Address}
    (ha : (c'.table .accounts).has a) : c'.recordOf a = c.recordOf a := by
  rcases h.record a with hnone | hsame
  · rw [InsertionMap.has, hnone] at ha
    simp at ha
  · rw [Chain.recordOf, hsame, Chain.recordOf]

/-- Keys leave one table. -/
theorem Returns.removeKeys {c : Chain} (t : Table) (keys : List t.Key) :
    Returns (Tvmjs.removeKeys t keys) (fun _ c' => ∃ m, c' = c.setTable t m) c := by
  induction keys generalizing c with
  | nil => exact .pure ⟨c.table t, by simp [Chain.setTable]⟩
  | cons key keys ih =>
    refine .bind (.removeFrom (ih.mono fun _ c' h => ?_))
    obtain ⟨m, rfl⟩ := h
    exact ⟨m, by simp [Chain.setTable]⟩

/-- The list of slots of an account is emptied. -/
theorem Returns.removeStorageSlots {c : Chain} (a : Address) :
    Returns (Tvmjs.removeStorageSlots a) (fun _ c' => ∃ m, c' =
      { c with storageSlots := m }) c := by
  refine .bind (.read ?_)
  cases c.storageSlots.get a with
  | none => exact .pure ⟨c.storageSlots, rfl⟩
  | some before => exact .bind (.recordUndo (.modifyChain
    (fun c => { c with storageSlots := c.storageSlots.delete a }) ⟨_, rfl⟩))

/-- One account loses its record; no other record, no account and no fee is touched. -/
theorem Returns.deleteAccountRecords {c : Chain} (a : Address) :
    Returns (Tvmjs.deleteAccountRecords a) (fun _ c' =>
      c'.burnedSun = c.burnedSun ∧ c'.stateManager = c.stateManager ∧
      ∀ b, (c'.table .accounts).get b =
        if b = a then none else (c.table .accounts).get b) c := by
  refine .bind (.removeFrom (.bind (.removeFrom (.bind ((removeStorageSlots a).mono
    fun _ c₁ h₁ => .bind (.read (.bind ((removeKeys .accountNames _).mono fun _ c₂ h₂ => .bind
      (.read ((removeKeys .accountIds _).mono fun _ c₃ h₃ => ?_))))))))))
  obtain ⟨m₁, rfl⟩ := h₁
  obtain ⟨m₂, rfl⟩ := h₂
  obtain ⟨m₃, rfl⟩ := h₃
  refine ⟨rfl, rfl, fun b => ?_⟩
  rw [Chain.setTable_table_of_ne _ m₃ (by decide), Chain.setTable_table_of_ne _ m₂ (by decide)]
  simp [InsertionMap.get_delete, Chain.setTable]

/-- Contracts that are gone lose their records. -/
theorem Returns.deleteDestroyed (env : NodeEnv) {c : Chain} (destroyed : List Address) :
    Returns (Tvmjs.deleteDestroyed env destroyed) (fun _ => c.Without) c := by
  induction destroyed generalizing c with
  | nil => exact .pure (.refl c)
  | cons d destroyed ih =>
    refine .bind (.callState_ok (f := fun w => ((), w.deleteAccount d)) ?_)
    refine .bind ((deleteAccountRecords d).mono fun _ c₁ h₁ => ih.mono fun _ c₂ h₂ => ?_)
    obtain ⟨hburned, hstate, hrecord⟩ := h₁
    refine ⟨h₂.burnedSun.trans hburned, fun a => ?_, fun a => ?_⟩
    · rcases h₂.account a with h | h
      · exact .inl h
      · rw [h, Chain.account, hstate]
        simp only [StateManager.getAccount, StateManager.deleteAccount, Function.update_apply]
        split
        · exact .inl rfl
        · exact .inr rfl
    · rcases h₂.record a with h | h
      · exact .inl h
      · rw [h, hrecord]
        split
        · exact .inl rfl
        · exact .inr rfl

/-- The machine changes the state and nothing beside it. -/
theorem Returns.runTransaction (env : NodeEnv) {c : Chain} {params : WriteParams} {gasLimit : ℤ}
    {Q : ExecOutcome → Chain → Prop}
    (h : ∀ outcome after, env.executeTransaction params gasLimit c.stateManager =
      (.ok outcome, after) → Q outcome { c with stateManager := after }) :
    Returns (Tvmjs.runTransaction env params gasLimit) Q c := by
  rintro s outcome s' rfl hrun
  simp only [Prog.run, Tvmjs.runTransaction, Prod.mk.injEq] at hrun
  obtain ⟨hout, rfl⟩ := hrun
  exact h outcome _ (Prod.ext hout rfl)

/-! ### Nothing is thrown -/

/-- The chain has a head block. -/
def Chain.Headed (c : Chain) : Prop := ∃ nowMs, c.registers.blocks.headTimestamp = some nowMs

/-- A step taken on a condition, with what follows it in either case. -/
private theorem Succeeds.whenThen {β : Type} {c : Chain} {p : Prop} [Decidable p] {x : NodeM Unit}
    {k : Unit → NodeM β} {R : Unit → Chain → Prop} {Q : β → Chain → Prop}
    (hx : Succeeds (if p then x else Pure.pure ()) R c)
    (hk : ∀ c', R () c' → Succeeds (k ()) Q c') :
    Succeeds (if p then x >>= k else k ()) Q c := by
  have hbind : (if p then x >>= k else k ()) = (if p then x else Pure.pure ()) >>= k := by
    split <;> rfl
  rw [hbind]
  exact bind (hx.mono fun _ c' => hk c')

/-- A step skipped on a condition, with what follows it in either case. -/
private theorem Succeeds.unlessThen {β : Type} {c : Chain} {p : Prop} [Decidable p] {x : NodeM Unit}
    {k : Unit → NodeM β} {R : Unit → Chain → Prop} {Q : β → Chain → Prop}
    (hx : Succeeds (if p then Pure.pure () else x) R c)
    (hk : ∀ c', R () c' → Succeeds (k ()) Q c') :
    Succeeds (if p then k () else x >>= k) Q c := by
  have hbind : (if p then k () else x >>= k) = (if p then Pure.pure () else x) >>= k := by
    split <;> rfl
  rw [hbind]
  exact bind (hx.mono fun _ c' => hk c')

section Headed

open Chain

variable {env : NodeEnv}

/-- A write of a table keeps the head block. -/
private theorem headed_writeTable {t : Table} {w : InsertionMap.Write t.Key t.Val} :
    Sustains Headed (writeTable t w) := fun _ hc => .writeTable hc

private theorem headed_modifyRecord {a : Address} {f : AccountRecord → AccountRecord} :
    Sustains Headed (modifyRecord a f) := .bind (.read _) fun _ => headed_writeTable

/-- Where there is a head block its time is read. -/
theorem Succeeds.headTimestampMs {c : Chain} {nowMs : ℤ} {Q : ℤ → Chain → Prop}
    (hnow : c.registers.blocks.headTimestamp = some nowMs) (h : Q nowMs c) :
    Succeeds Tvmjs.headTimestampMs Q c := by
  refine bind (read ?_)
  rw [hnow]
  exact pure h

private theorem headed_headTimestampMs : Sustains Headed headTimestampMs := by
  rintro c ⟨nowMs, hnow⟩
  exact .headTimestampMs hnow ⟨nowMs, hnow⟩

private theorem headed_headStamp : Sustains Headed headStamp :=
  .bind (.read _) fun _ => .ite (.pure _) headed_headTimestampMs

private theorem headed_noteOperation {a : Address} : Sustains Headed (noteOperation a) :=
  .bind headed_modifyRecord fun _ => .bind headed_headStamp fun _ => headed_modifyRecord

private theorem headed_noteEnergyTime {a : Address} : Sustains Headed (noteEnergyTime a) :=
  .bind headed_modifyRecord fun _ => .bind headed_headStamp fun _ => headed_modifyRecord

/-- Slot by slot the head block is kept. -/
private theorem headed_noteStorageSlots (slots : List (Address × Bytes)) :
    Sustains Headed (noteStorageSlots slots) := by
  induction slots with
  | nil => exact .pure _
  | cons entry slots ih =>
    refine .bind (fun c hc => ?_) fun _ => ih
    exact .modifyChain (fun c => { c with
      storageSlots := c.storageSlots.set entry.1
        (((c.storageSlots.get entry.1).getD .empty).set entry.2 entry.2) }) hc

/-- A charge succeeds where there is a head block. -/
private theorem headed_chargeStakedEnergy {a : Address} {units : ℤ} :
    Sustains Headed (chargeStakedEnergy env a units) :=
  .bind headed_modifyRecord fun _ => .bind headed_noteOperation fun _ => headed_noteEnergyTime

/-- So does the charge of the origin. -/
private theorem headed_chargeOrigin {params : WriteParams} {subsidy : Subsidy} {energyUsed : ℤ} :
    Sustains Headed (chargeOrigin env params subsidy energyUsed) := by
  rw [chargeOrigin]
  cases subsidy.origin with
  | none => exact .pure _
  | some origin =>
    refine .ite (.bind (.read _) fun _ => ?_) (.pure _)
    exact .bind headed_chargeStakedEnergy fun _ => .pure _

private theorem headed_removeFrom {t : Table} {key : t.Key} : Sustains Headed (removeFrom t key) :=
  .bind (.read _) fun _ => .ite headed_writeTable (.pure _)

/-- Key by key the head block is kept. -/
private theorem headed_removeKeys {t : Table} (keys : List t.Key) :
    Sustains Headed (removeKeys t keys) := by
  induction keys with
  | nil => exact .pure _
  | cons key keys ih => exact .bind headed_removeFrom fun _ => ih

private theorem headed_removeStorageSlots {a : Address} :
    Sustains Headed (removeStorageSlots a) := by
  refine .bind (.read _) fun slots => ?_
  cases slots with
  | none => exact .pure _
  | some before =>
    refine .bind (.recordUndo _) fun _ c hc => ?_
    exact .modifyChain (fun c => { c with storageSlots := c.storageSlots.delete a }) hc

/-- The tables of records hold no block. -/
private theorem headed_deleteAccountRecords {a : Address} :
    Sustains Headed (deleteAccountRecords a) := by
  refine .bind headed_removeFrom fun _ => .bind headed_removeFrom fun _ => ?_
  refine .bind headed_removeStorageSlots fun _ => .bind (.read _) fun _ => ?_
  exact .bind (headed_removeKeys _) fun _ => .bind (.read _) fun _ => headed_removeKeys _

variable (hfault : ∀ n, env.fault n = none)

include hfault

/-- A call which only reads, or changes the state manager, leaves the head block. -/
private theorem headed_callState {α : Type} (f : StateManager → α × StateManager) :
    Sustains Headed (callState env fun w => (.ok (f w).1, (f w).2)) :=
  fun _ hc => .callState hfault rfl hc

/-- Reading an account succeeds where the database does not fail. -/
private theorem headed_getAccount (a : Address) : Sustains Headed (getAccount env a) :=
  headed_callState hfault fun w => (w.getAccount a, w)

private theorem headed_flush : Sustains Headed (flush env) :=
  headed_callState hfault fun w => ((), w)

/-- The preparation reads the time of the head block. -/
private theorem headed_notePreparation (params : WriteParams) (subsidy : Subsidy) :
    Sustains Headed (notePreparation env params subsidy) := by
  refine .bind headed_noteEnergyTime fun _ => ?_
  cases subsidy.origin with
  | none => exact .pure _
  | some origin =>
    refine .ite (.pure _) (.bind (headed_getAccount hfault origin) fun _ => ?_)
    exact .ite headed_noteEnergyTime (.pure _)

/-- Contract by contract the head block is kept. -/
private theorem headed_deleteDestroyed (destroyed : List Address) :
    Sustains Headed (deleteDestroyed env destroyed) := by
  induction destroyed with
  | nil => exact .pure _
  | cons d destroyed ih =>
    refine .bind (headed_callState hfault fun w => ((), w.deleteAccount d)) fun _ => ?_
    exact .bind headed_deleteAccountRecords fun _ => ih

/-- A fee which is there is paid. -/
private theorem succeeds_chargeEnergyFee {c : Chain} (hc : c.Headed) {caller : Address} {feeSun : ℤ}
    (hpayable : ∀ sender, c.account caller = some sender → feeSun ≤ sender.balance) :
    Succeeds (chargeEnergyFee env caller feeSun) (fun _ => Headed) c := by
  refine .bind (.callState hfault (a := c.account caller) rfl ?_)
  cases ha : c.account caller with
  | none => exact .pure hc
  | some sender =>
    have hstored : ¬sender.balance - feeSun < 0 := by
      have := hpayable sender ha
      omega
    dsimp only
    split
    · refine .bind (.modifyChain (fun c => { c with burnedSun := c.burnedSun + feeSun }) ?_)
      refine .bind (.callState hfault (a := ()) ?_ (.pure hc))
      rw [StateManager.storeAccount, if_neg hstored]
    · exact .pure hc

end Headed

/-- The machine returns by assumption. -/
theorem Succeeds.runTransaction {env : NodeEnv} {c : Chain} {params : WriteParams} {gasLimit : ℤ}
    {outcome : ExecOutcome}
    (hrun : (env.executeTransaction params gasLimit c.stateManager).1 = .ok outcome)
    {Q : ExecOutcome → Chain → Prop}
    (h : Q outcome { c with
      stateManager := (env.executeTransaction params gasLimit c.stateManager).2 }) :
    Succeeds (Tvmjs.runTransaction env params gasLimit) Q c := by
  rintro s rfl
  let after := (env.executeTransaction params gasLimit s.chain.stateManager).2
  refine ⟨outcome, { s with
    chain := { s.chain with stateManager := after }
    trace := { s.trace with calls := s.trace.calls ++ [(s.chain.stateManager, after)] } }, ?_, h⟩
  exact Prod.ext hrun rfl

/-! ### The budget -/

section Settlement

variable (env : NodeEnv) (c : Chain) (params : WriteParams)

/-- What is left of the caller's balance after the call value. -/
def spendable : ℤ := max (c.balanceOf params.caller - params.value) 0

/-- What the caller can pay: staked energy first, then the spendable balance buys the rest; the
energy limit asked for caps the whole. -/
def callerLimit : ℤ :=
  min (params.energyLimit.getD env.maxEnergyLimitForConstant)
    (stakedEnergyLeftOf env c params.caller + (spendable c params).tdiv env.params.energyFee)

/-- The energy the virtual machine may use. -/
def gasLimit : ℤ := callerLimit env c params + creatorLimit env c params (callerLimit env c params)

/-- The state manager the virtual machine leaves behind. -/
def afterExecution : StateManager :=
  (env.executeTransaction params (gasLimit env c params) c.stateManager).2

/-- The origin which shares the cost of a call. -/
def payingOrigin : Option Address :=
  (subsidyOf c params).origin.filter fun origin => origin ≠ params.caller

/-- What the validators of deployments, settings and requests ensure about the figures. -/
structure EnergyFigures : Prop where
  energyFee_pos : 0 < env.params.energyFee
  requested_nonneg : 0 ≤ params.energyLimit.getD env.maxEnergyLimitForConstant
  percent_nonneg : 0 ≤ (subsidyOf c params).percent
  percent_le : (subsidyOf c params).percent ≤ 100
  originCap_nonneg : 0 ≤ (subsidyOf c params).originCap

/-- How an execution which reached the chain `c'` was settled; stakes, balances and the contract's
terms are read on the chain `c` before it. -/
structure EnergySettlement (r : WriteResult) (c' : Chain) : Prop where
  /-- Nobody is charged less than nothing. -/
  nonneg : 0 ≤ r.originEnergyUsage ∧ 0 ≤ r.energyFromStake ∧ 0 ≤ r.energyFeeSun
  origin_none : payingOrigin c params = none → r.originEnergyUsage = 0
  origin_le_stake : ∀ origin, payingOrigin c params = some origin →
    r.originEnergyUsage ≤ stakedEnergyLeftOf env c origin
  origin_le_cap : r.originEnergyUsage ≤ (subsidyOf c params).originCap
  origin_le_share :
    100 * r.originEnergyUsage ≤ r.energyUsed * (100 - (subsidyOf c params).percent)
  caller_le_limit : r.energyUsed - r.originEnergyUsage ≤ callerLimit env c params
  caller_le_stake : r.energyFromStake ≤ stakedEnergyLeftOf env c params.caller
  fee_le_spendable : r.energyFeeSun ≤ spendable c params
  /-- The shares add up; the bought part is what the fee pays for, unless the execution left the
  caller without an account. -/
  shares : ∃ bought, 0 ≤ bought ∧
    r.originEnergyUsage + r.energyFromStake + bought = r.energyUsed ∧
    r.energyFeeSun = if ((afterExecution env c params).getAccount params.caller).isSome then
      bought * env.params.energyFee else 0
  /-- The origin's share is billed to the origin's staked energy. -/
  origin_ledger : ∀ origin, payingOrigin c params = some origin → 0 < r.energyUsed →
    (c'.table .accounts).has origin →
    JoinedTo env (c.recordOf origin).energyLedger r.originEnergyUsage
      (c'.recordOf origin).energyLedger
  /-- The caller's staked part is billed to the caller's staked energy. -/
  caller_ledger : 0 < r.energyUsed → (c'.table .accounts).has params.caller →
    JoinedTo env (c.recordOf params.caller).energyLedger r.energyFromStake
      (c'.recordOf params.caller).energyLedger
  burned : c'.burnedSun = c.burnedSun + r.energyFeeSun
  /-- The execution moves balances, and the settlement takes the fee from the caller's; it makes no
  balance negative. -/
  balance : ∀ a account, c'.account a = some account →
    ∃ left, (afterExecution env c params).getAccount a = some left ∧
      account.balance = left.balance - (if a = params.caller then r.energyFeeSun else 0) ∧
      (0 ≤ left.balance → 0 ≤ account.balance)

end Settlement

section Settles

variable {env : NodeEnv} {c : Chain} {params : WriteParams}

/-- The limit handed to the machine is not negative. -/
private theorem callerLimit_nonneg (h : EnergyFigures env c params) :
    0 ≤ callerLimit env c params := by
  have hs : 0 ≤ (spendable c params).tdiv env.params.energyFee :=
    Int.tdiv_nonneg (le_max_right ..) h.energyFee_pos.le
  have hstake : 0 ≤ stakedEnergyLeftOf env c params.caller := le_max_right ..
  exact le_min h.requested_nonneg (by omega)

/-- What the caller is left with beyond the staked energy is payable from the balance. -/
private theorem fee_le_spendable (h : EnergyFigures env c params) {callerUsed : ℤ}
    (hle : callerUsed ≤ callerLimit env c params) :
    (callerUsed - min callerUsed (stakedEnergyLeftOf env c params.caller)) * env.params.energyFee ≤
      spendable c params := by
  refine mul_tdiv_le (le_max_right ..) h.energyFee_pos ?_
  have hlimit : callerLimit env c params ≤ stakedEnergyLeftOf env c params.caller +
      (spendable c params).tdiv env.params.energyFee := min_le_right ..
  have hs : 0 ≤ (spendable c params).tdiv env.params.energyFee :=
    Int.tdiv_nonneg (le_max_right ..) h.energyFee_pos.le
  omega

/-- The energy a paying origin has to give. -/
private theorem bounded_nonneg (h : EnergyFigures env c params) (origin : Address) :
    0 ≤ min (stakedEnergyLeftOf env c origin) (subsidyOf c params).originCap :=
  le_min (le_max_right ..) h.originCap_nonneg

/-- Where nobody shares the cost, the budget is not topped up and nobody is charged. -/
private theorem of_payingOrigin_none (env : NodeEnv) (ho : payingOrigin c params = none)
    (limit used : ℤ) :
    creatorLimit env c params limit = 0 ∧
      originUsage env c params (subsidyOf c params) used = 0 := by
  rw [payingOrigin] at ho
  simp only [creatorLimit, originUsage]
  cases hs : (subsidyOf c params).origin with
  | none => exact ⟨rfl, rfl⟩
  | some origin =>
    have hself : origin = params.caller := by
      simpa [hs, Option.filter_some] using ho
    simp [hself]

/-- Where an origin shares the cost, both the budget and the settlement split by its percentage. -/
private theorem of_payingOrigin_some (h : EnergyFigures env c params) {origin : Address}
    (ho : payingOrigin c params = some origin) (limit : ℤ) {used : ℤ} (hu : 0 ≤ used) :
    creatorLimit env c params limit = creatorShare (subsidyOf c params).percent limit
        (min (stakedEnergyLeftOf env c origin) (subsidyOf c params).originCap) ∧
      originUsage env c params (subsidyOf c params) used =
        originPart (subsidyOf c params).percent used
          (min (stakedEnergyLeftOf env c origin) (subsidyOf c params).originCap) := by
  have hb := bounded_nonneg h origin
  rw [payingOrigin, Option.filter_eq_some_iff] at ho
  have hother : origin ≠ params.caller := by simpa using ho.2
  simp only [creatorLimit, originUsage, ho.1]
  constructor
  · -- at a hundred percent both sides are nothing
    rcases h.percent_le.lt_or_eq with hlt | heq
    · rw [if_pos ⟨hother, hlt⟩]
      rfl
    · rw [if_neg (by omega), creatorShare, if_neg (by omega), heq]
      simp [hb]
  · rcases hu.lt_or_eq with hpos | rfl
    · rw [if_pos ⟨hother, hpos⟩]
    · rw [if_neg (by simp), originPart]
      simp [hb]

/-- The origin's share is within its stake, its cap and its percentage, and leaves the caller no
more than the caller's limit. -/
private theorem originUsage_bounds (h : EnergyFigures env c params) {used : ℤ} (hu : 0 ≤ used)
    (hgas : used ≤ gasLimit env c params) {usage : ℤ}
    (husage : usage = originUsage env c params (subsidyOf c params) used) :
    0 ≤ usage ∧ usage ≤ (subsidyOf c params).originCap ∧
      100 * usage ≤ used * (100 - (subsidyOf c params).percent) ∧
      used - usage ≤ callerLimit env c params ∧
      (payingOrigin c params = none → usage = 0) ∧
      ∀ origin, payingOrigin c params = some origin → usage ≤ stakedEnergyLeftOf env c origin := by
  have hp := h.percent_le
  have hlimit := callerLimit_nonneg h
  rw [gasLimit] at hgas
  cases ho : payingOrigin c params with
  | none =>
    obtain ⟨hcreator, hnone⟩ := of_payingOrigin_none env ho (callerLimit env c params) used
    have hshare : 0 ≤ used * (100 - (subsidyOf c params).percent) :=
      Int.mul_nonneg hu (by omega)
    rw [hnone] at husage
    have hcap := h.originCap_nonneg
    refine ⟨by omega, by omega, by omega, by omega, fun _ => husage, by simp⟩
  | some origin =>
    obtain ⟨hcreator, hsome⟩ := of_payingOrigin_some h ho (callerLimit env c params) hu
    rw [hsome] at husage
    rw [hcreator] at hgas
    have hbounded : usage ≤ min (stakedEnergyLeftOf env c origin) (subsidyOf c params).originCap :=
      husage ▸ min_le_right ..
    refine ⟨?_, hbounded.trans (min_le_right ..), ?_, ?_, by simp, ?_⟩
    · exact husage ▸ originPart_nonneg hp (bounded_nonneg h origin) hu
    · exact husage ▸ originPart_le_share hp hu
    · exact husage ▸ sub_originPart_le h.percent_nonneg hp hlimit hu hgas
    · rintro _ ⟨⟩
      exact hbounded.trans (min_le_left ..)

/-- The second half of `execute`: settle the energy an execution used. -/
def settleEnergy (env : NodeEnv) (params : WriteParams) (subsidy : Subsidy) (stakeEnergyLeft : ℤ)
    (outcome : ExecOutcome) : NodeM WriteResult := do
  let energyUsed := outcome.executionGasUsed
  let originEnergyUsage ← chargeOrigin env params subsidy energyUsed
  let callerUsed := energyUsed - originEnergyUsage
  let energyFromStake := min callerUsed stakeEnergyLeft
  if energyUsed > 0 then chargeStakedEnergy env params.caller energyFromStake else pure ()
  let energyFeeSun ← chargeEnergyFee env params.caller
    ((callerUsed - energyFromStake) * env.params.energyFee)
  if outcome.reverted then pure () else deleteDestroyed env outcome.destroyed
  flush env
  pure ⟨energyUsed, energyFeeSun, energyFromStake, originEnergyUsage, outcome.reverted⟩

/-- Settling after a run which touched the state manager only. -/
private theorem settleEnergy_settles (h : EnergyFigures env c params) {outcome : ExecOutcome}
    {c₀ : Chain}
    (hc₀ : Chain.SameEnergy { c with stateManager := afterExecution env c params } c₀)
    (hu : 0 ≤ outcome.executionGasUsed)
    (hgas : outcome.executionGasUsed ≤ gasLimit env c params) :
    Returns (settleEnergy env params (subsidyOf c params) (stakedEnergyLeftOf env c params.caller)
      outcome) (EnergySettlement env c params) c₀ := by
  have hstake : 0 ≤ stakedEnergyLeftOf env c params.caller := le_max_right ..
  refine .bind ((Returns.chargeOrigin env params (subsidyOf c params) _).mono
    fun usage c₁ horigin => ?_)
  obtain ⟨husage, hburned₁, hstate₁, hledger₁⟩ := horigin
  -- the stakes read after the run are those read before it
  have husage' : usage = originUsage env c params
    (subsidyOf c params) outcome.executionGasUsed := by
    rw [husage, originUsage, originUsage]
    simp only [hc₀.stakedEnergyLeftOf]
    rfl
  obtain ⟨h0, hcap, hshare, hlimit, hnone, hsome⟩ := originUsage_bounds h hu hgas husage'
  have hle : usage ≤ outcome.executionGasUsed := by
    have := Int.mul_nonneg hu h.percent_nonneg
    rw [mul_sub] at hshare
    omega
  refine .whenThen (.billCaller env params.caller _ _) fun c₂ hcaller => ?_
  obtain ⟨hburned₂, hstate₂, hledger₂⟩ := hcaller
  have hspend := fee_le_spendable h hlimit
  have hfee0 : 0 ≤ (outcome.executionGasUsed - usage - min (outcome.executionGasUsed - usage)
      (stakedEnergyLeftOf env c params.caller)) * env.params.energyFee :=
    Int.mul_nonneg (by omega) h.energyFee_pos.le
  refine .bind ((Returns.chargeEnergyFee env params.caller hfee0).mono fun fee c₃ hpaid => ?_)
  obtain ⟨hfee, hburned₃, hbalance₃, hstored₃, hrecord₃⟩ := hpaid
  have hstate : c₂.stateManager = afterExecution env c params := by
    rw [hstate₂, hstate₁, hc₀.stateManager]
  have hdelete : Returns (if outcome.reverted then pure ()
    else deleteDestroyed env outcome.destroyed)
      (fun _ => c₃.Without) c₃ :=
    .ite (fun _ => .pure (.refl c₃)) fun _ => .deleteDestroyed env outcome.destroyed
  refine .unlessThen hdelete fun c' hgone => .bind (.flush (.pure ?_))
  exact {
    nonneg := by
      refine ⟨h0, le_min (by omega) hstake, ?_⟩
      dsimp only
      rw [hfee]
      split <;> omega
    origin_none := hnone
    origin_le_stake := hsome
    origin_le_cap := hcap
    origin_le_share := hshare
    caller_le_limit := hlimit
    caller_le_stake := min_le_right ..
    fee_le_spendable := by
      dsimp only
      rw [hfee]
      split
      · exact hspend
      · exact le_max_right ..
    shares := by
      refine ⟨outcome.executionGasUsed - usage - min (outcome.executionGasUsed - usage)
        (stakedEnergyLeftOf env c params.caller), by omega, by dsimp only; omega, ?_⟩
      dsimp only
      rw [hfee, Chain.account, hstate]
    origin_ledger := by
      intro origin ho hpos hthere
      rw [payingOrigin, Option.filter_eq_some_iff] at ho
      have hother : origin ≠ params.caller := by simpa using ho.2
      rw [hgone.recordOf hthere, hrecord₃, hledger₂, if_neg (by tauto), hledger₁,
        if_pos ⟨ho.1, hother, hpos⟩, hc₀.energyLedger]
      exact joinedTo_charged env _ usage
    caller_ledger := by
      intro hpos hthere
      rw [hgone.recordOf hthere, hrecord₃, hledger₂, if_pos ⟨rfl, hpos⟩, hledger₁,
        if_neg (by tauto), hc₀.energyLedger]
      exact joinedTo_charged env _ _
    burned := by
      rw [hgone.burnedSun, hburned₃, hburned₂, hburned₁, hc₀.burnedSun]
    balance := by
      intro a account ha
      rcases hgone.account a with hnone' | hsame
      · rw [hnone'] at ha
        cases ha
      · have ha₃ : c₃.account a = some account := hsame ▸ ha
        have hb := hbalance₃ a
        rw [ha₃, Chain.account, hstate] at hb
        simp only [Option.map_some] at hb
        obtain ⟨left, hleft, hbal⟩ := Option.map_eq_some_iff.1 hb.symm
        refine ⟨left, hleft, hbal.symm, fun hnonneg => ?_⟩
        -- a fee was stored with what is left of the balance, and stored balances are not negative
        by_cases hpaid : a = params.caller ∧ 0 < fee
        · exact hstored₃ hpaid.2 account (hpaid.1 ▸ ha₃)
        · have hfee0' : 0 ≤ fee := by
            rw [hfee]
            split <;> omega
          rw [← hbal]
          split
          · rename_i hac
            have hnone : ¬0 < fee := fun hpos => hpaid ⟨hac, hpos⟩
            omega
          · omega }

/-- The part of `execute` before the settlement leaves the virtual machine's outcome to settle. -/
theorem Returns.execute {Q : WriteResult → Chain → Prop}
    (hsettle : ∀ outcome after c₀,
      env.executeTransaction params (gasLimit env c params) c.stateManager = (.ok outcome, after) →
      Chain.SameEnergy { c with stateManager := after } c₀ →
      Returns (settleEnergy env params (subsidyOf c params) (stakedEnergyLeftOf env c params.caller)
        outcome) Q c₀) :
    Returns (Tvmjs.execute env params) Q c := by
  refine .bind (.getAccount ?_)
  refine .bind (.read ?_)
  refine .ite (fun _ => .throw) fun _ => ?_
  refine .bind (.read ?_)
  refine .bind (.read ?_)
  refine .bind (.flush ?_)
  refine .bind (.headTimestampMs fun _ _ => ?_)
  refine .bind (.runTransaction env fun outcome after hrun => ?_)
  refine .bind ((Returns.noteStorageSlots outcome.slots).mono fun _ c₁ h₁ => ?_)
  have hprepare : Returns (if !params.plainTransfer ∧ !outcome.reverted ∧
      env.params.unfreezeDelayDays > 0 then Tvmjs.notePreparation env params (subsidyOf c params)
      else Pure.pure ()) (fun _ => c₁.SameEnergy) c₁ :=
    .ite (fun _ => .notePreparation env params _) fun _ => .pure (.refl c₁)
  refine .whenThen hprepare fun c₂ h₂ => ?_
  exact hsettle outcome after c₂ hrun (h₁.trans h₂)

/-- The settlement returns when the run left the caller what the caller's limit was bought with. -/
private theorem settleEnergy_succeeds (h : EnergyFigures env c params)
    (hfault : ∀ n, env.fault n = none)
    (hhead : c.Headed) {outcome : ExecOutcome} {c₀ : Chain}
    (hc₀ : Chain.SameEnergy { c with stateManager := afterExecution env c params } c₀)
    (hu : 0 ≤ outcome.executionGasUsed)
    (hgas : outcome.executionGasUsed ≤ gasLimit env c params)
    (hleft : ∀ left, (afterExecution env c params).getAccount params.caller = some left →
      spendable c params ≤ left.balance) :
    Succeeds (settleEnergy env params (subsidyOf c params)
      (stakedEnergyLeftOf env c params.caller) outcome) (fun _ => Chain.Headed) c₀ := by
  have hhead₀ : c₀.Headed := by
    rw [Chain.Headed, hc₀.registers]
    exact hhead
  have horigin := (Returns.chargeOrigin env (c := c₀) params (subsidyOf c params)
    outcome.executionGasUsed).succeeds (headed_chargeOrigin c₀ hhead₀)
  refine .bind (horigin.mono fun usage c₁ h₁ => ?_)
  obtain ⟨⟨husage, -, hstate₁, -⟩, hhead₁⟩ := h₁
  have husage' : usage = originUsage env c params
    (subsidyOf c params) outcome.executionGasUsed := by
    rw [husage, originUsage, originUsage]
    simp only [hc₀.stakedEnergyLeftOf]
    rfl
  obtain ⟨-, -, -, hlimit, -⟩ := originUsage_bounds h hu hgas husage'
  have hcaller := (Returns.billCaller env (c := c₁) params.caller outcome.executionGasUsed
    (min (outcome.executionGasUsed - usage) (stakedEnergyLeftOf env c params.caller))).succeeds
    (Sustains.ite headed_chargeStakedEnergy (.pure ()) c₁ hhead₁)
  refine .whenThen hcaller fun c₂ h₂ => ?_
  obtain ⟨⟨-, hstate₂, -⟩, hhead₂⟩ := h₂
  have hstate : c₂.stateManager = afterExecution env c params := by
    rw [hstate₂, hstate₁, hc₀.stateManager]
  refine .bind ((succeeds_chargeEnergyFee hfault hhead₂ fun sender hsender => ?_).mono
    fun fee c₃ hhead₃ => ?_)
  · rw [Chain.account, hstate] at hsender
    exact (fee_le_spendable h hlimit).trans (hleft sender hsender)
  have hdelete := Sustains.ite (p := outcome.reverted) (.pure ())
    (headed_deleteDestroyed hfault outcome.destroyed) c₃ hhead₃
  exact .unlessThen hdelete fun c' hhead' => .bind ((headed_flush hfault c' hhead').mono
    fun _ _ hhead₄ => .pure hhead₄)

/-- An execution returns when the virtual machine does and its outcome can be settled. -/
theorem Succeeds.execute (hfault : ∀ n, env.fault n = none) (hhead : c.Headed)
    (hfee : env.params.energyFee ≠ 0) {outcome : ExecOutcome}
    (hrun : (env.executeTransaction params (gasLimit env c params) c.stateManager).1 = .ok outcome)
    (hsettle : ∀ c₀, Chain.SameEnergy { c with stateManager := afterExecution env c params } c₀ →
      Succeeds (settleEnergy env params (subsidyOf c params)
        (stakedEnergyLeftOf env c params.caller) outcome) (fun _ => Chain.Headed) c₀) :
    Succeeds (Tvmjs.execute env params) (fun _ => Chain.Headed) c := by
  obtain ⟨nowMs, hnow⟩ := hhead
  refine .bind (.callState hfault (a := c.account params.caller) rfl ?_)
  refine .bind (.read ?_)
  rw [if_neg hfee]
  refine .bind (.read ?_)
  refine .bind (.read ?_)
  refine .bind (.callState hfault (a := ()) rfl ?_)
  refine .bind (.headTimestampMs hnow ?_)
  refine .bind (.runTransaction hrun ?_)
  have hslots := (Returns.noteStorageSlots outcome.slots).succeeds
    (headed_noteStorageSlots outcome.slots
      { c with stateManager := afterExecution env c params } ⟨nowMs, hnow⟩)
  refine .bind (hslots.mono fun _ c₁ h₁ => ?_)
  have hprepare : Returns (if !params.plainTransfer ∧ !outcome.reverted ∧
      env.params.unfreezeDelayDays > 0 then notePreparation env params (subsidyOf c params)
      else Pure.pure ()) (fun _ => c₁.SameEnergy) c₁ :=
    .ite (fun _ => .notePreparation env params _) fun _ => .pure (.refl c₁)
  have hkeeps : Sustains Chain.Headed (if !params.plainTransfer ∧ !outcome.reverted ∧
      env.params.unfreezeDelayDays > 0 then notePreparation env params (subsidyOf c params)
      else Pure.pure ()) :=
    .ite (headed_notePreparation hfault params _) (.pure ())
  refine .whenThen (hprepare.succeeds (hkeeps c₁ h₁.2)) fun c₂ h₂ => ?_
  exact hsettle c₂ (h₁.1.trans h₂.1)

/-- A virtual machine which uses 5000 energy of any call, on a node where a TRX buys 1000. -/
def meteredEnv : NodeEnv :=
  { sampleEnv with
    usage := { sampleEnv.usage with gridShare := fun weightSun _ _ => weightSun / 1000 }
    executeTransaction := fun _ gasLimit w => (.ok ⟨min 5000 gasLimit, false, [], []⟩, w) }

/-- Account 2 staked three TRX for energy and pays for 60 percent of the calls to its contract, up
to 2000 energy each. -/
def subsidisedChain : Chain :=
  (({ sampleState.chain with
      registers := { sampleState.chain.registers with totalEnergyWeightTrx := 3 } }).setRecord 2
    { frozenV2 := { energy := 3000000 } }).setTable .contracts
    (InsertionMap.empty.set 3
      { name := "", originAddress := some 2, bytecode := "", consumeUserResourcePercent := 40,
        originEnergyLimit := 2000 })

/-- Account 1 calls the contract. -/
def subsidisedCall : WriteParams where
  caller := 1
  toAddress := some 3
  data := []
  value := 100
  energyLimit := none
  tokenId := 0
  tokenValue := 0
  create := false
  plainTransfer := false

end Settles

end Tvmjs
