import Tvmjs.Client.StakeMoves
import Tvmjs.Client.StakeValidation

/-!
# Runs of staking operations

A run interleaves staking requests that passed their validators, plain moves of TRX, fees, refunds
and credits from outside.  Every state of a run keeps the invariant of the books, and every step
keeps the sun there is, up to what came from outside.

* `Chain.Consistent` -- the invariant;
* `Chain.Consistent.conserves` and the lemmas below it -- a request keeps it, and keeps the total;
* `StakeStep`, `StakeRun` -- the steps of a run and the runs.
-/

namespace Tvmjs

variable (env : NodeEnv) {c : Chain}

/-! ### What the validators promise -/

/-- A chain of checks passes where each of them does. -/
theorem refusal_eq_none {p : Prop} [Decidable p] {message : String} {rest : Option String} :
    (if p then some message else rest) = none ↔ ¬ p ∧ rest = none := by
  by_cases h : p <;> simp [h]

/-- A freeze that passes is covered by the balance. -/
theorem validateFreezeBalanceV2_eq_none {caller : Address} {amount : ℤ}
    {resource : Option StakeResource}
    (h : validateFreezeBalanceV2 env c caller amount resource = none) :
    0 < amount ∧ amount ≤ c.books.balance caller := by
  simp only [validateFreezeBalanceV2, refusal_eq_none] at h
  exact ⟨not_le.1 h.2.1, not_lt.1 h.2.2.2.1⟩

/-- An unfreeze that passes is covered by the stake. -/
theorem validateUnfreezeBalanceV2_eq_none {caller : Address} {amount : ℤ}
    {resource : StakeResource}
    (h : validateUnfreezeBalanceV2 env c caller amount (some resource) = none) :
    0 < amount ∧ amount ≤ c.books.frozen (caller, resource) := by
  simp only [validateUnfreezeBalanceV2, refusal_eq_none, not_or, not_le, not_lt] at h
  exact h.2.2.2.1

/-- A delegation that passes is covered by the stake. -/
theorem validateDelegateResource_eq_none {caller : Address} {receiver : Option Address}
    {amount : ℤ} {resource : Option StakeResource} {field : DelegatableResource} {lock : Bool}
    {statedPeriod : ℤ} (hfield : resource.bind StakeResource.toDelegatable = some field)
    (h : validateDelegateResource env c caller receiver amount resource lock statedPeriod = none) :
    0 < amount ∧ amount ≤ c.books.frozen (caller, field.toStake) := by
  simp only [validateDelegateResource, refusal_eq_none, hfield] at h
  obtain ⟨-, h1, hle, -⟩ := h
  have : delegatableSun env c caller field ≤ (c.recordOf caller).frozenV2.field field.toStake := by
    simp only [delegatableSun]
    omega
  exact ⟨by omega, by change amount ≤ (c.recordOf caller).frozenV2.field field.toStake; omega⟩

/-- The entry of a pair with its lock flag, where there is one. -/
private def entryOf (c : Chain) (owner receiver : Address) (locked : Bool) :
    Option (Bool × DelegationEntry) :=
  match (c.table .delegations).get (owner, receiver, locked) with
  | none => none
  | some held => if held.isEmpty then none else some (locked, held)

/-- An entry that was found is in the table. -/
private theorem entryOf_eq_some {c : Chain} {owner receiver : Address} {locked : Bool}
    {e : Bool × DelegationEntry} (h : entryOf c owner receiver locked = some e) :
    e.1 = locked ∧ (c.table .delegations).get (owner, receiver, locked) = some e.2 := by
  cases hget : (c.table .delegations).get (owner, receiver, locked) with
  | none => simp [entryOf, hget] at h
  | some held =>
    simp only [entryOf, hget, Option.ite_none_left_eq_some, Option.some.injEq] at h
    obtain ⟨-, rfl⟩ := h
    exact ⟨rfl, rfl⟩

/-- What an undelegation may take is there once the expired amounts are unlocked. -/
private theorem undelegatable_le (hs : c.books.Sound) (owner receiver : Address)
    (resource : DelegatableResource) (nowMs : ℤ) :
    undelegatable c owner receiver resource nowMs ≤
      c.books.entry (owner, receiver, false,
        resource) + c.expired owner receiver nowMs resource := by
  have hunlocked : ∀ e, entryOf c owner receiver false = some e →
      (if !e.1 ∨ e.2.expireMs resource < nowMs then e.2.pair.field resource else 0) =
        c.books.entry (owner, receiver, false, resource) := by
    intro e he
    obtain ⟨h1, hget⟩ := entryOf_eq_some he
    simp only [h1, Bool.not_false, true_or, if_true, Chain.books, hget, Option.getD_some]
  have hlocked : ∀ e, entryOf c owner receiver true = some e →
      (if !e.1 ∨ e.2.expireMs resource < nowMs then e.2.pair.field resource else 0) ≤
        c.expired owner receiver nowMs resource := by
    intro e he
    obtain ⟨h1, hget⟩ := entryOf_eq_some he
    have hentry := hs.entry_nonneg (owner, receiver, true, resource)
    simp only [Chain.books, hget, Option.getD_some] at hentry
    simp only [h1, Bool.not_true, Bool.false_eq_true, false_or, Chain.expired, hget]
    split
    · rw [if_pos (by omega)]
    · split
      · exact hentry
      · exact le_rfl
  have h0 := hs.entry_nonneg (owner, receiver, false, resource)
  have h1 := (hs.expired_mem owner receiver nowMs resource).1
  change ((([false, true].filterMap (entryOf c owner receiver)).map _).sum : ℤ) ≤ _
  cases hu : entryOf c owner receiver false with
  | none =>
    cases hl : entryOf c owner receiver true with
    | none => simpa [hu, hl] using Int.add_nonneg h0 h1
    | some e =>
      have := hlocked e hl
      simp only [List.filterMap_cons, List.filterMap_nil, hu, hl, List.map_cons, List.map_nil,
        List.sum_cons, List.sum_nil]
      omega
  | some e =>
    have := hunlocked e hu
    cases hl : entryOf c owner receiver true with
    | none =>
      simp only [List.filterMap_cons, List.filterMap_nil, hu, hl, List.map_cons, List.map_nil,
        List.sum_cons, List.sum_nil]
      omega
    | some e' =>
      have := hlocked e' hl
      simp only [List.filterMap_cons, List.filterMap_nil, hu, hl, List.map_cons, List.map_nil,
        List.sum_cons, List.sum_nil]
      omega

/-- An undelegation that passes is covered by the entry with what has expired. -/
theorem validateUnDelegateResource_eq_none (hs : c.books.Sound) {caller receiver : Address}
    {amount : ℤ} {resource : Option StakeResource} {field : DelegatableResource}
    (hfield : resource.bind StakeResource.toDelegatable = some field)
    (h : validateUnDelegateResource c caller (some receiver) amount resource = none) :
    ∃ nowMs, c.registers.blocks.headTimestamp = some nowMs ∧ 0 < amount ∧
      amount ≤ c.books.entry (caller, receiver, false, field) +
        c.expired caller receiver nowMs field := by
  simp only [validateUnDelegateResource, refusal_eq_none, hfield] at h
  obtain ⟨-, -, -, h0, h⟩ := h
  cases hnow : c.registers.blocks.headTimestamp with
  | none => simp [hnow] at h
  | some nowMs =>
    simp only [hnow, refusal_eq_none, not_lt, and_true] at h
    exact ⟨nowMs, rfl, not_le.1 h0, h.trans (undelegatable_le hs _ _ _ _)⟩

/-- A Stake 1.0 freeze names a receiver that may hold a delegation. -/
theorem validateFreezeBalance_eq_none {caller : Address} {amount duration : ℤ}
    {resource : StakeResource} {receiver : ReceiverField}
    (h : validateFreezeBalance env c caller amount duration (some resource) receiver = none) :
    0 < amount ∧ amount ≤ c.books.balance caller ∧
      ∀ target, receiver = .address target → env.params.allowDelegateResource = 1 →
        (c.account target).isSome ∧ c.accountTypeOf target ≠ some .contract := by
  simp only [validateFreezeBalance, refusal_eq_none] at h
  obtain ⟨-, h0, -, hle, -, -, -, h⟩ := h
  refine ⟨not_le.1 h0, not_lt.1 hle, ?_⟩
  rintro target rfl hallow
  simp only [hallow, if_true, refusal_eq_none] at h
  obtain ⟨-, hacc, htype, -⟩ := h
  exact ⟨Option.isSome_iff_ne_none.2 (by simpa using hacc), htype⟩

/-! ### The invariant, request by request -/

/-- The invariant of the staking state of a chain. -/
structure Chain.Consistent (c : Chain) : Prop where
  sound : c.books.Sound
  legacyHeld : c.LegacyHeld

/-- A step keeps the invariant when its books stay sound and a new Stake 1.0 delegation goes to an
account that may hold it. -/
theorem Chain.Consistent.step {c' : Chain} (hc : c.Consistent) (he : c.Extends c')
    (hs : c'.books.Sound)
    (hl : ∀ owner target field, c'.books.legacyEntry (owner, target, field) ≠ 0 →
      c.books.legacyEntry (owner, target, field) = 0 →
        (c.account target).isSome ∧ c.accountTypeOf target ≠ some .contract) :
    c'.Consistent := by
  refine ⟨hs, fun owner target field hne => ?_⟩
  have hheld : (c.account target).isSome ∧ c.accountTypeOf target ≠ some .contract := by
    by_cases h0 : c.books.legacyEntry (owner, target, field) = 0
    · exact hl owner target field hne h0
    · exact hc.legacyHeld owner target field h0
  exact ⟨he.account target hheld.1, fun h => hheld.2 ((he.type target).symm.trans h)⟩

/-- What a step of a run keeps: the invariant and the sun there is. -/
def Chain.Conserves (c : Chain) {α : Type} (_ : α) (c' : Chain) : Prop :=
  c'.Consistent ∧ c'.books.total = c.books.total

/-- A message stands for what is missing. -/
theorem Returns.orRejected {α : Type} {message : String} {o : Option α} {Q : α → Chain → Prop}
    (h : ∀ x, o = some x → Q x c) : Returns (Tvmjs.orRejected message o) Q c := by
  cases o with
  | none => exact .throw
  | some x => exact .pure (h x rfl)

/-- A receiver is taken only where delegation is allowed. -/
theorem Returns.target {field : ReceiverField} {resource : StakeResource}
    {Q : Option Address → Chain → Prop}
    (h : ∀ o : Option Address, (∀ a, o = some a → field = .address a ∧
      env.params.allowDelegateResource = 1) → Q o c) :
    Returns (field.target env resource) Q c := by
  cases field with
  | absent => exact .pure (h none fun _ h => nomatch h)
  | invalid => exact .ite (fun _ => .throw) fun _ => .pure (h none fun _ h => nomatch h)
  | address a =>
    refine .ite (fun hp => .pure (h _ ?_)) fun _ => .pure (h none fun _ h => nomatch h)
    rintro a' ha
    cases ha
    exact ⟨rfl, hp.2⟩

/-- A movement that leaves the Stake 1.0 entries alone keeps what a step has to keep. -/
theorem Chain.Consistent.conserves {α : Type} {a : α} {c' : Chain} {b : StakeBooks Address}
    (hc : c.Consistent) (hb : c'.books = b) (he : c.Extends c') (hs : b.Sound)
    (ht : b.total = c.books.total) (hl : b.legacyEntry = c.books.legacyEntry) :
    c.Conserves a c' := by
  subst hb
  exact ⟨hc.step he hs fun _ _ _ hne h0 => absurd (hl ▸ h0) hne, ht⟩

/-- A freeze that is covered conserves the total. -/
private theorem conserves_freezeV2 (hc : c.Consistent) {owner : Address} {amount : ℤ}
    (h0 : 0 ≤ amount)
    (hle : amount ≤ c.books.balance owner) (resource : StakeResource) :
    Returns (freezeV2 env owner amount resource) c.Conserves c :=
  (moves_freezeV2 env hc.sound h0 resource).mono fun _ _ ⟨hb, he⟩ =>
    hc.conserves hb he (hc.sound.freeze h0 hle resource) (StakeBooks.total_freeze ..) rfl

/-- Settling what has matured loses nothing. -/
private theorem StakeBooks.total_settleAt (b : StakeBooks Address) (owner : Address) (nowMs : ℤ) :
    (b.settleAt owner nowMs).total = b.total :=
  total_settle _ _ _ _ (unfrozenTotal_split _ _)

/-- An unfreeze that is covered conserves the total. -/
private theorem conserves_unfreezeV2 (hc : c.Consistent) {owner : Address} {amount : ℤ}
    (h0 : 0 ≤ amount)
    {resource : StakeResource} (hle : amount ≤ c.books.frozen (owner, resource)) :
    Returns (unfreezeV2 env owner amount resource) c.Conserves c :=
  (moves_unfreezeV2 env hc.sound hle).mono fun _ _ ⟨nowMs, _, _, hb, he⟩ =>
    hc.conserves hb he ((hc.sound.settleAt owner nowMs).unfreeze h0 hle)
      ((StakeBooks.total_unfreeze ..).trans (StakeBooks.total_settleAt ..)) rfl

/-- A withdrawal conserves the total. -/
private theorem conserves_withdrawExpiredUnfreeze (hc : c.Consistent) (owner : Address) :
    Returns (withdrawExpiredUnfreeze env owner) c.Conserves c :=
  (moves_withdrawExpiredUnfreeze env owner).mono fun _ _ ⟨nowMs, hb, he⟩ =>
    hc.conserves hb he (hc.sound.settleAt owner nowMs) (StakeBooks.total_settleAt ..) rfl

/-- Canceling conserves the total. -/
private theorem conserves_cancelAllUnfreezeV2 (hc : c.Consistent) (owner : Address) :
    Returns (cancelAllUnfreezeV2 env owner) c.Conserves c :=
  (moves_cancelAllUnfreezeV2 env hc.sound owner).mono fun _ _ ⟨nowMs, hb, he⟩ =>
    hc.conserves hb he ((hc.sound.settleAt owner nowMs).cancelAll owner)
      ((StakeBooks.total_cancelAll ..).trans (StakeBooks.total_settleAt ..)) rfl

/-- Unlocking what has expired keeps the books sound. -/
theorem StakeBooks.Sound.unlockBoth (hs : c.books.Sound) (owner receiver : Address) (nowMs : ℤ) :
    (c.books.unlockBoth owner receiver (c.expired owner receiver nowMs .bandwidth)
      (c.expired owner receiver nowMs .energy)).Sound := by
  obtain ⟨hb0, hb⟩ := hs.expired_mem owner receiver nowMs .bandwidth
  obtain ⟨he0, he⟩ := hs.expired_mem owner receiver nowMs .energy
  refine (hs.unlock hb0 hb).unlock he0 (he.trans (le_of_eq ?_))
  simp [StakeBooks.unlock, post]

/-- A delegation that is covered conserves the total. -/
private theorem conserves_delegateResource (hc : c.Consistent) {owner receiver : Address}
    {amount : ℤ}
    (h0 : 0 ≤ amount) {resource : DelegatableResource}
    (hle : amount ≤ c.books.frozen (owner, resource.toStake)) (lock : Bool)
    (lockPeriodBlocks : ℤ) :
    Returns (delegateResource owner receiver amount resource lock lockPeriodBlocks)
      c.Conserves c :=
  (moves_delegateResource owner receiver amount resource lock lockPeriodBlocks).mono
    fun _ _ ⟨nowMs, _, hb, he⟩ =>
      hc.conserves hb he ((hc.sound.unlockBoth owner receiver nowMs).delegate h0 hle lock)
        (StakeBooks.total_delegate ..) rfl

/-- An undelegation that is covered conserves the total. -/
private theorem conserves_undelegateResource (hc : c.Consistent) {owner receiver : Address}
    {amount nowMs : ℤ} {resource : DelegatableResource} (h0 : 0 < amount)
    (hnow : c.registers.blocks.headTimestamp = some nowMs)
    (hle : amount ≤ c.books.entry (owner, receiver, false, resource) +
      c.expired owner receiver nowMs resource) :
    Returns (undelegateResource env owner receiver amount resource) c.Conserves c := by
  refine (moves_undelegateResource env hc.sound h0 hnow hle).mono fun _ _ ⟨hb, he⟩ =>
    hc.conserves hb he ((hc.sound.unlockBoth owner receiver nowMs).undelegate h0.le ?_)
      (StakeBooks.total_undelegate ..) rfl
  rw [StakeBooks.entry_unlockBoth]
  cases resource <;> exact hle

/-- A freeze of the first version moves an amount, whoever receives it. -/
private theorem StakeBooks.total_freezeLegacy (b : StakeBooks Address) (owner : Address)
    (amount : ℤ)
    (resource : StakeResource) (target : Option (Address × DelegatableResource)) :
    (b.freezeLegacy owner amount resource target).total = b.total := by
  cases target with
  | none => exact total_freezeLegacyLocal ..
  | some p => exact total_freezeLegacyFor ..

/-- A freeze of the first version conserves the total where its receiver is an account. -/
private theorem conserves_freezeLegacy (hc : c.Consistent) {owner : Address} {amount : ℤ}
    (h0 : 0 ≤ amount) (hle : amount ≤ c.books.balance owner) (resource : StakeResource)
    (durationDays : ℤ) {receiver : Option Address}
    (hr : ∀ target, receiver = some target →
      (c.account target).isSome ∧ c.accountTypeOf target ≠ some .contract) :
    Returns (freezeLegacy env owner amount resource durationDays receiver) c.Conserves c := by
  refine (moves_freezeLegacy env hc.sound h0 resource durationDays receiver).mono
    fun _ c' ⟨hb, he⟩ => ⟨?_, by rw [hb]; exact StakeBooks.total_freezeLegacy ..⟩
  cases ht : legacyTarget env resource receiver with
  | none =>
    rw [ht] at hb
    refine hc.step he (hb ▸ hc.sound.freezeLegacyLocal hle ?_)
      fun o t f hne h0 => absurd (by rw [hb]; exact h0) hne
    have := hc.sound.legacyFrozen_nonneg (owner, resource)
    omega
  | some p =>
    obtain ⟨target, field⟩ := p
    rw [ht] at hb
    refine hc.step he (hb ▸ hc.sound.freezeLegacyFor hle ?_) fun o t f hne h0 => ?_
    · have := hc.sound.legacyEntry_nonneg (owner, target, field)
      omega
    · -- only the entry of the pair itself can have come into being
      by_cases hk : (o, t, f) = (owner, target, field)
      · cases hk
        exact hr target (legacyTarget_eq_some env ht).1
      · refine absurd ?_ hne
        rw [hb]
        exact (post_of_ne c.books.legacyEntry amount hk).trans h0

/-- An unfreeze of the first version conserves the total. -/
private theorem conserves_unfreezeLegacy (hc : c.Consistent) (owner : Address)
    (resource : StakeResource)
    (receiver : Option Address) :
    Returns (unfreezeLegacy env owner resource receiver) c.Conserves c := by
  refine (moves_unfreezeLegacy env hc.sound hc.legacyHeld owner resource receiver).mono
    fun _ c' ⟨amount, hamount, hb, he⟩ => ⟨?_, by rw [hb]; exact StakeBooks.total_freezeLegacy ..⟩
  have hbalance := hc.sound.balance_nonneg owner
  cases ht : legacyTarget env resource receiver with
  | none =>
    rw [ht] at hb hamount
    rw [StakeBooks.heldLegacy] at hamount
    have h0 := hc.sound.legacyFrozen_nonneg (owner, resource)
    refine hc.step he (hb ▸ hc.sound.freezeLegacyLocal (by omega) (by omega))
      fun o t f hne h0 => absurd (by rw [hb]; exact h0) hne
  | some p =>
    obtain ⟨target, field⟩ := p
    rw [ht] at hb hamount
    have hamount : amount = c.books.legacyEntry (owner, target, field) := hamount
    have h0 := hc.sound.legacyEntry_nonneg (owner, target, field)
    refine hc.step he (hb ▸ hc.sound.freezeLegacyFor (by omega) (by omega))
      fun o t f hne h0 => absurd ?_ hne
    rw [hb]
    by_cases hk : (o, t, f) = (owner, target, field)
    · cases hk
      refine (post_self c.books.legacyEntry _ _).trans ?_
      omega
    · exact (post_of_ne c.books.legacyEntry _ hk).trans h0

/-- A transfer conserves the total. -/
private theorem conserves_moveBalance (hc : c.Consistent) (sender recipient : Address)
    (amount : ℤ) :
    Returns (moveBalance env sender recipient amount) c.Conserves c := by
  refine (moves_moveBalance env sender recipient amount).mono fun done c' ⟨hdone, hb, he⟩ => ?_
  cases done with
  | false => exact hc.conserves hb he hc.sound rfl rfl
  | true =>
    obtain ⟨h0, hle⟩ := hdone rfl
    exact hc.conserves hb he (hc.sound.move h0 hle) (StakeBooks.total_move ..) rfl

/-- A payment conserves the total with what was burnt. -/
private theorem conserves_deductBalance (hc : c.Consistent) (a : Address) {amount : ℤ}
    (h0 : 0 ≤ amount) :
    Returns (deductBalance env a amount) c.Conserves c := by
  refine (moves_deductBalance env a amount).mono fun done c' ⟨hdone, hb, he⟩ => ?_
  cases done with
  | false => exact hc.conserves hb he hc.sound rfl rfl
  | true =>
    have := hc.sound.burned_nonneg
    exact hc.conserves hb he (hc.sound.burn (hdone rfl) (by omega)) (StakeBooks.total_burn ..) rfl

/-- A refund is taken from what was burnt. -/
private theorem conserves_creditBalance (hc : c.Consistent) (a : Address) {amount : ℤ}
    (h0 : 0 ≤ amount)
    (hle : amount ≤ c.burnedSun) : Returns (creditBalance env a amount) c.Conserves c := by
  refine (moves_creditBalance env a amount).mono fun _ c' ⟨hb, he⟩ => ?_
  have hbalance := hc.sound.balance_nonneg a
  have hburned : c.books.burned = c.burnedSun := rfl
  exact hc.conserves hb he (hc.sound.burn (by omega) (by omega)) (StakeBooks.total_burn ..) rfl

/-- A request that passes its gates and its validator and returns keeps the invariant, and the sun
there is. -/
theorem StakeRequest.conserves_apply (hc : c.Consistent) (q : StakeRequest) :
    Returns (q.apply env) c.Conserves c := by
  unfold StakeRequest.apply
  split
  · exact .throw
  refine .bind (.read ?_)
  split
  · exact .throw
  rename_i hvalid
  cases q with
  | freezeBalanceV2Contract caller amount resource =>
    obtain ⟨h0, hle⟩ := validateFreezeBalanceV2_eq_none env hvalid
    exact .bind (.orRejected fun resource _ => conserves_freezeV2 env hc h0.le hle resource)
  | unfreezeBalanceV2Contract caller amount resource =>
    refine .bind (.orRejected fun resource hr => ?_)
    subst hr
    obtain ⟨h0, hle⟩ := validateUnfreezeBalanceV2_eq_none env hvalid
    exact .bind ((conserves_unfreezeV2 env hc h0.le hle).mono fun _ _ h => .pure h)
  | withdrawExpireUnfreezeContract caller =>
    exact .bind ((conserves_withdrawExpiredUnfreeze env hc caller).mono fun _ _ h => .pure h)
  | cancelAllUnfreezeV2Contract caller =>
    exact .bind ((conserves_cancelAllUnfreezeV2 env hc caller).mono fun _ _ h => .pure h)
  | delegateResourceContract caller receiver amount resource lock statedPeriod =>
    refine .bind (.orRejected fun receiver _ => .bind (.orRejected fun field hf => ?_))
    obtain ⟨h0, hle⟩ := validateDelegateResource_eq_none env hf hvalid
    exact conserves_delegateResource hc h0.le hle lock _
  | unDelegateResourceContract caller receiver amount resource =>
    refine .bind (.orRejected fun receiver hr => .bind (.orRejected fun field hf => ?_))
    subst hr
    obtain ⟨nowMs, hnow, h0, hle⟩ := validateUnDelegateResource_eq_none hc.sound hf hvalid
    exact conserves_undelegateResource env hc h0 hnow hle
  | freezeBalanceContract caller amount duration resource receiver =>
    refine .bind (.orRejected fun resource hr => ?_)
    subst hr
    obtain ⟨h0, hle, hreceiver⟩ := validateFreezeBalance_eq_none env hvalid
    refine .bind (.target env fun o ho => conserves_freezeLegacy env hc h0.le hle resource duration
      fun target ht => ?_)
    obtain ⟨hfield, hallow⟩ := ho target ht
    exact hreceiver target hfield hallow
  | unfreezeBalanceContract caller resource receiver =>
    exact .bind (.orRejected fun resource _ => .bind (.target env fun o _ =>
      .bind ((conserves_unfreezeLegacy env hc caller resource o).mono fun _ _ h => .pure h)))

/-! ### Runs -/

/-- One step of a run, with the sun it credits from outside the books. -/
inductive StakeStep : NodeState → ℤ → NodeState → Prop
  /-- A staking request goes through: its gates and its validator pass, and the write commits. -/
  | request {s s' : NodeState} (env : NodeEnv) (q : StakeRequest)
      (h : (transact (q.apply env)).run s = (.ok (), s')) : StakeStep s 0 s'
  /-- A move of TRX, done or refused by its own check. -/
  | moveBalance {s s' : NodeState} (env : NodeEnv) (sender recipient : Address) (amount : ℤ)
      (done : Bool) (h : (moveBalance env sender recipient amount).run s = (.ok done, s')) :
      StakeStep s 0 s'
  /-- A fee, burned or refused for want of balance. -/
  | deductBalance {s s' : NodeState} (env : NodeEnv) (a : Address) (feeSun : ℤ) (hfee : 0 ≤ feeSun)
      (done : Bool) (h : (deductBalance env a feeSun).run s = (.ok done, s')) : StakeStep s 0 s'
  /-- A refund: its callers give back a fee they have just burned. -/
  | creditBalance {s s' : NodeState} (env : NodeEnv) (a : Address) (feeSun : ℤ) (hfee : 0 ≤ feeSun)
      (hburned : feeSun ≤ s.chain.burnedSun)
      (h : (creditBalance env a feeSun).run s = (.ok (), s')) : StakeStep s 0 s'
  /-- The rest of the node: blocks are sealed, time passes, balances are credited from outside. -/
  | outside {s : NodeState} {c' : Chain} (balance : Address → ℤ) (hbalance : ∀ a, 0 ≤ balance a)
      (hbooks : c'.books = { s.chain.books with balance := balance })
      (hextends : s.chain.Extends c') :
      StakeStep s (∑ a, balance a - ∑ a, s.chain.balanceOf a) { s with chain := c' }

/-- A run: steps one after the other, and the sun credited from outside on the way. -/
inductive StakeRun (s : NodeState) : ℤ → NodeState → Prop
  | start : StakeRun s 0 s
  | step {s' s'' : NodeState} {credited more : ℤ} (run : StakeRun s credited s')
      (step : StakeStep s' more s'') : StakeRun s (credited + more) s''

/-- A chain on which nothing has been staked yet. -/
structure Chain.Unstaked (c : Chain) : Prop where
  balance_nonneg : ∀ a, 0 ≤ c.balanceOf a
  burned_nonneg : 0 ≤ c.burnedSun
  records : ∀ a, (c.recordOf a).stakes = AccountRecord.stakes {}
  delegations : ∀ key, (c.table .delegations).get key = none
  legacyDelegations : ∀ key, (c.table .legacyDelegations).get key = none
  weights : ∀ r, c.registers.weight r = 0

/-- Books without stakes. -/
def StakeBooks.unstaked (balance : Address → ℤ) (burned : ℤ) : StakeBooks Address where
  balance := balance
  frozen _ := 0
  out _ := 0
  acquired _ := 0
  pending _ := []
  entry _ := 0
  legacyFrozen _ := 0
  legacyOut _ := 0
  legacyAcquired _ := 0
  legacyEntry _ := 0
  weight _ := 0
  burned := burned

/-- Books without stakes are sound. -/
private theorem StakeBooks.Sound.unstaked {balance : Address → ℤ} {burned : ℤ}
    (h : ∀ a, 0 ≤ balance a)
    (hburned : 0 ≤ burned) : (StakeBooks.unstaked balance burned).Sound where
  balance_nonneg := h
  frozen_nonneg _ := le_rfl
  pending_nonneg _ _ he := nomatch he
  entry_nonneg _ := le_rfl
  legacyFrozen_nonneg _ := le_rfl
  legacyEntry_nonneg _ := le_rfl
  burned_nonneg := hburned
  out_eq _ _ := Finset.sum_const_zero.symm
  acquired_eq _ _ := Finset.sum_const_zero.symm
  legacyOut_eq _ _ := Finset.sum_const_zero.symm
  legacyAcquired_eq _ _ := Finset.sum_const_zero.symm
  weight_eq r := (Finset.sum_eq_zero fun _ _ => by cases r <;> rfl).symm

/-- The books of a chain without stakes are balances. -/
theorem Chain.Unstaked.books_eq (h : c.Unstaked) :
    c.books = StakeBooks.unstaked c.balanceOf c.burnedSun := by
  refine StakeBooks.ext rfl ?_ ?_ ?_ ?_ ?_ ?_ ?_ ?_ ?_ (funext h.weights) rfl
  · exact funext fun k => (congrArg (·.frozenV2.field k.2) (h.records k.1)).trans
      (by cases k.2 <;> rfl)
  · exact funext fun k =>
      (congrArg (·.delegatedOut.field k.2) (h.records k.1)).trans (by cases k.2 <;> rfl)
  · exact funext fun k => (congrArg (·.acquired.field k.2) (h.records k.1)).trans
      (by cases k.2 <;> rfl)
  · exact funext fun a => congrArg StakeLine.unfrozenV2 (h.records a)
  · refine funext fun k => ?_
    simp only [Chain.books, h.delegations, Option.getD_none]
    cases k.2.2.2 <;> rfl
  · exact funext fun k =>
      (congrArg (·.frozenLegacy.amount k.2) (h.records k.1)).trans (by cases k.2 <;> rfl)
  · exact funext fun k =>
      (congrArg (·.delegatedLegacyOut.field k.2) (h.records k.1)).trans (by cases k.2 <;> rfl)
  · exact funext fun k =>
      (congrArg (·.acquiredLegacy.field k.2) (h.records k.1)).trans (by cases k.2 <;> rfl)
  · refine funext fun k => ?_
    simp only [Chain.books, Chain.legacyDelegation, h.legacyDelegations, Option.getD_none]
    cases k.2.2 <;> rfl

/-- A chain without stakes is consistent. -/
theorem Chain.Unstaked.consistent (h : c.Unstaked) : c.Consistent where
  sound := h.books_eq ▸ .unstaked h.balance_nonneg h.burned_nonneg
  legacyHeld _ _ _ hne := absurd (by rw [h.books_eq]; rfl) hne

/-- A step keeps the invariant and the sun there is, up to what it credits. -/
theorem StakeStep.conserves {s s' : NodeState} {more : ℤ} (h : StakeStep s more s')
    (hc : s.chain.Consistent) :
    s'.chain.Consistent ∧ s'.chain.books.total = s.chain.books.total + more := by
  have hreturn {α : Type} {x : NodeM α} {a : α} {t : NodeState}
      (hx : Returns x s.chain.Conserves s.chain) (hrun : x.run s = (.ok a, t)) :
      t.chain.Consistent ∧ t.chain.books.total = s.chain.books.total + 0 := by
    rw [Int.add_zero]
    exact hx s a t rfl hrun
  cases h with
  | request env q h => exact hreturn (q.conserves_apply env hc).transact h
  | moveBalance env sender recipient amount done h =>
    exact hreturn (conserves_moveBalance env hc sender recipient amount) h
  | deductBalance env a feeSun hfee done h =>
    exact hreturn (conserves_deductBalance env hc a hfee) h
  | creditBalance env a feeSun hfee hburned h =>
    exact hreturn (conserves_creditBalance env hc a hfee hburned) h
  | outside balance hbalance hbooks hextends =>
    refine ⟨hc.step hextends (hbooks ▸ { hc.sound with balance_nonneg := hbalance })
      fun _ _ _ hne h0 => absurd (by rw [hbooks]; exact h0) hne, ?_⟩
    have ht := congrArg StakeBooks.total hbooks
    rw [ht]
    change _ = _ + (∑ a, balance a - ∑ a, s.chain.books.balance a)
    simp only [StakeBooks.total]
    omega

/-- A run changes the total by what was credited from outside. -/
theorem StakeRun.conserves {s s' : NodeState} {credited : ℤ} (h : StakeRun s credited s')
    (hc : s.chain.Consistent) :
    s'.chain.Consistent ∧ s'.chain.books.total = s.chain.books.total + credited := by
  induction h with
  | start => exact ⟨hc, (Int.add_zero _).symm⟩
  | step _ step ih =>
    obtain ⟨hc', htotal⟩ := step.conserves ih.1
    exact ⟨hc', by omega⟩

/-- Every component of the books is non-negative. -/
structure StakeBooks.Nonneg (b : StakeBooks Address) : Prop where
  balance : ∀ a, 0 ≤ b.balance a
  frozen : ∀ k, 0 ≤ b.frozen k
  out : ∀ k, 0 ≤ b.out k
  pending : ∀ a, ∀ e ∈ b.pending a, 0 ≤ e.amount
  legacyFrozen : ∀ k, 0 ≤ b.legacyFrozen k
  legacyOut : ∀ k, 0 ≤ b.legacyOut k
  burned : 0 ≤ b.burned

/-- Nothing in sound books is negative. -/
theorem StakeBooks.Sound.nonneg {b : StakeBooks Address} (h : b.Sound) : b.Nonneg where
  balance := h.balance_nonneg
  frozen := h.frozen_nonneg
  out := h.out_nonneg
  pending := h.pending_nonneg
  legacyFrozen := h.legacyFrozen_nonneg
  legacyOut := h.legacyOut_nonneg
  burned := h.burned_nonneg

/-- In every run from a chain without stakes, each step leaves the sun there is unchanged up to what
it credits from outside, and no component of the books ever becomes negative. -/
theorem stakeStep_total {s₀ s s' : NodeState} {credited more : ℤ} (h₀ : s₀.chain.Unstaked)
    (hrun : StakeRun s₀ credited s) (hstep : StakeStep s more s') :
    s'.chain.books.total - (credited + more) = s.chain.books.total - credited ∧
      s.chain.books.total - credited = s₀.chain.books.total ∧
      s.chain.books.Nonneg ∧ s'.chain.books.Nonneg := by
  obtain ⟨hc, htotal⟩ := hrun.conserves h₀.consistent
  obtain ⟨hc', htotal'⟩ := hstep.conserves hc
  exact ⟨by omega, by omega, hc.sound.nonneg, hc'.sound.nonneg⟩

/-- The ledgers of a chain agree: totals with entries, weights with stakes. -/
structure StakeBooks.Agree (b : StakeBooks Address) : Prop where
  out : ∀ o r, b.out (o, r) = ∑ k : Address × Bool, b.entry (o, k.1, k.2, r)
  acquired : ∀ t r, b.acquired (t, r) = ∑ k : Address × Bool, b.entry (k.1, t, k.2, r)
  legacyOut : ∀ o r, b.legacyOut (o, r) = ∑ t, b.legacyEntry (o, t, r)
  legacyAcquired : ∀ t r, b.legacyAcquired (t, r) = ∑ o, b.legacyEntry (o, t, r)
  entry_nonneg : ∀ k, 0 ≤ b.entry k
  legacyEntry_nonneg : ∀ k, 0 ≤ b.legacyEntry k
  weight : ∀ r, b.weight r = ∑ a, b.contribution r a

/-- In every state a run reaches from a chain without stakes, the ledgers agree. -/
theorem stakeRun_agree {s₀ s : NodeState} {credited : ℤ} (h₀ : s₀.chain.Unstaked)
    (hrun : StakeRun s₀ credited s) : s.chain.books.Agree := by
  have hs := (hrun.conserves h₀.consistent).1.sound
  exact ⟨hs.out_eq, hs.acquired_eq, hs.legacyOut_eq, hs.legacyAcquired_eq, hs.entry_nonneg,
    hs.legacyEntry_nonneg, hs.weight_eq⟩

/-! ### A run -/

/-- Chain parameters with both stake models open. -/
def sampleParams : ChainParameters where
  energyFee := 420
  transactionFee := 1000
  allowMultiSign := 1
  allowSameTokenName := 1
  allowDelegateResource := 1
  allowNewResourceModel := 1
  allowCancelAllUnfreezeV2 := 1
  allowChangeDelegation := 1
  freeNetLimit := 600
  totalNetLimit := 43200000000
  totalEnergyCurrentLimit := 90000000000
  maintenanceTimeIntervalMs := 21600000
  unfreezeDelayDays := 14
  checkFrozenTime := 1
  minFrozenTime := 3
  maxFrozenTime := 3
  maxDelegateLockPeriod := 864000
  witnessPayPerBlock := 16000000

/-- A node whose backend never fails and whose clock stands still. -/
def sampleEnv : NodeEnv where
  params := sampleParams
  usage := ⟨fun held _ _ added => held + added, fun _ _ _ => 0, fun _ _ _ => 0, fun _ _ _ => 0,
    fun _ _ _ => 0, fun _ => 0⟩
  currentTimeMs := 3000
  maxEnergyLimitForConstant := 100000000
  witness := 7
  standbyPays := [(7, 160000000)]
  fault _ := none
  keccak code := code
  storageRoot _ := []
  rawHeaderHash _ := []
  executeTransaction _ _ w := (.error (.rejected ""), w)

/-- A sealed genesis block, and ten TRX each for three accounts. -/
def sampleState : NodeState where
  chain :=
    { table _ := .empty
      registers := { blocks := BlockStore.put {} [] 3000 [] }
      burnedSun := 0
      storageSlots := .empty
      stateManager :=
        { trie :=
            { accounts a := if a = 1 ∨ a = 2 ∨ a = 3 then some { balance := 10000000 } else none
              code _ := []
              storage _ _ := [] }
          tokenIds _ := none
          tokenIdsCache _ := none } }

/-- Account 1 freezes three TRX for energy. -/
def sampleFreeze : StakeRequest := .freezeBalanceV2Contract 1 3000000 (some .energy)

/-- Account 1 delegates two of them to account 2. -/
def sampleDelegate : StakeRequest :=
  .delegateResourceContract 1 (some 2) 2000000 (some .energy) false 0

theorem sampleState_unstaked : sampleState.chain.Unstaked where
  balance_nonneg a := by
    simp only [Chain.balanceOf, Chain.account, sampleState, StateManager.getAccount]
    split <;> decide
  burned_nonneg := le_rfl
  records _ := rfl
  delegations _ := rfl
  legacyDelegations _ := rfl
  weights r := by cases r <;> rfl

/-- The state after the freeze. -/
def sampleFrozen : NodeState := ((transact (sampleFreeze.apply sampleEnv)).run sampleState).2

/-- The state after the delegation. -/
def sampleDelegated : NodeState := ((transact (sampleDelegate.apply sampleEnv)).run sampleFrozen).2

/-- A freeze is a step. -/
private theorem sampleFrozen_step : StakeStep sampleState 0 sampleFrozen :=
  .request sampleEnv sampleFreeze (Prod.ext (by rfl) rfl)

/-- A delegation after it is another. -/
private theorem sampleDelegated_step : StakeStep sampleFrozen 0 sampleDelegated :=
  .request sampleEnv sampleDelegate (Prod.ext (by rfl) rfl)

theorem stakeStep_total_sample :
    sampleDelegated.chain.books.total - (0 + 0 + 0) = sampleFrozen.chain.books.total - (0 + 0) ∧
      sampleFrozen.chain.books.total - (0 + 0) = sampleState.chain.books.total ∧
      sampleFrozen.chain.books.Nonneg ∧ sampleDelegated.chain.books.Nonneg :=
  stakeStep_total sampleState_unstaked (.step .start sampleFrozen_step) sampleDelegated_step

theorem stakeRun_agree_sample : sampleDelegated.chain.books.Agree :=
  stakeRun_agree sampleState_unstaked
    (.step (.step .start sampleFrozen_step) sampleDelegated_step)

end Tvmjs
