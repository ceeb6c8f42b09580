import Tvmjs.Client.StakeRefinement

/-!
# The staking operations refine the books

Each staking operation of the node, when it returns, has moved the books by its movement of
`StakeBooks`, and has removed no account and changed no account's type.  This is the only place
where the operations are unfolded.
-/

namespace Tvmjs

/-! ### Freezing and unfreezing -/

section

variable (env : NodeEnv) {c : Chain}

/-- Initializing the snapshot changes nothing but the snapshot. -/
private theorem initializeOldTronPower_eq (r : AccountRecord) :
    ∃ old, initializeOldTronPower env r = { r with oldTronPower := old } := by
  unfold initializeOldTronPower
  split
  · exact ⟨_, rfl⟩
  · exact ⟨r.oldTronPower, rfl⟩

/-- Closing the snapshot changes nothing but the snapshot. -/
private theorem closeOldTronPower_eq (r : AccountRecord) :
    ∃ old, closeOldTronPower env r = { r with oldTronPower := old } := by
  unfold closeOldTronPower
  split
  · exact ⟨_, rfl⟩
  · exact ⟨r.oldTronPower, rfl⟩

/-- A freeze adds to the stake; of the rest only the order of its resources and the old vote power
change. -/
private theorem AccountRecord.freeze_eq (r : AccountRecord) (amount : ℤ)
    (resource : StakeResource) :
    ∃ order old, r.freeze env amount resource =
      { r with
        frozenV2 := r.frozenV2.add amount resource
        frozenV2Order := order
        oldTronPower := old } := by
  obtain ⟨old, hold⟩ := initializeOldTronPower_eq env r
  rw [AccountRecord.freeze, hold]
  exact ⟨_, old, rfl⟩

/-- An unfreeze takes the amount from the stake and queues an entry; of the rest only the old vote
power changes. -/
private theorem AccountRecord.unfreeze_eq (r : AccountRecord) (amount : ℤ)
    (resource : StakeResource)
    (expireMs : ℤ) :
    ∃ old, r.unfreeze env amount resource expireMs =
      { r with
        frozenV2 := r.frozenV2.add (-amount) resource
        unfrozenV2 := r.unfrozenV2 ++ [⟨resource, amount, expireMs⟩]
        oldTronPower := old } := by
  obtain ⟨old, hold⟩ := initializeOldTronPower_eq env r
  refine ⟨old, ?_⟩
  rw [AccountRecord.unfreeze, hold]

/-- The weight counts what the books hold as stake. -/
private theorem weightWithDelegated_eq (c : Chain) (a : Address) (r : StakeResource) :
    weightWithDelegated (c.recordOf a) r = c.books.stake a r := by
  cases r
  · rfl
  · rfl
  · simp only [weightWithDelegated, StakeBooks.stake, onStake, Int.add_zero]
    rfl

/-- An operation moves the books by `f` and otherwise extends the chain. -/
def Moves {α : Type} (x : NodeM α) (f : StakeBooks Address → StakeBooks Address) (c : Chain) :
    Prop :=
  Returns x (fun _ c' => c'.books = f c.books ∧ c.Extends c') c

/-- A balance is changed by a credit. -/
private theorem moves_adjustBalance (a : Address) (delta : ℤ) :
    Moves (adjustBalance env a delta) (·.credit a delta) c :=
  .adjustBalance fun _ ha => ⟨Chain.books_setAccount c _ ha, .setAccount (.refl c)⟩

/-- The vote power of the first version is none of the books. -/
private theorem moves_initializeOldTronPower (a : Address) :
    Moves (modifyRecord a (initializeOldTronPower env)) id c := by
  obtain ⟨old, hr⟩ := initializeOldTronPower_eq env (c.recordOf a)
  refine .modifyRecord ?_
  rw [hr]
  exact ⟨Chain.books_setRecord_same c a (by rfl), .setRecord (.refl c) (by rfl)⟩

/-- Closing the vote power of the first version moves nothing. -/
private theorem moves_closeOldTronPower (a : Address) :
    Moves (modifyRecord a (closeOldTronPower env)) id c := by
  obtain ⟨old, hr⟩ := closeOldTronPower_eq env (c.recordOf a)
  refine .modifyRecord ?_
  rw [hr]
  exact ⟨Chain.books_setRecord_same c a (by rfl), .setRecord (.refl c) (by rfl)⟩

/-- A freeze moves its amount from the balance to the stake. -/
theorem moves_freezeV2 (hs : c.books.Sound) {owner : Address} {amount : ℤ} (h0 : 0 ≤ amount)
    (resource : StakeResource) :
    Moves (freezeV2 env owner amount resource) (·.freeze owner amount resource) c := by
  refine .bind (.adjustBalance fun account ha => .bind (.read (.bind (.modifyRecord
    (.shiftWeight ?_)))))
  rw [Chain.recordOf_setAccount, weightWithDelegated_eq]
  obtain ⟨order, old, hr⟩ := AccountRecord.freeze_eq env (c.recordOf owner) amount resource
  rw [hr]
  have hw := hs.stake_nonneg owner resource
  constructor
  · rw [Chain.books_shiftWeight _ _ hw (by omega)]
    rw [Chain.books_setRecord_frozen _ owner amount resource (by rfl),
      Chain.books_setAccount c _ ha]
    rfl
  · exact .shiftWeight (.setRecord (.setAccount (.refl c)) (by rfl))

/-- Where nothing has matured the whole queue stays. -/
private theorem unmatured_of_matured_nil {l : List UnfrozenV2Entry} {nowMs : ℤ}
    (h : matured l nowMs = []) : unmatured l nowMs = l := by
  rw [matured, List.filter_eq_nil_iff] at h
  rw [unmatured, List.filter_eq_self]
  intro e he
  have := h e he
  simp only [decide_eq_true_eq, not_le] at this ⊢
  exact this

/-- Matured and running unstakes make up the whole. -/
theorem unfrozenTotal_split (l : List UnfrozenV2Entry) (nowMs : ℤ) :
    unfrozenTotal l = unfrozenTotal (unmatured l nowMs) + unfrozenTotal (matured l nowMs) := by
  induction l with
  | nil => rfl
  | cons e l ih =>
    simp only [unfrozenTotal, unmatured, matured, List.filter_cons, List.map_cons,
      List.sum_cons] at ih ⊢
    by_cases he : e.expireMs ≤ nowMs
    · have he' : ¬ nowMs < e.expireMs := by omega
      simp only [he, he', decide_true, decide_false, if_true, Bool.false_eq_true, if_false,
        List.map_cons, List.sum_cons]
      omega
    · have he' : nowMs < e.expireMs := by omega
      simp only [he, he', decide_true, decide_false, if_true, Bool.false_eq_true, if_false,
        List.map_cons, List.sum_cons]
      omega

/-- Settling what has matured at `nowMs`. -/
def StakeBooks.settleAt (b : StakeBooks Address) (owner : Address) (nowMs : ℤ) :
    StakeBooks Address :=
  b.settle owner (unmatured (b.pending owner) nowMs)
    (unfrozenTotal (matured (b.pending owner) nowMs))

/-- What has matured is paid out. -/
private theorem moves_claimExpiredUnfrozen (owner : Address) (nowMs : ℤ) :
    Moves (claimExpiredUnfrozen env owner nowMs) (·.settleAt owner nowMs) c := by
  refine .bind (.modifyRecord (.bind (.read ?_)))
  have hb : (c.setRecord owner (id (c.recordOf owner))).books = c.books :=
    Chain.books_setRecord_same _ _ (by rfl)
  have he : c.Extends (c.setRecord owner (id (c.recordOf owner))) :=
    .setRecord (.refl c) (by rfl)
  -- from here on `c₁` is the chain in which the record has been brought into being
  generalize c.setRecord owner (id (c.recordOf owner)) = c₁ at hb he ⊢
  refine .ite (fun h => .pure ⟨?_, he⟩) fun _ => .bind (.modifyRecord (.bind (.adjustBalance
    fun account ha => .pure ⟨?_, .setAccount (.setRecord he (by rfl))⟩)))
  · have hp : matured (c.books.pending owner) nowMs = [] := hb ▸ h
    simp [hb, StakeBooks.settleAt, StakeBooks.settle, unmatured_of_matured_nil hp, hp]
  · rw [Chain.books_setAccount _ _ ha,
      Chain.books_setRecord_pending c₁ owner (unmatured (c₁.recordOf owner).unfrozenV2 nowMs)
        (by rfl)]
    change c₁.books.settleAt owner nowMs = c.books.settleAt owner nowMs
    rw [hb]

/-- A withdrawal pays out what has matured at the time of the head block. -/
theorem moves_withdrawExpiredUnfreeze (owner : Address) :
    Returns (withdrawExpiredUnfreeze env owner) (fun _ c' => ∃ nowMs,
      c'.books = c.books.settleAt owner nowMs ∧ c.Extends c') c :=
  .bind (.headTimestampMs fun nowMs _ =>
    (moves_claimExpiredUnfrozen env owner nowMs).mono fun _ _ h => ⟨nowMs, h⟩)

/-- Paying out what has matured keeps the books sound. -/
theorem StakeBooks.Sound.settleAt {b : StakeBooks Address} (h : b.Sound) (owner : Address)
    (nowMs : ℤ) : (b.settleAt owner nowMs).Sound := by
  refine h.settle (List.sum_nonneg fun x hx => ?_) fun e he =>
    h.pending_nonneg owner e (List.mem_filter.1 he).1
  obtain ⟨e, he, rfl⟩ := List.mem_map.1 hx
  exact h.pending_nonneg owner e (List.mem_filter.1 he).1

/-- An unfreeze pays out what has matured and queues its amount. -/
theorem moves_unfreezeV2 (hs : c.books.Sound) {owner : Address} {amount : ℤ}
    {resource : StakeResource} (hle : amount ≤ c.books.frozen (owner, resource)) :
    Returns (unfreezeV2 env owner amount resource) (fun _ c' => ∃ nowMs expireMs,
      c.registers.blocks.headTimestamp = some nowMs ∧
        c'.books = (c.books.settleAt owner nowMs).unfreeze owner ⟨resource, amount, expireMs⟩ ∧
        c.Extends c') c := by
  refine .bind (.headTimestampMs fun nowMs hnow => .bind
    ((moves_claimExpiredUnfrozen env owner nowMs).mono fun _ c₁ ⟨hb₁, he₁⟩ => .bind (.read (.bind
      (.modifyRecord (.bind (.shiftWeight (.bind (.modifyRecord (.pure ?_))))))))))
  have hb₁ : c₁.books = c.books.settleAt owner nowMs := hb₁
  have hs₁ : c₁.books.Sound := hb₁ ▸ hs.settleAt owner nowMs
  have hw := hs₁.stake_nonneg owner resource
  have hle₁ : amount ≤ c₁.books.frozen (owner, resource) := by
    rw [hb₁]
    exact hle
  obtain ⟨old, hr⟩ := AccountRecord.unfreeze_eq env (c₁.recordOf owner) amount resource
    (nowMs + env.params.unfreezeDelayDays * DAY_MS)
  rw [hr, weightWithDelegated_eq]
  have hd : 0 ≤ c₁.books.stake owner resource - amount := by
    have ho : 0 ≤ onStake c₁.books.out owner resource := by
      cases resource
      · exact hs₁.out_nonneg _
      · exact hs₁.out_nonneg _
      · exact le_refl 0
    simp only [StakeBooks.stake]
    omega
  obtain ⟨old', hc⟩ := closeOldTronPower_eq env (Chain.recordOf (Chain.shiftWeight (c₁.setRecord
    owner _) resource (c₁.books.stake owner resource) (c₁.books.stake owner resource - amount))
      owner)
  rw [hc]
  refine ⟨nowMs, nowMs + env.params.unfreezeDelayDays * DAY_MS, hnow, ?_,
    .setRecord (.shiftWeight (.setRecord he₁ (by rfl))) (by rfl)⟩
  rw [Chain.books_setRecord_same _ owner (by rfl), Chain.books_shiftWeight _ _ hw hd,
    Chain.books_setRecord_unfreeze c₁ owner (-amount) resource _ (by rfl), ← hb₁]
  rfl

/-- Freezing nothing again changes nothing. -/
private theorem refreeze_zero (b : StakeBooks Address) (a : Address) (r : StakeResource) :
    b.refreeze a 0 r = b := by
  simp [StakeBooks.refreeze, StakeBooks.shift]

/-- A canceled amount goes back to the stake. -/
private theorem moves_returnCanceled (hs : c.books.Sound) {owner : Address} {back : ℤ}
    (h0 : 0 ≤ back)
    (resource : StakeResource) :
    Moves (returnCanceled owner back resource) (·.refreeze owner back resource) c := by
  refine .ite (fun h => .pure ⟨?_, .refl c⟩) fun _ => .bind (.read (.bind (.modifyRecord
    (.shiftWeight ⟨?_, .shiftWeight (.setRecord (.refl c) (by rfl))⟩))))
  · rw [h]
    exact (refreeze_zero _ _ _).symm
  · have hw := hs.stake_nonneg owner resource
    rw [weightWithDelegated_eq, Chain.books_shiftWeight _ _ hw (by omega),
      Chain.books_setRecord_frozen c owner back resource (by rfl)]
    rfl

/-- Canceling pays out what has matured and freezes the rest again. -/
theorem moves_cancelAllUnfreezeV2 (hs : c.books.Sound) (owner : Address) :
    Returns (cancelAllUnfreezeV2 env owner) (fun _ c' => ∃ nowMs,
      c'.books = (c.books.settleAt owner nowMs).cancelAll owner ∧ c.Extends c') c := by
  refine .bind (.headTimestampMs fun nowMs _ => .bind
    ((moves_claimExpiredUnfrozen env owner nowMs).mono fun _ c₁ ⟨hb₁, he₁⟩ => .bind (.read (.bind
      (.modifyRecord ?_)))))
  have hb₁ : c₁.books = c.books.settleAt owner nowMs := hb₁
  have hs₁ : c₁.books.Sound := hb₁ ▸ hs.settleAt owner nowMs
  have hb₂ : (c₁.setRecord owner { c₁.recordOf owner with unfrozenV2 := [] }).books =
      c₁.books.clearPending owner := Chain.books_setRecord_pending c₁ owner [] (by rfl)
  have he₂ : c.Extends (c₁.setRecord owner { c₁.recordOf owner with unfrozenV2 := [] }) :=
    .setRecord he₁ (by rfl)
  generalize c₁.setRecord owner { c₁.recordOf owner with unfrozenV2 := [] } = c₂ at hb₂ he₂ ⊢
  have hs₂ : c₂.books.Sound := hb₂ ▸ hs₁.clearPending owner
  have hn := hs₁.canceled_nonneg owner
  refine .bind ((moves_returnCanceled hs₂ (hn _) _).mono fun _ c₃ ⟨hb₃, he₃⟩ => ?_)
  have hs₃ : c₃.books.Sound := hb₃ ▸ hs₂.refreeze (hn _) _
  refine .bind ((moves_returnCanceled hs₃ (hn _) _).mono fun _ c₄ ⟨hb₄, he₄⟩ => ?_)
  have hs₄ : c₄.books.Sound := hb₄ ▸ hs₃.refreeze (hn _) _
  refine .bind ((moves_returnCanceled hs₄ (hn _) _).mono fun _ c₅ ⟨hb₅, he₅⟩ => .pure
    ⟨nowMs, ?_, ((he₂.trans he₃).trans he₄).trans he₅⟩)
  rw [hb₅, hb₄, hb₃, hb₂, ← hb₁]
  rfl

/-! ### Stake 1.0 -/

/-- A Stake 1.0 operation takes its delegated branch for a delegatable resource only. -/
theorem legacyTarget_eq_some {resource : StakeResource} {receiver : Option Address}
    {target : Address} {field : DelegatableResource}
    (h : legacyTarget env resource receiver = some (target, field)) :
    receiver = some target ∧ resource = field.toStake ∧ env.params.allowDelegateResource = 1 := by
  cases receiver with
  | none => cases h
  | some a =>
    cases resource with
    | tronPower => cases h
    | bandwidth =>
      simp only [legacyTarget, Option.ite_none_right_eq_some, Option.some.injEq,
        Prod.mk.injEq] at h
      obtain ⟨hp, rfl, rfl⟩ := h
      exact ⟨rfl, rfl, hp⟩
    | energy =>
      simp only [legacyTarget, Option.ite_none_right_eq_some, Option.some.injEq,
        Prod.mk.injEq] at h
      obtain ⟨hp, rfl, rfl⟩ := h
      exact ⟨rfl, rfl, hp⟩

/-- The list of pairs is none of the books. -/
private theorem moves_noteLegacyPair (owner receiver : Address) :
    Moves (noteLegacyPair owner receiver) id c :=
  .bind (.headTimestampMs fun _ _ => .writeTable
    ⟨Chain.books_setTable _ _ (by decide) (by decide) (by decide),
      .setTable (.refl c) (by decide) (by decide)⟩)

/-- Dropping an empty pair from the list moves nothing. -/
private theorem moves_dropLegacyPairIfEmpty (owner receiver : Address) :
    Moves (dropLegacyPairIfEmpty owner receiver) id c :=
  .bind (.read (.ite (fun _ => .pure ⟨rfl, .refl c⟩) fun _ => .removeFrom
    ⟨Chain.books_setTable _ _ (by decide) (by decide) (by decide),
      .setTable (.refl c) (by decide) (by decide)⟩))

/-- Storing a delegation of the first version returns. -/
theorem Returns.putLegacyDelegation {key : Address × Address} {o : Option LegacyDelegationEntry}
    {Q : Unit → Chain → Prop}
    (h : Q () (c.setTable .legacyDelegations ((c.table .legacyDelegations).put key o))) :
    Returns (Tvmjs.putLegacyDelegation key o) Q c := by
  cases o with
  | none => exact .writeTable h
  | some entry => exact .writeTable h

/-- A grown entry has the amount added to one of its fields. -/
theorem LegacyDelegationEntry.field_grow (e : LegacyDelegationEntry) (amount expireMs : ℤ)
    (r r' : DelegatableResource) :
    (e.grow amount expireMs r).pair.field r' = e.pair.field r' + if r = r' then amount else 0 := by
  cases r <;> exact StakePair.field_add _ _ _ _

/-- The books after a Stake 1.0 freeze: local, or for the receiver of the delegated branch. -/
def StakeBooks.freezeLegacy (b : StakeBooks Address) (owner : Address) (amount : ℤ)
    (resource : StakeResource) : Option (Address × DelegatableResource) → StakeBooks Address
  | none => b.freezeLegacyLocal owner amount resource
  | some (target, field) => b.freezeLegacyFor owner target amount field

/-- A freeze of the first version moves its amount from the balance to the stake of the owner or of
the receiver. -/
theorem moves_freezeLegacy (hs : c.books.Sound) {owner : Address} {amount : ℤ} (h0 : 0 ≤ amount)
    (resource : StakeResource) (durationDays : ℤ) (receiver : Option Address) :
    Moves (freezeLegacy env owner amount resource durationDays receiver)
      (·.freezeLegacy owner amount resource (legacyTarget env resource receiver)) c := by
  refine .bind ((moves_adjustBalance env owner (-amount)).mono fun _ c₁ h₁ => .bind
    ((moves_initializeOldTronPower env owner).mono fun _ c₂ h₂ => .bind
      (.headTimestampMs fun nowMs _ => ?_)))
  have hb₂ : c₂.books = c.books.credit owner (-amount) := h₂.1.trans h₁.1
  have he₂ := h₁.2.trans h₂.2
  cases ht : legacyTarget env resource receiver with
  | none =>
    refine .bind (.read (.bind (.modifyRecord (.shiftWeight
      ⟨?_, .shiftWeight (.setRecord he₂ (by rfl))⟩))))
    have hw : (c₂.recordOf owner).frozenLegacy.amount resource =
        c.books.legacyFrozen (owner, resource) :=
      congrArg (fun b => b.legacyFrozen (owner, resource)) hb₂
    have hn := hs.legacyFrozen_nonneg (owner, resource)
    rw [hw, Chain.books_shiftWeight _ _ hn (by omega),
      Chain.books_setRecord_legacyFrozen c₂ owner _ resource (by rfl), hb₂]
    simp only [Option.map_some, Option.getD_some, StakeBooks.credit, add_sub_cancel_left]
    rfl
  | some p =>
    obtain ⟨target, field⟩ := p
    obtain ⟨-, rfl, -⟩ := legacyTarget_eq_some env ht
    refine .bind (.read (.bind (.putLegacyDelegation (.bind
      ((moves_noteLegacyPair owner target).mono fun _ c₃ h₃ => ?_)))))
    obtain ⟨hb₃, he₃⟩ := h₃
    have he₃ := (he₂.setTable (by decide) (by decide)).trans he₃
    refine .bind (.modifyRecord (.bind (.read (.bind (.modifyRecord (.shiftWeight
      ⟨?_, .shiftWeight (.setRecord (.setRecord he₃ (by rfl)) (by rfl))⟩))))))
    have hentry := Chain.books_putLegacyDelegation c₂ owner target amount field
      (some ((c₂.legacyDelegation owner target).grow amount (nowMs + durationDays * DAY_MS) field))
      (fun r => LegacyDelegationEntry.field_grow _ _ _ _ _)
    have hb₃ := hb₃.trans (hentry.trans (by rw [hb₂]))
    have hb₄ := Chain.books_setRecord_legacyOut c₃ owner amount field
      (r := { c₃.recordOf owner with
        delegatedLegacyOut := (c₃.recordOf owner).delegatedLegacyOut.add amount field }) (by rfl)
    rw [hb₃] at hb₄
    generalize c₃.setRecord owner { c₃.recordOf owner with
      delegatedLegacyOut := (c₃.recordOf owner).delegatedLegacyOut.add amount field } = c₄ at hb₄ ⊢
    have hw : (c₄.recordOf target).acquiredLegacy.field field =
        c.books.legacyAcquired (target, field) :=
      congrArg (fun b => b.legacyAcquired (target, field)) hb₄
    have hn := hs.legacyAcquired_nonneg (target, field)
    rw [hw, Chain.books_shiftWeight _ _ hn (by omega),
      Chain.books_setRecord_legacyAcquired c₄ target amount field (by rfl), hb₄]
    rfl

/-- Every holder of a Stake 1.0 delegation is an account, and no contract. -/
def Chain.LegacyHeld (c : Chain) : Prop :=
  ∀ owner target field, c.books.legacyEntry (owner, target, field) ≠ 0 →
    (c.account target).isSome ∧ c.accountTypeOf target ≠ some .contract

/-- The Stake 1.0 delegation of a pair, without the balance and the weight. -/
def StakeBooks.legacyDelegate (b : StakeBooks Address) (owner receiver : Address) (amount : ℤ)
    (r : DelegatableResource) : StakeBooks Address :=
  { b with
    legacyEntry := post b.legacyEntry (owner, receiver, r) amount
    legacyOut := post b.legacyOut (owner, r) amount
    legacyAcquired := post b.legacyAcquired (receiver, r) amount }

/-- A cleared entry has nothing left in one of its fields. -/
private theorem LegacyDelegationEntry.field_clear (e : LegacyDelegationEntry)
    (r r' : DelegatableResource) :
    (e.clear r).pair.field r' = e.pair.field r' + if r = r' then -e.pair.field r else 0 := by
  cases r <;> cases r' <;> simp [clear, StakePair.field]

/-- The weight a release starts from is what the receiver acquired, unless nothing is released. -/
private theorem moves_releaseLegacyDelegation (hs : c.books.Sound) (hl : c.LegacyHeld)
    (owner target : Address) (field : DelegatableResource) :
    Returns (releaseLegacyDelegation env owner target field) (fun p c' =>
      p.1 = c.books.legacyEntry (owner, target, field) ∧
      (p.2 = c.books.legacyAcquired (target, field) ∨ p.1 = 0 ∧ p.2 = 0) ∧
      c'.books = c.books.legacyDelegate owner target (-p.1) field ∧ c.Extends c') c := by
  refine .bind (.read (.bind (.orTypeError fun existing hget => .bind (.putLegacyDelegation (.bind
    ((moves_dropLegacyPairIfEmpty owner target).mono fun _ c₁ ⟨hb₁, he₁⟩ => ?_))))))
  have hfield : ∀ r, existing.pair.field r = c.books.legacyEntry (owner, target, r) := by
    intro r
    simp only [Chain.books, Chain.legacyDelegation, hget, Option.getD_some]
  have hentry := Chain.books_putLegacyDelegation c owner target
    (-c.books.legacyEntry (owner, target, field)) field
    (if (existing.clear field).pair.bandwidth = 0 ∧ (existing.clear field).pair.energy = 0 then none
      else some (existing.clear field)) (fun r => by
        rw [← hfield, ← hfield, ← LegacyDelegationEntry.field_clear]
        split
        · rename_i h0
          cases r
          · exact h0.1.symm
          · exact h0.2.symm
        · rfl)
  have hb₁ := hb₁.trans hentry
  have he₁ := ((Chain.Extends.refl c).setTable (by decide) (by decide)).trans he₁
  have hle := hs.legacyEntry_le_acquired owner target field
  have hacc := hl owner target field
  rw [← hfield field] at hb₁ hle hacc ⊢
  generalize existing.pair.field field = amount at hb₁ hle hacc ⊢
  have hb₂ := Chain.books_setRecord_legacyOut c₁ owner (-amount) field
    (r := { c₁.recordOf owner with
      delegatedLegacyOut := (c₁.recordOf owner).delegatedLegacyOut.add (-amount) field }) (by rfl)
  have he₂ : c.Extends (c₁.setRecord owner { c₁.recordOf owner with
      delegatedLegacyOut := (c₁.recordOf owner).delegatedLegacyOut.add (-amount) field }) :=
    he₁.setRecord (by rfl)
  rw [hb₁] at hb₂
  refine .bind (.modifyRecord (.bind (.getAccount (.bind (.read ?_)))))
  generalize c₁.setRecord owner { c₁.recordOf owner with
    delegatedLegacyOut := (c₁.recordOf owner).delegatedLegacyOut.add (-amount) field } = c₂
      at hb₂ he₂ ⊢
  have hheld : (c₂.recordOf target).acquiredLegacy.field field =
      c.books.legacyAcquired (target, field) :=
    congrArg (fun b => b.legacyAcquired (target, field)) hb₂
  refine .ite (fun _ => .bind (.read (.bind (.modifyRecord (.pure ?_))))) fun h => .pure ?_
  · have hge : ¬ (c₂.recordOf target).acquiredLegacy.field field < amount := by omega
    simp only [if_neg hge, StakePair.setField, sub_sub_cancel_left]
    refine ⟨trivial, .inl hheld, ?_, he₂.setRecord (by rfl)⟩
    rw [Chain.books_setRecord_legacyAcquired c₂ target (-amount) field (by rfl), hb₂]
    rfl
  · -- a receiver that is no account, or a contract, holds nothing
    have h0 : amount = 0 := by
      by_contra hne
      obtain ⟨hacc, htype⟩ := hacc hne
      exact h ⟨he₂.account target hacc, fun h' => htype ((he₂.type target).symm.trans h')⟩
    refine ⟨rfl, .inr ⟨h0, h0⟩, ?_, he₂⟩
    rw [hb₂, h0]
    simp [StakeBooks.legacyDelegate]

/-- A release is a Stake 1.0 freeze by the negative amount. -/
private theorem StakeBooks.legacyDelegate_credit_shift (b : StakeBooks Address)
    (owner target : Address)
    (amount before : ℤ) (field : DelegatableResource)
    (h : before = b.legacyAcquired (target, field) ∨ amount = 0 ∧ before = 0) :
    ((b.legacyDelegate owner target (-amount) field).credit owner amount).shift field.toStake before
      (before - amount) = b.freezeLegacyFor owner target (-amount) field := by
  obtain rfl | ⟨rfl, rfl⟩ := h
  · simp [legacyDelegate, credit, freezeLegacyFor, shift, sub_eq_add_neg]
  · simp [legacyDelegate, credit, freezeLegacyFor, shift]

/-- What a Stake 1.0 unfreeze releases. -/
def StakeBooks.heldLegacy (b : StakeBooks Address) (owner : Address) (resource : StakeResource) :
    Option (Address × DelegatableResource) → ℤ
  | none => b.legacyFrozen (owner, resource)
  | some (target, field) => b.legacyEntry (owner, target, field)

/-- An unfreeze of the first version gives back all that is held. -/
theorem moves_unfreezeLegacy (hs : c.books.Sound) (hl : c.LegacyHeld) (owner : Address)
    (resource : StakeResource) (receiver : Option Address) :
    Returns (unfreezeLegacy env owner resource receiver) (fun _ c' => ∃ amount,
      amount = c.books.heldLegacy owner resource (legacyTarget env resource receiver) ∧
      c'.books = c.books.freezeLegacy owner (-amount) resource
        (legacyTarget env resource receiver) ∧
      c.Extends c') c := by
  refine .bind ((moves_initializeOldTronPower env owner).mono fun _ c₁ h₁ => ?_)
  obtain ⟨hb₁, he₁⟩ := h₁
  have hb₁ : c₁.books = c.books := hb₁
  have hs₁ : c₁.books.Sound := hb₁ ▸ hs
  -- The stake is the owner's own, or it was lent to a receiver.
  cases ht : legacyTarget env resource receiver with
  | none =>
    have hw : (c₁.recordOf owner).frozenLegacy.amount resource =
        c.books.legacyFrozen (owner, resource) :=
      congrArg (fun b => b.legacyFrozen (owner, resource)) hb₁
    have hn := hs.legacyFrozen_nonneg (owner, resource)
    have hb₂ := Chain.books_setRecord_legacyFrozen c₁ owner none resource
      (r := { c₁.recordOf owner with
        frozenLegacy := (c₁.recordOf owner).frozenLegacy.set none resource }) (by rfl)
    rw [hb₁] at hb₂
    refine .bind (.bind (.read (.bind (.modifyRecord (.pure ?_)))))
    rw [hw]
    generalize hamount : c.books.legacyFrozen (owner, resource) = amount at hb₂ hn ⊢
    refine .bind ((moves_adjustBalance env owner amount).mono fun _ c₃ h₃ => .bind
      (.shiftWeight (.bind ((moves_closeOldTronPower env owner).mono fun _ c₄ h₄ =>
        .pure ⟨amount, hamount.symm, ?_,
          ((he₁.setRecord (by rfl)).trans h₃.2).shiftWeight.trans h₄.2⟩))))
    have hb₄ := h₄.1.trans (Chain.books_shiftWeight c₃ resource hn (by omega))
    rw [hb₄, h₃.1, hb₂]
    simp [StakeBooks.freezeLegacy, StakeBooks.freezeLegacyLocal, StakeBooks.credit,
      StakeBooks.shift, hamount]
  | some p =>
    obtain ⟨target, field⟩ := p
    obtain ⟨-, rfl, -⟩ := legacyTarget_eq_some env ht
    -- the first call keeps the accounts that hold what was lent
    have hl₁ : c₁.LegacyHeld := fun o t r h => by
      obtain ⟨hacc, htype⟩ := hl o t r (hb₁ ▸ h)
      exact ⟨he₁.account t hacc, fun h' => htype ((he₁.type t).symm.trans h')⟩
    refine .bind ((moves_releaseLegacyDelegation env hs₁ hl₁ owner target field).mono
      fun p c₂ h₂ => ?_)
    obtain ⟨amount, before⟩ := p
    obtain ⟨hp, hw, hb₂, he₂⟩ := h₂
    refine .bind ((moves_adjustBalance env owner amount).mono fun _ c₃ h₃ => .bind
      (.shiftWeight (.bind ((moves_closeOldTronPower env owner).mono fun _ c₄ h₄ =>
        .pure ⟨amount, hp.trans (by rw [hb₁, StakeBooks.heldLegacy]), ?_,
          ((he₁.trans he₂).trans h₃.2).shiftWeight.trans h₄.2⟩))))
    -- the receiver has at least what is taken back from it
    have hle := hs₁.legacyEntry_le_acquired owner target field
    have hn := hs₁.legacyEntry_nonneg (owner, target, field)
    have hb0 : 0 ≤ before := by omega
    have ha0 : 0 ≤ before - amount := by omega
    have hb₄ := h₄.1.trans (Chain.books_shiftWeight c₃ field.toStake hb0 ha0)
    rw [hb₄, h₃.1, hb₂, StakeBooks.legacyDelegate_credit_shift _ _ _ _ _ _ hw, hb₁]
    rfl

/-! ### Delegation -/

/-- Storing a delegation returns. -/
theorem Returns.putDelegation {key : Address × Address × Bool} {o : Option DelegationEntry}
    {Q : Unit → Chain → Prop}
    (h : Q () (c.setTable .delegations ((c.table .delegations).put key o))) :
    Returns (Tvmjs.putDelegation key o) Q c := by
  cases o with
  | none => exact .writeTable h
  | some entry => exact .writeTable h

/-- The locked amounts of a pair that have expired join its unlocked ones. -/
def StakeBooks.unlockBoth (b : StakeBooks Address) (owner receiver : Address)
    (bandwidth energy : ℤ) : StakeBooks Address :=
  (b.unlock owner receiver .bandwidth bandwidth).unlock owner receiver .energy energy

/-- Replacing the locked entry of a pair and then its unlocked one unlocks what moved. -/
private theorem Chain.books_unlockBoth (c : Chain) (owner receiver : Address) (bandwidth energy : ℤ)
    (locked unlocked : Option DelegationEntry)
    (hlocked : (locked.getD {}).pair =
      ⟨c.books.entry (owner, receiver, true, .bandwidth) - bandwidth,
        c.books.entry (owner, receiver, true, .energy) - energy⟩)
    (hunlocked : (unlocked.getD {}).pair =
      ⟨c.books.entry (owner, receiver, false, .bandwidth) + bandwidth,
        c.books.entry (owner, receiver, false, .energy) + energy⟩)
    {c₁ : Chain} (hc₁ : c₁ = c.setTable .delegations
      ((c.table .delegations).put (owner, receiver, true) locked)) :
    (c₁.setTable .delegations
      ((c₁.table .delegations).put (owner, receiver, false) unlocked)).books =
        c.books.unlockBoth owner receiver bandwidth energy := by
  have hb₁ : c₁.books = _ := hc₁ ▸ Chain.books_putDelegation c owner receiver true (-bandwidth)
    (-energy) locked (by rw [hlocked]; rfl) (by rw [hlocked]; rfl)
  have hentry : ∀ r, c₁.books.entry (owner, receiver, false, r) =
      c.books.entry (owner, receiver, false, r) := by
    intro r
    rw [hb₁]
    simp only
    rw [post_of_ne _ _ (by simp), post_of_ne _ _ (by simp)]
  rw [Chain.books_putDelegation c₁ owner receiver false bandwidth energy unlocked
    (by rw [hunlocked, hentry]) (by rw [hunlocked, hentry]), hb₁]
  simp only [StakeBooks.unlockBoth, StakeBooks.unlock]
  rw [post_comm (post c.books.entry _ (-bandwidth))]

/-- The locked amount of a pair that has expired at `nowMs`. -/
def Chain.expired (c : Chain) (owner receiver : Address) (nowMs : ℤ)
    (r : DelegatableResource) : ℤ :=
  match (c.table .delegations).get (owner, receiver, true) with
  | none => 0
  | some locked => if locked.expireMs r ≤ nowMs then locked.pair.field r else 0

/-- What has expired of a lock is at most what is locked. -/
theorem StakeBooks.Sound.expired_mem (hs : c.books.Sound) (owner receiver : Address) (nowMs : ℤ)
    (r : DelegatableResource) :
    0 ≤ c.expired owner receiver nowMs r ∧
      c.expired owner receiver nowMs r ≤ c.books.entry (owner, receiver, true, r) := by
  have h0 := hs.entry_nonneg (owner, receiver, true, r)
  cases hget : (c.table .delegations).get (owner, receiver, true) with
  | none =>
    simp only [Chain.expired, hget]
    exact ⟨le_rfl, h0⟩
  | some locked =>
    have hl : locked.pair.field r = c.books.entry (owner, receiver, true, r) := by
      simp only [Chain.books, hget, Option.getD_some]
    simp only [Chain.expired, hget]
    split <;> omega

/-- What has expired of the locks is unlocked, for both resources. -/
theorem moves_unlockExpiredDelegation (owner receiver : Address) (nowMs : ℤ) :
    Moves (unlockExpiredDelegation owner receiver nowMs) (·.unlockBoth owner receiver
      (c.expired owner receiver nowMs .bandwidth) (c.expired owner receiver nowMs .energy)) c := by
  have hnone : c.books = c.books.unlockBoth owner receiver 0 0 := by
    simp [StakeBooks.unlockBoth, StakeBooks.unlock]
  refine .bind (.read ?_)
  cases hget : (c.table .delegations).get (owner, receiver, true) with
  | none =>
    simp only [Chain.expired, hget]
    exact .pure ⟨hnone, .refl c⟩
  | some locked =>
    have hentry : ∀ r, c.books.entry (owner, receiver, true, r) = locked.pair.field r := by
      intro r
      simp only [Chain.books, hget, Option.getD_some]
    have hbandwidth : c.expired owner receiver nowMs .bandwidth =
        if locked.expireBandwidthMs ≤ nowMs then locked.pair.bandwidth else 0 := by
      simp only [Chain.expired, hget]
      rfl
    have henergy : c.expired owner receiver nowMs .energy =
        if locked.expireEnergyMs ≤ nowMs then locked.pair.energy else 0 := by
      simp only [Chain.expired, hget]
      rfl
    rw [hbandwidth, henergy]
    dsimp only
    generalize (if locked.expireBandwidthMs ≤ nowMs then locked.pair.bandwidth else 0) = bandwidth
    generalize (if locked.expireEnergyMs ≤ nowMs then locked.pair.energy else 0) = energy
    refine .ite (fun h => .pure ⟨?_, .refl c⟩) fun _ => .bind (.putDelegation (.bind (.read
      (.putDelegation ⟨Chain.books_unlockBoth c owner receiver bandwidth energy _ _ ?_ ?_ rfl,
        ((Chain.Extends.refl c).setTable (by decide) (by decide)).setTable
          (by decide) (by decide)⟩))))
    · rw [h.1, h.2]
      exact hnone
    · rw [hentry, hentry]
      split
      · rename_i h0
        exact StakePair.ext h0.1.symm h0.2.symm
      · rfl
    · rw [Chain.get_put_delegations, if_neg (by simp)]
      rfl

/-- The list of delegations is none of the books. -/
private theorem moves_notePair (owner receiver : Address) : Moves (notePair owner receiver) id c :=
  .bind (.headTimestampMs fun _ _ => .writeTable
    ⟨Chain.books_setTable _ _ (by decide) (by decide) (by decide),
      .setTable (.refl c) (by decide) (by decide)⟩)

/-- Dropping an empty delegation from the list moves nothing. -/
private theorem moves_dropPairIfEmpty (owner receiver : Address) :
    Moves (dropPairIfEmpty owner receiver) id c :=
  .bind (.read (.ite (fun _ => .pure ⟨rfl, .refl c⟩) fun _ => .bind (.read (.ite
    (fun _ => .pure ⟨rfl, .refl c⟩) fun _ => .removeFrom
      ⟨Chain.books_setTable _ _ (by decide) (by decide) (by decide),
        .setTable (.refl c) (by decide) (by decide)⟩))))

/-- A grown entry has the amount added to one of its fields. -/
theorem DelegationEntry.field_grow (e : DelegationEntry) (amount expireMs : ℤ) (lock : Bool)
    (r r' : DelegatableResource) :
    (e.grow amount lock expireMs r).pair.field r' = e.pair.field r' + if r = r' then amount
      else 0 := by
  cases r <;> exact StakePair.field_add _ _ _ _

/-- A delegation unlocks what has expired and then adds its amount. -/
theorem moves_delegateResource (owner receiver : Address) (amount : ℤ)
    (resource : DelegatableResource) (lock : Bool) (lockPeriodBlocks : ℤ) :
    Returns (delegateResource owner receiver amount resource lock lockPeriodBlocks)
      (fun _ c' => ∃ nowMs, c.registers.blocks.headTimestamp = some nowMs ∧
        c'.books = (c.books.unlockBoth owner receiver (c.expired owner receiver nowMs .bandwidth)
          (c.expired owner receiver nowMs .energy)).delegate owner receiver amount resource lock ∧
        c.Extends c') c := by
  refine .bind (.headTimestampMs fun nowMs hnow => .bind ((moves_unlockExpiredDelegation owner
    receiver nowMs).mono fun _ c₁ ⟨hb₁, he₁⟩ => ?_))
  refine .bind (.read (.bind (.putDelegation (.bind
    ((moves_notePair owner receiver).mono fun _ c₂ ⟨hb₂, he₂⟩ => ?_)))))
  have he₂ := (he₁.setTable (by decide) (by decide)).trans he₂
  refine .bind (.modifyRecord (.modifyRecord ⟨nowMs, hnow, ?_,
    .setRecord (.setRecord he₂ (by rfl)) (by rfl)⟩))
  have hentry (expireMs : ℤ) := Chain.books_growDelegation c₁ owner receiver lock amount resource
    (some ((((c₁.table .delegations).get (owner, receiver, lock)).getD {}).grow amount lock expireMs
      resource)) fun r => DelegationEntry.field_grow _ _ _ _ _ _
  have hb₂ := hb₂.trans (hentry _)
  have hb₃ := Chain.books_setRecord_delegated c₂ owner amount resource
    (r := { c₂.recordOf owner with
      frozenV2 := (c₂.recordOf owner).frozenV2.add (-amount) resource.toStake
      delegatedOut := (c₂.recordOf owner).delegatedOut.add amount resource }) (by rfl)
  rw [Chain.books_setRecord_acquired _ receiver amount resource (by rfl), hb₃, hb₂, hb₁]
  rfl

/-- What was used of a stake is none of the stakes. -/
private theorem setStakedUsed_stakes (used : ℤ) (r : AccountRecord)
    (resource : DelegatableResource) :
    (setStakedUsed env used r resource).stakes = r.stakes ∧
      (setStakedUsed env used r resource).accountType = r.accountType := by
  cases resource <;> exact ⟨rfl, rfl⟩

/-- The usage that comes back to the owner moves nothing. -/
private theorem moves_addOwnerUsage (owner : Address) (transferUsage : ℤ)
    (resource : DelegatableResource) :
    Moves (addOwnerUsage env owner transferUsage resource) id c :=
  .ite (fun _ => .bind (.read (.modifyRecord
    ⟨Chain.books_setRecord_same _ _ (setStakedUsed_stakes env _ _ _).1,
      .setRecord (.refl c) (setStakedUsed_stakes env _ _ _).2⟩))) fun _ => .pure ⟨rfl, .refl c⟩

/-- The receiver loses what it had been delegated. -/
private theorem moves_releaseAcquired (receiver : Address) {amount : ℤ}
    {resource : DelegatableResource}
    (hle : amount ≤ c.books.acquired (receiver, resource)) :
    Returns (releaseAcquired env receiver amount resource) (fun _ c' =>
      c'.books =
        { c.books with acquired := post c.books.acquired (receiver, resource) (-amount) } ∧
      c'.table .delegations = c.table .delegations ∧ c.Extends c') c := by
  refine .bind (.read (.bind (.read (.bind (.read (.bind (.modifyRecord (.pure ?_))))))))
  have hge : ¬ (c.recordOf receiver).acquired.field resource < amount := not_lt.2 hle
  simp only [if_neg hge, StakePair.setField, sub_sub_cancel_left]
  refine ⟨?_, Chain.table_setRecord c receiver _ (by decide), ?_⟩
  · exact Chain.books_setRecord_acquired c receiver (-amount) resource
      ((setStakedUsed_stakes env _ _ _).1.trans (by rfl))
  · exact .setRecord (.refl c) ((setStakedUsed_stakes env _ _ _).2.trans (by rfl))

/-- The unlocked entry shrinks by the amount. -/
private theorem moves_shrinkUnlocked {owner receiver : Address} {amount : ℤ}
    {resource : DelegatableResource}
    (h0 : 0 < amount) (hle : amount ≤ c.books.entry (owner, receiver, false, resource)) :
    Moves (shrinkUnlocked owner receiver amount resource) (fun b =>
      { b with entry := post b.entry (owner, receiver, false, resource) (-amount) }) c := by
  refine .bind (.read ?_)
  cases hget : (c.table .delegations).get (owner, receiver, false) with
  | none =>
    -- a pair without an unlocked entry has nothing unlocked
    have hzero : c.books.entry (owner, receiver, false, resource) = 0 := by
      simp only [Chain.books, hget, Option.getD_none]
      cases resource <;> rfl
    omega
  | some unlocked =>
    refine .putDelegation ⟨Chain.books_growDelegation c owner receiver false (-amount) resource _
      fun r => ?_, .setTable (.refl c) (by decide) (by decide)⟩
    have hfield : c.books.entry (owner, receiver, false, r) = unlocked.pair.field r := by
      simp only [Chain.books, hget, Option.getD_some]
    rw [hfield, ← StakePair.field_add]
    split
    · rename_i h0
      cases r
      · exact h0.1.symm
      · exact h0.2.1.symm
    · rfl

/-- The unlocked entry gains what the locks lose. -/
theorem StakeBooks.entry_unlockBoth (b : StakeBooks Address) (owner receiver : Address)
    (bandwidth energy : ℤ) (r : DelegatableResource) :
    (b.unlockBoth owner receiver bandwidth energy).entry (owner, receiver, false, r) =
      b.entry (owner, receiver, false, r) + match r with
        | .bandwidth => bandwidth
        | .energy => energy := by
  cases r <;> simp [unlockBoth, unlock, post]

/-- An undelegation unlocks what has expired and then takes its amount back. -/
theorem moves_undelegateResource (hs : c.books.Sound) {owner receiver : Address} {amount nowMs : ℤ}
    {resource : DelegatableResource} (h0 : 0 < amount)
    (hnow : c.registers.blocks.headTimestamp = some nowMs)
    (hle : amount ≤ c.books.entry (owner, receiver, false, resource) +
      c.expired owner receiver nowMs resource) :
    Moves (undelegateResource env owner receiver amount resource) (fun b =>
      (b.unlockBoth owner receiver (c.expired owner receiver nowMs .bandwidth)
        (c.expired owner receiver nowMs .energy)).undelegate owner receiver amount resource) c := by
  refine .bind (.headTimestampMs fun nowMs' hnow' => ?_)
  obtain rfl : nowMs = nowMs' := Option.some.inj (hnow.symm.trans hnow')
  have hexpired := hs.expired_mem owner receiver nowMs resource
  have hacquired : amount ≤ c.books.acquired (receiver, resource) := by
    have hlocked := hs.entry_add_entry_le_acquired owner receiver resource
    omega
  refine .bind ((moves_releaseAcquired env receiver hacquired).mono fun _ c₁ h₁ => ?_)
  obtain ⟨hb₁, ht₁, he₁⟩ := h₁
  have hsame : ∀ r, c₁.expired owner receiver nowMs r = c.expired owner receiver nowMs r := by
    intro r
    simp only [Chain.expired, ht₁]
  refine .bind ((moves_unlockExpiredDelegation owner receiver nowMs).mono fun _ c₂ h₂ => ?_)
  obtain ⟨hb₂, he₂⟩ := h₂
  rw [hsame, hsame, hb₁] at hb₂
  have hle₂ : amount ≤ c₂.books.entry (owner, receiver, false, resource) := by
    rw [hb₂, StakeBooks.entry_unlockBoth]
    cases resource <;> exact hle
  refine .bind ((moves_shrinkUnlocked h0 hle₂).mono fun _ c₃ h₃ => .bind
    ((moves_dropPairIfEmpty owner receiver).mono fun _ c₄ h₄ => .bind (.modifyRecord
      ((moves_addOwnerUsage env owner _ resource).mono fun _ c₅ h₅ => ⟨?_, ?_⟩))))
  · rw [h₅.1, id, Chain.books_setRecord_delegated c₄ owner (-amount) resource
      (by rw [neg_neg]; rfl), h₄.1, id, h₃.1, hb₂, neg_neg]
    rfl
  · exact (Chain.Extends.setRecord (((he₁.trans he₂).trans h₃.2).trans h₄.2) (by rfl)).trans h₅.2

/-! ### Plain moves of TRX -/

/-- A new account has nothing in the books. -/
private theorem moves_touchAccount (a : Address) : Moves (touchAccount env a) id c := by
  refine .touchAccount ⟨?_, .setAccount (.refl c)⟩
  refine StakeBooks.ext ?_ rfl rfl rfl rfl rfl rfl rfl rfl rfl rfl rfl
  funext a'
  simp only [Chain.books, Chain.balanceOf, Chain.account_setAccount, id]
  split
  · rename_i h
    subst h
    cases c.account a' <;> rfl
  · rfl

/-- The time of creation is none of the books. -/
private theorem moves_noteCreation (a : Address) : Moves (noteCreation env a) id c := by
  have hb : (c.setRecord a (id (c.recordOf a))).books = c.books :=
    Chain.books_setRecord_same _ _ (by rfl)
  have he : c.Extends (c.setRecord a (id (c.recordOf a))) := .setRecord (.refl c) (by rfl)
  refine .bind (.modifyRecord (.bind (.read ?_)))
  generalize c.setRecord a (id (c.recordOf a)) = c₁ at hb he ⊢
  have hstamp (stamp height : ℤ) : Returns (modifyRecord a fun r =>
      { r with
        createdAt := some stamp
        createdIn := some (if height < 0 then 0 else height + 1) })
      (fun _ c' => c'.books = id c.books ∧ c.Extends c') c₁ :=
    .modifyRecord ⟨(Chain.books_setRecord_same _ _ (by rfl)).trans hb, he.setRecord (by rfl)⟩
  refine .ite (fun _ => .pure ⟨hb, he⟩) fun _ => .bind (.getAccount (.ite (fun _ => .pure ⟨hb, he⟩)
    fun _ => .bind (.read (.ite (fun _ => .bind (.pure (hstamp 0 _))) fun _ => .bind
      (.headTimestampMs fun stamp _ => hstamp stamp _)))))

/-- A deduction is made where the balance covers it, and not at all otherwise. -/
theorem moves_deductBalance (a : Address) (amount : ℤ) :
    Returns (deductBalance env a amount) (fun done c' =>
      (done = true → amount ≤ c.books.balance a) ∧
      c'.books = (if done then c.books.burn a amount else c.books) ∧ c.Extends c') c := by
  refine .bind (.getAccount ?_)
  cases ha : c.account a with
  | none => exact .pure ⟨fun h => absurd h (by decide), rfl, .refl c⟩
  | some account =>
    refine .ite (fun _ => .pure ⟨fun h => absurd h (by decide), rfl, .refl c⟩) fun hge => .bind
      (.modifyChain (fun c => { c with burnedSun := c.burnedSun + amount })
        (.bind (.putAccount (.bind (.flush (.pure ⟨fun _ => ?_, ?_, ?_⟩))))))
    · rw [← Chain.balanceOf_eq c ha] at hge
      exact not_lt.1 hge
    · simp only [sub_eq_add_neg]
      exact Chain.books_setAccount { c with burnedSun := c.burnedSun + amount } (-amount) ha
    · have he : c.Extends { c with burnedSun := c.burnedSun + amount } :=
        ⟨fun _ h => h, fun _ => rfl⟩
      exact he.setAccount

/-- A credit adds to the balance. -/
theorem moves_creditBalance (a : Address) (amount : ℤ) :
    Moves (creditBalance env a amount) (·.burn a (-amount)) c := by
  refine .bind (.modifyChain (fun c => { c with burnedSun := c.burnedSun - amount })
    (.bind ((moves_noteCreation env a).mono fun _ c₁ ⟨hb₁, he₁⟩ => .bind
    ((moves_touchAccount env a).mono fun _ c₂ ⟨hb₂, he₂⟩ =>
      (moves_adjustBalance env a amount).mono fun _ c₃ ⟨hb₃, he₃⟩ => ⟨?_, ?_⟩))))
  · rw [hb₃, hb₂, id, hb₁]
    simp only [StakeBooks.burn, neg_neg, ← sub_eq_add_neg]
    rfl
  · have he := (he₁.trans he₂).trans he₃
    exact ⟨he.account, he.type⟩

/-- A transfer is made where the balance covers it, and not at all otherwise. -/
theorem moves_moveBalance (sender recipient : Address) (amount : ℤ) :
    Returns (moveBalance env sender recipient amount) (fun done c' =>
      (done = true → 0 ≤ amount ∧ amount ≤ c.books.balance sender) ∧
      c'.books = (if done then c.books.move sender recipient amount else c.books) ∧
        c.Extends c') c := by
  refine .bind (.getAccount ?_)
  cases ha : c.account sender with
  | none => exact .pure ⟨fun h => absurd h (by decide), rfl, .refl c⟩
  | some account =>
    refine .ite (fun _ => .pure ⟨fun h => absurd h (by decide), rfl, .refl c⟩) fun hge => .bind
      (.putAccount (.bind ((moves_touchAccount env recipient).mono fun _ c₁ ⟨hb₁, he₁⟩ => .bind
        ((moves_adjustBalance env recipient amount).mono fun _ c₂ ⟨hb₂, he₂⟩ => .pure
          ⟨fun _ => ?_, ?_, ?_⟩))))
    · rw [← Chain.balanceOf_eq c ha] at hge
      change ¬ (c.books.balance sender < amount ∨ amount < 0) at hge
      omega
    · have hb := Chain.books_setAccount c (-amount) ha
      rw [hb₂, hb₁, id]
      simp only [sub_eq_add_neg, hb]
      rfl
    · exact ((Chain.Extends.refl c).setAccount.trans he₁).trans he₂

end

end Tvmjs
