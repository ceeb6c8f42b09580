import Tvmjs.Client.Returns
import Tvmjs.Client.StakeBooks

/-!
# The books of a chain

`Chain.books` reads the abstract books off a chain.  This module says how each primitive write of
the node (an account, a record, a delegation entry, a weight) moves them, and what every staking
operation leaves alone (`Chain.Extends`).
-/

namespace Tvmjs

/-- The books a chain keeps. -/
def Chain.books (c : Chain) : StakeBooks Address where
  balance := c.balanceOf
  frozen k := (c.recordOf k.1).frozenV2.field k.2
  out k := (c.recordOf k.1).delegatedOut.field k.2
  acquired k := (c.recordOf k.1).acquired.field k.2
  pending a := (c.recordOf a).unfrozenV2
  entry k := (((c.table .delegations).get (k.1, k.2.1, k.2.2.1)).getD {}).pair.field k.2.2.2
  legacyFrozen k := (c.recordOf k.1).frozenLegacy.amount k.2
  legacyOut k := (c.recordOf k.1).delegatedLegacyOut.field k.2
  legacyAcquired k := (c.recordOf k.1).acquiredLegacy.field k.2
  legacyEntry k := (c.legacyDelegation k.1 k.2.1).pair.field k.2.2
  weight := c.registers.weight
  burned := c.burnedSun

attribute [ext] StakeBooks

namespace Chain

/-! ### Readings after a write -/

theorem recordOf_setRecord (c : Chain) (a a' : Address) (r : AccountRecord) :
    (c.setRecord a r).recordOf a' = if a' = a then r else c.recordOf a' := by
  simp only [recordOf, setRecord, setTable_table_self, InsertionMap.get_set]
  split <;> rfl

@[simp] theorem recordOf_setRecord_self (c : Chain) (a : Address) (r : AccountRecord) :
    (c.setRecord a r).recordOf a = r := by
  rw [recordOf_setRecord, if_pos rfl]

@[simp] theorem recordOf_setAccount (c : Chain) (a a' : Address) (account : Account) :
    (c.setAccount a account).recordOf a' = c.recordOf a' := rfl

@[simp] theorem recordOf_shiftWeight (c : Chain) (r : StakeResource) (x y : ℤ) (a : Address) :
    (c.shiftWeight r x y).recordOf a = c.recordOf a := rfl

private theorem recordOf_setTable (c : Chain) {t : Table} (m : InsertionMap t.Key t.Val)
    (h : t ≠ .accounts) (a : Address) : (c.setTable t m).recordOf a = c.recordOf a := by
  rw [recordOf, setTable_table_of_ne c m h.symm]
  rfl

theorem table_setRecord (c : Chain) (a : Address) (r : AccountRecord) {t : Table}
    (h : t ≠ .accounts) : (c.setRecord a r).table t = c.table t := setTable_table_of_ne c _ h

theorem account_setAccount (c : Chain) (a a' : Address) (account : Account) :
    (c.setAccount a account).account a' = if a' = a then some account else c.account a' := by
  simp only [Chain.account, setAccount, StateManager.getAccount, StateManager.putAccount,
    Function.update_apply]

theorem balanceOf_eq (c : Chain) {a : Address} {account : Account}
    (h : c.account a = some account) :
    c.balanceOf a = account.balance := by
  rw [balanceOf, h]
  rfl

/-! ### The books after a write -/

/-- Changing the balance of an account that exists posts the difference. -/
theorem books_setAccount (c : Chain) {a : Address} {account : Account} (delta : ℤ)
    (h : c.account a = some account) :
    (c.setAccount a { account with balance := account.balance + delta }).books =
      { c.books with balance := post c.books.balance a delta } := by
  refine StakeBooks.ext ?_ rfl rfl rfl rfl rfl rfl rfl rfl rfl rfl rfl
  funext a'
  simp only [books, balanceOf, account_setAccount]
  by_cases ha : a' = a
  · subst ha
    simp [balanceOf, h]
  · rw [post_of_ne _ _ ha, if_neg ha]
    rfl

/-- A weight shift between non-negative amounts moves the weight by the difference of the
floors. -/
theorem books_shiftWeight (c : Chain) (r : StakeResource) {before after : ℤ} (hb : 0 ≤ before)
    (ha : 0 ≤ after) : (c.shiftWeight r before after).books = c.books.shift r before after := by
  refine StakeBooks.ext rfl rfl rfl rfl rfl rfl rfl rfl rfl rfl ?_ rfl
  funext r'
  simp only [books, shiftWeight, StakeBooks.shift, Int.tdiv_eq_ediv_of_nonneg hb,
    Int.tdiv_eq_ediv_of_nonneg ha]
  cases r <;> cases r' <;> simp [Registers.weight, Registers.addWeight, post]

end Chain

/-- The staking fields of a record. -/
structure StakeLine where
  frozenV2 : FrozenStakePair
  delegatedOut : StakePair
  acquired : StakePair
  unfrozenV2 : List UnfrozenV2Entry
  frozenLegacy : LegacyFrozenPair
  delegatedLegacyOut : StakePair
  acquiredLegacy : StakePair

/-- The staking fields of a record. -/
def AccountRecord.stakes (r : AccountRecord) : StakeLine where
  frozenV2 := r.frozenV2
  delegatedOut := r.delegatedOut
  acquired := r.acquired
  unfrozenV2 := r.unfrozenV2
  frozenLegacy := r.frozenLegacy
  delegatedLegacyOut := r.delegatedLegacyOut
  acquiredLegacy := r.acquiredLegacy

namespace Chain

/-- Replacing a record replaces that account's line in every book kept in records. -/
private theorem books_setRecord (c : Chain) (a : Address) (r : AccountRecord) :
    (c.setRecord a r).books =
      { c.books with
        frozen := fun k => if k.1 = a then r.stakes.frozenV2.field k.2 else c.books.frozen k
        out := fun k => if k.1 = a then r.stakes.delegatedOut.field k.2 else c.books.out k
        acquired := fun k => if k.1 = a then r.stakes.acquired.field k.2 else c.books.acquired k
        pending := Function.update c.books.pending a r.stakes.unfrozenV2
        legacyFrozen := fun k =>
          if k.1 = a then r.stakes.frozenLegacy.amount k.2 else c.books.legacyFrozen k
        legacyOut := fun k =>
          if k.1 = a then r.stakes.delegatedLegacyOut.field k.2 else c.books.legacyOut k
        legacyAcquired := fun k =>
          if k.1 = a then r.stakes.acquiredLegacy.field k.2 else c.books.legacyAcquired k } := by
  refine StakeBooks.ext rfl ?_ ?_ ?_ ?_ ?_ ?_ ?_ ?_ ?_ rfl rfl
  · funext k
    simp only [books, recordOf_setRecord]
    split <;> rfl
  · funext k
    simp only [books, recordOf_setRecord]
    split <;> rfl
  · funext k
    simp only [books, recordOf_setRecord]
    split <;> rfl
  · funext a'
    simp only [books, recordOf_setRecord, Function.update_apply]
    split <;> rfl
  · simp only [books, table_setRecord c a r (t := .delegations) (by decide)]
  · funext k
    simp only [books, recordOf_setRecord]
    split <;> rfl
  · funext k
    simp only [books, recordOf_setRecord]
    split <;> rfl
  · funext k
    simp only [books, recordOf_setRecord]
    split <;> rfl
  · simp only [books, legacyDelegation, table_setRecord c a r (t := .legacyDelegations) (by decide)]

/-! ### Lines of a book -/

/-- A line written back as it was leaves the book. -/
private theorem line_same {R : Type} (f : Address × R → ℤ) (a : Address) :
    (fun k => if k.1 = a then f (a, k.2) else f k) = f := by
  funext k
  split
  · rename_i h
    rw [← h]
  · rfl

/-- A line with one field raised posts the amount there. -/
private theorem line_post {R : Type} [DecidableEq R] (f : Address × R → ℤ) (a : Address) (r : R)
    (amount : ℤ) :
    (fun k => if k.1 = a then f (a, k.2) + (if r = k.2 then amount else 0) else f k) =
      post f (a, r) amount := by
  funext ⟨a', r'⟩
  by_cases ha : a' = a
  · by_cases hr : r = r'
    · simp [post, ha, hr]
    · have hr' : r' ≠ r := fun h => hr h.symm
      simp [post, ha, hr, hr']
  · simp [post, ha]

/-- A record which holds the same stakes leaves the books. -/
theorem books_setRecord_same (c : Chain) (a : Address) {r : AccountRecord}
    (h : r.stakes = (c.recordOf a).stakes) : (c.setRecord a r).books = c.books := by
  rw [books_setRecord, h]
  exact StakeBooks.ext rfl (line_same _ a) (line_same _ a) (line_same _ a)
    (Function.update_eq_self a _) rfl (line_same _ a) (line_same _ a) (line_same _ a) rfl rfl rfl

/-- The record after a Stake 2.0 freeze moved. -/
theorem books_setRecord_frozen (c : Chain) (a : Address) (amount : ℤ) (res : StakeResource)
    {r : AccountRecord} (h : r.stakes = { (c.recordOf a).stakes with
      frozenV2 := (c.recordOf a).frozenV2.add amount res }) :
    (c.setRecord a r).books = { c.books with frozen := post c.books.frozen (a, res) amount } := by
  rw [books_setRecord, h]
  refine StakeBooks.ext rfl ?_ (line_same _ a) (line_same _ a) (Function.update_eq_self a _) rfl
    (line_same _ a) (line_same _ a) (line_same _ a) rfl rfl rfl
  simp only [FrozenStakePair.field_add]
  exact line_post c.books.frozen a res amount

/-- The record after a freeze turned into a pending unstake. -/
theorem books_setRecord_unfreeze (c : Chain) (a : Address) (amount : ℤ) (res : StakeResource)
    (l : List UnfrozenV2Entry) {r : AccountRecord} (h : r.stakes = { (c.recordOf a).stakes with
      frozenV2 := (c.recordOf a).frozenV2.add amount res
      unfrozenV2 := l }) :
    (c.setRecord a r).books =
      { c.books with
        frozen := post c.books.frozen (a, res) amount
        pending := Function.update c.books.pending a l } := by
  rw [books_setRecord, h]
  refine StakeBooks.ext rfl ?_ (line_same _ a) (line_same _ a) rfl rfl
    (line_same _ a) (line_same _ a) (line_same _ a) rfl rfl rfl
  simp only [FrozenStakePair.field_add]
  exact line_post c.books.frozen a res amount

/-- The record after its pending unstakes were replaced. -/
theorem books_setRecord_pending (c : Chain) (a : Address) (l : List UnfrozenV2Entry)
    {r : AccountRecord} (h : r.stakes = { (c.recordOf a).stakes with unfrozenV2 := l }) :
    (c.setRecord a r).books =
      { c.books with pending := Function.update c.books.pending a l } := by
  rw [books_setRecord, h]
  exact StakeBooks.ext rfl (line_same _ a) (line_same _ a) (line_same _ a) rfl rfl
    (line_same _ a) (line_same _ a) (line_same _ a) rfl rfl rfl

/-- The owner's record after a delegation moved. -/
theorem books_setRecord_delegated (c : Chain) (a : Address) (amount : ℤ)
    (res : DelegatableResource) {r : AccountRecord}
    (h : r.stakes = { (c.recordOf a).stakes with
      frozenV2 := (c.recordOf a).frozenV2.add (-amount) res.toStake
      delegatedOut := (c.recordOf a).delegatedOut.add amount res }) :
    (c.setRecord a r).books =
      { c.books with
        frozen := post c.books.frozen (a, res.toStake) (-amount)
        out := post c.books.out (a, res) amount } := by
  rw [books_setRecord, h]
  refine StakeBooks.ext rfl ?_ ?_ (line_same _ a) (Function.update_eq_self a _) rfl
    (line_same _ a) (line_same _ a) (line_same _ a) rfl rfl rfl
  · simp only [FrozenStakePair.field_add]
    exact line_post c.books.frozen a res.toStake (-amount)
  · simp only [StakePair.field_add]
    exact line_post c.books.out a res amount

/-- The receiver's record after a delegation moved. -/
theorem books_setRecord_acquired (c : Chain) (a : Address) (amount : ℤ)
    (res : DelegatableResource) {r : AccountRecord}
    (h : r.stakes = { (c.recordOf a).stakes with
      acquired := (c.recordOf a).acquired.add amount res }) :
    (c.setRecord a r).books =
    { c.books with acquired := post c.books.acquired (a, res) amount } := by
  rw [books_setRecord, h]
  refine StakeBooks.ext rfl (line_same _ a) (line_same _ a) ?_ (Function.update_eq_self a _) rfl
    (line_same _ a) (line_same _ a) (line_same _ a) rfl rfl rfl
  simp only [StakePair.field_add]
  exact line_post c.books.acquired a res amount

/-- The record after a Stake 1.0 freeze of its own was replaced. -/
theorem books_setRecord_legacyFrozen (c : Chain) (a : Address)
    (held : Option LegacyFrozenBalance) (res : StakeResource) {r : AccountRecord}
    (h : r.stakes = { (c.recordOf a).stakes with
      frozenLegacy := (c.recordOf a).frozenLegacy.set held res }) :
    (c.setRecord a r).books = { c.books with
      legacyFrozen := post c.books.legacyFrozen (a, res)
        ((held.map LegacyFrozenBalance.amount).getD 0 - c.books.legacyFrozen (a, res)) } := by
  rw [books_setRecord, h]
  refine StakeBooks.ext rfl (line_same _ a) (line_same _ a) (line_same _ a)
    (Function.update_eq_self a _) rfl ?_ (line_same _ a) (line_same _ a) rfl rfl rfl
  rw [← line_post]
  funext k
  simp only [LegacyFrozenPair.amount_set]
  by_cases hk : k.1 = a
  · by_cases hr : res = k.2
    · rw [if_pos hk, if_pos hk, if_pos hr, if_pos hr, hr]
      omega
    · rw [if_pos hk, if_pos hk, if_neg hr, if_neg hr, Int.add_zero]
      rfl
  · rw [if_neg hk, if_neg hk]

/-- The owner's record after a Stake 1.0 delegation moved. -/
theorem books_setRecord_legacyOut (c : Chain) (a : Address) (amount : ℤ)
    (res : DelegatableResource) {r : AccountRecord}
    (h : r.stakes = { (c.recordOf a).stakes with
      delegatedLegacyOut := (c.recordOf a).delegatedLegacyOut.add amount res }) :
    (c.setRecord a r).books =
      { c.books with legacyOut := post c.books.legacyOut (a, res) amount } := by
  rw [books_setRecord, h]
  refine StakeBooks.ext rfl (line_same _ a) (line_same _ a) (line_same _ a)
    (Function.update_eq_self a _) rfl (line_same _ a) ?_ (line_same _ a) rfl rfl rfl
  simp only [StakePair.field_add]
  exact line_post c.books.legacyOut a res amount

/-- The receiver's record after a Stake 1.0 delegation moved. -/
theorem books_setRecord_legacyAcquired (c : Chain) (a : Address) (amount : ℤ)
    (res : DelegatableResource) {r : AccountRecord}
    (h : r.stakes = { (c.recordOf a).stakes with
      acquiredLegacy := (c.recordOf a).acquiredLegacy.add amount res }) :
    (c.setRecord a r).books =
      { c.books with legacyAcquired := post c.books.legacyAcquired (a, res) amount } := by
  rw [books_setRecord, h]
  refine StakeBooks.ext rfl (line_same _ a) (line_same _ a) (line_same _ a)
    (Function.update_eq_self a _) rfl (line_same _ a) (line_same _ a) ?_ rfl rfl rfl
  simp only [StakePair.field_add]
  exact line_post c.books.legacyAcquired a res amount

/-! ### Delegation entries -/

/-- Tables other than the records and the two delegation tables do not enter the books. -/
theorem books_setTable (c : Chain) {t : Table} (m : InsertionMap t.Key t.Val)
    (ha : t ≠ .accounts) (hd : t ≠ .delegations) (hl : t ≠ .legacyDelegations) :
    (c.setTable t m).books = c.books := by
  simp only [books, legacyDelegation, recordOf_setTable c m ha, setTable_table_of_ne c m hd.symm,
    setTable_table_of_ne c m hl.symm]
  rfl

theorem get_put_delegations (c : Chain) (key key' : Address × Address × Bool)
    (o : Option DelegationEntry) :
    ((c.setTable .delegations ((c.table .delegations).put key o)).table .delegations).get key' =
      if key' = key then o else (c.table .delegations).get key' := by
  rw [setTable_table_self]
  exact InsertionMap.get_put _ key key' o

/-- Replacing a delegation entry by one with an amount more posts that amount. -/
theorem books_putDelegation (c : Chain) (owner receiver : Address) (lock : Bool)
    (bandwidth energy : ℤ)
    (o : Option DelegationEntry)
    (hb : (o.getD {}).pair.bandwidth = c.books.entry
      (owner, receiver, lock, .bandwidth) + bandwidth)
    (he : (o.getD {}).pair.energy = c.books.entry (owner, receiver, lock, .energy) + energy) :
    (c.setTable .delegations ((c.table .delegations).put (owner, receiver, lock) o)).books =
      { c.books with
        entry := post (post c.books.entry (owner, receiver, lock, .bandwidth) bandwidth)
          (owner, receiver, lock, .energy) energy } := by
  refine StakeBooks.ext rfl ?_ ?_ ?_ ?_ ?_ ?_ ?_ ?_ ?_ rfl rfl
  case refine_5 =>
    funext ⟨o', t', l', r'⟩
    change (((c.setTable .delegations ((c.table .delegations).put (owner, receiver, lock) o)).table
      .delegations).get (o', t', l') |>.getD {}).pair.field r' = _
    rw [get_put_delegations]
    by_cases h : (o', t', l') = (owner, receiver, lock)
    · rw [if_pos h]
      simp only [Prod.mk.injEq] at h
      obtain ⟨rfl, rfl, rfl⟩ := h
      cases r'
      · simpa [post, StakePair.field] using hb
      · simpa [post, StakePair.field] using he
    · rw [if_neg h]
      have h1 : (o', t', l', r') ≠ (owner, receiver, lock, .energy) := by
        rintro h'
        simp only [Prod.mk.injEq] at h'
        exact h (by simp [h'])
      have h2 : (o', t', l', r') ≠ (owner, receiver, lock, .bandwidth) := by
        rintro h'
        simp only [Prod.mk.injEq] at h'
        exact h (by simp [h'])
      exact ((post_of_ne (post c.books.entry _ bandwidth) energy h1).trans
        (post_of_ne c.books.entry bandwidth h2)).symm
  case refine_9 =>
    simp only [books, legacyDelegation,
      setTable_table_of_ne c (t := .delegations) (u := .legacyDelegations) _ (by decide)]
  all_goals
    simp only [books, recordOf_setTable c (t := .delegations) _ (by decide)]

/-- Replacing a delegation entry by one with an amount more of one resource posts that amount. -/
theorem books_growDelegation (c : Chain) (owner receiver : Address) (lock : Bool) (amount : ℤ)
    (res : DelegatableResource) (o : Option DelegationEntry)
    (h : ∀ r, (o.getD {}).pair.field r =
      c.books.entry (owner, receiver, lock, r) + if res = r then amount else 0) :
    (c.setTable .delegations ((c.table .delegations).put (owner, receiver, lock) o)).books =
      { c.books with entry := post c.books.entry (owner, receiver, lock, res) amount } := by
  rw [books_putDelegation c owner receiver lock _ _ o (h .bandwidth) (h .energy)]
  cases res <;> simp

/-- Replacing a Stake 1.0 entry by one with an amount more posts that amount. -/
theorem books_putLegacyDelegation (c : Chain) (owner receiver : Address) (amount : ℤ)
    (res : DelegatableResource) (o : Option LegacyDelegationEntry)
    (h : ∀ r, (o.getD {}).pair.field r =
      c.books.legacyEntry (owner, receiver, r) + if res = r then amount else 0) :
    (c.setTable .legacyDelegations
      ((c.table .legacyDelegations).put (owner, receiver) o)).books =
      { c.books with
        legacyEntry := post c.books.legacyEntry (owner, receiver, res) amount } := by
  refine StakeBooks.ext rfl ?_ ?_ ?_ ?_ ?_ ?_ ?_ ?_ ?_ rfl rfl
  case refine_5 =>
    simp only [books,
      setTable_table_of_ne c (t := .legacyDelegations) (u := .delegations) _ (by decide)]
  case refine_9 =>
    funext k
    obtain ⟨o', t', r'⟩ := k
    change ((((c.setTable .legacyDelegations ((c.table .legacyDelegations).put (owner, receiver)
      o)).table .legacyDelegations).get (o', t')).getD {}).pair.field r' = _
    rw [setTable_table_self, InsertionMap.get_put]
    by_cases hk : (o', t') = (owner, receiver)
    · rw [if_pos hk, h]
      simp only [Prod.mk.injEq] at hk
      obtain ⟨rfl, rfl⟩ := hk
      simp only [post, Prod.mk.injEq, true_and, eq_comm (a := r')]
    · have hne : (o', t', r') ≠ (owner, receiver, res) := by
        rintro h'
        simp only [Prod.mk.injEq] at h'
        exact hk (by simp [h'])
      rw [if_neg hk]
      exact (post_of_ne c.books.legacyEntry amount hne).symm
  all_goals
    simp only [books, recordOf_setTable c (t := .legacyDelegations) _ (by decide)]

/-! ### What every operation leaves alone -/

/-- Accounts of `c` still exist in `c'`, and no account changed its type. -/
structure Extends (c c' : Chain) : Prop where
  account : ∀ a, (c.account a).isSome → (c'.account a).isSome
  type : ∀ a, c'.accountTypeOf a = c.accountTypeOf a

namespace Extends

variable {c c' : Chain}

theorem refl (c : Chain) : c.Extends c := ⟨fun _ h => h, fun _ => rfl⟩

theorem trans {c'' : Chain} (h : c.Extends c') (h' : c'.Extends c'') : c.Extends c'' :=
  ⟨fun a ha => h'.account a (h.account a ha), fun a => (h'.type a).trans (h.type a)⟩

theorem setAccount (h : c.Extends c') {a : Address} {account : Account} :
    c.Extends (c'.setAccount a account) := by
  refine ⟨fun a' ha => ?_, h.type⟩
  rw [account_setAccount]
  split
  · rfl
  · exact h.account a' ha

theorem setRecord (h : c.Extends c') {a : Address} {r : AccountRecord}
    (hr : r.accountType = (c'.recordOf a).accountType) : c.Extends (c'.setRecord a r) := by
  refine ⟨h.account, fun a' => ?_⟩
  rw [← h.type]
  simp only [accountTypeOf, table_setRecord c' a r (t := .contracts) (by decide),
    recordOf_setRecord]
  by_cases ha : a' = a
  · rw [if_pos ha, hr, ha]
  · rw [if_neg ha]

theorem shiftWeight (h : c.Extends c') {r : StakeResource} {x y : ℤ} :
    c.Extends (c'.shiftWeight r x y) := ⟨h.account, h.type⟩

theorem setTable (h : c.Extends c') {t : Table} {m : InsertionMap t.Key t.Val}
    (ha : t ≠ .accounts) (hc : t ≠ .contracts) : c.Extends (c'.setTable t m) := by
  refine ⟨h.account, fun a => ?_⟩
  rw [← h.type]
  simp only [accountTypeOf, recordOf_setTable c' m ha, setTable_table_of_ne c' m hc.symm]

end Extends

end Chain

end Tvmjs
