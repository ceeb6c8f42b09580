import Tvmjs.Client.StakeRuns

/-!
# Delegation indexes and locks

The delegation tables, seen one pair at a time: its unlocked and its locked entry, and whether the
account index lists the pair.

* `PairState` -- a pair, with the moves the operations make on it;
* `Chain.delegationView` -- the pairs of a chain, of both stake models;
* `Views` -- what an operation does to the view, one lemma for each;
* `StakeRequest.staysSound_apply` -- a validated request keeps indexes, locks and pending unstakes
  right;
* `delegationRun_sound` -- and so does every run.
-/

namespace Tvmjs

/-! ### A pair -/

/-- The entries of one pair, and whether the account index lists it. -/
@[ext] structure PairState where
  unlocked : Option DelegationEntry
  locked : Option DelegationEntry
  listed : Bool

/-- The entry of a Stake 1.0 pair, and whether its account index lists it. -/
@[ext] structure LegacyPairState where
  entry : Option LegacyDelegationEntry
  listed : Bool

namespace LegacyPairState

/-- A pair without an entry leaves the index. -/
def unlist (p : LegacyPairState) : LegacyPairState :=
  if p.entry.isSome then p else { p with listed := false }

/-- The index lists the pair exactly when it has an entry. -/
def Indexed (p : LegacyPairState) : Prop := p.listed = true ↔ p.entry.isSome

/-- A pair leaves the list only when it is empty. -/
private theorem indexed_unlist {p : LegacyPairState} (h : p.listed = true) : p.unlist.Indexed := by
  rw [unlist]
  split
  · next hentry => exact ⟨fun _ => hentry, fun _ => h⟩
  · next hentry =>
    exact ⟨fun hlisted => absurd hlisted Bool.false_ne_true, fun he => absurd he hentry⟩

end LegacyPairState

/-- The part of an amount which has expired at `nowMs`. -/
def DelegationEntry.expired (e : DelegationEntry) (nowMs : ℤ) (r : DelegatableResource) : ℤ :=
  if e.expireMs r ≤ nowMs then e.pair.field r else 0

namespace PairState

/-- The locked entry once its expired amounts have left. -/
def remaining (locked : DelegationEntry) (nowMs : ℤ) : DelegationEntry where
  pair := ⟨locked.pair.bandwidth - locked.expired nowMs .bandwidth,
    locked.pair.energy - locked.expired nowMs .energy⟩
  expireBandwidthMs :=
    if locked.expired nowMs .bandwidth > 0 then 0 else locked.expireBandwidthMs
  expireEnergyMs := if locked.expired nowMs .energy > 0 then 0 else locked.expireEnergyMs

/-- Expired amounts join the unlocked entry. -/
def merge (p : PairState) (nowMs : ℤ) : PairState :=
  match p.locked with
  | none => p
  | some locked =>
    if locked.expired nowMs .bandwidth = 0 ∧ locked.expired nowMs .energy = 0 then p
    else
      let unlocked := p.unlocked.getD {}
      { p with
        locked :=
          if (remaining locked nowMs).pair.bandwidth = 0 ∧
              (remaining locked nowMs).pair.energy = 0 then none
          else some (remaining locked nowMs)
        unlocked := some { unlocked with
          pair := ⟨unlocked.pair.bandwidth + locked.expired nowMs .bandwidth,
            unlocked.pair.energy + locked.expired nowMs .energy⟩ } }

/-- The entry with the given lock flag. -/
def entry (p : PairState) : Bool → Option DelegationEntry
  | false => p.unlocked
  | true => p.locked

/-- The entry with the given lock flag replaced. -/
def setEntry (p : PairState) (locked : Bool) (o : Option DelegationEntry) : PairState :=
  if locked then { p with locked := o } else { p with unlocked := o }

/-- A delegation grows the entry with its lock flag and lists the pair. -/
def delegate (p : PairState) (amount : ℤ) (lock : Bool) (expireMs : ℤ)
    (resource : DelegatableResource) : PairState :=
  { p.setEntry lock (some (((p.entry lock).getD {}).grow amount lock expireMs resource)) with
    listed := true }

/-- An undelegation shrinks the unlocked entry; one left empty is removed. -/
def shrink (p : PairState) (amount : ℤ) (resource : DelegatableResource) : PairState :=
  match p.unlocked with
  | none => p
  | some unlocked =>
    let next := { unlocked with pair := unlocked.pair.add (-amount) resource }
    { p with unlocked :=
        if next.pair.bandwidth = 0 ∧ next.pair.energy = 0 ∧ next.expireBandwidthMs = 0 ∧
            next.expireEnergyMs = 0 then none
        else some next }

/-- A pair without entries leaves the index. -/
def unlist (p : PairState) : PairState :=
  if p.unlocked.isSome then p else if p.locked.isSome then p else { p with listed := false }

/-- The index lists the pair exactly when it has an entry. -/
def Indexed (p : PairState) : Prop := p.listed = true ↔ p.unlocked.isSome ∨ p.locked.isSome

/-- The lock of one resource is running at `nowMs`. -/
def Locks (p : PairState) (nowMs : ℤ) (r : DelegatableResource) (e : DelegationEntry) : Prop :=
  p.locked = some e ∧ 0 < e.pair.field r ∧ nowMs < e.expireMs r

/-- Running locks are kept: no amount shrinks, and no expiry moves earlier. -/
def Keeps (nowMs : ℤ) (p p' : PairState) : Prop :=
  ∀ r e, p.Locks nowMs r e →
    ∃ e', p'.locked = some e' ∧ e.pair.field r ≤ e'.pair.field r ∧ e.expireMs r ≤ e'.expireMs r

variable {p p' : PairState} {nowMs : ℤ}

/-! ### What a merge does -/

/-- Without a lock there is nothing to merge. -/
private theorem merge_of_unlocked (h : p.locked = none) (nowMs : ℤ) : p.merge nowMs = p := by
  rw [merge, h]

/-- A lock that has not expired stays as it is. -/
private theorem merge_of_running {locked : DelegationEntry} (h : p.locked = some locked)
    (hnone : locked.expired nowMs .bandwidth = 0 ∧ locked.expired nowMs .energy = 0) :
    p.merge nowMs = p := by
  rw [merge, h]
  exact if_pos hnone

/-- What has expired moves from the lock to the unlocked entry. -/
private theorem merge_of_expired {locked : DelegationEntry} (h : p.locked = some locked)
    (hsome : ¬ (locked.expired nowMs .bandwidth = 0 ∧ locked.expired nowMs .energy = 0)) :
    p.merge nowMs = { p with
      locked :=
        if (remaining locked nowMs).pair.bandwidth = 0 ∧
            (remaining locked nowMs).pair.energy = 0 then none
        else some (remaining locked nowMs)
      unlocked := some { p.unlocked.getD {} with
        pair := ⟨(p.unlocked.getD {}).pair.bandwidth + locked.expired nowMs .bandwidth,
          (p.unlocked.getD {}).pair.energy + locked.expired nowMs .energy⟩ } } := by
  rw [merge, h]
  exact if_neg hsome

/-! ### The index of a pair -/

/-- Merging keeps a pair in the list. -/
theorem Indexed.merge (h : p.Indexed) (nowMs : ℤ) : (p.merge nowMs).Indexed := by
  rcases hlocked : p.locked with _ | locked
  · rwa [merge_of_unlocked hlocked]
  · by_cases hnone : locked.expired nowMs .bandwidth = 0 ∧ locked.expired nowMs .energy = 0
    · rwa [merge_of_running hlocked hnone]
    · have hlisted : p.listed = true := h.2 (.inr (by rw [hlocked]; rfl))
      rw [merge_of_expired hlocked hnone]
      exact ⟨fun _ => .inl rfl, fun _ => hlisted⟩

/-- A delegation enters its pair in the list. -/
private theorem indexed_delegate (p : PairState) (amount : ℤ) (lock : Bool) (expireMs : ℤ)
    (resource : DelegatableResource) : (p.delegate amount lock expireMs resource).Indexed := by
  refine ⟨fun _ => ?_, fun _ => rfl⟩
  rcases lock with _ | _
  · exact .inl rfl
  · exact .inr rfl

/-- Whatever left a listed pair, looking for its entries settles the index. -/
private theorem indexed_unlist (h : p.unlocked.isSome ∨ p.locked.isSome → p.listed = true) :
    p.unlist.Indexed := by
  rw [unlist]
  split
  · next hunlocked => exact ⟨fun _ => .inl hunlocked, fun _ => h (.inl hunlocked)⟩
  · split
    · next hlocked => exact ⟨fun _ => .inr hlocked, fun _ => h (.inr hlocked)⟩
    · next hunlocked hlocked =>
      exact ⟨fun hlisted => absurd hlisted Bool.false_ne_true,
        fun hsome => (hsome.elim hunlocked hlocked).elim⟩

/-- A pair that is not empty after an undelegation is in the list. -/
private theorem listed_of_shrink (h : p.Indexed) (amount : ℤ) (resource : DelegatableResource)
    (hsome : (p.shrink amount resource).unlocked.isSome ∨
      (p.shrink amount resource).locked.isSome) :
    (p.shrink amount resource).listed = true := by
  rw [shrink] at hsome ⊢
  rcases hunlocked : p.unlocked with _ | unlocked
  · rw [hunlocked] at hsome
    exact h.2 hsome
  · exact h.2 (.inl (by rw [hunlocked]; rfl))

/-! ### The locks of a pair -/

/-- A lock that stays as it is is kept. -/
private theorem Keeps.of_locked_eq (h : p'.locked = p.locked) : Keeps nowMs p p' :=
  fun _ e he => ⟨e, h.trans he.1, le_rfl, le_rfl⟩

/-- A lock which was kept is still running. -/
theorem Keeps.trans {p'' : PairState} (h : Keeps nowMs p p') (h' : Keeps nowMs p' p'') :
    Keeps nowMs p p'' := by
  intro r e he
  obtain ⟨e', hlocked, hamount, hexpire⟩ := h r e he
  obtain ⟨e'', hlocked', hamount', hexpire'⟩ :=
    h' r e' ⟨hlocked, he.2.1.trans_le hamount, he.2.2.trans_le hexpire⟩
  exact ⟨e'', hlocked', hamount.trans hamount', hexpire.trans hexpire'⟩

/-- A lock loses what has expired. -/
private theorem remaining_field (e : DelegationEntry) (nowMs : ℤ) (r : DelegatableResource) :
    (remaining e nowMs).pair.field r = e.pair.field r - e.expired nowMs r := by
  rcases r with _ | _ <;> rfl

/-- The expiry of what has gone is cleared. -/
private theorem remaining_expireMs (e : DelegationEntry) (nowMs : ℤ) (r : DelegatableResource) :
    (remaining e nowMs).expireMs r = if e.expired nowMs r > 0 then 0 else e.expireMs r := by
  rcases r with _ | _ <;> rfl

/-- A merge leaves the locked entry, or what remains of it. -/
private theorem merge_locked (p : PairState) (nowMs : ℤ) :
    (p.merge nowMs).locked = p.locked ∨ ∃ locked, p.locked = some locked ∧
      (p.merge nowMs).locked =
        if (remaining locked nowMs).pair.bandwidth = 0 ∧
            (remaining locked nowMs).pair.energy = 0 then none
        else some (remaining locked nowMs) := by
  rcases hlocked : p.locked with _ | locked
  · exact .inl (by rw [merge_of_unlocked hlocked, hlocked])
  · by_cases hnone : locked.expired nowMs .bandwidth = 0 ∧ locked.expired nowMs .energy = 0
    · exact .inl (by rw [merge_of_running hlocked hnone, hlocked])
    · exact .inr ⟨locked, rfl, by rw [merge_of_expired hlocked hnone]⟩

/-- A lock still running after a merge ran before it, with the same expiry. -/
private theorem Locks.of_merge {r : DelegatableResource} {e : DelegationEntry}
    (h : (p.merge nowMs).Locks nowMs r e) :
    ∃ locked, p.Locks nowMs r locked ∧ locked.expireMs r = e.expireMs r := by
  obtain ⟨he, hamount, hexpire⟩ := h
  rcases merge_locked p nowMs with hsame | ⟨locked, hlocked, hleft⟩
  · exact ⟨e, ⟨hsame ▸ he, hamount, hexpire⟩, rfl⟩
  · rw [hleft] at he
    split at he
    · exact absurd he (Option.some_ne_none e).symm
    · obtain rfl := Option.some.inj he
      rw [remaining_field] at hamount
      have hrunning : ¬ locked.expireMs r ≤ nowMs := by
        intro hexpired
        rw [DelegationEntry.expired, if_pos hexpired, sub_self] at hamount
        exact lt_irrefl 0 hamount
      have hexpired : locked.expired nowMs r = 0 := if_neg hrunning
      rw [hexpired, sub_zero] at hamount
      refine ⟨locked, ⟨hlocked, hamount, not_le.1 hrunning⟩, ?_⟩
      rw [remaining_expireMs, hexpired, if_neg (lt_irrefl 0)]

/-- Merging takes expired amounts only. -/
private theorem keeps_merge (p : PairState) (nowMs : ℤ) : Keeps nowMs p (p.merge nowMs) := by
  intro r e he
  obtain ⟨hlocked, hamount, hexpire⟩ := he
  have hexpired : e.expired nowMs r = 0 := if_neg (not_le.2 hexpire)
  have hamount' : (remaining e nowMs).pair.field r = e.pair.field r := by
    rw [remaining_field, hexpired, sub_zero]
  have hexpire' : (remaining e nowMs).expireMs r = e.expireMs r := by
    rw [remaining_expireMs, hexpired, if_neg (lt_irrefl 0)]
  rcases merge_locked p nowMs with hsame | ⟨locked, hheld, hleft⟩
  · exact ⟨e, hsame.trans hlocked, le_rfl, le_rfl⟩
  · obtain rfl := Option.some.inj (hheld.symm.trans hlocked)
    have hrest : ¬ ((remaining locked nowMs).pair.bandwidth = 0 ∧
        (remaining locked nowMs).pair.energy = 0) := by
      rintro ⟨hbandwidth, henergy⟩
      rcases r with _ | _
      · exact hamount.ne' (hamount'.symm.trans hbandwidth)
      · exact hamount.ne' (hamount'.symm.trans henergy)
    rw [if_neg hrest] at hleft
    exact ⟨_, hleft, hamount'.ge, hexpire'.ge⟩

/-- A delegation keeps the locks when its own expiry is not before theirs. -/
private theorem keeps_delegate {amount expireMs : ℤ} (h0 : 0 ≤ amount) {lock : Bool}
    {resource : DelegatableResource}
    (hexpire : lock = true → ∀ e, p.Locks nowMs resource e → e.expireMs resource ≤ expireMs) :
    Keeps nowMs p (p.delegate amount lock expireMs resource) := by
  rcases lock with _ | _
  · exact .of_locked_eq rfl
  · intro r e he
    have hentry : (p.delegate amount true expireMs resource).locked =
        some (e.grow amount true expireMs resource) := by
      change some ((p.locked.getD {}).grow amount true expireMs resource) = _
      rw [he.1, Option.getD_some]
    refine ⟨_, hentry, ?_, ?_⟩
    · rw [DelegationEntry.field_grow]
      split
      · omega
      · omega
    · by_cases hr : r = resource
      · subst hr
        have hgrown : (e.grow amount true expireMs r).expireMs r = expireMs := by
          rcases r with _ | _ <;> rfl
        rw [hgrown]
        exact hexpire rfl e he
      · have hsame : (e.grow amount true expireMs resource).expireMs r = e.expireMs r := by
          rcases r with _ | _ <;> rcases resource with _ | _ <;> first | rfl | exact absurd rfl hr
        exact hsame.ge

/-- An undelegation takes from the unlocked entry only. -/
@[simp] theorem shrink_locked (p : PairState) (amount : ℤ) (resource : DelegatableResource) :
    (p.shrink amount resource).locked = p.locked := by
  rw [shrink]
  rcases p.unlocked with _ | unlocked <;> rfl

@[simp] theorem unlist_locked (p : PairState) : p.unlist.locked = p.locked := by
  rw [unlist]
  split
  · rfl
  · split <;> rfl

/-! ### The default period -/

/-- No lock of a positive amount runs beyond `boundMs`. -/
def Within (p : PairState) (boundMs : ℤ) : Prop :=
  ∀ r e, p.locked = some e → 0 < e.pair.field r → e.expireMs r ≤ boundMs

/-- A later bound is a bound as well. -/
theorem Within.mono {boundMs boundMs' : ℤ} (h : p.Within boundMs) (hle : boundMs ≤ boundMs') :
    p.Within boundMs' :=
  fun r e he hpos => (h r e he hpos).trans hle

/-- The bound is one on the lock. -/
private theorem Within.of_locked_eq {boundMs : ℤ} (h : p.Within boundMs)
    (hlocked : p'.locked = p.locked) :
    p'.Within boundMs :=
  fun r e he => h r e (hlocked ▸ he)

/-- What is left of a lock after a merge has not expired. -/
theorem Within.merge {boundMs : ℤ} (h : p.Within boundMs) (nowMs : ℤ) :
    (p.merge nowMs).Within boundMs := by
  intro r e he hpos
  rcases merge_locked p nowMs with hsame | ⟨locked, hlocked, hleft⟩
  · exact h r e (hsame ▸ he) hpos
  · rw [hleft] at he
    split at he
    · exact absurd he (Option.some_ne_none e).symm
    · obtain rfl := Option.some.inj he
      rw [remaining_field] at hpos
      have hrunning : ¬ locked.expireMs r ≤ nowMs := by
        intro hexpired
        rw [DelegationEntry.expired, if_pos hexpired, sub_self] at hpos
        exact lt_irrefl 0 hpos
      have hexpired : locked.expired nowMs r = 0 := if_neg hrunning
      rw [hexpired, sub_zero] at hpos
      rw [remaining_expireMs, hexpired, if_neg (lt_irrefl 0)]
      exact h r locked hlocked hpos

/-- A delegation within the bound keeps the pair within it. -/
theorem Within.delegate {boundMs expireMs : ℤ} (h : p.Within boundMs) {lock : Bool}
    (hexpire : lock = true → expireMs ≤ boundMs) (amount : ℤ) (resource : DelegatableResource) :
    (p.delegate amount lock expireMs resource).Within boundMs := by
  rcases lock with _ | _
  · exact h.of_locked_eq rfl
  · intro r e he hpos
    obtain rfl := Option.some.inj he
    by_cases hr : r = resource
    · subst hr
      have hgrown :
          (((p.entry true).getD {}).grow amount true expireMs r).expireMs r = expireMs := by
        rcases r with _ | _ <;> rfl
      rw [hgrown]
      exact hexpire rfl
    · have hsame : (((p.entry true).getD {}).grow amount true expireMs resource).expireMs r =
          ((p.entry true).getD {}).expireMs r := by
        rcases r with _ | _ <;> rcases resource with _ | _ <;> first | rfl | exact absurd rfl hr
      rw [DelegationEntry.field_grow, if_neg (Ne.symm hr), add_zero] at hpos
      rw [hsame]
      rcases hlocked : p.locked with _ | locked
      · -- a fresh entry holds nothing of the other resource
        rw [entry, hlocked] at hpos
        exact absurd hpos (by rcases r with _ | _ <;> exact lt_irrefl 0)
      · rw [entry, hlocked] at hpos ⊢
        exact h r locked hlocked hpos

end PairState

/-! ### The pairs of a chain -/

/-- The delegation tables of a chain, pair by pair, and the time of its head. -/
@[ext] structure DelegationView where
  pairs : Address × Address → PairState
  legacyPairs : Address × Address → LegacyPairState
  headMs : Option ℤ

namespace DelegationView

/-- The view with one pair replaced. -/
def setPair (v : DelegationView) (k : Address × Address) (p : PairState) : DelegationView :=
  { v with pairs := Function.update v.pairs k p }

/-- The view with one Stake 1.0 pair replaced. -/
def setLegacyPair (v : DelegationView) (k : Address × Address) (p : LegacyPairState) :
    DelegationView :=
  { v with legacyPairs := Function.update v.legacyPairs k p }

@[simp] theorem setPair_self (v : DelegationView) (k : Address × Address) :
    v.setPair k (v.pairs k) = v := by
  rw [setPair, Function.update_eq_self]

@[simp] theorem setLegacyPair_self (v : DelegationView) (k : Address × Address) :
    v.setLegacyPair k (v.legacyPairs k) = v := by
  rw [setLegacyPair, Function.update_eq_self]

@[simp] theorem pairs_setPair_self (v : DelegationView) (k : Address × Address) (p : PairState) :
    (v.setPair k p).pairs k = p := Function.update_self ..

private theorem pairs_setPair_of_ne (v : DelegationView) {k k' : Address × Address} (h : k' ≠ k)
    (p : PairState) : (v.setPair k p).pairs k' = v.pairs k' := Function.update_of_ne h ..

@[simp] theorem setPair_setPair (v : DelegationView) (k : Address × Address) (p p' : PairState) :
    (v.setPair k p).setPair k p' = v.setPair k p' := by
  rw [setPair, setPair, setPair, Function.update_idem]

@[simp] theorem setLegacyPair_setLegacyPair (v : DelegationView) (k : Address × Address)
    (p p' : LegacyPairState) : (v.setLegacyPair k p).setLegacyPair k p' = v.setLegacyPair k p' := by
  rw [setLegacyPair, setLegacyPair, setLegacyPair, Function.update_idem]

@[simp] theorem legacyPairs_setLegacyPair_self (v : DelegationView) (k : Address × Address)
    (p : LegacyPairState) : (v.setLegacyPair k p).legacyPairs k = p := Function.update_self ..

private theorem legacyPairs_setLegacyPair_of_ne (v : DelegationView) {k k' : Address × Address}
    (h : k' ≠ k) (p : LegacyPairState) :
    (v.setLegacyPair k p).legacyPairs k' = v.legacyPairs k' := Function.update_of_ne h ..

end DelegationView

namespace Chain

/-- The delegation tables of a chain, pair by pair. -/
def delegationView (c : Chain) : DelegationView where
  pairs k := ⟨(c.table .delegations).get (k.1, k.2, false),
    (c.table .delegations).get (k.1, k.2, true), (c.table .delegationPairs).has k⟩
  legacyPairs k := ⟨(c.table .legacyDelegations).get k, (c.table .legacyDelegationPairs).has k⟩
  headMs := c.registers.blocks.headTimestamp

/-- The tables the view is made of. -/
def viewTables : List Table :=
  [.delegations, .delegationPairs, .legacyDelegations, .legacyDelegationPairs]

/-- The view reads four tables and the time of the head block. -/
private theorem view_eq_of_tables {c c' : Chain} (h : ∀ t ∈ viewTables, c'.table t = c.table t)
    (hhead : c'.registers.blocks.headTimestamp = c.registers.blocks.headTimestamp) :
    c'.delegationView = c.delegationView := by
  rw [delegationView, h .delegations (by decide), h .delegationPairs (by decide),
    h .legacyDelegations (by decide), h .legacyDelegationPairs (by decide), hhead]
  rfl

/-- A write to another table does not show in the view. -/
private theorem view_setTable (c : Chain) {t : Table} (m : InsertionMap t.Key t.Val)
    (h : t ∉ viewTables) :
    (c.setTable t m).delegationView = c.delegationView :=
  view_eq_of_tables (fun _ hu => setTable_table_of_ne c m fun he => h (he ▸ hu)) rfl

@[simp] theorem view_setRecord (c : Chain) (a : Address) (r : AccountRecord) :
    (c.setRecord a r).delegationView = c.delegationView := view_setTable c _ (by decide)

@[simp] theorem view_setAccount (c : Chain) (a : Address) (account : Account) :
    (c.setAccount a account).delegationView = c.delegationView := rfl

@[simp] theorem view_shiftWeight (c : Chain) (r : StakeResource) (before after : ℤ) :
    (c.shiftWeight r before after).delegationView = c.delegationView := by
  refine view_eq_of_tables (fun _ _ => rfl) ?_
  rcases r with _ | _ | _ <;> rfl

/-- Writing one entry of a pair. -/
private theorem view_putDelegation (c : Chain) (owner receiver : Address) (locked : Bool)
    (o : Option DelegationEntry) :
    (c.setTable .delegations
        ((c.table .delegations).put (owner, receiver, locked) o)).delegationView =
      c.delegationView.setPair (owner, receiver)
        ((c.delegationView.pairs (owner, receiver)).setEntry locked o) := by
  have hother : ∀ u, u ≠ Table.delegations →
      (c.setTable .delegations ((c.table .delegations).put (owner, receiver, locked) o)).table u =
        c.table u := fun u hu => setTable_table_of_ne c _ hu
  have hget := fun l k =>
    get_put_delegations c (owner, receiver, locked) (Prod.fst k, Prod.snd k, l) o
  refine DelegationView.ext (funext fun k => ?_) (funext fun k => ?_) rfl
  · have hlisted : ((c.setTable .delegations
        ((c.table .delegations).put (owner, receiver, locked) o)).table .delegationPairs).has k =
        (c.table .delegationPairs).has k := by rw [hother _ (by decide)]
    change PairState.mk _ _ _ = Function.update c.delegationView.pairs (owner, receiver) _ k
    by_cases hk : k = (owner, receiver)
    · subst hk
      rw [Function.update_self]
      rcases locked with _ | _
      · exact PairState.ext ((hget false _).trans (if_pos rfl))
          ((hget true _).trans (if_neg (by simp))) hlisted
      · exact PairState.ext ((hget false _).trans (if_neg (by simp)))
          ((hget true _).trans (if_pos rfl)) hlisted
    · have hne : ∀ l : Bool, ¬ (k.1, k.2, l) = (owner, receiver, locked) := by
        intro l h
        simp only [Prod.mk.injEq] at h
        exact hk (Prod.ext h.1 h.2.1)
      rw [Function.update_of_ne hk]
      exact PairState.ext ((hget false k).trans (if_neg (hne _)))
        ((hget true k).trans (if_neg (hne _))) hlisted
  · change LegacyPairState.mk _ _ = _
    rw [hother _ (by decide), hother _ (by decide)]
    rfl

/-- Writing a row of the account index. -/
private theorem view_setPairs (c : Chain) (k : Address × Address)
    (m : InsertionMap (Address × Address) ℤ)
    (listed : Bool)
    (h : ∀ k', m.has k' = if k' = k then listed else (c.table .delegationPairs).has k') :
    (c.setTable .delegationPairs m).delegationView =
      c.delegationView.setPair k { c.delegationView.pairs k with listed := listed } := by
  have hother : ∀ u, u ≠ Table.delegationPairs →
      (c.setTable .delegationPairs m).table u = c.table u :=
    fun u hu => setTable_table_of_ne c _ hu
  refine DelegationView.ext (funext fun k' => ?_) (funext fun k' => ?_) rfl
  · change PairState.mk _ _ _ = Function.update c.delegationView.pairs k _ k'
    rw [hother _ (by decide), setTable_table_self, h]
    by_cases hk : k' = k
    · subst hk
      rw [if_pos rfl, Function.update_self]
      rfl
    · rw [if_neg hk, Function.update_of_ne hk]
      rfl
  · change LegacyPairState.mk _ _ = _
    rw [hother _ (by decide), hother _ (by decide)]
    rfl

/-- Writing the entry of a Stake 1.0 pair. -/
private theorem view_putLegacyDelegation (c : Chain) (k : Address × Address)
    (o : Option LegacyDelegationEntry) :
    (c.setTable .legacyDelegations ((c.table .legacyDelegations).put k o)).delegationView =
      c.delegationView.setLegacyPair k { c.delegationView.legacyPairs k with entry := o } := by
  have hother : ∀ u, u ≠ Table.legacyDelegations →
      (c.setTable .legacyDelegations ((c.table .legacyDelegations).put k o)).table u = c.table u :=
    fun u hu => setTable_table_of_ne c _ hu
  refine DelegationView.ext (funext fun k' => ?_) (funext fun k' => ?_) rfl
  · change PairState.mk _ _ _ = _
    rw [hother _ (by decide), hother _ (by decide)]
    rfl
  · change LegacyPairState.mk _ _ = Function.update c.delegationView.legacyPairs k _ k'
    rw [setTable_table_self, hother .legacyDelegationPairs (by decide)]
    refine (congrArg (LegacyPairState.mk · _) (InsertionMap.get_put _ k k' o)).trans ?_
    by_cases hk : k' = k
    · subst hk
      rw [if_pos rfl, Function.update_self]
      rfl
    · rw [if_neg hk, Function.update_of_ne hk]
      rfl

/-- Writing a row of the Stake 1.0 account index. -/
private theorem view_setLegacyPairs (c : Chain) (k : Address × Address)
    (m : InsertionMap (Address × Address) ℤ) (listed : Bool)
    (h : ∀ k', m.has k' =
      if k' = k then listed else (c.table .legacyDelegationPairs).has k') :
    (c.setTable .legacyDelegationPairs m).delegationView =
      c.delegationView.setLegacyPair k
        { c.delegationView.legacyPairs k with listed := listed } := by
  have hother : ∀ u, u ≠ Table.legacyDelegationPairs →
      (c.setTable .legacyDelegationPairs m).table u = c.table u :=
    fun u hu => setTable_table_of_ne c _ hu
  refine DelegationView.ext (funext fun k' => ?_) (funext fun k' => ?_) rfl
  · change PairState.mk _ _ _ = _
    rw [hother _ (by decide), hother _ (by decide)]
    rfl
  · change LegacyPairState.mk _ _ = Function.update c.delegationView.legacyPairs k _ k'
    rw [hother _ (by decide), setTable_table_self, h]
    by_cases hk : k' = k
    · subst hk
      rw [if_pos rfl, Function.update_self]
      rfl
    · rw [if_neg hk, Function.update_of_ne hk]
      rfl

end Chain

/-! ### What the operations do to the view -/

/-- What `x` does to the view of the chain. -/
def Views {α : Type} (x : NodeM α) (f : DelegationView → DelegationView) (c : Chain) : Prop :=
  Returns x (fun _ c' => c'.delegationView = f c.delegationView) c

variable (env : NodeEnv) {c : Chain}

/-- In the view an unlock is a merge of the pair. -/
private theorem views_unlockExpiredDelegation (owner receiver : Address) (nowMs : ℤ) :
    Views (unlockExpiredDelegation owner receiver nowMs) (fun v =>
      v.setPair (owner, receiver) ((v.pairs (owner, receiver)).merge nowMs)) c := by
  refine .bind (.read ?_)
  have hp : (c.delegationView.pairs (owner, receiver)).locked =
      (c.table .delegations).get (owner, receiver, true) := rfl
  -- where nothing moves the view is the one before
  have hsame : ∀ p, p = c.delegationView.pairs (owner, receiver) →
      c.delegationView = c.delegationView.setPair (owner, receiver) p := by
    rintro p rfl
    exact (DelegationView.setPair_self _ _).symm
  rcases hlocked : (c.table .delegations).get (owner, receiver, true) with _ | locked
  · exact .pure (hsame _ (PairState.merge_of_unlocked (hp.trans hlocked) nowMs))
  · have hp := hp.trans hlocked
    refine .ite (fun hnone => .pure (hsame _ (PairState.merge_of_running hp hnone)))
      fun hsome => .bind (.putDelegation (.bind (.read (.putDelegation ?_))))
    rw [Chain.view_putDelegation, Chain.view_putDelegation, DelegationView.pairs_setPair_self,
      DelegationView.setPair_setPair, Chain.get_put_delegations,
      if_neg (fun h => Bool.false_ne_true (congrArg (fun k => k.2.2) h))]
    exact congrArg (c.delegationView.setPair (owner, receiver))
      (PairState.merge_of_expired hp hsome).symm

/-- In the view the pair is listed. -/
private theorem views_notePair (owner receiver : Address) :
    Views (notePair owner receiver) (fun v =>
      v.setPair (owner, receiver) { v.pairs (owner, receiver) with listed := true }) c := by
  refine .bind (.headTimestampMs fun timestampMs _ => .writeTable ?_)
  refine Chain.view_setPairs c (owner, receiver) _ true fun k => ?_
  change (((c.table .delegationPairs).set (owner, receiver) timestampMs).get k).isSome = _
  rw [InsertionMap.get_set]
  split <;> rfl

/-- In the view the pair is taken off the list where it is empty. -/
private theorem views_dropPairIfEmpty (owner receiver : Address) :
    Views (dropPairIfEmpty owner receiver) (fun v =>
      v.setPair (owner, receiver) (v.pairs (owner, receiver)).unlist) c := by
  have hhas : ∀ l, (c.table .delegations).has (owner, receiver, l) =
      ((c.delegationView.pairs (owner, receiver)).entry l).isSome := by
    intro l
    rcases l with _ | _ <;> rfl
  have hsame : ∀ p, p = c.delegationView.pairs (owner, receiver) →
      c.delegationView = c.delegationView.setPair (owner, receiver) p := by
    rintro p rfl
    exact (DelegationView.setPair_self _ _).symm
  refine .bind (.read (.ite (fun hunlocked => .pure (hsame _ ?_)) fun hunlocked => .bind (.read
    (.ite (fun hlocked => .pure (hsame _ ?_)) fun hlocked => .removeFrom ?_))))
  · rw [hhas] at hunlocked
    exact if_pos hunlocked
  · rw [hhas] at hunlocked hlocked
    exact (if_neg hunlocked).trans (if_pos hlocked)
  · rw [hhas] at hunlocked hlocked
    have hunlist : (c.delegationView.pairs (owner, receiver)).unlist =
        { c.delegationView.pairs (owner, receiver) with listed := false } :=
      (if_neg hunlocked).trans (if_neg hlocked)
    refine (Chain.view_setPairs c (owner, receiver) _ false fun k => ?_).trans
      (congrArg (c.delegationView.setPair (owner, receiver)) hunlist.symm)
    rw [InsertionMap.has, InsertionMap.get_delete]
    split <;> rfl

/-- The expiry a delegation asks for. -/
def lockExpireMs (nowMs : ℤ) (lock : Bool) (lockPeriodBlocks : ℤ) : ℤ :=
  if lock then
    nowMs + (if lockPeriodBlocks = 0 then DEFAULT_DELEGATE_LOCK_BLOCKS else lockPeriodBlocks) *
      BLOCK_INTERVAL_MS
  else 0

/-- In the view a delegation merges the pair and then adds to it. -/
private theorem views_delegateResource (owner receiver : Address) (amount : ℤ)
    (resource : DelegatableResource) (lock : Bool) (lockPeriodBlocks : ℤ) :
    Returns (delegateResource owner receiver amount resource lock lockPeriodBlocks)
      (fun _ c' => ∃ nowMs, c.delegationView.headMs = some nowMs ∧
        c'.delegationView = c.delegationView.setPair (owner, receiver)
          (((c.delegationView.pairs (owner, receiver)).merge nowMs).delegate amount lock
            (lockExpireMs nowMs lock lockPeriodBlocks) resource)) c := by
  refine .bind (.headTimestampMs fun nowMs hnow => .bind
    ((views_unlockExpiredDelegation owner receiver nowMs).mono fun _ c₁ h₁ => ?_))
  refine .bind (.read (.bind (.putDelegation (.bind
    ((views_notePair owner receiver).mono fun _ c₂ h₂ => ?_)))))
  refine .bind (.modifyRecord (.modifyRecord ⟨nowMs, hnow, ?_⟩))
  have h₁ : c₁.delegationView = c.delegationView.setPair (owner, receiver)
      ((c.delegationView.pairs (owner, receiver)).merge nowMs) := h₁
  have hheld : (c₁.table .delegations).get (owner, receiver, lock) =
      (c₁.delegationView.pairs (owner, receiver)).entry lock := by
    rcases lock with _ | _ <;> rfl
  rw [Chain.view_setRecord, Chain.view_setRecord, h₂, Chain.view_putDelegation, hheld, h₁]
  simp only [DelegationView.pairs_setPair_self, DelegationView.setPair_setPair]
  rfl

/-- What the receiver had been delegated does not show. -/
private theorem views_releaseAcquired (receiver : Address) (amount : ℤ)
    (resource : DelegatableResource) :
    Views (releaseAcquired env receiver amount resource) id c :=
  .bind (.read (.bind (.read (.bind (.read (.bind (.modifyRecord (.pure
    (Chain.view_setRecord c _ _)))))))))

/-- In the view the unlocked entry shrinks. -/
private theorem views_shrinkUnlocked (owner receiver : Address) (amount : ℤ)
    (resource : DelegatableResource) :
    Views (shrinkUnlocked owner receiver amount resource) (fun v =>
      v.setPair (owner, receiver) ((v.pairs (owner, receiver)).shrink amount resource)) c := by
  refine .bind (.read ?_)
  have hp : (c.delegationView.pairs (owner, receiver)).unlocked =
      (c.table .delegations).get (owner, receiver, false) := rfl
  rcases hunlocked : (c.table .delegations).get (owner, receiver, false) with _ | unlocked
  · have hshrink : (c.delegationView.pairs (owner, receiver)).shrink amount resource =
        c.delegationView.pairs (owner, receiver) := by
      rw [PairState.shrink, hp, hunlocked]
    exact .pure ((DelegationView.setPair_self _ _).symm.trans
      (congrArg (c.delegationView.setPair (owner, receiver)) hshrink.symm))
  · refine .putDelegation ((Chain.view_putDelegation c owner receiver false _).trans
      (congrArg (c.delegationView.setPair (owner, receiver)) ?_))
    rw [PairState.shrink, hp, hunlocked]
    rfl

/-- The owner's usage does not show. -/
private theorem views_addOwnerUsage (owner : Address) (transferUsage : ℤ)
    (resource : DelegatableResource) :
    Views (addOwnerUsage env owner transferUsage resource) id c :=
  .ite (fun _ => .bind (.read (.modifyRecord (Chain.view_setRecord c _ _)))) fun _ => .pure rfl

/-- In the view an undelegation merges the pair, shrinks it and drops it where it is empty. -/
private theorem views_undelegateResource (owner receiver : Address) (amount : ℤ)
    (resource : DelegatableResource) :
    Returns (undelegateResource env owner receiver amount resource)
      (fun _ c' => ∃ nowMs, c.delegationView.headMs = some nowMs ∧
        c'.delegationView = c.delegationView.setPair (owner, receiver)
          (((c.delegationView.pairs (owner, receiver)).merge nowMs).shrink amount
            resource).unlist) c := by
  refine .bind (.headTimestampMs fun nowMs hnow => .bind
    ((views_releaseAcquired env receiver amount resource).mono fun usage c₁ h₁ => ?_))
  refine .bind ((views_unlockExpiredDelegation owner receiver nowMs).mono fun _ c₂ h₂ => ?_)
  refine .bind ((views_shrinkUnlocked owner receiver amount resource).mono fun _ c₃ h₃ => ?_)
  refine .bind ((views_dropPairIfEmpty owner receiver).mono fun _ c₄ h₄ => ?_)
  refine .bind (.modifyRecord ((views_addOwnerUsage env owner usage resource).mono
    fun _ c₅ h₅ => ⟨nowMs, hnow, ?_⟩))
  rw [h₅, id, Chain.view_setRecord, h₄, h₃, h₂, h₁]
  simp only [id, DelegationView.pairs_setPair_self, DelegationView.setPair_setPair]

/-- The queue of an account does not show. -/
private theorem views_claimExpiredUnfrozen (owner : Address) (nowMs : ℤ) :
    Views (claimExpiredUnfrozen env owner nowMs) id c :=
  .bind (.modifyRecord (.bind (.read (.ite (fun _ => .pure (Chain.view_setRecord c _ _)) fun _ =>
    .bind (.modifyRecord (.bind (.adjustBalance fun _ _ => .pure (by simp))))))))

private theorem views_freezeV2 (owner : Address) (amount : ℤ) (resource : StakeResource) :
    Views (freezeV2 env owner amount resource) id c :=
  .bind (.adjustBalance fun _ _ => .bind (.read (.bind (.modifyRecord (.shiftWeight (by simp))))))

private theorem views_unfreezeV2 (owner : Address) (amount : ℤ) (resource : StakeResource) :
    Views (unfreezeV2 env owner amount resource) id c :=
  .bind (.headTimestampMs fun nowMs _ => .bind ((views_claimExpiredUnfrozen env owner nowMs).mono
    fun _ c₁ h => .bind (.read (.bind (.modifyRecord (.bind (.shiftWeight (.bind
      (.modifyRecord (.pure (by simpa using h)))))))))))

private theorem views_withdrawExpiredUnfreeze (owner : Address) :
    Views (withdrawExpiredUnfreeze env owner) id c :=
  .bind (.headTimestampMs fun nowMs _ => views_claimExpiredUnfrozen env owner nowMs)

private theorem views_returnCanceled (owner : Address) (back : ℤ) (resource : StakeResource) :
    Views (returnCanceled owner back resource) id c :=
  .ite (fun _ => .pure rfl) fun _ => .bind (.read (.bind (.modifyRecord (.shiftWeight (by simp)))))

/-- Nor does canceling it. -/
private theorem views_cancelAllUnfreezeV2 (owner : Address) :
    Views (cancelAllUnfreezeV2 env owner) id c := by
  refine .bind (.headTimestampMs fun nowMs _ => .bind
    ((views_claimExpiredUnfrozen env owner nowMs).mono fun _ c₁ h₁ => .bind (.read (.bind
      (.modifyRecord ?_)))))
  refine .bind ((views_returnCanceled owner _ .bandwidth).mono fun _ c₂ h₂ => ?_)
  refine .bind ((views_returnCanceled owner _ .energy).mono fun _ c₃ h₃ => ?_)
  refine .bind ((views_returnCanceled owner _ .tronPower).mono fun _ c₄ h₄ => .pure ?_)
  rw [h₄, id, h₃, id, h₂, id, Chain.view_setRecord, h₁]

/-! ### Stake 1.0 -/

/-- In the view the pair of the first version is listed. -/
private theorem views_noteLegacyPair (owner receiver : Address) :
    Views (noteLegacyPair owner receiver) (fun v =>
      v.setLegacyPair (owner, receiver) { v.legacyPairs (owner, receiver) with listed := true })
      c := by
  refine .bind (.headTimestampMs fun timestampMs _ => .writeTable ?_)
  refine Chain.view_setLegacyPairs c (owner, receiver) _ true fun k => ?_
  change (((c.table .legacyDelegationPairs).set (owner, receiver) timestampMs).get k).isSome = _
  rw [InsertionMap.get_set]
  split <;> rfl

/-- In the view it is taken off the list where it is empty. -/
private theorem views_dropLegacyPairIfEmpty (owner receiver : Address) :
    Views (dropLegacyPairIfEmpty owner receiver) (fun v =>
      v.setLegacyPair (owner, receiver) (v.legacyPairs (owner, receiver)).unlist) c := by
  have hhas : (c.table .legacyDelegations).has (owner, receiver) =
      (c.delegationView.legacyPairs (owner, receiver)).entry.isSome := rfl
  refine .bind (.read (.ite (fun hentry => .pure ?_) fun hentry => .removeFrom ?_))
  · rw [hhas] at hentry
    have hunlist : (c.delegationView.legacyPairs (owner, receiver)).unlist =
        c.delegationView.legacyPairs (owner, receiver) := if_pos hentry
    exact (DelegationView.setLegacyPair_self _ _).symm.trans
      (congrArg (c.delegationView.setLegacyPair (owner, receiver)) hunlist.symm)
  · rw [hhas] at hentry
    have hunlist : (c.delegationView.legacyPairs (owner, receiver)).unlist =
        { c.delegationView.legacyPairs (owner, receiver) with listed := false } := if_neg hentry
    refine (Chain.view_setLegacyPairs c (owner, receiver) _ false fun k => ?_).trans
      (congrArg (c.delegationView.setLegacyPair (owner, receiver)) hunlist.symm)
    rw [InsertionMap.has, InsertionMap.get_delete]
    split <;> rfl

/-- A Stake 1.0 freeze for a receiver gives the pair an entry and lists it. -/
private theorem views_freezeLegacy (owner : Address) (amount : ℤ) (resource : StakeResource)
    (durationDays : ℤ) (receiver : Option Address) :
    Returns (freezeLegacy env owner amount resource durationDays receiver) (fun _ c' =>
      c'.delegationView = c.delegationView ∨ ∃ k entry,
        c'.delegationView = c.delegationView.setLegacyPair k ⟨some entry, true⟩) c := by
  refine .bind (.adjustBalance fun account _ => .bind (.modifyRecord (.bind
    (.headTimestampMs fun nowMs _ => ?_))))
  rcases legacyTarget env resource receiver with _ | ⟨target, field⟩
  · exact .bind (.read (.bind (.modifyRecord (.shiftWeight (.inl (by simp))))))
  · refine .bind (.read ?_)
    generalize Chain.legacyDelegation _ owner target = existing
    refine .bind (.putLegacyDelegation (.bind
      ((views_noteLegacyPair owner target).mono fun _ c₁ h₁ => ?_)))
    refine .bind (.modifyRecord (.bind (.read (.bind (.modifyRecord (.shiftWeight (.inr
      ⟨(owner, target), existing.grow amount (nowMs + durationDays * DAY_MS) field, ?_⟩)))))))
    rw [Chain.view_shiftWeight, Chain.view_setRecord, Chain.view_setRecord, h₁,
      Chain.view_putLegacyDelegation]
    simp only [DelegationView.legacyPairs_setLegacyPair_self,
      DelegationView.setLegacyPair_setLegacyPair, Chain.view_setRecord, Chain.view_setAccount]

/-- A Stake 1.0 pair before and after a release. -/
def LegacyReleased (c c' : Chain) : Prop :=
  c'.delegationView = c.delegationView ∨ ∃ k o,
    (c.delegationView.legacyPairs k).entry.isSome ∧
    c'.delegationView = c.delegationView.setLegacyPair k
      ({ c.delegationView.legacyPairs k with entry := o } : LegacyPairState).unlist

/-- A release is one of the view. -/
theorem LegacyReleased.congr {c c₁ c₂ c₃ : Chain} (h : LegacyReleased c₁ c₂)
    (hbefore : c₁.delegationView = c.delegationView)
    (hafter : c₃.delegationView = c₂.delegationView) :
    LegacyReleased c c₃ := by
  rw [LegacyReleased, hbefore] at h
  rwa [LegacyReleased, hafter]

/-- A release changes one pair of the first version. -/
private theorem views_releaseLegacyDelegation (owner target : Address)
    (field : DelegatableResource) :
    Returns (releaseLegacyDelegation env owner target field)
      (fun _ c' => LegacyReleased c c') c := by
  refine .bind (.read (.bind (.orTypeError fun existing hget => .bind (.putLegacyDelegation ?_))))
  generalize (if (existing.clear field).pair.bandwidth = 0 ∧ (existing.clear field).pair.energy = 0
    then none else some (existing.clear field)) = next
  refine .bind ((views_dropLegacyPairIfEmpty owner target).mono fun _ c₁ h₁ => ?_)
  have hentry : (c.delegationView.legacyPairs (owner, target)).entry.isSome := by
    change ((c.table .legacyDelegations).get (owner, target)).isSome = true
    rw [hget]
    rfl
  have h₁ : c₁.delegationView = c.delegationView.setLegacyPair (owner, target)
      ({ c.delegationView.legacyPairs (owner, target) with entry := next } :
        LegacyPairState).unlist := by
    rw [h₁, Chain.view_putLegacyDelegation]
    simp only [DelegationView.legacyPairs_setLegacyPair_self,
      DelegationView.setLegacyPair_setLegacyPair]
  have hreleased : LegacyReleased c c₁ := .inr ⟨(owner, target), next, hentry, h₁⟩
  have hrecord : ∀ {c₂ : Chain} (a : Address) (r : AccountRecord), LegacyReleased c c₂ →
      LegacyReleased c (c₂.setRecord a r) :=
    fun a r h => h.congr rfl (Chain.view_setRecord _ a r)
  refine .bind (.modifyRecord (.bind (.getAccount (.bind (.read (.ite (fun _ => ?_) fun _ =>
    .pure (hrecord _ _ hreleased)))))))
  exact .bind (.read (.bind (.modifyRecord (.pure (hrecord _ _ (hrecord _ _ hreleased))))))

/-- A Stake 1.0 release leaves the pair with what is left of its entry. -/
private theorem views_unfreezeLegacy (owner : Address) (resource : StakeResource)
    (receiver : Option Address) :
    Returns (unfreezeLegacy env owner resource receiver) (fun _ c' => LegacyReleased c c') c := by
  refine .bind (.modifyRecord ?_)
  have hview : (c.setRecord owner (initializeOldTronPower env (c.recordOf owner))).delegationView =
      c.delegationView := Chain.view_setRecord c _ _
  generalize c.setRecord owner (initializeOldTronPower env (c.recordOf owner)) = c₁ at hview ⊢
  rcases legacyTarget env resource receiver with _ | ⟨target, field⟩
  · refine .bind (.bind (.read (.bind (.modifyRecord (.pure ?_)))))
    refine .bind (.adjustBalance fun account _ => .bind (.shiftWeight (.bind (.modifyRecord
      (.pure (.inl ?_))))))
    rw [Chain.view_setRecord, Chain.view_shiftWeight, Chain.view_setAccount, Chain.view_setRecord,
      hview]
  · refine .bind ((views_releaseLegacyDelegation env owner target field).mono fun p c₂ h₂ => ?_)
    refine .bind (.adjustBalance fun account _ => .bind (.shiftWeight (.bind (.modifyRecord
      (.pure (h₂.congr hview ?_))))))
    rw [Chain.view_setRecord, Chain.view_shiftWeight, Chain.view_setAccount]

/-! ### Pending unstakes -/

/-- No account has more pending unstakes than there are slots. -/
def StakeBooks.PendingBounded (b : StakeBooks Address) : Prop :=
  ∀ a, (b.pending a).length ≤ UNFREEZE_MAX_TIMES

namespace StakeBooks.PendingBounded

variable {b : StakeBooks Address} {owner : Address}

/-- Replacing the pending unstakes of one account by few enough others. -/
theorem update (h : b.PendingBounded) {l : List UnfrozenV2Entry}
    (hl : l.length ≤ UNFREEZE_MAX_TIMES) {b' : StakeBooks Address}
    (hb' : b'.pending = Function.update b.pending owner l) : b'.PendingBounded := by
  intro a
  rw [hb']
  by_cases ha : a = owner
  · subst ha
    rwa [Function.update_self]
  · rw [Function.update_of_ne ha]
    exact h a

/-- A payout leaves a part of the queue. -/
theorem settleAt (h : b.PendingBounded) (owner : Address) (nowMs : ℤ) :
    (b.settleAt owner nowMs).PendingBounded :=
  h.update ((List.length_filter_le _ _).trans (h owner)) rfl

/-- An unstake finds a slot free once what has matured is settled. -/
theorem unfreeze (h : b.PendingBounded) {nowMs : ℤ}
    (hroom : (unmatured (b.pending owner) nowMs).length < UNFREEZE_MAX_TIMES)
    (entry : UnfrozenV2Entry) : ((b.settleAt owner nowMs).unfreeze owner entry).PendingBounded := by
  have hpending : (b.settleAt owner nowMs).pending owner = unmatured (b.pending owner) nowMs :=
    Function.update_self ..
  have hlength : ((b.settleAt owner nowMs).pending owner ++ [entry]).length ≤
    UNFREEZE_MAX_TIMES := by
    rw [hpending, List.length_append]
    exact hroom
  exact (h.settleAt owner nowMs).update hlength rfl

/-- Canceling empties a queue. -/
theorem cancelAll (h : b.PendingBounded) (owner : Address) : (b.cancelAll owner).PendingBounded :=
  h.update (Nat.zero_le _) rfl

/-- The bound is one on the queues. -/
private theorem of_pending_eq {b' : StakeBooks Address} (h : b.PendingBounded)
    (hb' : b'.pending = b.pending) : b'.PendingBounded :=
  fun a => hb' ▸ h a

end StakeBooks.PendingBounded

/-! ### The invariant of the view -/

namespace DelegationView

/-- While the period of a lock cannot be stated, locks end within the default period. -/
def Within (v : DelegationView) : Prop :=
  ∀ k r e, (v.pairs k).locked = some e → 0 < e.pair.field r → ∃ nowMs, v.headMs = some nowMs ∧
    e.expireMs r ≤ nowMs + DEFAULT_DELEGATE_LOCK_BLOCKS * BLOCK_INTERVAL_MS

/-- The indexes list the pairs which have an entry, and locks keep to the default period where
there is no other. -/
structure Sound (v : DelegationView) : Prop where
  indexed : ∀ k, (v.pairs k).Indexed
  legacyIndexed : ∀ k, (v.legacyPairs k).Indexed
  within : supportsMaxDelegateLockPeriod env = false → v.Within

/-- Every lock running at the head is kept. -/
def Keeps (v v' : DelegationView) : Prop :=
  ∀ nowMs, v.headMs = some nowMs → ∀ k, PairState.Keeps nowMs (v.pairs k) (v'.pairs k)

variable {env} {v : DelegationView}

/-- Where nothing happens every lock is kept. -/
theorem Keeps.refl (v : DelegationView) : v.Keeps v := fun _ _ _ => .of_locked_eq rfl

/-- Every pair is within the default lock period from now. -/
theorem Within.pair {nowMs : ℤ} (h : v.Within) (hnow : v.headMs = some nowMs)
    (k : Address × Address) :
    (v.pairs k).Within (nowMs + DEFAULT_DELEGATE_LOCK_BLOCKS * BLOCK_INTERVAL_MS) := by
  intro r e he hpos
  obtain ⟨nowMs', hnow', hle⟩ := h k r e he hpos
  obtain rfl := Option.some.inj (hnow.symm.trans hnow')
  exact hle

/-- One pair may be replaced by an indexed one within the bound. -/
private theorem Sound.setPair (h : v.Sound env) {nowMs : ℤ} (hnow : v.headMs = some nowMs)
    {k : Address × Address} {p : PairState} (hp : p.Indexed)
    (hwithin : supportsMaxDelegateLockPeriod env = false →
      p.Within (nowMs + DEFAULT_DELEGATE_LOCK_BLOCKS * BLOCK_INTERVAL_MS)) :
    (v.setPair k p).Sound env where
  indexed k' := by
    by_cases hk : k' = k
    · subst hk
      rwa [pairs_setPair_self]
    · rw [pairs_setPair_of_ne v hk]
      exact h.indexed k'
  legacyIndexed := h.legacyIndexed
  within hs k' r e he hpos := by
    by_cases hk : k' = k
    · subst hk
      rw [pairs_setPair_self] at he
      exact ⟨nowMs, hnow, hwithin hs r e he hpos⟩
    · rw [pairs_setPair_of_ne v hk] at he
      exact h.within hs k' r e he hpos

/-- One pair may be replaced by one that keeps its lock. -/
private theorem Keeps.setPair {nowMs : ℤ} (hnow : v.headMs = some nowMs) {k : Address × Address}
    {p : PairState} (hp : PairState.Keeps nowMs (v.pairs k) p) : v.Keeps (v.setPair k p) := by
  intro nowMs' hnow' k'
  obtain rfl := Option.some.inj (hnow.symm.trans hnow')
  by_cases hk : k' = k
  · subst hk
    rwa [pairs_setPair_self]
  · exact .of_locked_eq (congrArg PairState.locked (pairs_setPair_of_ne v hk p))

/-- One pair of the first version may be replaced by an indexed one. -/
private theorem Sound.setLegacyPair (h : v.Sound env) {k : Address × Address} {p : LegacyPairState}
    (hp : p.Indexed) : (v.setLegacyPair k p).Sound env where
  indexed := h.indexed
  legacyIndexed k' := by
    by_cases hk : k' = k
    · subst hk
      rwa [legacyPairs_setLegacyPair_self]
    · rw [legacyPairs_setLegacyPair_of_ne v hk]
      exact h.legacyIndexed k'
  within := h.within

end DelegationView

/-! ### What the validators promise to locks -/

/-- A running lock is the locked one among the entries of its pair. -/
private theorem find_locked {c : Chain} {owner receiver : Address} {nowMs : ℤ}
    {r : DelegatableResource}
    {e : DelegationEntry} (h : (c.delegationView.pairs (owner, receiver)).Locks nowMs r e) :
    (delegationEntriesOf c owner receiver).find? (fun e => e.1) = some (true, e) := by
  obtain ⟨hlocked, hamount, -⟩ := h
  have hget : (c.table .delegations).get (owner, receiver, true) = some e := hlocked
  have hempty : e.isEmpty = false := by
    rw [DelegationEntry.isEmpty, decide_eq_false_iff_not]
    rintro ⟨hbandwidth, henergy, -⟩
    rcases r with _ | _
    · exact hamount.ne' hbandwidth
    · exact hamount.ne' henergy
  rw [delegationEntriesOf]
  rcases hunlocked : (c.table .delegations).get (owner, receiver, false) with _ | unlocked
  · simp [hunlocked, hget, hempty]
  · by_cases hheld : unlocked.isEmpty = true
    · simp [hunlocked, hget, hempty, hheld]
    · simp [hunlocked, hget, hempty, hheld]

/-- A delegation that passes has a lawful lock period. -/
private theorem validateDelegateResource_lockPeriod {c : Chain} {caller receiver : Address}
    {amount : ℤ}
    {resource : Option StakeResource} {field : DelegatableResource} {lock : Bool} {statedPeriod : ℤ}
    (hfield : resource.bind StakeResource.toDelegatable = some field)
    (h : validateDelegateResource env c caller (some receiver) amount resource lock statedPeriod =
      none) : lockPeriodError env c caller receiver field lock statedPeriod = none := by
  simp only [validateDelegateResource, refusal_eq_none, hfield] at h
  obtain ⟨-, -, -, -, -, h⟩ := h
  rcases hperiod : lockPeriodError env c caller receiver field lock statedPeriod with _ | message
  · rfl
  · rw [hperiod] at h
    exact absurd h (Option.some_ne_none _)

variable {env}

/-- A delegation that passed its validator asks for no earlier expiry than the lock running. -/
private theorem expireMs_le_lockExpireMs {c : Chain} {caller receiver : Address}
    {field : DelegatableResource} {lock : Bool} {statedPeriod nowMs : ℤ} {e : DelegationEntry}
    (hv : c.delegationView.Sound env)
    (h : lockPeriodError env c caller receiver field lock statedPeriod = none)
    (hnow : c.delegationView.headMs = some nowMs) (hlock : lock = true)
    (he : (c.delegationView.pairs (caller, receiver)).Locks nowMs field e) :
    e.expireMs field ≤ lockExpireMs nowMs lock (lockPeriodOf env statedPeriod) := by
  subst hlock
  rw [lockExpireMs, if_pos rfl]
  by_cases hs : supportsMaxDelegateLockPeriod env = true
  · have hhead : c.registers.blocks.headTimestamp = some nowMs := hnow
    rw [lockPeriodError, if_pos ⟨rfl, hs⟩, refusal_eq_none, hhead] at h
    obtain ⟨hrange, h⟩ := h
    have hcovers : e.expireMs field - nowMs ≤ lockPeriodOf env statedPeriod * 3000 := by
      dsimp only at h
      rw [find_locked he] at h
      dsimp only at h
      rw [refusal_eq_none] at h
      exact not_lt.1 h.1
    have hpos := he.2.2
    rw [if_neg (by omega)]
    simp only [BLOCK_INTERVAL_MS]
    omega
  · have hs' : supportsMaxDelegateLockPeriod env = false := Bool.not_eq_true _ ▸ hs
    have hle := (hv.within hs').pair hnow (caller, receiver) field e he.1 he.2.1
    have hperiod : lockPeriodOf env statedPeriod = DEFAULT_DELEGATE_LOCK_BLOCKS := if_neg hs
    rw [hperiod, ite_self]
    exact hle

/-! ### The operations keep the view right -/

/-- What every step keeps of the delegations. -/
def Chain.DelegatesTo (env : NodeEnv) (c c' : Chain) : Prop :=
  c'.delegationView.Sound env ∧ c.delegationView.Keeps c'.delegationView

/-- Nothing has been delegated where the view is the same. -/
private theorem Chain.DelegatesTo.of_view_eq {c c' : Chain} (hv : c.delegationView.Sound env)
    (h : c'.delegationView = c.delegationView) : c.DelegatesTo env c' := by
  rw [Chain.DelegatesTo, h]
  exact ⟨hv, .refl _⟩

/-- A delegation with a lawful lock period keeps the view sound and the other locks in place. -/
private theorem delegates_delegateResource {c : Chain} (hv : c.delegationView.Sound env)
    {caller receiver : Address} {amount : ℤ} (h0 : 0 ≤ amount) {field : DelegatableResource}
    {lock : Bool} {statedPeriod : ℤ}
    (h : lockPeriodError env c caller receiver field lock statedPeriod = none) :
    Returns (delegateResource caller receiver amount field lock (lockPeriodOf env statedPeriod))
      (fun _ c' => c.DelegatesTo env c') c := by
  refine (views_delegateResource caller receiver amount field lock _).mono
    fun _ c' ⟨nowMs, hnow, hview⟩ => ?_
  rw [Chain.DelegatesTo, hview]
  constructor
  · refine hv.setPair hnow (PairState.indexed_delegate ..) fun hs => ?_
    refine (((hv.within hs).pair hnow (caller, receiver)).merge nowMs).delegate
      (fun hlock => ?_) _ _
    have hperiod : lockPeriodOf env statedPeriod = DEFAULT_DELEGATE_LOCK_BLOCKS :=
      if_neg (ne_true_of_eq_false hs)
    rw [lockExpireMs, if_pos hlock, hperiod, ite_self]
  · refine .setPair hnow ((PairState.keeps_merge _ nowMs).trans (PairState.keeps_delegate h0 ?_))
    intro hlock e he
    obtain ⟨locked, hrunning, hsame⟩ := he.of_merge
    rw [← hsame]
    exact expireMs_le_lockExpireMs hv h hnow hlock hrunning

/-- So does an undelegation. -/
private theorem delegates_undelegateResource {c : Chain} (hv : c.delegationView.Sound env)
    (owner receiver : Address) (amount : ℤ) (resource : DelegatableResource) :
    Returns (undelegateResource env owner receiver amount resource)
      (fun _ c' => c.DelegatesTo env c') c := by
  refine (views_undelegateResource env owner receiver amount resource).mono
    fun _ c' ⟨nowMs, hnow, hview⟩ => ?_
  have hmerged := (hv.indexed (owner, receiver)).merge nowMs
  have hlocked : ∀ p : PairState, (p.shrink amount resource).unlist.locked = p.locked :=
    fun p => by simp
  rw [Chain.DelegatesTo, hview]
  constructor
  · refine hv.setPair hnow (PairState.indexed_unlist
      (PairState.listed_of_shrink hmerged amount resource)) fun hs => ?_
    exact (((hv.within hs).pair hnow (owner, receiver)).merge nowMs).of_locked_eq (hlocked _)
  · exact .setPair hnow ((PairState.keeps_merge _ nowMs).trans (.of_locked_eq (hlocked _)))

/-- So does a freeze of the first version. -/
private theorem delegates_freezeLegacy {c : Chain} (hv : c.delegationView.Sound env)
    (owner : Address)
    (amount : ℤ) (resource : StakeResource) (durationDays : ℤ) (receiver : Option Address) :
    Returns (freezeLegacy env owner amount resource durationDays receiver)
      (fun _ c' => c.DelegatesTo env c') c := by
  refine (views_freezeLegacy env owner amount resource durationDays receiver).mono fun _ c' h => ?_
  obtain hview | ⟨k, entry, hview⟩ := h
  · exact .of_view_eq hv hview
  · rw [Chain.DelegatesTo, hview]
    exact ⟨hv.setLegacyPair ⟨fun _ => rfl, fun _ => rfl⟩, fun _ _ _ => .of_locked_eq rfl⟩

/-- So does an unfreeze of the first version. -/
private theorem delegates_unfreezeLegacy {c : Chain} (hv : c.delegationView.Sound env)
    (owner : Address)
    (resource : StakeResource) (receiver : Option Address) :
    Returns (unfreezeLegacy env owner resource receiver) (fun _ c' => c.DelegatesTo env c') c := by
  refine (views_unfreezeLegacy env owner resource receiver).mono fun _ c' h => ?_
  obtain hview | ⟨k, o, hentry, hview⟩ := h
  · exact .of_view_eq hv hview
  · rw [Chain.DelegatesTo, hview]
    have hlisted : (c.delegationView.legacyPairs k).listed = true := (hv.legacyIndexed k).2 hentry
    exact ⟨hv.setLegacyPair (LegacyPairState.indexed_unlist hlisted),
      fun _ _ _ => .of_locked_eq rfl⟩

/-! ### Requests -/

variable (env)

/-- The staking state of a chain is in order: the books, the pairs, the pending unstakes. -/
structure Chain.DelegationsSound (c : Chain) : Prop where
  consistent : c.Consistent
  pending : c.books.PendingBounded
  view : c.delegationView.Sound env

/-- What a step of a run keeps. -/
def Chain.StaysSound (c : Chain) {α : Type} (_ : α) (c' : Chain) : Prop :=
  c'.DelegationsSound env ∧ c.delegationView.Keeps c'.delegationView

variable {env}

/-- Two results of one method hold together. -/
theorem Returns.and {α : Type} {c : Chain} {x : NodeM α} {P Q : α → Chain → Prop}
    (hP : Returns x P c) (hQ : Returns x Q c) : Returns x (fun a c' => P a c' ∧ Q a c') c :=
  fun s a s' hs hx => ⟨hP s a s' hs hx, hQ s a s' hs hx⟩

/-- An operation stays sound when its three parts do. -/
private theorem Returns.staysSound {α : Type} {c : Chain} {x : NodeM α}
    (hconserves : Returns x c.Conserves c)
    (hpending : Returns x (fun _ c' => c'.books.PendingBounded) c)
    (hview : Returns x (fun _ c' => c.DelegatesTo env c') c) :
    Returns x (c.StaysSound env) c :=
  ((hconserves.and hpending).and hview).mono
    fun _ _ ⟨⟨hc, hp⟩, hv⟩ => ⟨⟨hc.1, hp, hv.1⟩, hv.2⟩

/-- A method that does not show in the view delegates nothing. -/
theorem Views.delegates {α : Type} {c : Chain} {x : NodeM α} (h : Views x id c)
    (hv : c.delegationView.Sound env) : Returns x (fun _ c' => c.DelegatesTo env c') c :=
  h.mono fun _ _ hview => .of_view_eq hv hview

/-- A move that leaves the queues alone keeps them bounded. -/
private theorem Moves.pendingBounded {α : Type} {c : Chain} {x : NodeM α}
    {f : StakeBooks Address → StakeBooks Address} (h : Moves x f c)
    (hb : c.books.PendingBounded) (hf : (f c.books).pending = c.books.pending) :
    Returns x (fun _ c' => c'.books.PendingBounded) c :=
  h.mono fun _ _ ⟨hbooks, _⟩ => hb.of_pending_eq ((congrArg StakeBooks.pending hbooks).trans hf)

private theorem StakeBooks.pending_freezeLegacy (b : StakeBooks Address) (owner : Address)
    (amount : ℤ)
    (resource : StakeResource) (target : Option (Address × DelegatableResource)) :
    (b.freezeLegacy owner amount resource target).pending = b.pending := by
  rcases target with _ | ⟨target, field⟩ <;> rfl

/-- An unstake that passed its validator has found a free slot. -/
private theorem validateUnfreezeBalanceV2_room {c : Chain} {caller : Address} {amount nowMs : ℤ}
    {resource : StakeResource}
    (h : validateUnfreezeBalanceV2 env c caller amount (some resource) = none)
    (hnow : c.registers.blocks.headTimestamp = some nowMs) :
    (unmatured (c.books.pending caller) nowMs).length < UNFREEZE_MAX_TIMES := by
  simp only [validateUnfreezeBalanceV2, refusal_eq_none, hnow] at h
  exact not_le.1 h.2.2.2.2.1

/-- An unfreeze that passes its validation finds room in the queue. -/
private theorem pendingBounded_unfreezeV2 {c : Chain} (hc : c.DelegationsSound env)
    {caller : Address}
    {amount : ℤ} {resource : StakeResource}
    (h : validateUnfreezeBalanceV2 env c caller amount (some resource) = none) :
    Returns (unfreezeV2 env caller amount resource) (fun _ c' => c'.books.PendingBounded) c := by
  obtain ⟨-, hle⟩ := validateUnfreezeBalanceV2_eq_none env h
  refine (moves_unfreezeV2 env hc.consistent.sound hle).mono
    fun _ c' ⟨nowMs, expireMs, hnow, hb, _⟩ => ?_
  rw [hb]
  exact hc.pending.unfreeze (validateUnfreezeBalanceV2_room h hnow) _

/-- A request comes to its operation once its validator has passed. -/
private theorem StakeRequest.returns_apply {c : Chain} {q : StakeRequest} {Q : Unit → Chain → Prop}
    (h : q.validate env c = none → Returns (q.stateOp env) Q c) : Returns (q.apply env) Q c := by
  unfold StakeRequest.apply
  split
  · exact .throw
  refine .bind (.read ?_)
  split
  · exact .throw
  · next hvalid => exact h hvalid

/-- A validated request leaves no account too many pending unstakes. -/
private theorem StakeRequest.pending_apply {c : Chain} (hc : c.DelegationsSound env)
    (q : StakeRequest) :
    Returns (q.apply env) (fun _ c' => c'.books.PendingBounded) c := by
  refine returns_apply fun hvalid => ?_
  have hs := hc.consistent.sound
  cases q with
  | freezeBalanceV2Contract caller amount resource =>
    obtain ⟨h0, -⟩ := validateFreezeBalanceV2_eq_none env hvalid
    exact .bind (.orRejected fun resource _ =>
      (moves_freezeV2 env hs h0.le resource).pendingBounded hc.pending rfl)
  | unfreezeBalanceV2Contract caller amount resource =>
    refine .bind (.orRejected fun resource hr => ?_)
    subst hr
    exact .bind ((pendingBounded_unfreezeV2 hc hvalid).mono fun _ _ h => .pure h)
  | withdrawExpireUnfreezeContract caller =>
    refine .bind ((moves_withdrawExpiredUnfreeze env caller).mono fun _ c' h => .pure ?_)
    obtain ⟨nowMs, hb, -⟩ := h
    rw [hb]
    exact hc.pending.settleAt caller nowMs
  | cancelAllUnfreezeV2Contract caller =>
    refine .bind ((moves_cancelAllUnfreezeV2 env hs caller).mono fun _ c' h => .pure ?_)
    obtain ⟨nowMs, hb, -⟩ := h
    rw [hb]
    exact (hc.pending.settleAt caller nowMs).cancelAll caller
  | delegateResourceContract caller receiver amount resource lock statedPeriod =>
    refine .bind (.orRejected fun receiver _ => .bind (.orRejected fun field _ => ?_))
    refine (moves_delegateResource caller receiver amount field lock _).mono
      fun _ c' ⟨nowMs, _, hb, _⟩ => ?_
    exact hc.pending.of_pending_eq ((congrArg StakeBooks.pending hb).trans rfl)
  | unDelegateResourceContract caller receiver amount resource =>
    refine .bind (.orRejected fun receiver hr => .bind (.orRejected fun field hf => ?_))
    subst hr
    obtain ⟨nowMs, hnow, h0, hle⟩ := validateUnDelegateResource_eq_none hs hf hvalid
    exact (moves_undelegateResource env hs h0 hnow hle).pendingBounded hc.pending rfl
  | freezeBalanceContract caller amount duration resource receiver =>
    refine .bind (.orRejected fun resource hr => ?_)
    subst hr
    obtain ⟨h0, -⟩ := validateFreezeBalance_eq_none env hvalid
    exact .bind (.target env fun o _ => (moves_freezeLegacy env hs h0.le resource duration
      o).pendingBounded hc.pending (StakeBooks.pending_freezeLegacy ..))
  | unfreezeBalanceContract caller resource receiver =>
    refine .bind (.orRejected fun resource _ => .bind (.target env fun o _ => .bind ?_))
    refine (moves_unfreezeLegacy env hs hc.consistent.legacyHeld caller resource o).mono
      fun _ c' ⟨back, _, hb, _⟩ => .pure ?_
    exact hc.pending.of_pending_eq
      ((congrArg StakeBooks.pending hb).trans (StakeBooks.pending_freezeLegacy ..))

/-- A validated request leaves the indexes right, and keeps every lock that is running. -/
private theorem StakeRequest.delegates_apply {c : Chain} (hv : c.delegationView.Sound env)
    (q : StakeRequest) : Returns (q.apply env) (fun _ c' => c.DelegatesTo env c') c := by
  refine returns_apply fun hvalid => ?_
  cases q with
  | freezeBalanceV2Contract caller amount resource =>
    exact .bind (.orRejected fun resource _ =>
      (views_freezeV2 env caller amount resource).delegates hv)
  | unfreezeBalanceV2Contract caller amount resource =>
    exact .bind (.orRejected fun resource _ => .bind
      (((views_unfreezeV2 env caller amount resource).delegates hv).mono fun _ _ h => .pure h))
  | withdrawExpireUnfreezeContract caller =>
    exact .bind (((views_withdrawExpiredUnfreeze env caller).delegates hv).mono
      fun _ _ h => .pure h)
  | cancelAllUnfreezeV2Contract caller =>
    exact .bind (((views_cancelAllUnfreezeV2 env caller).delegates hv).mono fun _ _ h => .pure h)
  | delegateResourceContract caller receiver amount resource lock statedPeriod =>
    refine .bind (.orRejected fun receiver hr => .bind (.orRejected fun field hf => ?_))
    subst hr
    have hvalid : validateDelegateResource env c caller (some receiver) amount resource lock
        statedPeriod = none := hvalid
    obtain ⟨h0, -⟩ := validateDelegateResource_eq_none env hf hvalid
    exact delegates_delegateResource hv h0.le (validateDelegateResource_lockPeriod env hf hvalid)
  | unDelegateResourceContract caller receiver amount resource =>
    exact .bind (.orRejected fun receiver _ => .bind (.orRejected fun field _ =>
      delegates_undelegateResource hv caller receiver amount field))
  | freezeBalanceContract caller amount duration resource receiver =>
    exact .bind (.orRejected fun resource _ => .bind (.target env fun o _ =>
      delegates_freezeLegacy hv caller amount resource duration o))
  | unfreezeBalanceContract caller resource receiver =>
    exact .bind (.orRejected fun resource _ => .bind (.target env fun o _ => .bind
      ((delegates_unfreezeLegacy hv caller resource o).mono fun _ _ h => .pure h)))

/-- A validated request keeps the staking state in order and every running lock as it is. -/
theorem StakeRequest.staysSound_apply {c : Chain} (hc : c.DelegationsSound env)
    (q : StakeRequest) : Returns (q.apply env) (c.StaysSound env) c :=
  .staysSound (q.conserves_apply env hc.consistent) (q.pending_apply hc) (q.delegates_apply hc.view)

/-! ### Runs -/

/-- One step of a run under the chain parameters of `env`, which no call changes. -/
inductive DelegationStep (env : NodeEnv) : NodeState → NodeState → Prop
  /-- A staking request goes through: its gates and its validator pass, and the write commits. -/
  | request {s s' : NodeState} (env' : NodeEnv) (hparams : env'.params = env.params)
      (q : StakeRequest) (h : (transact (q.apply env')).run s = (.ok (), s')) :
      DelegationStep env s s'
  /-- The rest of the node: blocks are sealed, at no earlier time, and balances move. -/
  | outside {s : NodeState} {c' : Chain} (balance : Address → ℤ) (burned : ℤ)
      (hbalance : ∀ a, 0 ≤ balance a) (hburned : 0 ≤ burned)
      (hbooks : c'.books = { s.chain.books with balance := balance, burned := burned })
      (hextends : s.chain.Extends c')
      (hpairs : c'.delegationView.pairs = s.chain.delegationView.pairs)
      (hlegacyPairs : c'.delegationView.legacyPairs = s.chain.delegationView.legacyPairs)
      (htime : ∀ nowMs, s.chain.delegationView.headMs = some nowMs →
        ∃ nowMs', c'.delegationView.headMs = some nowMs' ∧ nowMs ≤ nowMs') :
      DelegationStep env s { s with chain := c' }

/-- The states a run reaches. -/
inductive DelegationRun (env : NodeEnv) (s : NodeState) : NodeState → Prop
  | start : DelegationRun env s s
  | step {s' s'' : NodeState} (run : DelegationRun env s s') (step : DelegationStep env s' s'') :
      DelegationRun env s s''

/-- A chain on which nothing has been staked, and no pair listed. -/
structure Chain.Undelegated (c : Chain) : Prop extends Chain.Unstaked c where
  pairs : ∀ k, (c.table .delegationPairs).has k = false
  legacyPairs : ∀ k, (c.table .legacyDelegationPairs).has k = false

/-- A chain without stakes and delegations is sound. -/
theorem Chain.Undelegated.sound {c : Chain} (h : c.Undelegated) : c.DelegationsSound env where
  consistent := h.toUnstaked.consistent
  pending a := by
    rw [h.toUnstaked.books_eq]
    exact Nat.zero_le _
  view :=
    { indexed := fun k => by
        have hpair : c.delegationView.pairs k = ⟨none, none, false⟩ :=
          PairState.ext (h.delegations _) (h.delegations _) (h.pairs k)
        rw [hpair]
        simp [PairState.Indexed]
      legacyIndexed := fun k => by
        have hpair : c.delegationView.legacyPairs k = ⟨none, false⟩ :=
          LegacyPairState.ext (h.legacyDelegations k) (h.legacyPairs k)
        rw [hpair]
        simp [LegacyPairState.Indexed]
      within := fun _ k r e he =>
        absurd ((h.delegations (k.1, k.2, true)).symm.trans he) (Option.some_ne_none e).symm }

/-- What is asked of a chain asks about its parameters only. -/
private theorem Chain.DelegationsSound.of_params {env' : NodeEnv} {c : Chain}
    (hparams : env'.params = env.params) (h : c.DelegationsSound env) :
    c.DelegationsSound env' := by
  refine ⟨h.consistent, h.pending, h.view.indexed, h.view.legacyIndexed, fun hs => h.view.within ?_⟩
  rw [supportsMaxDelegateLockPeriod, ← hparams]
  exact hs

/-- Every step of staking keeps the delegations sound. -/
private theorem DelegationStep.staysSound {s s' : NodeState} (h : DelegationStep env s s')
    (hc : s.chain.DelegationsSound env) : s.chain.StaysSound env () s'.chain := by
  cases h with
  | request env' hparams q h =>
    obtain ⟨hc', hkeeps⟩ := (q.staysSound_apply (hc.of_params hparams)).transact s () s' rfl h
    exact ⟨hc'.of_params hparams.symm, hkeeps⟩
  | outside balance burned hbalance hburned hbooks hextends hpairs hlegacyPairs htime =>
    refine ⟨⟨?_, ?_, ?_⟩, fun nowMs _ k => .of_locked_eq ?_⟩
    · exact hc.consistent.step hextends
        (hbooks ▸ { hc.consistent.sound with balance_nonneg := hbalance, burned_nonneg := hburned })
        fun _ _ _ hne h0 => absurd (by rw [hbooks]; exact h0) hne
    · exact hc.pending.of_pending_eq ((congrArg StakeBooks.pending hbooks).trans rfl)
    · refine ⟨fun k => ?_, fun k => ?_, fun hs k r e he hpos => ?_⟩
      · rw [hpairs]
        exact hc.view.indexed k
      · rw [hlegacyPairs]
        exact hc.view.legacyIndexed k
      · rw [hpairs] at he
        obtain ⟨nowMs, hnow, hle⟩ := hc.view.within hs k r e he hpos
        obtain ⟨nowMs', hnow', hlater⟩ := htime nowMs hnow
        exact ⟨nowMs', hnow', by omega⟩
    · rw [hpairs]

/-- So does every run. -/
theorem DelegationRun.sound {s s' : NodeState} (h : DelegationRun env s s')
    (hc : s.chain.DelegationsSound env) : s'.chain.DelegationsSound env := by
  induction h with
  | start => exact hc
  | step _ step ih => exact (step.staysSound ih).1

/-- Merging the expired amounts of a pair: what leaves the locked entry joins the unlocked one, and
nothing else of the books moves. -/
def Chain.MergesTo (c : Chain) (owner receiver : Address) (nowMs : ℤ) (c' : Chain) : Prop :=
  (∀ r, c'.books.entry (owner, receiver, true, r) =
      c.books.entry (owner, receiver, true, r) - c.expired owner receiver nowMs r ∧
    c'.books.entry (owner, receiver, false, r) =
      c.books.entry (owner, receiver, false, r) + c.expired owner receiver nowMs r) ∧
  (∀ k, (∀ locked r, k ≠ (owner, receiver, locked, r)) → c'.books.entry k = c.books.entry k) ∧
  c'.books = { c.books with entry := c'.books.entry }

/-- The unlock merges one pair as the books say. -/
private theorem merges_unlockExpiredDelegation {c : Chain} (owner receiver : Address) (nowMs : ℤ) :
    Returns (unlockExpiredDelegation owner receiver nowMs)
      (fun _ c' => c.MergesTo owner receiver nowMs c') c := by
  refine (moves_unlockExpiredDelegation owner receiver nowMs).mono fun _ c' ⟨hb, _⟩ => ?_
  rw [Chain.MergesTo, hb]
  refine ⟨fun r => ?_, fun k hk => ?_, rfl⟩
  · constructor
    · rcases r with _ | _ <;> simp [StakeBooks.unlockBoth, StakeBooks.unlock, post, sub_eq_add_neg]
    · rcases r with _ | _ <;> simp [StakeBooks.unlockBoth, StakeBooks.unlock, post]
  · simp only [StakeBooks.unlockBoth, StakeBooks.unlock]
    rw [post_of_ne _ _ (hk _ _), post_of_ne _ _ (hk _ _), post_of_ne _ _ (hk _ _),
      post_of_ne _ _ (hk _ _)]

/-- In every state a run reaches from a chain without stakes the indexes list exactly the pairs with
an entry, a merge loses and duplicates nothing, no account has more than `UNFREEZE_MAX_TIMES`
pending unstakes, and whatever step comes next keeps every lock running at the head: its amount, and
its expiry. -/
theorem delegationRun_sound {s₀ s : NodeState} (h₀ : s₀.chain.Undelegated)
    (hrun : DelegationRun env s₀ s) :
    (∀ k, (s.chain.delegationView.pairs k).Indexed) ∧
      (∀ k, (s.chain.delegationView.legacyPairs k).Indexed) ∧
      (∀ owner receiver nowMs, Returns (unlockExpiredDelegation owner receiver nowMs)
        (fun _ c' => s.chain.MergesTo owner receiver nowMs c') s.chain) ∧
      (∀ a, (s.chain.recordOf a).unfrozenV2.length ≤ UNFREEZE_MAX_TIMES) ∧
      ∀ s', DelegationStep env s s' → s.chain.delegationView.Keeps s'.chain.delegationView := by
  have hs := hrun.sound h₀.sound
  refine ⟨hs.view.indexed, hs.view.legacyIndexed,
    fun owner receiver nowMs => merges_unlockExpiredDelegation owner receiver nowMs, hs.pending,
    fun s' hstep => (hstep.staysSound hs).2⟩

private theorem sampleState_undelegated : sampleState.chain.Undelegated where
  toUnstaked := sampleState_unstaked
  pairs _ := rfl
  legacyPairs _ := rfl

/-- Account 1 delegates the rest of its freeze to account 2, for the default period. -/
def sampleLock : StakeRequest := .delegateResourceContract 1 (some 2) 1000000 (some .energy) true 0

/-- The state after the locked delegation. -/
def sampleLocked : NodeState := ((transact (sampleLock.apply sampleEnv)).run sampleDelegated).2

/-- A delegation with a lock is a run. -/
private theorem sampleLocked_run : DelegationRun sampleEnv sampleState sampleLocked :=
  .step (.step (.step .start
    (.request sampleEnv rfl sampleFreeze (Prod.ext (by rfl) rfl)))
    (.request sampleEnv rfl sampleDelegate (Prod.ext (by rfl) rfl)))
    (.request sampleEnv rfl sampleLock (Prod.ext (by rfl) rfl))

theorem delegationRun_sound_sample :
    (∀ k, (sampleLocked.chain.delegationView.pairs k).Indexed) ∧
      (∀ k, (sampleLocked.chain.delegationView.legacyPairs k).Indexed) ∧
      (∀ owner receiver nowMs, Returns (unlockExpiredDelegation owner receiver nowMs)
        (fun _ c' => sampleLocked.chain.MergesTo owner receiver nowMs c') sampleLocked.chain) ∧
      (∀ a, (sampleLocked.chain.recordOf a).unfrozenV2.length ≤ UNFREEZE_MAX_TIMES) ∧
      ∀ s', DelegationStep sampleEnv sampleLocked s' →
        sampleLocked.chain.delegationView.Keeps s'.chain.delegationView :=
  delegationRun_sound sampleState_undelegated sampleLocked_run

end Tvmjs
