import Tvmjs.Base.Posting
import Tvmjs.Client.Stake
import Mathlib.Algebra.BigOperators.Ring.Finset
import Mathlib.Algebra.Order.Group.Int
import Mathlib.Data.Fintype.BigOperators
import Mathlib.Tactic.Linarith

/-!
# Staking as double-entry bookkeeping

The abstract model of the staking state: a handful of integer books over a finite type of
accounts, and one movement for each staking operation.  It says what the operations are for,
with the tables, the journal and the state trie left out.

* `StakeBooks.total` -- all the sun there is, burned sun included;
* `StakeBooks.Sound` -- no component is negative, the delegation entries add up to the recorded
  totals on both sides, and the network weights are the sums of the accounts' contributions;
* one theorem `Sound.…` and one theorem `total_…` for each movement.
-/

namespace Tvmjs

/-- The books of the staking state over the accounts `A`. -/
structure StakeBooks (A : Type*) where
  balance : A → ℤ
  /-- Stake 2.0 freezes. -/
  frozen : A × StakeResource → ℤ
  /-- Stake 2.0, delegated away. -/
  out : A × DelegatableResource → ℤ
  /-- Stake 2.0, received from others. -/
  acquired : A × DelegatableResource → ℤ
  /-- Pending unstakes. -/
  pending : A → List UnfrozenV2Entry
  /-- Delegation entries: owner, receiver, lock flag, resource. -/
  entry : A × A × Bool × DelegatableResource → ℤ
  legacyFrozen : A × StakeResource → ℤ
  legacyOut : A × DelegatableResource → ℤ
  legacyAcquired : A × DelegatableResource → ℤ
  /-- Stake 1.0 delegation entries: owner, receiver, resource. -/
  legacyEntry : A × A × DelegatableResource → ℤ
  /-- Network weights, in whole TRX. -/
  weight : StakeResource → ℤ
  burned : ℤ

/-- A book over delegatable resources read at any stake resource: voting power has no entry. -/
def onStake {A : Type*} (f : A × DelegatableResource → ℤ) (a : A) : StakeResource → ℤ
  | .bandwidth => f (a, .bandwidth)
  | .energy => f (a, .energy)
  | .tronPower => 0

@[simp] theorem onStake_toStake {A : Type*} (f : A × DelegatableResource → ℤ) (a : A)
    (r : DelegatableResource) : onStake f a r.toStake = f (a, r) := by
  cases r <;> rfl

namespace StakeBooks

variable {A : Type*}

/-! ### What holds of the books -/

/-- The Stake 2.0 weight of an account: what it holds and what it has delegated away. -/
def stake (b : StakeBooks A) (a : A) (r : StakeResource) : ℤ := b.frozen (a, r) + onStake b.out a r

variable [Fintype A]

/-- All the sun there is. -/
def total (b : StakeBooks A) : ℤ :=
  ∑ a, b.balance a + ∑ k, b.frozen k + ∑ k, b.out k + ∑ a, unfrozenTotal (b.pending a) +
    ∑ k, b.legacyFrozen k + ∑ k, b.legacyOut k + b.burned

/-- What one account contributes to the weight of one resource, in whole TRX. -/
def contribution (b : StakeBooks A) (r : StakeResource) (a : A) : ℤ :=
  b.stake a r / TRX_SUN + b.legacyFrozen (a, r) / TRX_SUN + onStake b.legacyAcquired a r / TRX_SUN

/-- The invariant of the staking state. -/
structure Sound (b : StakeBooks A) : Prop where
  balance_nonneg : ∀ a, 0 ≤ b.balance a
  frozen_nonneg : ∀ k, 0 ≤ b.frozen k
  pending_nonneg : ∀ a, ∀ e ∈ b.pending a, 0 ≤ e.amount
  entry_nonneg : ∀ k, 0 ≤ b.entry k
  legacyFrozen_nonneg : ∀ k, 0 ≤ b.legacyFrozen k
  legacyEntry_nonneg : ∀ k, 0 ≤ b.legacyEntry k
  burned_nonneg : 0 ≤ b.burned
  /-- What an account delegated away is the sum of its outgoing entries. -/
  out_eq : ∀ o r, b.out (o, r) = ∑ k : A × Bool, b.entry (o, k.1, k.2, r)
  /-- What an account received is the sum of its incoming entries. -/
  acquired_eq : ∀ t r, b.acquired (t, r) = ∑ k : A × Bool, b.entry (k.1, t, k.2, r)
  legacyOut_eq : ∀ o r, b.legacyOut (o, r) = ∑ t, b.legacyEntry (o, t, r)
  legacyAcquired_eq : ∀ t r, b.legacyAcquired (t, r) = ∑ o, b.legacyEntry (o, t, r)
  /-- The network weights are the accounts' contributions. -/
  weight_eq : ∀ r, b.weight r = ∑ a, b.contribution r a

variable {b : StakeBooks A}

namespace Sound

/-- Nobody has delegated less than nothing. -/
theorem out_nonneg (h : b.Sound) (k : A × DelegatableResource) : 0 ≤ b.out k := by
  rw [← Prod.mk.eta (p := k), h.out_eq]
  exact Finset.sum_nonneg fun _ _ => h.entry_nonneg _

/-- The same for the delegations of the first version. -/
theorem legacyOut_nonneg (h : b.Sound) (k : A × DelegatableResource) : 0 ≤ b.legacyOut k := by
  rw [← Prod.mk.eta (p := k), h.legacyOut_eq]
  exact Finset.sum_nonneg fun _ _ => h.legacyEntry_nonneg _

/-- Nobody was delegated less than nothing in the first version. -/
theorem legacyAcquired_nonneg (h : b.Sound) (k : A × DelegatableResource) :
    0 ≤ b.legacyAcquired k := by
  rw [← Prod.mk.eta (p := k), h.legacyAcquired_eq]
  exact Finset.sum_nonneg fun _ _ => h.legacyEntry_nonneg _

/-- Both entries of a pair together are at most what the receiver acquired. -/
theorem entry_add_entry_le_acquired [DecidableEq A] (h : b.Sound) (o t : A)
    (r : DelegatableResource) :
    b.entry (o, t, false, r) + b.entry (o, t, true, r) ≤ b.acquired (t, r) := by
  rw [h.acquired_eq, Fintype.sum_prod_type]
  have hpair := le_sum_of_nonneg (f := fun a => ∑ l, b.entry (a, t, l, r))
    (fun _ => Finset.sum_nonneg fun _ _ => h.entry_nonneg _) o
  simp only [Fintype.sum_bool] at hpair ⊢
  omega

/-- One entry is at most what the receiver was delegated in all. -/
theorem legacyEntry_le_acquired (h : b.Sound) (o t : A) (r : DelegatableResource) :
    b.legacyEntry (o, t, r) ≤ b.legacyAcquired (t, r) := by
  rw [h.legacyAcquired_eq]
  exact le_sum_of_nonneg (f := fun o => b.legacyEntry (o, t, r))
    (fun _ => h.legacyEntry_nonneg _) o

/-- A stake is not negative. -/
theorem stake_nonneg (h : b.Sound) (a : A) (r : StakeResource) : 0 ≤ b.stake a r := by
  have hf := h.frozen_nonneg (a, r)
  have ho : 0 ≤ onStake b.out a r := by
    cases r <;> simp only [onStake]
    · exact h.out_nonneg _
    · exact h.out_nonneg _
    · exact le_refl 0
  exact Int.add_nonneg hf ho

end Sound

variable [DecidableEq A]

/-! ### Movements -/

/-- A weight total follows a stake from `before` to `after`, both counted in whole TRX. -/
def shift (b : StakeBooks A) (r : StakeResource) (before after : ℤ) : StakeBooks A :=
  { b with weight := post b.weight r (after / TRX_SUN - before / TRX_SUN) }

/-- Balance moves into a freeze. -/
def freeze (b : StakeBooks A) (a : A) (amount : ℤ) (r : StakeResource) : StakeBooks A :=
  { b with
    balance := post b.balance a (-amount)
    frozen := post b.frozen (a, r) amount }.shift r (b.stake a r) (b.stake a r + amount)

/-- Some pending unstakes settle into the balance. -/
def settle (b : StakeBooks A) (a : A) (remaining : List UnfrozenV2Entry) (amount : ℤ) :
    StakeBooks A :=
  { b with
    balance := post b.balance a amount
    pending := Function.update b.pending a remaining }

/-- A freeze turns into a pending unstake. -/
def unfreeze (b : StakeBooks A) (a : A) (entry : UnfrozenV2Entry) : StakeBooks A :=
  { b with
    frozen := post b.frozen (a, entry.type) (-entry.amount)
    pending := Function.update b.pending a (b.pending a ++ [entry]) }.shift entry.type
      (b.stake a entry.type) (b.stake a entry.type - entry.amount)

/-- An amount returns to a freeze. -/
def refreeze (b : StakeBooks A) (a : A) (amount : ℤ) (r : StakeResource) : StakeBooks A :=
  { b with frozen := post b.frozen (a, r) amount }.shift r (b.stake a r) (b.stake a r + amount)

/-- The pending unstakes of an account are forgotten. -/
def clearPending (b : StakeBooks A) (a : A) : StakeBooks A :=
  { b with pending := Function.update b.pending a [] }

/-- All pending unstakes return to their freezes. -/
def cancelAll (b : StakeBooks A) (a : A) : StakeBooks A :=
  (((b.clearPending a).refreeze a (canceled (b.pending a) .bandwidth) .bandwidth).refreeze a
    (canceled (b.pending a) .energy) .energy).refreeze a
      (canceled (b.pending a) .tronPower) .tronPower

/-- A locked delegation becomes an unlocked one. -/
def unlock (b : StakeBooks A) (owner receiver : A) (r : DelegatableResource) (amount : ℤ) :
    StakeBooks A :=
  { b with
    entry := post (post b.entry (owner, receiver, true, r) (-amount))
      (owner, receiver, false, r) amount }

/-- A freeze is delegated. -/
def delegate (b : StakeBooks A) (owner receiver : A) (amount : ℤ) (r : DelegatableResource)
    (lock : Bool) : StakeBooks A :=
  { b with
    entry := post b.entry (owner, receiver, lock, r) amount
    frozen := post b.frozen (owner, r.toStake) (-amount)
    out := post b.out (owner, r) amount
    acquired := post b.acquired (receiver, r) amount }

/-- An unlocked delegation returns to its owner's freeze. -/
def undelegate (b : StakeBooks A) (owner receiver : A) (amount : ℤ) (r : DelegatableResource) :
    StakeBooks A :=
  { b with
    acquired := post b.acquired (receiver, r) (-amount)
    entry := post b.entry (owner, receiver, false, r) (-amount)
    out := post b.out (owner, r) (-amount)
    frozen := post b.frozen (owner, r.toStake) amount }

/-- Balance moves into, or back out of, a Stake 1.0 freeze of one's own. -/
def freezeLegacyLocal (b : StakeBooks A) (a : A) (amount : ℤ) (r : StakeResource) :
    StakeBooks A :=
  { b with
    balance := post b.balance a (-amount)
    legacyFrozen := post b.legacyFrozen (a, r) amount }.shift r (b.legacyFrozen (a, r))
      (b.legacyFrozen (a, r) + amount)

/-- Balance moves into, or back out of, a Stake 1.0 delegation. -/
def freezeLegacyFor (b : StakeBooks A) (owner receiver : A) (amount : ℤ)
    (r : DelegatableResource) : StakeBooks A :=
  { b with
    balance := post b.balance owner (-amount)
    legacyEntry := post b.legacyEntry (owner, receiver, r) amount
    legacyOut := post b.legacyOut (owner, r) amount
    legacyAcquired := post b.legacyAcquired (receiver, r) amount }.shift r.toStake
      (b.legacyAcquired (receiver, r)) (b.legacyAcquired (receiver, r) + amount)

/-- Balance moves between two accounts. -/
def move (b : StakeBooks A) (sender recipient : A) (amount : ℤ) : StakeBooks A :=
  { b with balance := post (post b.balance sender (-amount)) recipient amount }

/-- Balance is burned, or given back when the amount is negative. -/
def burn (b : StakeBooks A) (a : A) (amount : ℤ) : StakeBooks A :=
  { b with balance := post b.balance a (-amount), burned := b.burned + amount }

/-- Balance is credited from outside the books. -/
def credit (b : StakeBooks A) (a : A) (amount : ℤ) : StakeBooks A :=
  { b with balance := post b.balance a amount }

/-! ### Sums of posted books -/

section

omit [Fintype A] in
/-- A posting shows in the stake of its resource. -/
private theorem onStake_post (f : A × DelegatableResource → ℤ) (o : A) (r : DelegatableResource)
    (amount : ℤ) (a : A) (r' : StakeResource) :
    onStake (post f (o, r) amount) a r' =
      onStake f a r' + if (a, r') = (o, r.toStake) then amount else 0 := by
  cases r <;> cases r' <;> simp [onStake, post, DelegatableResource.toStake]

/-- A posting to an entry shows in what its owner has delegated. -/
private theorem sum_outgoing (f : A × A × Bool × DelegatableResource → ℤ) (o t : A) (l : Bool)
    (r : DelegatableResource) (amount : ℤ) (o' : A) (r' : DelegatableResource) :
    ∑ k : A × Bool, post f (o, t, l, r) amount (o', k.1, k.2, r') =
      ∑ k : A × Bool, f (o', k.1, k.2, r') + if (o', r') = (o, r) then amount else 0 := by
  rw [sum_of_eq_off (f := fun k : A × Bool => f (o', k.1, k.2, r')) (t, l)]
  · by_cases h : o' = o ∧ r' = r
    · simp [post, h.1, h.2]
    · have : ¬ (o' = o ∧ r' = r) := h
      simp [post, this]
  · intro k hk
    refine post_of_ne f amount ?_
    rintro h
    simp only [Prod.mk.injEq] at h
    exact hk (Prod.ext h.2.1 h.2.2.1)

/-- A posting to an entry shows in what its receiver was delegated. -/
private theorem sum_incoming (f : A × A × Bool × DelegatableResource → ℤ) (o t : A) (l : Bool)
    (r : DelegatableResource) (amount : ℤ) (t' : A) (r' : DelegatableResource) :
    ∑ k : A × Bool, post f (o, t, l, r) amount (k.1, t', k.2, r') =
      ∑ k : A × Bool, f (k.1, t', k.2, r') + if (t', r') = (t, r) then amount else 0 := by
  rw [sum_of_eq_off (f := fun k : A × Bool => f (k.1, t', k.2, r')) (o, l)]
  · by_cases h : t' = t ∧ r' = r
    · simp [post, h.1, h.2]
    · have : ¬ (t' = t ∧ r' = r) := h
      simp [post, this]
  · intro k hk
    refine post_of_ne f amount ?_
    rintro h
    simp only [Prod.mk.injEq] at h
    exact hk (Prod.ext h.1 h.2.2.1)

/-- The same for the owner in the first version. -/
private theorem sum_legacyOutgoing (f : A × A × DelegatableResource → ℤ) (o t : A)
    (r : DelegatableResource) (amount : ℤ) (o' : A) (r' : DelegatableResource) :
    ∑ k, post f (o, t, r) amount (o', k, r') =
      ∑ k, f (o', k, r') + if (o', r') = (o, r) then amount else 0 := by
  rw [sum_of_eq_off (f := fun k => f (o', k, r')) t]
  · by_cases h : o' = o ∧ r' = r
    · simp [post, h.1, h.2]
    · have : ¬ (o' = o ∧ r' = r) := h
      simp [post, this]
  · intro k hk
    refine post_of_ne f amount ?_
    rintro h
    simp only [Prod.mk.injEq] at h
    exact hk h.2.1

/-- The same for the receiver in the first version. -/
private theorem sum_legacyIncoming (f : A × A × DelegatableResource → ℤ) (o t : A)
    (r : DelegatableResource) (amount : ℤ) (t' : A) (r' : DelegatableResource) :
    ∑ k, post f (o, t, r) amount (k, t', r') =
      ∑ k, f (k, t', r') + if (t', r') = (t, r) then amount else 0 := by
  rw [sum_of_eq_off (f := fun k => f (k, t', r')) o]
  · by_cases h : t' = t ∧ r' = r
    · simp [post, h.1, h.2]
    · have : ¬ (t' = t ∧ r' = r) := h
      simp [post, this]
  · intro k hk
    refine post_of_ne f amount ?_
    rintro h
    simp only [Prod.mk.injEq] at h
    exact hk h.1

end

@[simp] theorem unfrozenTotal_nil : unfrozenTotal [] = 0 := rfl

@[simp] theorem unfrozenTotal_append (l l' : List UnfrozenV2Entry) :
    unfrozenTotal (l ++ l') = unfrozenTotal l + unfrozenTotal l' := by
  simp [unfrozenTotal]

@[simp] theorem unfrozenTotal_singleton (e : UnfrozenV2Entry) : unfrozenTotal [e] = e.amount := by
  simp [unfrozenTotal]

/-- Forgetting and appending pending unstakes moves their sum at one account only. -/
private theorem sum_pending_update (b : StakeBooks A) (a : A) (l : List UnfrozenV2Entry) :
    ∑ a', unfrozenTotal (Function.update b.pending a l a') =
      ∑ a', unfrozenTotal (b.pending a') + (unfrozenTotal l - unfrozenTotal (b.pending a)) := by
  rw [sum_of_eq_off (f := fun a' => unfrozenTotal (b.pending a')) a]
  · simp
  · intro j hj
    rw [Function.update_of_ne hj]

/-! ### Conservation -/

/-- A freeze moves an amount and creates none. -/
theorem total_freeze (b : StakeBooks A) (a : A) (amount : ℤ) (r : StakeResource) :
    (b.freeze a amount r).total = b.total := by
  simp only [freeze, shift, total, sum_post]
  omega

/-- A payout moves what leaves the queue to the balance. -/
theorem total_settle (b : StakeBooks A) (a : A) (remaining : List UnfrozenV2Entry) (amount : ℤ)
    (h : unfrozenTotal (b.pending a) = unfrozenTotal remaining + amount) :
    (b.settle a remaining amount).total = b.total := by
  simp only [settle, total, sum_post, sum_pending_update]
  omega

/-- An unfreeze moves an amount to the queue. -/
theorem total_unfreeze (b : StakeBooks A) (a : A) (entry : UnfrozenV2Entry) :
    (b.unfreeze a entry).total = b.total := by
  simp only [unfreeze, shift, total, sum_post, sum_pending_update, unfrozenTotal_append,
    unfrozenTotal_singleton]
  omega

/-- Freezing again adds its amount, which the cleared queue has given up. -/
private theorem total_refreeze (b : StakeBooks A) (a : A) (amount : ℤ) (r : StakeResource) :
    (b.refreeze a amount r).total = b.total + amount := by
  simp only [refreeze, shift, total, sum_post]
  omega

/-- Clearing a queue takes what it held from the total. -/
private theorem total_clearPending (b : StakeBooks A) (a : A) :
    (b.clearPending a).total = b.total - unfrozenTotal (b.pending a) := by
  simp only [clearPending, total, sum_pending_update, unfrozenTotal_nil]
  omega

/-- Every pending unstake is for one of the three resources. -/
private theorem unfrozenTotal_eq_canceled (l : List UnfrozenV2Entry) :
    unfrozenTotal l = canceled l .bandwidth + canceled l .energy + canceled l .tronPower := by
  induction l with
  | nil => rfl
  | cons e l ih =>
    simp only [unfrozenTotal, canceled, List.map_cons, List.sum_cons, List.filter_cons] at ih ⊢
    cases e.type <;> simp only [reduceCtorEq, decide_true, decide_false, if_true, if_false,
      List.map_cons, List.sum_cons, Bool.false_eq_true] <;> omega

/-- Canceling moves the queue back to the stake. -/
theorem total_cancelAll (b : StakeBooks A) (a : A) : (b.cancelAll a).total = b.total := by
  have := unfrozenTotal_eq_canceled (b.pending a)
  simp only [cancelAll, total_refreeze, total_clearPending]
  omega

@[simp] theorem total_unlock (b : StakeBooks A) (owner receiver : A) (r : DelegatableResource)
    (amount : ℤ) : (b.unlock owner receiver r amount).total = b.total := rfl

/-- A delegation moves an amount from the owner's own stake to what it has delegated. -/
theorem total_delegate (b : StakeBooks A) (owner receiver : A) (amount : ℤ)
    (r : DelegatableResource) (lock : Bool) :
    (b.delegate owner receiver amount r lock).total = b.total := by
  simp only [delegate, total, sum_post]
  omega

/-- An undelegation moves it back. -/
theorem total_undelegate (b : StakeBooks A) (owner receiver : A) (amount : ℤ)
    (r : DelegatableResource) : (b.undelegate owner receiver amount r).total = b.total := by
  simp only [undelegate, total, sum_post]
  omega

/-- A freeze of the first version for the owner moves an amount. -/
theorem total_freezeLegacyLocal (b : StakeBooks A) (a : A) (amount : ℤ) (r : StakeResource) :
    (b.freezeLegacyLocal a amount r).total = b.total := by
  simp only [freezeLegacyLocal, shift, total, sum_post]
  omega

/-- A freeze of the first version for a receiver moves an amount. -/
theorem total_freezeLegacyFor (b : StakeBooks A) (owner receiver : A) (amount : ℤ)
    (r : DelegatableResource) : (b.freezeLegacyFor owner receiver amount r).total = b.total := by
  simp only [freezeLegacyFor, shift, total, sum_post]
  omega

/-- A transfer creates nothing. -/
theorem total_move (b : StakeBooks A) (sender recipient : A) (amount : ℤ) :
    (b.move sender recipient amount).total = b.total := by
  simp only [move, total, sum_post]
  omega

/-- What is paid counts as burnt. -/
theorem total_burn (b : StakeBooks A) (a : A) (amount : ℤ) : (b.burn a amount).total = b.total := by
  simp only [burn, total, sum_post]
  omega

/-! ### The invariant is kept -/

/-- The weights stay the sums of the contributions when one contribution and the weight of its
resource move together. -/
private theorem weight_eq_of_shift {b b' : StakeBooks A} (a : A) (r : StakeResource) (delta : ℤ)
    (h : ∀ r', b.weight r' = ∑ a', b.contribution r' a')
    (hw : b'.weight = post b.weight r delta)
    (hc : ∀ r' a', b'.contribution r' a' =
      b.contribution r' a' + if (a', r') = (a, r) then delta else 0) (r' : StakeResource) :
    b'.weight r' = ∑ a', b'.contribution r' a' := by
  rw [hw]
  by_cases hr : r' = r
  · subst hr
    rw [post_self, h, sum_of_eq_off (f := b.contribution r') (g := b'.contribution r') a]
    · simp [hc]
    · intro a' ha'
      simp [hc, ha']
  · rw [post_of_ne _ _ hr, h]
    refine Finset.sum_congr rfl fun a' _ => ?_
    simp [hc, hr]

omit [Fintype A] in
/-- A change of one stake changes the contribution of its account by the change in whole TRX. -/
private theorem contribution_of_stake {b b' : StakeBooks A} (a : A) (r : StakeResource)
    (amount : ℤ) (hs : ∀ a' r', b'.stake a' r' =
      b.stake a' r' + if (a', r') = (a, r) then amount else 0)
    (hf : b'.legacyFrozen = b.legacyFrozen) (hq : b'.legacyAcquired = b.legacyAcquired)
    (r' : StakeResource) (a' : A) :
    b'.contribution r' a' = b.contribution r' a' + if (a', r') = (a, r) then
      (b.stake a r + amount) / TRX_SUN - b.stake a r / TRX_SUN else 0 := by
  simp only [contribution, hs, hf, hq]
  by_cases h : (a', r') = (a, r)
  · simp only [Prod.mk.injEq] at h
    obtain ⟨rfl, rfl⟩ := h
    simp only [if_true]
    omega
  · simp only [if_neg h, Int.add_zero]

namespace Sound

/-- A freeze that the balance covers keeps the books sound. -/
theorem freeze (h : b.Sound) {a : A} {amount : ℤ} (h0 : 0 ≤ amount) (hle : amount ≤ b.balance a)
    (r : StakeResource) : (b.freeze a amount r).Sound where
  balance_nonneg := post_nonneg h.balance_nonneg (by omega)
  frozen_nonneg := post_nonneg h.frozen_nonneg (by have := h.frozen_nonneg (a, r); omega)
  pending_nonneg := h.pending_nonneg
  entry_nonneg := h.entry_nonneg
  legacyFrozen_nonneg := h.legacyFrozen_nonneg
  legacyEntry_nonneg := h.legacyEntry_nonneg
  burned_nonneg := h.burned_nonneg
  out_eq := h.out_eq
  acquired_eq := h.acquired_eq
  legacyOut_eq := h.legacyOut_eq
  legacyAcquired_eq := h.legacyAcquired_eq
  weight_eq := weight_eq_of_shift a r _ h.weight_eq rfl
    (contribution_of_stake a r amount (fun a' r' => by
      simp only [StakeBooks.freeze, shift, stake, post]
      omega) rfl rfl)

/-- A payout keeps the books sound. -/
theorem settle (h : b.Sound) {a : A} {remaining : List UnfrozenV2Entry} {amount : ℤ}
    (h0 : 0 ≤ amount) (hr : ∀ e ∈ remaining, 0 ≤ e.amount) :
    (b.settle a remaining amount).Sound where
  balance_nonneg := post_nonneg h.balance_nonneg (by have := h.balance_nonneg a; omega)
  frozen_nonneg := h.frozen_nonneg
  pending_nonneg := by
    intro a'
    by_cases ha : a' = a
    · subst ha
      simpa [StakeBooks.settle] using hr
    · simpa [StakeBooks.settle, ha] using h.pending_nonneg a'
  entry_nonneg := h.entry_nonneg
  legacyFrozen_nonneg := h.legacyFrozen_nonneg
  legacyEntry_nonneg := h.legacyEntry_nonneg
  burned_nonneg := h.burned_nonneg
  out_eq := h.out_eq
  acquired_eq := h.acquired_eq
  legacyOut_eq := h.legacyOut_eq
  legacyAcquired_eq := h.legacyAcquired_eq
  weight_eq := h.weight_eq

/-- An unfreeze that the stake covers keeps the books sound. -/
theorem unfreeze (h : b.Sound) {a : A} {entry : UnfrozenV2Entry} (h0 : 0 ≤ entry.amount)
    (hle : entry.amount ≤ b.frozen (a, entry.type)) : (b.unfreeze a entry).Sound where
  balance_nonneg := h.balance_nonneg
  frozen_nonneg := post_nonneg h.frozen_nonneg (by omega)
  pending_nonneg := by
    intro a'
    by_cases ha : a' = a
    · subst ha
      intro e he
      simp only [StakeBooks.unfreeze, shift, Function.update_self, List.mem_append,
        List.mem_singleton] at he
      rcases he with he | rfl
      · exact h.pending_nonneg a' e he
      · exact h0
    · simpa [StakeBooks.unfreeze, shift, ha] using h.pending_nonneg a'
  entry_nonneg := h.entry_nonneg
  legacyFrozen_nonneg := h.legacyFrozen_nonneg
  legacyEntry_nonneg := h.legacyEntry_nonneg
  burned_nonneg := h.burned_nonneg
  out_eq := h.out_eq
  acquired_eq := h.acquired_eq
  legacyOut_eq := h.legacyOut_eq
  legacyAcquired_eq := h.legacyAcquired_eq
  weight_eq := weight_eq_of_shift a entry.type _ h.weight_eq rfl
    (contribution_of_stake a entry.type (-entry.amount) (fun a' r' => by
      simp only [StakeBooks.unfreeze, shift, stake, post]
      omega) rfl rfl)

/-- Freezing an amount again keeps the books sound. -/
theorem refreeze (h : b.Sound) {a : A} {amount : ℤ} (h0 : 0 ≤ amount) (r : StakeResource) :
    (b.refreeze a amount r).Sound where
  balance_nonneg := h.balance_nonneg
  frozen_nonneg := post_nonneg h.frozen_nonneg (by have := h.frozen_nonneg (a, r); omega)
  pending_nonneg := h.pending_nonneg
  entry_nonneg := h.entry_nonneg
  legacyFrozen_nonneg := h.legacyFrozen_nonneg
  legacyEntry_nonneg := h.legacyEntry_nonneg
  burned_nonneg := h.burned_nonneg
  out_eq := h.out_eq
  acquired_eq := h.acquired_eq
  legacyOut_eq := h.legacyOut_eq
  legacyAcquired_eq := h.legacyAcquired_eq
  weight_eq := weight_eq_of_shift a r _ h.weight_eq rfl
    (contribution_of_stake a r amount (fun a' r' => by
      simp only [StakeBooks.refreeze, shift, stake, post]
      omega) rfl rfl)

/-- Clearing a queue keeps the books sound. -/
theorem clearPending (h : b.Sound) (a : A) : (b.clearPending a).Sound where
  balance_nonneg := h.balance_nonneg
  frozen_nonneg := h.frozen_nonneg
  pending_nonneg := by
    intro a'
    by_cases ha : a' = a
    · subst ha
      simp [StakeBooks.clearPending]
    · simpa [StakeBooks.clearPending, ha] using h.pending_nonneg a'
  entry_nonneg := h.entry_nonneg
  legacyFrozen_nonneg := h.legacyFrozen_nonneg
  legacyEntry_nonneg := h.legacyEntry_nonneg
  burned_nonneg := h.burned_nonneg
  out_eq := h.out_eq
  acquired_eq := h.acquired_eq
  legacyOut_eq := h.legacyOut_eq
  legacyAcquired_eq := h.legacyAcquired_eq
  weight_eq := h.weight_eq

omit [DecidableEq A] in
/-- What is canceled for a resource is not negative. -/
theorem canceled_nonneg (h : b.Sound) (a : A) (r : StakeResource) :
    0 ≤ canceled (b.pending a) r := by
  refine List.sum_nonneg fun x hx => ?_
  obtain ⟨e, he, rfl⟩ := List.mem_map.1 hx
  exact h.pending_nonneg a e (List.mem_filter.1 he).1

/-- Canceling keeps the books sound. -/
theorem cancelAll (h : b.Sound) (a : A) : (b.cancelAll a).Sound :=
  (((h.clearPending a).refreeze (h.canceled_nonneg a _) _).refreeze
    (h.canceled_nonneg a _) _).refreeze (h.canceled_nonneg a _) _

/-- Unlocking what is locked keeps the books sound. -/
theorem unlock (h : b.Sound) {owner receiver : A} {r : DelegatableResource} {amount : ℤ}
    (h0 : 0 ≤ amount) (hle : amount ≤ b.entry (owner, receiver, true, r)) :
    (b.unlock owner receiver r amount).Sound where
  balance_nonneg := h.balance_nonneg
  frozen_nonneg := h.frozen_nonneg
  pending_nonneg := h.pending_nonneg
  entry_nonneg := by
    refine post_nonneg (post_nonneg h.entry_nonneg (by omega)) ?_
    have := h.entry_nonneg (owner, receiver, false, r)
    rw [post_of_ne _ _ (by simp)]
    omega
  legacyFrozen_nonneg := h.legacyFrozen_nonneg
  legacyEntry_nonneg := h.legacyEntry_nonneg
  burned_nonneg := h.burned_nonneg
  out_eq := by
    intro o r'
    simp only [StakeBooks.unlock, sum_outgoing]
    rw [h.out_eq]
    split <;> omega
  acquired_eq := by
    intro t r'
    simp only [StakeBooks.unlock, sum_incoming]
    rw [h.acquired_eq]
    split <;> omega
  legacyOut_eq := h.legacyOut_eq
  legacyAcquired_eq := h.legacyAcquired_eq
  weight_eq := h.weight_eq

omit [Fintype A] in
/-- What a delegation takes from a freeze it adds to what is delegated away. -/
private theorem stake_of_transfer {b b' : StakeBooks A} {o : A} {r : DelegatableResource}
    (amount : ℤ) (hf : b'.frozen = post b.frozen (o, r.toStake) (-amount))
    (ho : b'.out = post b.out (o, r) amount) (a : A) (r' : StakeResource) :
    b'.stake a r' = b.stake a r' := by
  simp only [stake, hf, ho, onStake_post, post]
  split <;> omega

omit [DecidableEq A] in
/-- The weights stay those of the stakes where no stake changes. -/
private theorem weight_eq_of_transfer {b b' : StakeBooks A}
    (h : ∀ r, b.weight r = ∑ a, b.contribution r a) (hw : b'.weight = b.weight)
    (hs : ∀ a r, b'.stake a r = b.stake a r) (hf : b'.legacyFrozen = b.legacyFrozen)
    (hq : b'.legacyAcquired = b.legacyAcquired) (r : StakeResource) :
    b'.weight r = ∑ a, b'.contribution r a := by
  rw [hw, h]
  refine Finset.sum_congr rfl fun a _ => ?_
  simp only [contribution, hs, hf, hq]

/-- A delegation that the stake covers keeps the books sound. -/
theorem delegate (h : b.Sound) {owner receiver : A} {amount : ℤ} {r : DelegatableResource}
    (h0 : 0 ≤ amount) (hle : amount ≤ b.frozen (owner, r.toStake)) (lock : Bool) :
    (b.delegate owner receiver amount r lock).Sound where
  balance_nonneg := h.balance_nonneg
  frozen_nonneg := post_nonneg h.frozen_nonneg (by omega)
  pending_nonneg := h.pending_nonneg
  entry_nonneg := post_nonneg h.entry_nonneg
    (by have := h.entry_nonneg (owner, receiver, lock, r); omega)
  legacyFrozen_nonneg := h.legacyFrozen_nonneg
  legacyEntry_nonneg := h.legacyEntry_nonneg
  burned_nonneg := h.burned_nonneg
  out_eq := by
    intro o r'
    simp only [StakeBooks.delegate, sum_outgoing]
    rw [← h.out_eq]
    rfl
  acquired_eq := by
    intro t r'
    simp only [StakeBooks.delegate, sum_incoming]
    rw [← h.acquired_eq]
    rfl
  legacyOut_eq := h.legacyOut_eq
  legacyAcquired_eq := h.legacyAcquired_eq
  weight_eq := weight_eq_of_transfer h.weight_eq rfl (stake_of_transfer _ rfl rfl) rfl rfl

/-- An undelegation that the entry covers keeps the books sound. -/
theorem undelegate (h : b.Sound) {owner receiver : A} {amount : ℤ} {r : DelegatableResource}
    (h0 : 0 ≤ amount) (hle : amount ≤ b.entry (owner, receiver, false, r)) :
    (b.undelegate owner receiver amount r).Sound where
  balance_nonneg := h.balance_nonneg
  frozen_nonneg := post_nonneg h.frozen_nonneg
    (by have := h.frozen_nonneg (owner, r.toStake); omega)
  pending_nonneg := h.pending_nonneg
  entry_nonneg := post_nonneg h.entry_nonneg (by omega)
  legacyFrozen_nonneg := h.legacyFrozen_nonneg
  legacyEntry_nonneg := h.legacyEntry_nonneg
  burned_nonneg := h.burned_nonneg
  out_eq := by
    intro o r'
    simp only [StakeBooks.undelegate, sum_outgoing]
    rw [← h.out_eq]
    rfl
  acquired_eq := by
    intro t r'
    simp only [StakeBooks.undelegate, sum_incoming]
    rw [← h.acquired_eq]
    rfl
  legacyOut_eq := h.legacyOut_eq
  legacyAcquired_eq := h.legacyAcquired_eq
  weight_eq := weight_eq_of_transfer h.weight_eq rfl
    (stake_of_transfer (-amount) (by simp [StakeBooks.undelegate]) rfl) rfl rfl

/-- A Stake 1.0 freeze of one's own; a negative amount is a release. -/
theorem freezeLegacyLocal (h : b.Sound) {a : A} {amount : ℤ} {r : StakeResource}
    (hb : amount ≤ b.balance a) (hf : 0 ≤ b.legacyFrozen (a, r) + amount) :
    (b.freezeLegacyLocal a amount r).Sound where
  balance_nonneg := post_nonneg h.balance_nonneg (by omega)
  frozen_nonneg := h.frozen_nonneg
  pending_nonneg := h.pending_nonneg
  entry_nonneg := h.entry_nonneg
  legacyFrozen_nonneg := post_nonneg h.legacyFrozen_nonneg hf
  legacyEntry_nonneg := h.legacyEntry_nonneg
  burned_nonneg := h.burned_nonneg
  out_eq := h.out_eq
  acquired_eq := h.acquired_eq
  legacyOut_eq := h.legacyOut_eq
  legacyAcquired_eq := h.legacyAcquired_eq
  weight_eq := weight_eq_of_shift a r _ h.weight_eq rfl fun r' a' => by
    simp only [contribution, stake, StakeBooks.freezeLegacyLocal, shift, post]
    by_cases hk : (a', r') = (a, r)
    · simp only [hk, if_true]
      simp only [Prod.mk.injEq] at hk
      obtain ⟨rfl, rfl⟩ := hk
      omega
    · simp only [if_neg hk, Int.add_zero]

/-- A Stake 1.0 delegation; a negative amount is a release. -/
theorem freezeLegacyFor (h : b.Sound) {owner receiver : A} {amount : ℤ} {r : DelegatableResource}
    (hb : amount ≤ b.balance owner) (he : 0 ≤ b.legacyEntry (owner, receiver, r) + amount) :
    (b.freezeLegacyFor owner receiver amount r).Sound where
  balance_nonneg := post_nonneg h.balance_nonneg (by omega)
  frozen_nonneg := h.frozen_nonneg
  pending_nonneg := h.pending_nonneg
  entry_nonneg := h.entry_nonneg
  legacyFrozen_nonneg := h.legacyFrozen_nonneg
  legacyEntry_nonneg := post_nonneg h.legacyEntry_nonneg he
  burned_nonneg := h.burned_nonneg
  out_eq := h.out_eq
  acquired_eq := h.acquired_eq
  legacyOut_eq := by
    intro o r'
    simp only [StakeBooks.freezeLegacyFor, shift, sum_legacyOutgoing]
    rw [← h.legacyOut_eq]
    rfl
  legacyAcquired_eq := by
    intro t r'
    simp only [StakeBooks.freezeLegacyFor, shift, sum_legacyIncoming]
    rw [← h.legacyAcquired_eq]
    rfl
  weight_eq := weight_eq_of_shift receiver r.toStake _ h.weight_eq rfl fun r' a' => by
    simp only [contribution, stake, StakeBooks.freezeLegacyFor, shift, onStake_post]
    by_cases hk : (a', r') = (receiver, r.toStake)
    · simp only [hk, if_true]
      simp only [Prod.mk.injEq] at hk
      obtain ⟨rfl, rfl⟩ := hk
      simp only [onStake_toStake]
      omega
    · simp only [if_neg hk, Int.add_zero]

/-- A transfer that the balance covers keeps the books sound. -/
theorem move (h : b.Sound) {sender recipient : A} {amount : ℤ} (h0 : 0 ≤ amount)
    (hle : amount ≤ b.balance sender) : (b.move sender recipient amount).Sound :=
  { h with
    balance_nonneg := by
      refine post_nonneg (post_nonneg h.balance_nonneg (by omega)) ?_
      have hsender : 0 ≤ b.balance sender + -amount := by omega
      have := post_nonneg h.balance_nonneg hsender recipient
      omega }

/-- A fee; a negative amount is a refund. -/
theorem burn (h : b.Sound) {a : A} {amount : ℤ} (hle : amount ≤ b.balance a)
    (hb : 0 ≤ b.burned + amount) : (b.burn a amount).Sound :=
  { h with
    balance_nonneg := post_nonneg h.balance_nonneg (by omega)
    burned_nonneg := hb }

/-- A credit that leaves the balance non-negative keeps the books sound. -/
theorem credit (h : b.Sound) {a : A} {amount : ℤ} (h0 : 0 ≤ b.balance a + amount) :
    (b.credit a amount).Sound :=
  { h with balance_nonneg := post_nonneg h.balance_nonneg h0 }

end Sound

end StakeBooks

end Tvmjs
