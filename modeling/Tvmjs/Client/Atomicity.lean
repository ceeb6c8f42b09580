import Tvmjs.Client.WriteTracking
import Tvmjs.Client.StakeRuns

/-!
# `transact` is all or nothing, up to what its journal cannot see

A body is any program made of the node's write operations, reads, throws, handlers and nested
`transact` calls.  When a `transact` around a body throws, the trie, the registers, the burned
amount and every lookup in every table come back.  The iteration order of a table comes back if
the body removed entries from the end only, and the registry of token ids comes back if no call
into the state manager changed it.

* `NodeWrite`, `Body` -- the operations and the bodies;
* `transact_allOrNothing` -- atomicity under the two conditions, the first of which is necessary;
* `transact_reorders` -- a body the journal does not take back exactly.
-/

namespace Tvmjs

/-- The write operations of the node. -/
inductive NodeWrite : {α : Type} → NodeM α → Prop
  | sealBlock (env : NodeEnv) (txs : List TronTxRecord) : NodeWrite (sealBlock env txs)
  | creditAllowance (a : Address) (amountSun : ℤ) : NodeWrite (creditAllowance a amountSun)
  | execute (env : NodeEnv) (params : WriteParams) : NodeWrite (execute env params)
  | setBalance (env : NodeEnv) (a : Address) (balanceSun : ℤ) :
      NodeWrite (setBalance env a balanceSun)
  | setCode (env : NodeEnv) (a : Address) (code : Bytes) : NodeWrite (setCode env a code)
  | setStorage (env : NodeEnv) (a : Address) (slot value : Bytes) :
      NodeWrite (setStorage env a slot value)
  | noteStorageSlot (a : Address) (slot : Bytes) : NodeWrite (noteStorageSlot a slot)
  | issueAsset (env : NodeEnv) (owner : Address) (input : AssetMeta) (creditedSupply : Option ℤ)
      (frozen : List FrozenSupply) : NodeWrite (issueAsset env owner input creditedSupply frozen)
  | updateAsset (caller : Address) (url description : String) (newLimit newPublicLimit : ℤ) :
      NodeWrite (updateAsset caller url description newLimit newPublicLimit)
  | setPermissions (owner : Address) (permissions : List StoredPermission) :
      NodeWrite (setPermissions owner permissions)
  | setAccountName (owner : Address) (name : String) : NodeWrite (setAccountName owner name)
  | setAccountId (owner : Address) (accountId : String) : NodeWrite (setAccountId owner accountId)
  | noteCreation (env : NodeEnv) (a : Address) : NodeWrite (noteCreation env a)
  | noteOperation (a : Address) : NodeWrite (noteOperation a)
  | noteAccountType (a : Address) (type : AccountType) : NodeWrite (noteAccountType a type)
  | setBalanceUnlocked (env : NodeEnv) (a : Address) (balanceSun : ℤ) :
      NodeWrite (setBalanceUnlocked env a balanceSun)
  | unfreezeAsset (env : NodeEnv) (owner : Address) (tokenId : ℕ) :
      NodeWrite (unfreezeAsset env owner tokenId)
  | creditAsset (env : NodeEnv) (a : Address) (tokenId : ℕ) (amount : ℤ) :
      NodeWrite (creditAsset env a tokenId amount)
  | transferAsset (env : NodeEnv) (sender recipient : Address) (tokenId : ℕ) (amount : ℤ) :
      NodeWrite (transferAsset env sender recipient tokenId amount)
  | freezeLegacy (env : NodeEnv) (owner : Address) (amountSun : ℤ) (resource : StakeResource)
      (durationDays : ℤ) (receiver : Option Address) :
      NodeWrite (freezeLegacy env owner amountSun resource durationDays receiver)
  | unfreezeLegacy (env : NodeEnv) (owner : Address) (resource : StakeResource)
      (receiver : Option Address) : NodeWrite (unfreezeLegacy env owner resource receiver)
  | freezeV2 (env : NodeEnv) (owner : Address) (amountSun : ℤ) (resource : StakeResource) :
      NodeWrite (freezeV2 env owner amountSun resource)
  | unfreezeV2 (env : NodeEnv) (owner : Address) (amountSun : ℤ) (resource : StakeResource) :
      NodeWrite (unfreezeV2 env owner amountSun resource)
  | withdrawExpiredUnfreeze (env : NodeEnv) (owner : Address) :
      NodeWrite (withdrawExpiredUnfreeze env owner)
  | cancelAllUnfreezeV2 (env : NodeEnv) (owner : Address) :
      NodeWrite (cancelAllUnfreezeV2 env owner)
  | delegateResource (owner receiver : Address) (amountSun : ℤ) (resource : DelegatableResource)
      (lock : Bool) (lockPeriodBlocks : ℤ) :
      NodeWrite (delegateResource owner receiver amountSun resource lock lockPeriodBlocks)
  | undelegateResource (env : NodeEnv) (owner receiver : Address) (amountSun : ℤ)
      (resource : DelegatableResource) :
      NodeWrite (undelegateResource env owner receiver amountSun resource)
  | consumeAssetNet (env : NodeEnv) (holder : Address) (assetId : ℕ) (bytes : ℤ) :
      NodeWrite (consumeAssetNet env holder assetId bytes)
  | consumeStakedNet (env : NodeEnv) (a : Address) (bytes : ℤ) :
      NodeWrite (consumeStakedNet env a bytes)
  | chargeStakedEnergy (env : NodeEnv) (a : Address) (units : ℤ) :
      NodeWrite (chargeStakedEnergy env a units)
  | consumeBandwidth (env : NodeEnv) (a : Address) (bytes : ℤ) :
      NodeWrite (consumeBandwidth env a bytes)
  | deductBalance (env : NodeEnv) (a : Address) (amountSun : ℤ) :
      NodeWrite (deductBalance env a amountSun)
  | creditBalance (env : NodeEnv) (a : Address) (amountSun : ℤ) :
      NodeWrite (creditBalance env a amountSun)
  | moveBalance (env : NodeEnv) (sender recipient : Address) (amountSun : ℤ) :
      NodeWrite (moveBalance env sender recipient amountSun)
  | registerContract (a : Address) (m : ContractMeta) : NodeWrite (registerContract a m)
  | pushGenerated (batch : GeneratedBatch) : NodeWrite (pushGenerated batch)
  | storeTransaction (record : TronTxRecord) : NodeWrite (storeTransaction record)

/-- A program made of write operations, in any order and nesting. -/
inductive Body : {α : Type} → NodeM α → Prop
  | write {α : Type} {x : NodeM α} (h : NodeWrite x) : Body x
  | pure {α : Type} (a : α) : Body (pure a : NodeM α)
  | throw {α : Type} (e : NodeError) : Body (Prog.throw e : NodeM α)
  | read {α : Type} (f : Chain → α) : Body (read f)
  | bind {α β : Type} {x : NodeM α} {f : α → NodeM β} (hx : Body x) (hf : ∀ a, Body (f a)) :
      Body (x >>= f)
  | tryCatch {α : Type} {x : NodeM α} {handler : NodeError → NodeM α} (hx : Body x)
      (hh : ∀ e, Body (handler e)) : Body (x.tryCatch handler)
  | transact {α : Type} {x : NodeM α} (hx : Body x) : Body (transact x)

theorem NodeWrite.rel {α : Type} {x : NodeM α} (h : NodeWrite x) : Prog.Rel Tracked x := by
  cases h with
  | sealBlock => exact tracked_sealBlock
  | creditAllowance => exact rel_creditAllowance.tracked
  | execute => exact rel_execute.tracked
  | setBalance => exact rel_setBalance.tracked
  | setCode => exact rel_setCode.tracked
  | setStorage => exact rel_setStorage.tracked
  | noteStorageSlot => exact rel_noteStorageSlot.tracked
  | issueAsset => exact rel_issueAsset.tracked
  | updateAsset => exact rel_updateAsset.tracked
  | setPermissions => exact rel_setPermissions.tracked
  | setAccountName => exact rel_setAccountName.tracked
  | setAccountId => exact rel_setAccountId.tracked
  | noteCreation => exact rel_noteCreation.tracked
  | noteOperation => exact rel_noteOperation.tracked
  | noteAccountType => exact rel_noteAccountType.tracked
  | setBalanceUnlocked => exact rel_setBalanceUnlocked.tracked
  | unfreezeAsset => exact rel_unfreezeAsset.tracked
  | creditAsset => exact rel_creditAsset.tracked
  | transferAsset => exact rel_transferAsset.tracked
  | freezeLegacy => exact rel_freezeLegacy.tracked
  | unfreezeLegacy => exact rel_unfreezeLegacy.tracked
  | freezeV2 => exact rel_freezeV2.tracked
  | unfreezeV2 => exact rel_unfreezeV2.tracked
  | withdrawExpiredUnfreeze => exact rel_withdrawExpiredUnfreeze.tracked
  | cancelAllUnfreezeV2 => exact rel_cancelAllUnfreezeV2.tracked
  | delegateResource => exact rel_delegateResource.tracked
  | undelegateResource => exact rel_undelegateResource.tracked
  | consumeAssetNet => exact rel_consumeAssetNet.tracked
  | consumeStakedNet => exact rel_consumeStakedNet.tracked
  | chargeStakedEnergy => exact rel_chargeStakedEnergy.tracked
  | consumeBandwidth => exact rel_consumeBandwidth.tracked
  | deductBalance => exact rel_deductBalance.tracked
  | creditBalance => exact rel_creditBalance.tracked
  | moveBalance => exact rel_moveBalance.tracked
  | registerContract => exact rel_registerContract.tracked
  | pushGenerated => exact rel_pushGenerated.tracked
  | storeTransaction => exact tracked_storeTransaction

/-- Bodies are tracked: one step for each way a body is built. -/
theorem Body.rel {α : Type} {x : NodeM α} (h : Body x) : Prog.Rel Tracked x := by
  induction h with
  | write h => exact h.rel
  | pure a => exact .pure a
  | throw e => exact .throw e
  | read f => exact rel_read
  | bind _ _ ihx ihf => exact .bind ihx ihf
  | tryCatch _ _ ihx ihh => exact .tryCatch ihx ihh
  | transact _ ih => exact tracked_transact ih

/-! ### Atomicity -/

/-- The chain is exactly as it was found, the slots noted as written apart. -/
structure Chain.Restored (c c' : Chain) : Prop where
  trie : c'.stateManager.trie = c.stateManager.trie
  table : c'.table = c.table
  registers : c'.registers = c.registers
  burnedSun : c'.burnedSun = c.burnedSun
  tokenIds : SameTokenIds c.stateManager c'.stateManager

/-- What a call promises: a return keeps every write of its work, a throw none. -/
def AllOrNothing {α : Type} (x : NodeM α) (s : NodeState) : Except NodeError α × NodeState → Prop
  | (.ok a, s') => ∃ t, x.run s.enter = (.ok a, t) ∧ s'.chain = t.chain
  | (.error _, s') => s.chain.Restored s'.chain

/-- Every call of the run that threw had removed entries from the end only, counting the entries
it had found and not yet removed. -/
def RemovesLastFirst (s s' : NodeState) : Prop :=
  ∀ call ∈ s'.trace.unwound.drop s.trace.unwound.length, RemovedLastFirst call

/-- No call of the run into the state manager changed which token ids are registered. -/
def KeepsTokenIds (s s' : NodeState) : Prop :=
  ∀ call ∈ s'.trace.calls.drop s.trace.calls.length, SameTokenIds call.1 call.2

/-- The trace of a call that threw, after the trace it began with. -/
private theorem drop_unwound {s s' : NodeState} {ws : List TableWrite} {us : List Undo}
    {threw : List (Chain × List TableWrite)} {cs : List (StateManager × StateManager)}
    (h : Via s s' ws us threw cs) :
    s'.trace.unwound.drop s.trace.unwound.length = threw ∧
      s'.trace.calls.drop s.trace.calls.length = cs := by
  rw [h.unwound, h.calls, List.drop_left, List.drop_left]
  exact ⟨rfl, rfl⟩

private theorem unwind_trie {s t : NodeState} {ws : List TableWrite} {us : List Undo}
    {threw : List (Chain × List TableWrite)} {cs : List (StateManager × StateManager)}
    (h : Via s.enter t ws us threw cs) :
    (NodeState.unwind s t).chain.stateManager.trie = s.chain.stateManager.trie := by
  rw [unwind_chain h]
  change (undoAll us _).stateManager.trie = _
  rw [undoAll_stateManager]

/-- Whatever the body, a call that throws brings back the trie, the registers, the burned amount
and every lookup in every table. -/
theorem transact_restores_values {α : Type} {x : NodeM α} (hx : Body x) {s s' : NodeState}
    {e : NodeError} (hrun : (transact x).run s = (.error e, s')) :
    s'.chain.stateManager.trie = s.chain.stateManager.trie ∧
      s'.chain.registers = s.chain.registers ∧ s'.chain.burnedSun = s.chain.burnedSun ∧
      ∀ t key, (s'.chain.table t).get key = (s.chain.table t).get key := by
  obtain ⟨ws, us, threw, cs, h⟩ := hx.rel s.enter
  rw [run_transact] at hrun
  rcases hbody : x.run s.enter with ⟨e' | a, t⟩
  · rw [hbody] at h hrun
    cases hrun
    have hu := h.unwind
    refine ⟨unwind_trie h, hu.registers, ?_, hu.lookups⟩
    rw [unwind_chain h]
  · rw [hbody] at hrun
    cases hrun

/-- A call that returns keeps every write of its work. -/
private theorem transact_keeps {α : Type} {x : NodeM α} {s s' : NodeState} {a : α}
    (hrun : (transact x).run s = (.ok a, s')) :
    ∃ t, x.run s.enter = (.ok a, t) ∧ s'.chain = t.chain := by
  rw [run_transact] at hrun
  rcases hbody : x.run s.enter with ⟨e | a', t⟩
  · rw [hbody] at hrun
    cases hrun
  · rw [hbody] at hrun
    cases hrun
    exact ⟨t, rfl, rfl⟩

/-- **All or nothing.**  A call around a body that returns keeps every write.  A call that throws
brings everything back when its run removed entries from the end only and kept the registry of token
ids; and only then is the order of the tables back, where no call inside it threw. -/
theorem transact_allOrNothing {α : Type} {x : NodeM α} (hx : Body x) (s : NodeState) :
    (∀ a s', (transact x).run s = (.ok a, s') → AllOrNothing x s (.ok a, s')) ∧
    ∀ e s', (transact x).run s = (.error e, s') →
      (RemovesLastFirst s s' → KeepsTokenIds s s' → AllOrNothing x s (.error e, s')) ∧
      (s'.trace.unwound.length = s.trace.unwound.length + 1 →
        AllOrNothing x s (.error e, s') → RemovesLastFirst s s') := by
  refine ⟨fun a s' hrun => transact_keeps hrun, fun e s' hrun => ?_⟩
  obtain ⟨ws, us, threw, cs, h⟩ := hx.rel s.enter
  rw [run_transact] at hrun
  rcases hbody : x.run s.enter with ⟨e' | a, t⟩
  · rw [hbody] at h hrun
    cases hrun
    have hu := h.unwind
    obtain ⟨hunwound, hcalls⟩ := drop_unwound hu
    constructor
    · intro hlast hids
      simp only [RemovesLastFirst, KeepsTokenIds, hunwound, hcalls] at hlast hids
      refine ⟨unwind_trie h, funext (hu.tables hlast), hu.registers, ?_, hu.tokenIds hids⟩
      rw [unwind_chain h]
    · intro hlength hrestored
      -- no call inside threw, so the records of this call are an exact log of its writes
      have hnone : threw = [] := by
        rw [hu.unwound, List.length_append, List.length_append, List.length_singleton] at hlength
        exact List.eq_nil_of_length_eq_zero (by omega)
      intro call hcall
      rw [hunwound, hnone] at hcall
      obtain rfl := List.mem_singleton.1 hcall
      intro u
      have htable := h.tables (by simp [hnone]) u
      rw [← InsertionMap.undoAll_eq_iff]
      have hback := congrFun (Chain.Restored.table hrestored) u
      rw [unwind_chain h] at hback
      change (undoAll us _).table u = _ at hback
      rw [undoAll_table, h.records u] at hback
      change (t.chain.table u).undoAll _ = _ at hback
      rw [htable] at hback
      exact hback
  · rw [hbody] at hrun
    cases hrun

/-! ### A call that is not taken back exactly -/

/-- Account 1 has frozen three TRX and delegated one each to accounts 2 and 3. -/
def pairState : NodeState :=
  ((do
    freezeV2 sampleEnv 1 3000000 .energy
    delegateResource 1 2 1000000 .energy false 0
    delegateResource 1 3 1000000 .energy false 0 : NodeM Unit).run sampleState).2

/-- The first delegation is taken back, and then something fails. -/
def undelegateThenFail : NodeM Unit := do
  undelegateResource sampleEnv 1 2 1000000 .energy
  Prog.throw (.rejected "")

private theorem body_undelegateThenFail : Body undelegateThenFail :=
  .bind (.write (.undelegateResource ..)) fun _ => .throw _

/-- The pair that left the account index comes back behind the other one. -/
theorem transact_reorders :
    ¬ ∀ x : NodeM Unit, Body x → ∀ s, AllOrNothing x s ((transact x).run s) := by
  intro h
  have hcall := h undelegateThenFail body_undelegateThenFail pairState
  have hrun : (transact undelegateThenFail).run pairState =
      (.error (.rejected ""), ((transact undelegateThenFail).run pairState).2) :=
    Prod.ext (by rfl) rfl
  rw [hrun] at hcall
  have hkeys := congrArg (fun table => (table .delegationPairs).keys)
    (Chain.Restored.table hcall)
  have hbefore : (pairState.chain.table .delegationPairs).keys = [(1, 2), (1, 3)] := by rfl
  have hafter : (((transact undelegateThenFail).run pairState).2.chain.table
      .delegationPairs).keys = [(1, 3), (1, 2)] := by rfl
  have hsame : [((1 : Address), (3 : Address)), (1, 2)] = [(1, 2), (1, 3)] :=
    hafter.symm.trans (hkeys.trans hbefore)
  exact absurd hsame (by decide)

/-- Account 1 has delegated one TRX each to accounts 2 and 3. -/
def delegatedState : NodeState :=
  let entry : DelegationEntry := { pair := ⟨0, 1000000⟩ }
  let entries := (InsertionMap.empty.set ((1 : Address), (2 : Address), false) entry).set
    (1, 3, false) entry
  let pairs := (InsertionMap.empty.set ((1 : Address), (2 : Address)) (3000 : PairTime)).set
    (1, 3) 3000
  { sampleState with
    chain := (sampleState.chain.setTable .delegations entries).setTable .delegationPairs pairs }

/-- A fee is burned and the last delegation is taken back, and then something fails. -/
def undelegateLastThenFail : NodeM Unit := do
  let _ ← deductBalance sampleEnv 1 5
  undelegateResource sampleEnv 1 3 1000000 .energy
  Prog.throw (.rejected "")

theorem transact_allOrNothing_undelegateLast :
    ∃ e s', (transact undelegateLastThenFail).run delegatedState = (.error e, s') ∧
      delegatedState.chain.Restored s'.chain := by
  have hrun : (transact undelegateLastThenFail).run delegatedState =
      (.error (.rejected ""), ((transact undelegateLastThenFail).run delegatedState).2) :=
    Prod.ext (by rfl) rfl
  have hbody : Body undelegateLastThenFail :=
    .bind (.write (.deductBalance ..)) fun _ => .bind (.write (.undelegateResource ..)) fun _ =>
      .throw _
  -- one call threw, and the entries it removed stood at the end of their tables
  have htables : ∀ t, ∀ call ∈ ((transact undelegateLastThenFail).run
      delegatedState).2.trace.unwound.drop delegatedState.trace.unwound.length,
      InsertionMap.LastFirst (call.1.table t).keys (writesTo t call.2) := by
    intro t
    cases t <;> decide
  -- the account was read, stored and flushed, and holds no tokens
  have hcalls : List.Forall (fun call => SameTokenIds call.1 call.2)
      (((transact undelegateLastThenFail).run delegatedState).2.trace.calls.drop
        delegatedState.trace.calls.length) :=
    ⟨fun _ => rfl, fun _ => rfl, fun _ => rfl⟩
  exact ⟨_, _, hrun, ((transact_allOrNothing hbody delegatedState).2 _ _ hrun).1
    (fun call hcall t => htables t call hcall) (List.forall_iff_forall_mem.1 hcalls)⟩

end Tvmjs
