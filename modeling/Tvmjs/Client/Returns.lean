import Tvmjs.Client.Stake

/-!
# What a program does to the chain when it returns

`Returns x Q c`: whenever `x` returns from a state on the chain `c`, whatever the journal, the
trace and the backend's faults, the value and the chain it reaches satisfy `Q`.  One rule for each
combinator and each primitive of `NodeM` lets the effect of an operation be computed step by step.
`Succeeds x Q c` says in addition that `x` does return, and `Sustains P x` that it returns from
every chain with `P`, to one with `P`.
-/

namespace Tvmjs

/-- Every return of `x` from the chain `c` satisfies `Q`. -/
def Returns {α : Type} (x : NodeM α) (Q : α → Chain → Prop) (c : Chain) : Prop :=
  ∀ s a s', s.chain = c → x.run s = (.ok a, s') → Q a s'.chain

/-- The chain with one account record replaced. -/
def Chain.setRecord (c : Chain) (a : Address) (r : AccountRecord) : Chain :=
  c.setTable .accounts ((c.table .accounts).set a r)

/-- The chain with one account of the state trie replaced. -/
def Chain.setAccount (c : Chain) (a : Address) (account : Account) : Chain :=
  { c with stateManager := c.stateManager.putAccount a account }

/-- The chain with a shifted weight total. -/
def Chain.shiftWeight (c : Chain) (resource : StakeResource) (beforeSun afterSun : ℤ) : Chain :=
  { c with registers :=
      c.registers.addWeight (afterSun.tdiv TRX_SUN - beforeSun.tdiv TRX_SUN) resource }

namespace Returns

variable {α β : Type} {c : Chain}

/-- A weaker postcondition holds as well. -/
theorem mono {x : NodeM α} {Q Q' : α → Chain → Prop} (h : Returns x Q c)
    (hQ : ∀ a c', Q a c' → Q' a c') : Returns x Q' c :=
  fun s a s' hs hx => hQ a _ (h s a s' hs hx)

/-- The rule for two methods, one after the other. -/
theorem bind {x : NodeM α} {f : α → NodeM β} {Q : β → Chain → Prop}
    (h : Returns x (fun a c' => Returns (f a) Q c') c) : Returns (x >>= f) Q c := by
  intro s b s' hs hx
  obtain ⟨a, t, hxa, hfb⟩ := Prog.run_bind_ok.1 hx
  exact h s a t hs hxa t b s' rfl hfb

theorem pure {a : α} {Q : α → Chain → Prop} (h : Q a c) : Returns (Pure.pure a) Q c := by
  rintro s a' s' rfl hx
  cases hx
  exact h

/-- What throws does not return. -/
theorem throw {e : NodeError} {Q : α → Chain → Prop} : Returns (Prog.throw e) Q c := by
  intro s a s' _ hx
  cases hx

/-- The rule for reading the chain. -/
theorem read {f : Chain → α} {Q : α → Chain → Prop} (h : Q (f c) c) :
    Returns (Tvmjs.read f) Q c := by
  rintro s a s' rfl hx
  cases hx
  exact h

/-- The rule for a branch. -/
theorem ite {p : Prop} [Decidable p] {x y : NodeM α} {Q : α → Chain → Prop}
    (hx : p → Returns x Q c) (hy : ¬ p → Returns y Q c) : Returns (if p then x else y) Q c := by
  split
  · exact hx ‹_›
  · exact hy ‹_›

/-- What is recorded for an undo is no part of the chain. -/
theorem recordUndo {u : Undo} {Q : Unit → Chain → Prop} (h : Q () c) :
    Returns (Tvmjs.recordUndo u) Q c := by
  rintro s a s' rfl hx
  cases hx
  exact h

theorem setRegisters {f : Registers → Registers} {Q : Unit → Chain → Prop}
    (h : Q () { c with registers := f c.registers }) : Returns (Tvmjs.setRegisters f) Q c := by
  rintro s a s' rfl hx
  cases hx
  exact h

theorem writeTable {t : Table} {w : InsertionMap.Write t.Key t.Val} {Q : Unit → Chain → Prop}
    (h : Q () (c.setTable t ((c.table t).write w))) : Returns (Tvmjs.writeTable t w) Q c := by
  rintro s a s' rfl hx
  cases hx
  exact h

/-- Storing the record of an account. -/
theorem modifyRecord {a : Address} {f : AccountRecord → AccountRecord} {Q : Unit → Chain → Prop}
    (h : Q () (c.setRecord a (f (c.recordOf a)))) : Returns (Tvmjs.modifyRecord a f) Q c :=
  bind (read (writeTable h))

/-- What is missing throws. -/
theorem orTypeError {o : Option α} {Q : α → Chain → Prop} (h : ∀ x, o = some x → Q x c) :
    Returns (Tvmjs.orTypeError o) Q c := by
  cases o with
  | none => exact throw
  | some x => exact pure (h x rfl)

/-- A call of the state manager that returned. -/
theorem callState {env : NodeEnv} {f : StateManager.Call α} {Q : α → Chain → Prop}
    (h : ∀ a, (f c.stateManager).1 = .ok a →
      Q a { c with stateManager := (f c.stateManager).2 }) :
    Returns (Tvmjs.callState env f) Q c := by
  rintro s a s' rfl hx
  simp only [Prog.run, Tvmjs.callState] at hx
  split at hx
  · cases hx
  · obtain ⟨hvalue, rfl⟩ := Prod.ext_iff.1 hx
    exact h a hvalue

/-- A call which does not throw. -/
theorem callState_ok {env : NodeEnv} {f : StateManager → α × StateManager} {Q : α → Chain → Prop}
    (h : Q (f c.stateManager).1 { c with stateManager := (f c.stateManager).2 }) :
    Returns (Tvmjs.callState env fun w => (.ok (f w).1, (f w).2)) Q c := by
  refine callState fun a ha => ?_
  rw [← Except.ok.inj ha]
  exact h

theorem getAccount {env : NodeEnv} {a : Address} {Q : Option Account → Chain → Prop}
    (h : Q (c.account a) c) : Returns (Tvmjs.getAccount env a) Q c :=
  callState_ok (f := fun w => (w.getAccount a, w)) h

/-- An account which was stored has no negative balance. -/
theorem storeAccount {env : NodeEnv} {f : StateManager.Call Unit} {a : Address} {account : Account}
    {Q : Unit → Chain → Prop}
    (hf : f c.stateManager = StateManager.storeAccount a account c.stateManager)
    (h : 0 ≤ account.balance → Q () (c.setAccount a account)) :
    Returns (Tvmjs.callState env f) Q c := by
  refine callState fun _ hstored => ?_
  rw [hf, StateManager.storeAccount] at hstored ⊢
  split at hstored
  · cases hstored
  · rename_i hbalance
    rw [if_neg hbalance]
    exact h (not_lt.1 hbalance)

theorem putAccount {env : NodeEnv} {a : Address} {account : Account} {Q : Unit → Chain → Prop}
    (h : Q () (c.setAccount a account)) : Returns (Tvmjs.putAccount env a account) Q c :=
  storeAccount rfl fun _ => h

theorem flush {env : NodeEnv} {Q : Unit → Chain → Prop} (h : Q () c) :
    Returns (Tvmjs.flush env) Q c :=
  callState_ok (f := fun w => ((), w)) h

/-- An account that is not there is made. -/
theorem touchAccount {env : NodeEnv} {a : Address} {Q : Unit → Chain → Prop}
    (h : Q () (c.setAccount a ((c.account a).getD {}))) : Returns (Tvmjs.touchAccount env a) Q c :=
  storeAccount rfl fun _ => h

theorem modifyChain (f : Chain → Chain) {Q : Unit → Chain → Prop} (h : Q () (f c)) :
    Returns (Prog.modify fun s => { s with chain := f s.chain }) Q c := by
  rintro s a s' rfl hx
  cases hx
  exact h

/-- Committing a write changes the journal and the trace only. -/
theorem transact {x : NodeM α} {Q : α → Chain → Prop} (h : Returns x Q c) :
    Returns (Tvmjs.transact x) Q c := by
  rintro s a s' rfl hx
  change (x.finish _ _).run s.enter = _ at hx
  rw [Prog.run_finish] at hx
  rcases hrun : x.run s.enter with ⟨a' | e, t⟩
  · rw [hrun] at hx
    cases hx
  · rw [hrun] at hx
    cases hx
    exact h s.enter _ t rfl hrun

/-- The time of the head block; without one the method throws. -/
theorem headTimestampMs {Q : ℤ → Chain → Prop}
    (h : ∀ nowMs, c.registers.blocks.headTimestamp = some nowMs → Q nowMs c) :
    Returns Tvmjs.headTimestampMs Q c :=
  bind (read (orTypeError h))

/-- The account has to exist, and its balance moves. -/
theorem adjustBalance {env : NodeEnv} {a : Address} {deltaSun : ℤ} {Q : Unit → Chain → Prop}
    (h : ∀ account, c.account a = some account →
      Q () (c.setAccount a { account with balance := account.balance + deltaSun })) :
    Returns (Tvmjs.adjustBalance env a deltaSun) Q c :=
  bind (getAccount (bind (orTypeError fun account ha => bind (putAccount (flush (h account ha))))))

/-- A shift by no whole TRX is no write, and leaves the same totals. -/
theorem shiftWeight {resource : StakeResource} {beforeSun afterSun : ℤ} {Q : Unit → Chain → Prop}
    (h : Q () (c.shiftWeight resource beforeSun afterSun)) :
    Returns (Tvmjs.shiftWeight resource beforeSun afterSun) Q c := by
  refine ite (fun h0 => pure ?_) fun _ => bind (read (bind (recordUndo (setRegisters h))))
  have hsame : c.shiftWeight resource beforeSun afterSun = c := by
    rw [Chain.shiftWeight, h0]
    cases resource <;> simp [Registers.addWeight]
  rwa [hsame] at h

/-- A key leaves its table, whether it was there or not. -/
theorem removeFrom {t : Table} {key : t.Key} {Q : Unit → Chain → Prop}
    (h : Q () (c.setTable t ((c.table t).delete key))) : Returns (Tvmjs.removeFrom t key) Q c := by
  refine bind (read (ite (fun _ => writeTable h) fun hhas => pure ?_))
  have hnot : key ∉ (c.table t).keys := by
    rw [← InsertionMap.get_isSome_iff]
    simpa [InsertionMap.has] using hhas
  rw [InsertionMap.delete_of_not_mem hnot] at h
  have hsame : c.setTable t (c.table t) = c := by
    simp [Chain.setTable]
  rwa [hsame] at h

end Returns

/-! ### Programs which return -/

/-- `x` returns from every state on the chain `c`, and the value and the chain it reaches satisfy
`Q`. -/
def Succeeds {α : Type} (x : NodeM α) (Q : α → Chain → Prop) (c : Chain) : Prop :=
  ∀ s, s.chain = c → ∃ a s', x.run s = (.ok a, s') ∧ Q a s'.chain

/-- `x` returns from every chain with `P`, and reaches one with `P`. -/
def Sustains {α : Type} (P : Chain → Prop) (x : NodeM α) : Prop :=
  ∀ c, P c → Succeeds x (fun _ => P) c

/-- What is known of every return is known of the one there is. -/
theorem Returns.succeeds {α : Type} {x : NodeM α} {Q R : α → Chain → Prop} {c : Chain}
    (hQ : Returns x Q c) (h : Succeeds x R c) : Succeeds x (fun a c' => Q a c' ∧ R a c') c := by
  intro s hs
  obtain ⟨a, s', hrun, hR⟩ := h s hs
  exact ⟨a, s', hrun, hQ s a s' hs hrun, hR⟩

namespace Succeeds

variable {α β : Type} {c : Chain}

/-- A weaker postcondition holds as well. -/
theorem mono {x : NodeM α} {Q Q' : α → Chain → Prop} (h : Succeeds x Q c)
    (hQ : ∀ a c', Q a c' → Q' a c') : Succeeds x Q' c := by
  intro s hs
  obtain ⟨a, s', hrun, ha⟩ := h s hs
  exact ⟨a, s', hrun, hQ a _ ha⟩

/-- The rule for two methods that succeed. -/
theorem bind {x : NodeM α} {f : α → NodeM β} {Q : β → Chain → Prop}
    (h : Succeeds x (fun a c' => Succeeds (f a) Q c') c) : Succeeds (x >>= f) Q c := by
  intro s hs
  obtain ⟨a, t, hx, hf⟩ := h s hs
  obtain ⟨b, s', hfrun, hb⟩ := hf t rfl
  exact ⟨b, s', Prog.run_bind_ok.2 ⟨a, t, hx, hfrun⟩, hb⟩

theorem pure {a : α} {Q : α → Chain → Prop} (h : Q a c) : Succeeds (Pure.pure a) Q c := by
  rintro s rfl
  exact ⟨a, s, rfl, h⟩

theorem read {f : Chain → α} {Q : α → Chain → Prop} (h : Q (f c) c) :
    Succeeds (Tvmjs.read f) Q c := by
  rintro s rfl
  exact ⟨_, s, rfl, h⟩

theorem modifyChain (f : Chain → Chain) {Q : Unit → Chain → Prop} (h : Q () (f c)) :
    Succeeds (Prog.modify fun s => { s with chain := f s.chain }) Q c := by
  rintro s rfl
  exact ⟨(), _, rfl, h⟩

/-- What is recorded for an undo never fails. -/
theorem recordUndo {u : Undo} {Q : Unit → Chain → Prop} (h : Q () c) :
    Succeeds (Tvmjs.recordUndo u) Q c := by
  rintro s rfl
  exact ⟨(), _, rfl, h⟩

theorem writeTable {t : Table} {w : InsertionMap.Write t.Key t.Val} {Q : Unit → Chain → Prop}
    (h : Q () (c.setTable t ((c.table t).write w))) : Succeeds (Tvmjs.writeTable t w) Q c := by
  rintro s rfl
  exact ⟨(), _, rfl, h⟩

/-- A call into the state manager returns when neither the backend nor the call itself fails. -/
theorem callState {env : NodeEnv} (hfault : ∀ n, env.fault n = none) {f : StateManager.Call α}
    {Q : α → Chain → Prop} {a : α} (ha : (f c.stateManager).1 = .ok a)
    (h : Q a { c with stateManager := (f c.stateManager).2 }) :
    Succeeds (Tvmjs.callState env f) Q c := by
  rintro s rfl
  let after := (f s.chain.stateManager).2
  refine ⟨a, { s with
    chain := { s.chain with stateManager := after }
    trace := { s.trace with calls := s.trace.calls ++ [(s.chain.stateManager, after)] } }, ?_, h⟩
  rw [Prog.run, Tvmjs.callState, hfault]
  exact Prod.ext ha rfl

end Succeeds

namespace Sustains

variable {α β : Type} {P : Chain → Prop}

/-- What both methods sustain. -/
theorem bind {x : NodeM α} {f : α → NodeM β} (hx : Sustains P x) (hf : ∀ a, Sustains P (f a)) :
    Sustains P (x >>= f) :=
  fun c hc => .bind ((hx c hc).mono fun a c' hc' => hf a c' hc')

theorem pure (a : α) : Sustains P (Pure.pure a) := fun _ hc => .pure hc

theorem read (f : Chain → α) : Sustains P (Tvmjs.read f) := fun _ hc => .read hc

/-- What either branch sustains. -/
theorem ite {p : Prop} [Decidable p] {x y : NodeM α} (hx : Sustains P x) (hy : Sustains P y) :
    Sustains P (if p then x else y) := by
  split
  · exact hx
  · exact hy

theorem recordUndo (u : Undo) : Sustains P (Tvmjs.recordUndo u) := fun _ hc => .recordUndo hc

end Sustains

end Tvmjs
