import Tvmjs.Tvm.Calls
import Tvmjs.Tvm.MemoryRuns

/-!
# The events of a transaction are well nested

Whatever bytecode the frames of a transaction run, each `beforeMessage` is followed by its own
`afterMessage`, and frames are told between the two of the frame that opened them -- unless an error
which is no `TVMError` ends the whole execution.

* `ReturnsAt` -- a program returns in a related world, unless it throws;
* `Nests` -- the events go on with frames of one depth;
* `returnsAt_execute` -- a message, given what its interpreter does;
* `returns_runInterpreter` -- an interpreter, given what nested messages do;
* `returns_runNested`, `runCall_events` -- **the events of a message**, by induction on its fuel.
-/

namespace Tvmjs

namespace Interpreter

open Prog (Rel RelUnless RelUnlessAt)

variable {σ α β : Type}

/-! ### Returns -/

/-- From `w` the program returns in an `R`-related world, unless it throws an error in `E`. -/
def ReturnsAt (E : Thrown → Prop) (R : World σ → World σ → Prop) (x : CallM σ α) (w : World σ) :
    Prop :=
  (∃ e, (x.run w).1 = .error e ∧ E e) ∨ ∃ a w', x.run w = (.ok a, w') ∧ R w w'

/-- The same from every world. -/
def Returns (E : Thrown → Prop) (R : World σ → World σ → Prop) (x : CallM σ α) : Prop :=
  ∀ w, ReturnsAt E R x w

section Returns

variable {E : Thrown → Prop} {R : World σ → World σ → Prop} {w : World σ}

/-- The rule for two methods from one state. -/
theorem ReturnsAt.bind [IsTrans _ R] {x : CallM σ α} {f : α → CallM σ β} (hx : ReturnsAt E R x w)
    (hf : ∀ a w', x.run w = (.ok a, w') → ReturnsAt E R (f a) w') : ReturnsAt E R (x >>= f) w := by
  rw [ReturnsAt, Prog.run_bind]
  obtain ⟨e, he, hE⟩ | ⟨a, w', hrun, hR⟩ := hx
  · rcases hrun : x.run w with ⟨e' | a, w'⟩
    · rw [hrun] at he
      cases he
      exact Or.inl ⟨e, rfl, hE⟩
    · rw [hrun] at he
      cases he
  · rw [hrun]
    refine (hf a w' hrun).imp_right ?_
    rintro ⟨b, w'', hb, hR'⟩
    exact ⟨b, w'', hb, trans_of R hR hR'⟩

/-- The rule for two methods, one after the other. -/
theorem Returns.bind [IsTrans _ R] {x : CallM σ α} {f : α → CallM σ β} (hx : Returns E R x)
    (hf : ∀ a, Returns E R (f a)) : Returns E R (x >>= f) :=
  fun w => (hx w).bind fun a w' _ => hf a w'

/-- The rule for a branch. -/
theorem Returns.ite {c : Prop} [Decidable c] {x y : CallM σ α} (hx : c → Returns E R x)
    (hy : ¬c → Returns E R y) : Returns E R (if c then x else y) := by
  split
  · next hc => exact hx hc
  · next hc => exact hy hc

theorem Returns.gets [Std.Refl R] (f : World σ → α) : Returns E R (Prog.gets f : CallM σ α) :=
  fun w => Or.inr ⟨f w, w, rfl, refl_of R w⟩

theorem Returns.pure [Std.Refl R] (a : α) : Returns E R (pure a : CallM σ α) :=
  fun w => Or.inr ⟨a, w, rfl, refl_of R w⟩

/-- A change in the relation returns. -/
theorem Returns.modify {f : World σ → World σ} (h : ∀ w, R w (f w)) :
    Returns E R (Prog.modify f : CallM σ PUnit) := fun w => Or.inr ⟨_, f w, rfl, h w⟩

/-- What returns in the relation stays in it unless it throws. -/
theorem ReturnsAt.relUnless {x : CallM σ α} (h : ReturnsAt E R x w) : RelUnlessAt E R x w := by
  obtain ⟨e, he⟩ | ⟨a, w', hrun, hR⟩ := h
  · exact Or.inl ⟨e, he⟩
  · rw [RelUnlessAt, hrun]
    exact Or.inr hR

end Returns

/-! ### Nested events -/

/-- What a frame is at depth `d`. -/
def AtDepth (d : ℕ) (message : Message) : Prop := message.depth = d

/-- A self-destruct is told with its beneficiary on the stack. -/
def HasBeneficiary : Happening → Prop
  | .step step => step.opcode = SELFDESTRUCT → step.stack ≠ []
  | .derived _ => True

/-- The events go on with frames of depth `d`. -/
def Nests (d : ℕ) (w w' : World σ) : Prop :=
  Nested.Extends AtDepth HasBeneficiary d w.events w'.events

variable {d : ℕ}

/-- Where no event is noted the trace stays nested. -/
private theorem nests_of_eq {w w' : World σ} (h : w'.events = w.events) : Nests d w w' := by
  rw [Nests, h]
  exact Nested.Extends.refl _

instance : Std.Refl (Nests d : World σ → World σ → Prop) := ⟨fun _ => nests_of_eq rfl⟩

instance : IsTrans (World σ) (Nests d) := ⟨fun _ _ _ => Nested.Extends.trans⟩

/-- Nothing is told, and the transaction context stays as it is. -/
def Silent (w w' : World σ) : Prop := w'.context = w.context ∧ w'.events = w.events

instance : Std.Refl (Silent : World σ → World σ → Prop) := ⟨fun _ => ⟨rfl, rfl⟩⟩

instance : IsTrans (World σ) Silent := ⟨fun _ _ _ h h' => ⟨h'.1.trans h.1, h'.2.trans h.2⟩⟩

/-- A silent step extends no trace. -/
private theorem Silent.nests {w w' : World σ} (h : Silent w w') : Nests d w w' := nests_of_eq h.2

/-- Relations of worlds that hold across whatever the opcodes of a frame do without a call. -/
structure Observes (W : World σ → World σ → Prop) : Prop where
  silent : ∀ {w w'}, Silent w w' → W w w'
  trans : ∀ {w w' w''}, W w w' → W w' w'' → W w w''
  advanceNonce : ∀ w, W w w.advanceNonce
  /-- A step is told, a self-destruct with its beneficiary on the stack. -/
  step : ∀ w (step : Step), HasBeneficiary (.step step) → W w (w.emit (.single (.step step)))

/-- Nesting is seen in the events only. -/
private theorem observes_nests : Observes (Nests d : World σ → World σ → Prop) where
  silent := Silent.nests
  trans := Nested.Extends.trans
  advanceNonce _ := nests_of_eq rfl
  step _ _ h := Nested.Extends.single _ h

/-! ### Calls and creations -/

section Message

variable {E : Thrown → Prop} {w : World σ}

/-- Taking the value from the sender notes no event. -/
theorem silent_reduceSender (account : Account) (message : Message) :
    Rel Silent (reduceSender account message : CallM σ Unit) := by
  refine Rel.bind (Rel.ite (Rel.throw _) (Rel.bind (fun _ => ⟨rfl, rfl⟩) fun _ => Rel.pure _))
    fun account => ?_
  exact Rel.ite (Rel.pure _) (Rel.ite (Rel.throw _) fun _ => ⟨rfl, rfl⟩)

/-- Giving it to the recipient notes no event. -/
theorem silent_addToRecipient (toAddress : ℕ) (toAccount : Account) (message : Message) :
    Rel Silent (addToRecipient toAddress toAccount message : CallM σ Unit) := by
  refine Rel.bind (Rel.ite (Rel.throw _) (Rel.bind (fun _ => ⟨rfl, rfl⟩) fun _ => Rel.pure _))
    fun account => ?_
  exact Rel.ite (Rel.pure _) (Rel.ite (Rel.throw _) fun _ => ⟨rfl, rfl⟩)

/-- Whatever is thrown is caught. -/
private theorem returns_errorOf {x : CallM σ α} (hx : Rel Silent x) :
    Returns E (Nests d) (errorOf x) := by
  intro w
  have hs := hx w
  rw [ReturnsAt, errorOf, Prog.run_tryCatch, Prog.run_bind]
  rcases hrun : x.run w with ⟨e | a, w'⟩
  · rw [hrun] at hs
    exact Or.inr ⟨_, w', rfl, hs.nests⟩
  · rw [hrun] at hs
    exact Or.inr ⟨none, w', rfl, hs.nests⟩

variable (hE : ∀ message, E (.host message))

include hE

/-- A program of the chain notes no event. -/
private theorem returns_onChain (x : Prog (Chain σ) String α) :
    Returns E (Nests d) (onChain x) := by
  intro w
  change (∃ e, ((onHost x).run w.chain.current).1 = .error e ∧ E e) ∨ ∃ a w',
    (((onHost x).run w.chain.current).1,
      w.update fun _ => ((onHost x).run w.chain.current).2) = (.ok a, w') ∧ Nests d w w'
  rcases hrun : (onHost x).run w.chain.current with ⟨e | a, chain⟩
  · obtain ⟨message, rfl⟩ := onHost_error (x := x) (w := w.chain.current) (e := e) (by rw [hrun])
    exact Or.inl ⟨_, rfl, hE message⟩
  · exact Or.inr ⟨a, _, rfl, nests_of_eq rfl⟩

variable (tvm : TVM σ) {interpret : Message → Bytes → CallM σ ExecResult} {message : Message}

omit hE in
/-- The cleanup of a message notes no event. -/
private theorem returns_cleanup : Returns E (Nests d) (tvm.cleanup message) :=
  Returns.ite (fun _ => Returns.modify fun _ => nests_of_eq rfl) fun _ => Returns.pure _

omit hE in
/-- The nonce of a nested creation is taken silently. -/
private theorem returns_advanceNested :
    Returns E (Nests d) (advanceNested message : CallM σ Unit) :=
  Returns.ite (fun _ => Returns.modify fun _ => nests_of_eq rfl) fun _ => Returns.pure _

omit hE in
/-- Storing a code notes no event. -/
private theorem returns_saveCode (toAddress : ℕ) (result : ExecResult) :
    Returns E (Nests d) (tvm.saveCode toAddress result) :=
  Returns.ite (fun _ => Returns.modify fun _ => nests_of_eq rfl) fun _ => Returns.pure _

/-- Every way out of `_executeCall` returns. -/
private theorem returns_executeCall
    (hinterpret : ∀ code, Returns E (Nests d) (interpret message code))
    (toAddress : ℕ) : Returns E (Nests d) (tvm.executeCall interpret message toAddress) := by
  refine Returns.bind (Returns.modify fun _ => nests_of_eq rfl) fun _ =>
    Returns.bind (Returns.gets _) fun account => Returns.bind ?_ fun reduceError =>
    Returns.bind (Returns.gets _) fun recipient => Returns.bind ?_ fun addError =>
    Returns.bind ?_ fun code => Returns.ite (fun _ => Returns.pure _) fun _ =>
    Returns.bind ?_ fun result =>
    Returns.bind (returns_cleanup tvm) fun _ => Returns.pure _
  · exact Returns.ite (fun _ => Returns.pure _) fun _ => returns_errorOf (silent_reduceSender _ _)
  · exact Returns.ite (fun _ => returns_errorOf (silent_addToRecipient _ _ _)) fun _ =>
      Returns.pure _
  · exact fun w => Or.inr ⟨_, w, rfl, refl_of (Nests d) w⟩
  · rcases code with run | code
    · exact returns_onChain hE _
    · exact hinterpret code

/-- Deriving an address notes no event. -/
private theorem returns_generateAddress (code : Bytes) :
    Returns E (Nests d) (tvm.generateAddress message code) := by
  rw [TVM.generateAddress]
  rcases message.salt with _ | salt
  · refine Returns.bind (Returns.gets _) fun context => ?_
    rcases context with _ | context
    · exact fun w => Or.inl ⟨_, rfl, hE _⟩
    · have htell : Returns E (Nests d) (emit (.single (.derived context.nonce)) : CallM σ Unit) :=
        Returns.modify fun w => Nested.Extends.single _ trivial
      refine Returns.ite (fun _ => Returns.pure _) fun _ => ?_
      rcases tvm.generateTronCreateAddress context.rootTransactionId context.nonce with
        e | toAddress
      · exact fun w => Or.inl ⟨_, rfl, hE _⟩
      · exact Returns.bind htell fun _ => Returns.pure _
  · exact Returns.pure _

/-- Every way out of `_executeCreate` returns, once the value has left the sender. -/
private theorem returnsAt_executeCreate
    (hinterpret : ∀ message' code, message'.depth = message.depth →
      Returns E (Nests d) (interpret message' code))
    (hreduce : ReturnsAt E (Nests d)
      (reduceSender ((w.getAccount message.caller).getD {}) message) w) :
    ReturnsAt E (Nests d) (tvm.executeCreate interpret message) w := by
  refine ReturnsAt.bind (Returns.gets _ w) ?_
  rintro account w₁ hrun
  cases hrun
  refine ReturnsAt.bind hreduce fun _ w₂ _ => ?_
  refine (show Returns E (Nests d) _ from ?_) w₂
  refine Returns.bind (returns_generateAddress hE tvm _) fun toAddress =>
    Returns.bind (Returns.modify fun _ => nests_of_eq rfl) fun _ =>
    Returns.bind (Returns.gets _) fun toAccount => Returns.bind returns_advanceNested fun _ => ?_
  refine Returns.ite (fun _ => Returns.pure _) fun _ =>
    Returns.bind (Returns.modify fun _ => nests_of_eq rfl) fun _ =>
    Returns.bind (Returns.modify fun _ => nests_of_eq rfl) fun _ =>
    Returns.bind (Returns.gets _) fun toAccount =>
    Returns.bind (returns_errorOf (silent_addToRecipient _ _ _)) fun errorMessage => ?_
  refine Returns.ite (fun _ => Returns.pure _) fun _ =>
    Returns.bind (hinterpret _ _ rfl) fun result => ?_
  exact Returns.bind (returns_saveCode tvm _ _) fun _ => Returns.bind (returns_cleanup tvm) fun _ =>
    Returns.pure _

/-- A message nests its trace where the interpreter and the transfer do. -/
theorem returnsAt_execute (hinterpret : ∀ message' code, message'.depth = message.depth →
      Returns E (Nests d) (interpret message' code))
    (hreduce : message.toAddress = none → ReturnsAt E (Nests d)
      (reduceSender ((w.getAccount message.caller).getD {}) message) w) :
    ReturnsAt E (Nests d) (tvm.execute interpret message) w := by
  have hsettle : ∀ result : ExecResult, Returns E (Nests d) (do
      if result.exceptionError ≠ none then revert else commit
      pure result : CallM σ ExecResult) := fun result =>
    Returns.ite
      (fun _ => Returns.bind (Returns.modify fun _ => nests_of_eq rfl) fun _ => Returns.pure _)
      fun _ => Returns.bind (Returns.modify fun _ => nests_of_eq rfl) fun _ => Returns.pure _
  rw [TVM.execute]
  rcases hto : message.toAddress with _ | toAddress
  · exact ReturnsAt.bind (returnsAt_executeCreate hE tvm hinterpret (hreduce hto))
      fun result w' _ => hsettle result w'
  · exact Returns.bind (returns_executeCall hE tvm (fun code => hinterpret _ code rfl) _) hsettle w

omit hE in
/-- The world once a message was told. -/
private theorem run_openMessage (skipBalance : Bool) (message : Message) (w : World σ) :
    ∃ w₁, (openMessage skipBalance message).run w = (.ok (), w₁) ∧
      w₁.events = w.events ++ [.opened message] ∧
      (message.depth ≠ 0 → ∀ address, w₁.getAccount address = w.getAccount address) := by
  rw [openMessage, Prog.run_bind, callerAccount]
  by_cases hdepth : message.depth = 0
  · rw [if_pos hdepth]
    exact ⟨_, rfl, rfl, fun hne => absurd hdepth hne⟩
  · rw [if_neg hdepth]
    exact ⟨_, rfl, rfl, fun _ _ => rfl⟩

omit hE in
/-- What is thrown again is what was thrown. -/
private theorem run_rethrow (execution : Bool) (e : Thrown) (w : World σ) :
    ((rethrow execution e : CallM σ α).run w).1 = .error e := by
  cases execution with
  | true => rfl
  | false => rfl

omit hE in
/-- **A message**: it is told, frames of the next depth are told, and its result is told. -/
theorem run_runCall (skipBalance : Bool)
    (hexecute : ∀ w₁, w₁.events = w.events ++ [.opened message] →
      (message.depth ≠ 0 → ∀ address, w₁.getAccount address = w.getAccount address) →
      ReturnsAt E (Nests (message.depth + 1)) (tvm.execute interpret message) w₁) :
    (∃ e, ((tvm._runCall interpret skipBalance message).run w).1 = .error e ∧ E e) ∨
      ∃ result w' l, (tvm._runCall interpret skipBalance message).run w = (.ok result, w') ∧
        Nested.Extends AtDepth HasBeneficiary (message.depth + 1)
          (w.events ++ [.opened message]) l ∧
        w'.events = l ++ [.closed result] := by
  obtain ⟨w₁, hopen, hevents, haccounts⟩ :=
    run_openMessage skipBalance message { w with chain := w.chain.checkpoint }
  rw [TVM._runCall, Prog.run_bind]
  change (∃ e, (Prog.run (_ >>= _) { w with chain := w.chain.checkpoint }).1 = _ ∧ _) ∨
    ∃ result w' l, Prog.run (_ >>= _) { w with chain := w.chain.checkpoint } = _ ∧ _
  rw [Prog.run_bind, Prog.run_tryCatch, hopen]
  dsimp only
  rw [Prog.run_bind, Prog.run_tryCatch]
  obtain ⟨e, he, hE⟩ | ⟨result, w₂, hrun, hnests⟩ := hexecute w₁ hevents haccounts
  · rcases hrun : (tvm.execute interpret message).run w₁ with ⟨e' | result, w₂⟩
    · rw [hrun] at he
      cases he
      have hthrown := run_rethrow (α := ExecResult) true e w₂
      rcases hrethrow : (rethrow true e : CallM σ ExecResult).run w₂ with ⟨e' | result, w₃⟩
      · rw [hrethrow] at hthrown
        cases hthrown
        exact Or.inl ⟨e, rfl, hE⟩
      · rw [hrethrow] at hthrown
        cases hthrown
    · rw [hrun] at he
      cases he
  · rw [hrun]
    refine Or.inr ⟨result, _, w₂.events, rfl, ?_, rfl⟩
    rw [Nests, hevents] at hnests
    exact hnests

end Message

/-! ### Frames -/

section OnWorld

variable {τ : Type} {W : τ → τ → Prop} {E : Thrown → Prop}

/-- Two machines whose worlds are `W`-related, whatever else they hold. -/
def OnWorld (W : τ → τ → Prop) (m m' : Machine (FrameState τ)) : Prop :=
  W m.rest.world m'.rest.world

variable (hrefl : ∀ w, W w w) (htrans : ∀ {w w' w''}, W w w' → W w' w'' → W w w'')

include hrefl htrans

/-- A relation on worlds is followed by calls. -/
private theorem calls_onWorld (k : ℕ) : Calls W k (OnWorld W) where
  world := hrefl
  refl _ := hrefl _
  trans := htrans
  machine _ _ _ := hrefl _
  state _ _ _ _ h := h
  touched _ _ _ := hrefl _
  accessed _ _ _ _ := hrefl _
  entered _ := hrefl _
  returned _ _ _ := hrefl _
  returnBytes _ _ := hrefl _

variable {env : Env τ} (henv : env.Keeps E W)

include henv

/-- A relation on worlds is followed by gas rules. -/
private theorem charges_onWorld : Charges env fun {_} x => RelUnless E (OnWorld W) x := by
  have h := calls_onWorld hrefl htrans 0
  refine ⟨h.pure, h.bind, fun _ _ => h.throw _, h.gets,
    fun _ => h.modifyWorld (henv.addAccessedAddress _), fun _ => h.onWorld (henv.accountExists _),
    fun _ _ => Or.inr (hrefl _), fun offset length m => Or.inr ?_⟩
  rw [run_subMemUsage]
  exact hrefl _

variable {others : OpcodeTable τ} (hothers : others.Keeps E W)

include hothers

/-- The gas of an opcode. -/
private theorem gas_onWorld (opcode : UInt8) (gas : ℤ) :
    RelUnless E (OnWorld W) ((env.table others).gas opcode gas) := by
  have hu := (calls_onWorld hrefl htrans 0).toUses
  rw [OpcodeTable.gas]
  rcases hcode : FrameOp.ofCode opcode with _ | op
  · rw [Env.gasHandler_other hcode]
    rcases hhandler : others.gasHandler opcode with _ | gasHandler
    · exact hu.pure _
    · exact hu.onStackAndWorld (hothers.gasHandler _ gasHandler hhandler _)
  · rw [Env.gasHandler_frameOp hcode]
    rcases hhandler : op.gasHandler env with _ | gasHandler
    · exact hu.pure _
    · exact (charges_onWorld hrefl htrans henv).gasHandler hhandler _

/-- An opcode. -/
private theorem handler_onWorld (opcode : UInt8) :
    RelUnless E (OnWorld W) ((env.table others).opHandler opcode) := by
  rcases hcode : FrameOp.ofCode opcode with _ | op
  · rw [Env.opHandler_other hcode]
    exact (calls_onWorld hrefl htrans 0).onStackAndWorld (hothers.opHandler _)
  · rw [Env.opHandler_frameOp hcode]
    exact fun m => ((calls_onWorld hrefl htrans _).opHandler henv op m le_rfl).relUnlessAt

end OnWorld

/-- An error which is no `TVMError`. -/
def IsHost (e : Thrown) : Prop := ∃ message, e = .host message

/-- The sender of a creation can pay for it. -/
def CanPay (w : World σ) (message : Message) : Prop :=
  message.tokenValue = 0 ∧ (message.value : ℤ) ≤ ((w.getAccount message.caller).getD {}).balance

/-- What nested messages of depth `d` do. -/
def NestedReturns (d : ℕ) (runCall : Message → CallM σ ExecResult) : Prop :=
  ∀ message w, message.depth = d → (message.toAddress = none → CanPay w message) →
    ReturnsAt IsHost (Nests d) (runCall message) w

section Frame

variable (tvm : TVM σ) {runCall : Message → CallM σ ExecResult} (message : Message) (code : Bytes)
variable {W : World σ → World σ → Prop} (hW : Observes W) {E : Thrown → Prop}

/-- What nested messages of a frame do to the world. -/
def NestedCalls (runCall : Message → CallM σ ExecResult) (d : ℕ) (E : Thrown → Prop)
    (W : World σ → World σ → Prop) : Prop :=
  ∀ message w, message.depth = d → (message.toAddress = none → CanPay w message) →
    RelUnlessAt E W (runCall message) w

/-- The worlds of two frames. -/
def InFrame (W : World σ → World σ → Prop) (w w' : FrameWorld σ) : Prop := W w.world w'.world

include hW

/-- What is seen of a silent step may be seen of none. -/
theorem Observes.refl (w : World σ) : W w w := hW.silent ⟨rfl, rfl⟩

/-- What changes only the chain. -/
private theorem Observes.onFrame {x : Prog (FrameWorld σ) Thrown α}
    (hx : ∀ w, Silent w.world (x.run w).2.world) : RelUnless E (InFrame W) x :=
  fun w => Or.inr (hW.silent (hx w))

/-- The account a contract pays from is the one it wrote before. -/
private theorem Observes.env_keeps (hcalls : NestedCalls runCall (message.depth + 1) E W) :
    (tvm.env runCall message code).Keeps E (InFrame W) where
  addAccessedAddress _ _ := hW.silent ⟨rfl, rfl⟩
  getCode _ := hW.onFrame fun _ => ⟨rfl, rfl⟩
  accountExists _ := hW.onFrame fun _ => ⟨rfl, rfl⟩
  pushLog _ _ _ := hW.refl _
  setReturnValue _ _ := hW.refl _
  advanceNonce _ := hW.advanceNonce _
  addLogs _ _ := hW.refl _
  adopt results := by
    refine hW.onFrame fun w => ?_
    rw [run_onHost, Prog.run]
    dsimp only [TVM.env]
    rcases w.world.getAccount (message.toAddress.getD 0) with _ | account
    · exact ⟨rfl, rfl⟩
    · exact ⟨rfl, rfl⟩
  call msg hto hdepth w := by
    refine hcalls msg w.world hdepth fun hnone => ?_
    rw [hnone] at hto
    cases hto
  create gasLimit value data salt w hpays := by
    have htrans : IsTrans (FrameWorld σ) (InFrame W) := ⟨fun _ _ _ => hW.trans⟩
    refine RelUnlessAt.bind (hW.onFrame (fun _ => ⟨rfl, rfl⟩) w) ?_
    rintro ⟨⟩ w₁ hrun
    cases hrun
    refine hcalls _ _ rfl fun _ => ⟨rfl, ?_⟩
    -- the account which the contract has just written
    change (value : ℤ) ≤ ((@Function.update ℕ (fun _ => Option Account) _
      w.world.chain.current.accounts (message.toAddress.getD 0)
      (some { w.contract with nonce := w.contract.nonce + 1 })
      (message.toAddress.getD 0)).getD {}).balance
    rw [Function.update_self]
    exact le_of_not_gt hpays

/-- The opcodes that see only the chain and their contract. -/
theorem Observes.onContract (x : MachineM (Chain σ × Account) α) :
    RelUnless E (fun m m' => InFrame W m.rest m'.rest) (onContract x) :=
  fun _ => Or.inr (hW.silent ⟨rfl, rfl⟩)

/-- The gas rule of `SELFDESTRUCT` is silent. -/
theorem Observes.selfdestructGas (gas : ℤ) :
    Rel (fun m m' => InFrame W m.rest m'.rest) (tvm.selfdestructGas message gas) := by
  have : Std.Refl fun m m' : Machine (FrameWorld σ) => InFrame W m.rest m'.rest :=
    ⟨fun _ => hW.refl _⟩
  have : IsTrans (Machine (FrameWorld σ)) fun m m' => InFrame W m.rest m'.rest :=
    ⟨fun _ _ _ => hW.trans⟩
  refine Rel.ite (Rel.throw _) (Rel.bind ?_ fun v => ?_)
  · exact Rel.bind (Rel.gets _) fun _ => Rel.ite (Rel.throw _) (Rel.pure _)
  · exact Rel.bind (fun _ => hW.silent ⟨rfl, rfl⟩) fun _ => Rel.bind (Rel.gets _) fun _ =>
      Rel.pure _

/-- The handler of `SELFDESTRUCT` stays in its frame. -/
theorem Observes.selfdestructOp :
    Rel (fun m m' => InFrame W m.rest m'.rest) (tvm.selfdestructOp message) := by
  have : Std.Refl fun m m' : Machine (FrameWorld σ) => InFrame W m.rest m'.rest :=
    ⟨fun _ => hW.refl _⟩
  have : IsTrans (Machine (FrameWorld σ)) fun m m' => InFrame W m.rest m'.rest :=
    ⟨fun _ _ _ => hW.trans⟩
  have hpop : Rel (fun m m' => InFrame W m.rest m'.rest) (pop : MachineM (FrameWorld σ) ℕ) := by
    refine Rel.bind (Rel.gets _) fun stack => ?_
    rcases stack with _ | ⟨value, stack⟩
    · exact Rel.throw _
    · exact Rel.bind (fun _ => hW.refl _) fun _ => Rel.pure _
  refine Rel.bind hpop fun value => Rel.bind (Rel.gets _) fun contract => ?_
  exact Rel.bind (fun _ => hW.advanceNonce _) fun _ =>
    Rel.bind (fun _ => hW.silent ⟨rfl, rfl⟩) fun _ => Rel.throw _

/-- So does every opcode of the table. -/
private theorem Observes.table_keeps : (tvm.table message).Keeps E (InFrame W) where
  gasHandler opcode gasHandler hhandler fee := by
    rw [TVM.table] at hhandler
    dsimp only at hhandler
    split at hhandler
    · obtain rfl := Option.some.inj hhandler
      exact (hW.selfdestructGas tvm message fee).relUnless
    · obtain ⟨gasHandler, -, rfl⟩ := Option.map_eq_some_iff.1 hhandler
      exact hW.onContract _
  opHandler opcode := by
    rw [TVM.table]
    dsimp only
    split
    · exact (hW.selfdestructOp tvm message).relUnless
    · exact hW.onContract _

omit hW

variable {tvm message code}

/-- The gas of a self-destruct is known once its beneficiary is. -/
private theorem stack_selfdestructGas {gas cost : ℤ} {m m' : Machine (FrameWorld σ)}
    (h : (tvm.selfdestructGas message gas).run m = (.ok cost, m')) : m'.stack ≠ [] := by
  obtain ⟨stack, gasLeft, world⟩ := m
  rw [TVM.selfdestructGas] at h
  split at h
  · cases h
  · rcases stack with _ | ⟨beneficiary, stack⟩
    · cases h
    · obtain ⟨-, rfl⟩ := Prod.mk.inj h
      exact List.cons_ne_nil beneficiary stack

/-- `SELFDESTRUCT` finds its operand once its gas is paid. -/
private theorem stack_gas_selfdestruct {gas cost : ℤ} {m m' : Machine (FrameState (FrameWorld σ))}
    (h : (((tvm.env runCall message code).table (tvm.table message)).gas SELFDESTRUCT gas).run m =
      (.ok cost, m')) : m'.stack ≠ [] := by
  have hout : ((tvm.selfdestructGas message gas).run ⟨m.stack, m.gasLeft, m.rest.world⟩).1 =
      .ok cost := congrArg Prod.fst h
  have hstack : m'.stack =
      ((tvm.selfdestructGas message gas).run ⟨m.stack, m.gasLeft, m.rest.world⟩).2.stack :=
    (congrArg (fun q => q.2.stack) h).symm
  rw [hstack]
  exact stack_selfdestructGas (Prod.ext hout rfl)

include hW

/-- The gas of a step, and the step that is told. -/
theorem Observes.gasOf (hcalls : NestedCalls runCall (message.depth + 1) E W) (opcode : UInt8) :
    RelUnless E (OnWorld (InFrame W)) (gasOf (tvm.frame runCall message code) opcode) := by
  have htrans : IsTrans (Machine (FrameState (FrameWorld σ))) (OnWorld (InFrame W)) :=
    ⟨fun _ _ _ => hW.trans⟩
  have hgas := @gas_onWorld _ (InFrame W) E (fun _ => hW.refl _) (fun h h' => hW.trans h h') _
    (hW.env_keeps tvm message code hcalls) _ (hW.table_keeps tvm message) opcode
  change RelUnless _ _ (do
    let gas ← ((tvm.env runCall message code).table (tvm.table message)).gas opcode _
    stepHook message opcode
    pure gas)
  intro m
  refine RelUnlessAt.bind (hgas _ m) fun gas m' hrun => ?_
  refine RelUnlessAt.bind (Or.inr (hW.step _ _ fun hopcode => ?_)) fun _ m'' _ =>
    Or.inr (hW.refl m''.rest.world.world)
  change opcode = SELFDESTRUCT at hopcode
  rw [hopcode] at hrun
  exact stack_gas_selfdestruct hrun

/-- **A frame**, from its first step to its last. -/
theorem Observes.run (hcalls : NestedCalls runCall (message.depth + 1) E W) (turns : ℕ)
    (w : World σ) :
    (∃ e, (run (tvm.frame runCall message code) (startState message w) 0 turns).outcome.1 =
      .error e ∧ E e) ∨
    W w (run (tvm.frame runCall message code) (startState message w) 0
      turns).outcome.2.rest.world.world := by
  have hhandler : ∀ opcode, RelUnless E (OnWorld (InFrame W))
      ((tvm.frame runCall message code).table.opHandler opcode) :=
    @handler_onWorld _ (InFrame W) E (fun _ => hW.refl _) (fun h h' => hW.trans h h') _
      (hW.env_keeps tvm message code hcalls) _ (hW.table_keeps tvm message)
  have hcharges := @calls_onWorld _ (InFrame W) (fun _ => hW.refl _) (fun h h' => hW.trans h h') 0
  exact hcharges.toUses.turn (hW.gasOf hcalls) hhandler turns (m := (startState message w).machine)
    (q := .running (resetJumpAnalysis { startState message w with programCounter := 0 }))
    (Or.inr (hW.refl w))

omit hW

/-- **An interpreter**: frames of the next depth are told. -/
theorem returns_runInterpreter (hcalls : NestedReturns (message.depth + 1) runCall) (turns : ℕ) :
    Returns IsHost (Nests (message.depth + 1)) (tvm.runInterpreter runCall turns message code) := by
  intro w
  have hrun := @Observes.run _ tvm _ message code _ (observes_nests (d := message.depth + 1)) _
    (fun msg w hdepth hpays => (hcalls msg w hdepth hpays).relUnless) turns w
  rw [ReturnsAt, Prog.run, TVM.runInterpreter]
  generalize run (tvm.frame runCall message code) (startState message w) 0 turns = q at hrun ⊢
  rcases q with s | ⟨_ | error, s⟩ | ⟨error, s⟩
  · exact Or.inl ⟨_, rfl, _, rfl⟩
  · obtain ⟨e, he, message', rfl⟩ | hnests := hrun
    · cases he
    · exact Or.inr ⟨_, _, rfl, hnests⟩
  · obtain ⟨e, he, message', rfl⟩ | hnests := hrun
    · cases he
    · exact Or.inr ⟨_, _, rfl, hnests⟩
  · exact Or.inl ⟨_, rfl, _, rfl⟩

end Frame

/-! ### Messages, to any depth -/

/-- A sender that has the value can pay it. -/
private theorem run_reduceSender {account : Account} {message : Message}
    (hbalance : (message.value : ℤ) ≤ account.balance) (htoken : message.tokenValue = 0)
    (w : World σ) : ∃ w', (reduceSender account message).run w = (.ok (), w') := by
  have hnot : ¬account.balance - (message.value : ℤ) < 0 := by omega
  rw [reduceSender, Prog.run_bind, reduceSenderBalance]
  dsimp only
  rw [if_neg hnot, Prog.run_bind]
  dsimp only [putAccount, Prog.run_modify, Prog.run_pure]
  rw [reduceSenderTokenBalance, if_pos htoken]
  exact ⟨_, rfl⟩

variable (tvm : TVM σ)

/-- **Nested messages** return, or an error that is no `TVMError` ends the execution. -/
theorem returns_runNested (fuel d : ℕ) : NestedReturns (d + 1) (tvm.runNested fuel) := by
  induction fuel generalizing d with
  | zero => exact fun message w _ _ => Or.inl ⟨_, rfl, _, rfl⟩
  | succ fuel ih =>
    intro message w hdepth hpays
    have hinterpret : ∀ message' code, message'.depth = message.depth →
        Returns IsHost (Nests (message.depth + 1))
          (tvm.runInterpreter (tvm.runNested fuel) fuel message' code) := by
      intro message' code hsame
      rw [← hsame]
      exact returns_runInterpreter (ih message'.depth) fuel
    have hexecute : ∀ w₁ : World σ, w₁.events = w.events ++ [.opened message] →
        (message.depth ≠ 0 → ∀ address, w₁.getAccount address = w.getAccount address) →
        ReturnsAt IsHost (Nests (message.depth + 1))
          (tvm.execute (tvm.runInterpreter (tvm.runNested fuel) fuel) message) w₁ := by
      intro w₁ _ haccounts
      refine returnsAt_execute (fun message => ⟨message, rfl⟩) tvm hinterpret fun hnone => ?_
      obtain ⟨htoken, hbalance⟩ := hpays hnone
      rw [haccounts (by omega)]
      obtain ⟨w₂, hrun⟩ := run_reduceSender hbalance htoken w₁
      have hsilent := silent_reduceSender ((w.getAccount message.caller).getD {}) message w₁
      rw [hrun] at hsilent
      exact Or.inr ⟨(), w₂, hrun, hsilent.nests⟩
    obtain herror | ⟨result, w', l, hrun, hextends, hevents⟩ := run_runCall tvm false hexecute
    · exact Or.inl herror
    · refine Or.inr ⟨result, w', hrun, ?_⟩
      rw [Nests, hevents]
      rw [hdepth] at hextends
      exact Nested.Extends.frame (show AtDepth (d + 1) message from hdepth) hextends result

/-- **The events of an execution** that returns: the message is told, then a forest of frames below
it, then its result. -/
theorem runCall_events {fuel : ℕ} {skipBalance : Bool} {message : Message} {w w' : World σ}
    {result : ExecResult} (hrun : (tvm.runCall fuel skipBalance message).run w = (.ok result, w')) :
    ∃ t : Nested Message ExecResult Happening, t.At AtDepth HasBeneficiary (message.depth + 1) ∧
      w'.events = w.events ++ .opened message :: (t.events ++ [.closed result]) := by
  have hinterpret : ∀ message' code, message'.depth = message.depth →
      Returns (fun _ => True) (Nests (message.depth + 1))
        (tvm.runInterpreter (tvm.runNested fuel) fuel message' code) := by
    intro message' code hsame w
    rw [← hsame]
    obtain ⟨e, he, -⟩ | hreturns :=
      returns_runInterpreter (returns_runNested tvm fuel message'.depth) fuel w
    · exact Or.inl ⟨e, he, trivial⟩
    · exact Or.inr hreturns
  have hexecute : ∀ w₁ : World σ, w₁.events = w.events ++ [.opened message] →
      (message.depth ≠ 0 → ∀ address, w₁.getAccount address = w.getAccount address) →
      ReturnsAt (fun _ => True) (Nests (message.depth + 1))
        (tvm.execute (tvm.runInterpreter (tvm.runNested fuel) fuel) message) w₁ := by
    intro w₁ _ _
    refine returnsAt_execute (fun _ => trivial) tvm hinterpret fun _ => ?_
    have hsilent := silent_reduceSender ((w₁.getAccount message.caller).getD {}) message w₁
    rcases hreduce : (reduceSender ((w₁.getAccount message.caller).getD {}) message).run w₁
      with ⟨e | ⟨⟩, w₂⟩
    · exact Or.inl ⟨e, by rw [hreduce], trivial⟩
    · rw [hreduce] at hsilent
      exact Or.inr ⟨(), w₂, hreduce, hsilent.nests⟩
  obtain ⟨e, he, -⟩ | ⟨result', w₁, l, hrun', ⟨t, ht, hl⟩, hevents⟩ :=
    run_runCall tvm skipBalance hexecute
  · rw [TVM.runCall] at hrun
    rw [hrun] at he
    cases he
  · rw [TVM.runCall, hrun'] at hrun
    cases hrun
    refine ⟨t, ht, ?_⟩
    rw [hevents, hl, List.append_assoc, List.append_assoc]
    rfl

end Interpreter

end Tvmjs
