import Tvmjs.Tvm.MemoryRuns

/-!
# The return buffer
`RETURNDATASIZE` and `RETURNDATACOPY` look at a buffer of the frame.  An opcode of the call family
leaves there what its child returned, or nothing -- unless it refuses to deploy EOF code, which
leaves the buffer as it was.

* `lastReturn` -- what the latest opcode of the call family should leave;
* `Quiet` -- what an opcode keeps that calls no other frame;
* `ensures_baseCall`, `ensures_create` -- the two ways into a child frame;
* `returnBuffer_run` -- **the return buffer** in every run whose creations are no EOF code.
-/

namespace Tvmjs

namespace Interpreter

open Prog (Rel RelUnless Ensures)

variable {τ α β : Type}

/-! ### What should be seen -/

/-- What a child frame leaves in the return buffer of its parent. -/
def ExecResult.left (isCreate : Bool) (result : ExecResult) : Bytes :=
  if result.exceptionError = some REVERT ∨ isCreate = false ∧ result.exceptionError = none then
    result.returnValue
  else []

/-- What the latest opcode of the call family left: nothing if it ran no child. -/
def lastReturn : List FrameEvent → Bytes
  | [] => []
  | .entered :: _ => []
  | .returned isCreate result :: _ => result.left isCreate
  | .touched _ :: events => lastReturn events
  | .accessed _ _ :: events => lastReturn events

/-- `RETURNDATASIZE` and `RETURNDATACOPY` see `bytes`. -/
structure SeesReturn (bytes : Bytes) (m : Machine (FrameState τ)) : Prop where
  size : returndatasize.run m = (push bytes.length).run m
  copy : returndatacopy.run m =
    (operands 3 (fun v => [(v 0, v 2)]) fun v =>
      copyToMemory (pure bytes) (v 0) (v 1) (v 2)).run m

/-- The opcodes see the bytes that are held. -/
private theorem seesReturn_returnBytes (m : Machine (FrameState τ)) :
    SeesReturn m.rest.returnBytes m where
  size := rfl
  copy := by
    rw [returndatacopy, run_operands, run_operands]
    split
    · rfl
    · rw [copyToMemory, copyToMemory]
      split
      · rfl
      · rfl

/-- The buffer holds what the latest opcode of the call family left. -/
def Lawful (m : Machine (FrameState τ)) : Prop := m.rest.returnBytes = lastReturn m.rest.events

/-- A lawful frame shows the opcodes the last return. -/
theorem Lawful.sees {m : Machine (FrameState τ)} (h : Lawful m) :
    SeesReturn (lastReturn m.rest.events) m := by
  have hsees := seesReturn_returnBytes m
  rwa [h] at hsees

/-! ### Opcodes that call no frame -/

/-- The return buffer and what it should hold are the same. -/
structure Quiet (m m' : Machine (FrameState τ)) : Prop where
  returnBytes : m'.rest.returnBytes = m.rest.returnBytes
  lastReturn : lastReturn m'.rest.events = lastReturn m.rest.events

/-- A quiet step keeps a frame lawful. -/
theorem Quiet.lawful {m m' : Machine (FrameState τ)} (h : Quiet m m') (hm : Lawful m) :
    Lawful m' := h.returnBytes.trans (hm.trans h.lastReturn.symm)

/-- Quiet steps are a relation that handlers follow. -/
private theorem uses_quiet (k : ℕ) :
    Uses AnyWorld k (Quiet : Machine (FrameState τ) → Machine (FrameState τ) → Prop) where
  world _ := trivial
  refl _ := ⟨rfl, rfl⟩
  trans h h' := ⟨h'.returnBytes.trans h.returnBytes, h'.lastReturn.trans h.lastReturn⟩
  machine _ _ _ := ⟨rfl, rfl⟩
  state _ _ _ _ _ := ⟨rfl, rfl⟩
  touched _ _ _ := ⟨rfl, rfl⟩
  accessed _ _ _ _ := ⟨rfl, rfl⟩

/-- The stack and the memory are the same too. -/
structure Still (m m' : Machine (FrameState τ)) : Prop extends Quiet m m' where
  stack : m'.stack = m.stack
  memory : m'.rest.memory = m.rest.memory

theorem Still.refl (m : Machine (FrameState τ)) : Still m m := ⟨⟨rfl, rfl⟩, rfl, rfl⟩

theorem Still.trans {m m' m'' : Machine (FrameState τ)} (h : Still m m') (h' : Still m' m'') :
    Still m m'' :=
  ⟨(uses_quiet 0).trans h.toQuiet h'.toQuiet, h'.stack.trans h.stack, h'.memory.trans h.memory⟩

private theorem still_subMemUsage {p : Params} (offset length : ℕ) :
    Rel Still (subMemUsage p offset length : FrameM τ ℤ) := by
  intro m
  rw [run_subMemUsage]
  exact ⟨⟨rfl, rfl⟩, rfl, rfl⟩

/-- Gas rules leave buffer and events alone. -/
private theorem charges_still (env : Env τ) : Charges env fun {_} x => Rel Still x where
  pure _ := Still.refl
  bind hx hf :=
    have : IsTrans _ (Still : Machine (FrameState τ) → Machine (FrameState τ) → Prop) :=
      ⟨fun _ _ _ => Still.trans⟩
    Rel.bind hx hf
  trap _ _ := Still.refl
  gets _ := Still.refl
  addAccessedAddress _ _ := ⟨⟨rfl, rfl⟩, rfl, rfl⟩
  accountExists _ _ := ⟨⟨rfl, rfl⟩, rfl, rfl⟩
  setMessageGasLimit _ _ := ⟨⟨rfl, rfl⟩, rfl, rfl⟩
  expand := still_subMemUsage

/-- So the gas of an opcode does. -/
private theorem still_gasOf (env : Env τ) (op : FrameOp) (fee : ℤ) :
    Rel Still (op.gasOf env fee) := by
  intro m
  rw [FrameOp.gasOf]
  rcases hop : op.gasHandler env with _ | gasHandler
  · exact Still.refl m
  · exact (charges_still env).gasHandler hop fee m

private theorem still_useGas (amount : ℤ) : Rel Still (useGas amount : FrameM τ Unit) := by
  intro m
  rw [run_useGas]
  split
  · exact ⟨⟨rfl, rfl⟩, rfl, rfl⟩
  · exact ⟨⟨rfl, rfl⟩, rfl, rfl⟩

private theorem still_takeMessageGasLimit : Rel Still (takeMessageGasLimit : FrameM τ ℤ) := by
  intro m
  rw [takeMessageGasLimit, Prog.run_bind]
  dsimp only [getsState, Prog.run_gets]
  rcases m.rest.messageGasLimit with _ | gasLimit
  · exact Still.refl m
  · exact ⟨⟨rfl, rfl⟩, rfl, rfl⟩

/-! ### Child frames -/

section Ensures

variable {Q : β → Machine (FrameState τ) → Prop} {m : Machine (FrameState τ)}

/-- A program that keeps a relation, and what follows it. -/
private theorem ensures_after {R : Machine (FrameState τ) → Machine (FrameState τ) → Prop}
    {x : FrameM τ α}
    {f : α → FrameM τ β} (hx : RelUnless NoError R x) (h : ∀ a m', R m m' → Ensures (f a) Q m') :
    Ensures (x >>= f) Q m := Ensures.bind (hx.rel.ensures.mono h)

/-- The operands are popped and the regions noted. -/
private theorem ensures_operands {n : ℕ} {regions : (ℕ → ℕ) → List (ℕ × ℕ)}
    {body : (ℕ → ℕ) → FrameM τ Unit}
    {Q : Unit → Machine (FrameState τ) → Prop}
    (h : Ensures (body m.operand) Q
      (logged { m with stack := m.stack.drop n } (.touched (regions m.operand)))) :
    Ensures (operands n regions body) Q m := by
  intro a m' hrun
  rw [run_operands] at hrun
  split at hrun
  · cases hrun
  · exact h a m' hrun

/-- A handler is entered once its gas is paid. -/
private theorem ensures_enter {handler : FrameM τ Unit} {Q : Unit → Machine (FrameState τ) → Prop}
    (h : Ensures handler Q (logged m .entered)) : Ensures (enter handler) Q m :=
  Ensures.bind (Ensures.modify h)

/-- A quiet method keeps a frame lawful. -/
private theorem ensures_lawful {x : FrameM τ α} (hx : RelUnless NoError Quiet x) (hm : Lawful m) :
    Ensures x (fun _ m' => Lawful m') m := hx.rel.ensures.mono fun _ _ hquiet => hquiet.lawful hm

end Ensures

variable (env : Env τ) {m : Machine (FrameState τ)}

/-- The buffer after a child was called. -/
theorem ensures_baseCall (msg : Message) (h : lastReturn m.rest.events = []) :
    Ensures (env.baseCall msg) (fun _ m' => Lawful m') m := by
  have hu : Uses AnyWorld 0 (Quiet : Machine (FrameState τ) → Machine (FrameState τ) → Prop) :=
    uses_quiet 0
  refine Ensures.ite (fun _ => Ensures.throw) fun _ => Ensures.ite (fun _ => Ensures.throw)
    fun _ => ?_
  refine Ensures.bind (Ensures.modify (Ensures.bind (Ensures.gets ?_)))
  refine Ensures.ite (fun _ => Ensures.pure h.symm) fun _ => ?_
  refine ensures_after (hu.onWorld (relUnless_anyWorld _)) fun _ m₁ h₁ =>
    ensures_after (hu.onWorld (relUnless_anyWorld _)) fun results m₂ h₂ => ?_
  have hempty : m₂.rest.returnBytes = [] := h₂.returnBytes.trans h₁.returnBytes
  refine Ensures.bind (Ensures.modify (ensures_after (hu.onWorld (relUnless_anyWorld _))
    fun _ m₃ h₃ =>
    ensures_after (hu.useGas _) fun _ m₄ h₄ => ?_))
  have hlast : lastReturn m₄.rest.events = results.left false := h₄.lastReturn.trans h₃.lastReturn
  have hbytes : m₄.rest.returnBytes = [] := h₄.returnBytes.trans (h₃.returnBytes.trans hempty)
  have hadopt : RelUnless NoError Quiet (do
      if results.exceptionError = none then onWorld (onHost (env.adopt results)) else pure ()
      pure (if results.exceptionError = none then 1 else 0) : FrameM τ ℕ) :=
    relUnless_ite (fun _ => hu.bind (hu.onWorld (relUnless_anyWorld _)) fun _ => hu.pure _)
      fun _ => hu.pure _
  refine Ensures.ite (fun hkeep => ?_) fun hdrop => ?_
  · refine Ensures.bind (Ensures.modify (ensures_lawful hadopt ?_))
    change results.returnValue = lastReturn m₄.rest.events
    rw [hlast, ExecResult.left, if_pos]
    obtain hnone | hrevert := hkeep
    · exact Or.inr ⟨rfl, hnone⟩
    · exact Or.inl hrevert
  · refine ensures_lawful hadopt ?_
    rw [Lawful, hbytes, hlast, ExecResult.left, if_neg]
    rintro (hrevert | ⟨-, hnone⟩)
    · exact hdrop (Or.inr hrevert)
    · exact hdrop (Or.inl hnone)

/-- The buffer after a child was created. -/
theorem ensures_create (gasLimit : ℤ) (value : ℕ) (codeToRun : Bytes) (salt : Option ℕ)
    (h : lastReturn m.rest.events = []) :
    Ensures (env.create gasLimit value codeToRun salt) (fun _ m' => Lawful m') m := by
  have hu : Uses AnyWorld 0 (Quiet : Machine (FrameState τ) → Machine (FrameState τ) → Prop) :=
    uses_quiet 0
  refine Ensures.bind (Ensures.modify (Ensures.bind (Ensures.gets ?_)))
  refine Ensures.ite (fun _ => Ensures.pure h.symm) fun _ =>
    Ensures.ite (fun _ => Ensures.pure h.symm) fun _ => ?_
  refine ensures_after (hu.onWorld (relUnless_anyWorld _)) fun _ m₁ h₁ =>
    ensures_after (hu.onWorld (relUnless_anyWorld _)) fun results m₂ h₂ => ?_
  have hempty : m₂.rest.returnBytes = [] := h₂.returnBytes.trans h₁.returnBytes
  refine Ensures.bind (Ensures.modify (ensures_after (hu.onWorld (relUnless_anyWorld _))
    fun _ m₃ h₃ =>
    ensures_after (hu.useGas _) fun _ m₄ h₄ => ?_))
  have hlast : lastReturn m₄.rest.events = results.left true := h₄.lastReturn.trans h₃.lastReturn
  have hbytes : m₄.rest.returnBytes = [] := h₄.returnBytes.trans (h₃.returnBytes.trans hempty)
  have hadopt : RelUnless NoError Quiet (do
      if results.exceptionError = none then do
        onWorld (onHost (env.adopt results))
        pure (createdWord results)
      else pure 0 : FrameM τ ℕ) :=
    relUnless_ite (fun _ => hu.bind (hu.onWorld (relUnless_anyWorld _)) fun _ => hu.pure _)
      fun _ => hu.pure _
  refine Ensures.ite (fun hrevert => ?_) fun hdrop => ?_
  · refine Ensures.bind (Ensures.modify (ensures_lawful hadopt ?_))
    change results.returnValue = lastReturn m₄.rest.events
    rw [hlast, ExecResult.left, if_pos (Or.inl hrevert)]
  · refine ensures_lawful hadopt ?_
    rw [Lawful, hbytes, hlast, ExecResult.left, if_neg]
    rintro (hrevert | ⟨hcall, -⟩)
    · exact hdrop hrevert
    · cases hcall

/-! ### The call family -/

/-- The bytes of a region as they are read: zeros where the memory was not written. -/
def Memory.region (memory : Memory) (offset length : ℕ) : Bytes :=
  if length ≠ 0 then (memory.extend offset length).subarray offset length else []

/-- Reading a region gives its bytes. -/
private theorem ensures_readRegion (offset length : ℕ) :
    Ensures (readRegion offset length : FrameM τ Bytes)
      (fun data m' => data = m.rest.memory.region offset length ∧ Quiet m m') m := by
  intro data m' hrun
  have hquiet : Quiet m _ :=
    (RelUnless.rel ((uses_quiet (memWords offset length)).readRegion le_rfl)) m
  rw [hrun] at hquiet
  refine ⟨?_, hquiet⟩
  rw [readRegion] at hrun
  rw [Memory.region]
  split at hrun
  · next hlength =>
    rw [if_pos hlength]
    cases hrun
    rfl
  · next hlength =>
    rw [if_neg hlength]
    cases hrun
    rfl

/-- Whether the next creation finds EOF code in its memory. -/
def FrameOp.deploysEOF : FrameOp → Machine (FrameState τ) → Bool
  | CREATE, m => isEOF (m.rest.memory.region (m.operand 1) (m.operand 2))
  | CREATE2, m => isEOF (m.rest.memory.region (m.operand 1) (m.operand 2))
  | _, _ => false

/-- After a program that keeps the buffer, nothing has been returned yet. -/
private theorem ensures_quiet {Q : β → Machine (FrameState τ) → Prop} {x : FrameM τ α}
    {f : α → FrameM τ β}
    (hm : lastReturn m.rest.events = []) (hx : RelUnless NoError Quiet x)
    (h : ∀ a m', lastReturn m'.rest.events = [] → Ensures (f a) Q m') : Ensures (x >>= f) Q m :=
  ensures_after hx fun a m' hquiet => h a m' (hquiet.lastReturn.trans hm)

/-- And it is quiet. -/
private theorem quiet_readRegion (offset length : ℕ) :
    RelUnless NoError Quiet (readRegion offset length : FrameM τ Bytes) :=
  (uses_quiet (memWords offset length)).readRegion le_rfl

private theorem quiet_takeMessageGasLimit :
    RelUnless NoError Quiet (takeMessageGasLimit : FrameM τ ℤ) :=
  (uses_quiet 0).takeMessageGasLimit

/-- A call, with what is done once it has returned. -/
private theorem ensures_callReturned (msg : Message) (outOffset outLength : ℕ)
    (h : lastReturn m.rest.events = []) :
    Ensures (do
      let ret ← env.baseCall msg
      writeCallOutput outOffset outLength
      push ret) (fun _ m' => Lawful m') m := by
  have hu : Uses AnyWorld (memWords outOffset outLength)
    (Quiet : Machine (FrameState τ) → Machine (FrameState τ) → Prop) := uses_quiet _
  exact Ensures.bind ((ensures_baseCall env msg h).mono fun ret m' hm' =>
    ensures_lawful (hu.bind (hu.writeCallOutput le_rfl) fun _ => hu.push ret) hm')

/-- A creation of what is no EOF code, or with the buffer empty. -/
private theorem ensures_deploy (gasLimit : ℤ) (value : ℕ) {data : Bytes} (salt : Option ℕ)
    (h : lastReturn m.rest.events = []) (hdata : isEOF data = true → m.rest.returnBytes = []) :
    Ensures (env.deploy gasLimit value data salt) (fun _ m' => Lawful m') m := by
  have hu : Uses AnyWorld 0 (Quiet : Machine (FrameState τ) → Machine (FrameState τ) → Prop) :=
    uses_quiet 0
  refine Ensures.ite (fun heof => ?_) fun _ => ?_
  · exact ensures_lawful (hu.push 0) ((hdata heof).trans h.symm)
  · exact Ensures.bind ((ensures_create env gasLimit value data salt h).mono fun ret m' hm' =>
      ensures_lawful (hu.push ret) hm')

/-- The creations: what they read is what the memory holds before. -/
private theorem ensures_deployed (value offset length : ℕ) (salt : Option ℕ)
    (h : lastReturn m.rest.events = [])
    (hdata : isEOF (m.rest.memory.region offset length) = true → m.rest.returnBytes = []) :
    Ensures (do
      let gasLimit ← takeMessageGasLimit
      let data ← readRegion offset length
      env.deploy gasLimit value data salt) (fun _ m' => Lawful m') m := by
  refine ensures_after still_takeMessageGasLimit.relUnless fun gasLimit m₁ h₁ =>
    Ensures.bind ((ensures_readRegion offset length).mono ?_)
  rintro data m₂ ⟨rfl, h₂⟩
  refine ensures_deploy env gasLimit value salt (h₂.lastReturn.trans (h₁.lastReturn.trans h)) ?_
  intro heof
  rw [h₁.memory] at heof
  rw [h₂.returnBytes, h₁.returnBytes, hdata heof]

/-- An opcode that calls nothing is quiet. -/
private theorem quiet_opHandler {op : FrameOp} (hcall : op.isCall = false) :
    RelUnless NoError Quiet (op.opHandler env) := fun m =>
  ((uses_quiet _).opHandler (env.keeps_anyWorld NoError) hcall m le_rfl).relUnlessAt

/-- **The buffer after an opcode** which finds no EOF code to deploy, or the buffer empty. -/
theorem ensures_opHandler (op : FrameOp) (hm : Lawful m)
    (heof : op.deploysEOF m = true → m.rest.returnBytes = []) :
    Ensures (op.opHandler env) (fun _ m' => Lawful m') m := by
  have hu : Uses AnyWorld 0 (Quiet : Machine (FrameState τ) → Machine (FrameState τ) → Prop) :=
    uses_quiet 0
  cases op with
  | CREATE => exact ensures_enter (ensures_operands (ensures_deployed env _ _ _ _ rfl heof))
  | CREATE2 =>
    exact ensures_enter (Ensures.ite (fun _ => Ensures.throw) fun _ =>
      ensures_operands (ensures_deployed env _ _ _ _ rfl heof))
  | CALL =>
    refine ensures_enter (ensures_operands
      (ensures_quiet rfl (quiet_readRegion _ _) fun _ _ h₁ => ?_))
    exact ensures_quiet h₁ quiet_takeMessageGasLimit fun _ _ h₂ =>
      ensures_quiet h₂ (hu.callStipend env _ _) fun _ _ h₃ => ensures_callReturned env _ _ _ h₃
  | CALLCODE =>
    refine ensures_enter (ensures_operands
      (ensures_quiet rfl quiet_takeMessageGasLimit fun _ _ h₁ => ?_))
    exact ensures_quiet h₁ (hu.callStipend env _ _) fun _ _ h₂ =>
      ensures_quiet h₂ (quiet_readRegion _ _) fun _ _ h₃ => ensures_callReturned env _ _ _ h₃
  | DELEGATECALL =>
    refine ensures_enter (ensures_operands
      (ensures_quiet rfl (quiet_readRegion _ _) fun _ _ h₁ => ?_))
    exact ensures_quiet h₁ quiet_takeMessageGasLimit fun _ _ h₂ => ensures_callReturned env _ _ _ h₂
  | STATICCALL =>
    refine ensures_enter (ensures_operands
      (ensures_quiet rfl quiet_takeMessageGasLimit fun _ _ h₁ => ?_))
    exact ensures_quiet h₁ (quiet_readRegion _ _) fun _ _ h₂ => ensures_callReturned env _ _ _ h₂
  | CALLTOKEN =>
    refine ensures_enter (ensures_operands ?_)
    refine Ensures.ite (fun _ => Ensures.throw) fun _ => Ensures.ite (fun _ => Ensures.throw)
      fun _ =>
      Ensures.ite (fun _ => Ensures.throw) fun _ => Ensures.ite (fun _ => Ensures.throw) fun _ => ?_
    refine ensures_quiet rfl (quiet_readRegion _ _) fun _ _ h₁ => ?_
    exact ensures_quiet h₁ quiet_takeMessageGasLimit fun _ _ h₂ =>
      ensures_quiet h₂ (hu.callStipend env _ _) fun _ _ h₃ => ensures_callReturned env _ _ _ h₃
  | _ => exact ensures_lawful (quiet_opHandler env rfl) hm

/-! ### Steps -/

/-- A step keeps a frame lawful, unless it deploys what is refused by its first byte. -/
private theorem ensures_step (op : FrameOp) (isInvalid : Bool) (fee : ℤ) (hm : Lawful m)
    (heof : op.deploysEOF m = true → m.rest.returnBytes = []) :
    Ensures (op.step env isInvalid fee) (fun _ m' => Lawful m') m := by
  refine ensures_after (still_gasOf env op fee).relUnless fun gas m₁ h₁ => ?_
  refine Ensures.ite (fun _ => Ensures.throw) fun _ => ensures_after (still_useGas gas).relUnless
    fun _ m₂ h₂ => ?_
  have hstill := h₁.trans h₂
  refine ensures_opHandler env op (hstill.lawful hm) fun hdeploys => ?_
  have hoperand : m₂.operand = m.operand := by
    funext i
    rw [Machine.operand, hstill.stack, Machine.operand]
  have hsame : op.deploysEOF m₂ = op.deploysEOF m := by
    cases op with
    | CREATE => rw [FrameOp.deploysEOF, FrameOp.deploysEOF, hoperand, hstill.memory]
    | CREATE2 => rw [FrameOp.deploysEOF, FrameOp.deploysEOF, hoperand, hstill.memory]
    | _ => rfl
  rw [hstill.returnBytes]
  exact heof (hsame.symm.trans hdeploys)

variable {env} {others : OpcodeTable τ} {f : Frame (FrameState τ)}

/-- **The buffer after a step.** -/
theorem ensures_runStep (htable : f.table = env.table others) (opcodeObj : Option Opcode)
    {s : RunState (FrameState τ)} (hs : Lawful s.machine)
    (heof : ∀ op, FrameOp.ofCode (opcodeObj.getD (f.table.lookupOpInfo s.opCode)).code = some op →
      op.deploysEOF s.machine = true → s.machine.rest.returnBytes = []) :
    Ensures (runStep f opcodeObj) (fun _ s' => Lawful s'.machine) s := by
  intro _ s' hrun
  have hs' : s' = ((runStep f opcodeObj).run s).2 := by rw [hrun]
  rcases hcode : FrameOp.ofCode (opcodeObj.getD (f.table.lookupOpInfo s.opCode)).code with _ | op
  · rw [hs']
    exact (((uses_quiet 0).step_other (others.keeps_anyWorld NoError) htable opcodeObj s
      hcode).related).lawful hs
  · obtain ⟨hout, hmachine⟩ := runStep_of_ofCode htable opcodeObj s rfl hcode
    rw [hrun] at hout
    rw [hs', hmachine]
    exact ensures_step env op _ _ hs (heof op hcode) () _ (Prod.ext hout.symm rfl)

/-! ### Runs -/

/-- The code of the opcode the next turn runs. -/
def nextOpcode (f : Frame (FrameState τ)) (s : RunState (FrameState τ)) : Option UInt8 :=
  (nextOpInfo f s).map Opcode.code

/-- Whether the next turn is a creation that finds EOF code in its memory. -/
def deploysEOF (f : Frame (FrameState τ)) (s : RunState (FrameState τ)) : Bool :=
  match (nextOpcode f s).bind FrameOp.ofCode with
  | some op => op.deploysEOF s.machine
  | none => false

/-- The next turn deploys no EOF code, or finds the buffer empty. -/
def Progress.spared (f : Frame (FrameState τ)) : Progress (RunState (FrameState τ)) → Bool
  | .running s => !deploysEOF f s || s.machine.rest.returnBytes.isEmpty
  | _ => true

/-- A frame that runs on has not thrown. -/
private theorem Progress.running_of_ofStep {σ : Type} {r : Except Thrown Unit × RunState σ}
    {s : RunState σ} (h : Progress.ofStep r = .running s) : r = (.ok (), s) := by
  obtain ⟨(error | message) | _, s'⟩ := r
  · cases h
  · cases h
  · cases h
    rfl

/-- **The buffer after a turn.** -/
theorem lawful_iterate (htable : f.table = env.table others) {s s' : RunState (FrameState τ)}
    (hs : Lawful s.machine) (hspared : (Progress.running s).spared f = true)
    (hrun : iterate f s = .running s') : Lawful s'.machine := by
  have heof : ∀ op, (nextOpcode f s).bind FrameOp.ofCode = some op →
      op.deploysEOF s.machine = true → s.machine.rest.returnBytes = [] := by
    intro op hop hdeploys
    rw [Progress.spared, deploysEOF, hop] at hspared
    dsimp only at hspared
    rw [hdeploys] at hspared
    exact List.isEmpty_iff.1 hspared
  rw [iterate] at hrun
  rw [nextOpcode, nextOpInfo] at heof
  rcases hbyte : f.code[s.programCounter]? with _ | byte
  · rw [hbyte] at hrun
    cases hrun
  · rw [hbyte] at hrun heof
    rcases hcached : s.cachedOpcodes with _ | opcodes
    · rw [hcached] at hrun heof
      have hok := Progress.running_of_ofStep hrun
      exact ensures_runStep htable none (s := { s with opCode := byte, cachedOpcodes := none }) hs
        heof () s' hok
    · rw [hcached] at hrun heof
      dsimp only at hrun heof
      rcases hopcode : opcodes[s.programCounter]? with _ | _ | opInfo
      · rw [hopcode] at hrun
        cases hrun
      · rw [hopcode] at hrun
        cases hrun
      · rw [hopcode] at hrun heof
        have hok := Progress.running_of_ofStep hrun
        exact ensures_runStep htable (some opInfo)
          (s := { s with opCode := opInfo.code, cachedOpcodes := some opcodes }) hs heof ()
          s' hok

/-- A frame that has ended stays so. -/
private theorem turn_ended {σ : Type} (body : σ → Progress σ) (n : ℕ) (e : Option String) (s : σ) :
    turn body n (.ended e s) = .ended e s := by cases n <;> rfl

/-- A frame that has thrown stays so. -/
private theorem turn_thrown {σ : Type} (body : σ → Progress σ) (n : ℕ) (message : String) (s : σ) :
    turn body n (.thrown message s) = .thrown message s := by cases n <;> rfl

/-- A frame whose steps are all spared stays lawful. -/
private theorem lawful_turn (htable : f.table = env.table others) (n : ℕ)
    {s s' : RunState (FrameState τ)} (hs : Lawful s.machine)
    (hspared : ∀ k < n, (turn (iterate f) k (.running s)).spared f = true)
    (hrun : turn (iterate f) n (.running s) = .running s') : Lawful s'.machine := by
  induction n generalizing s with
  | zero =>
    cases hrun
    exact hs
  | succ n ih =>
    change turn (iterate f) n (iterate f s) = .running s' at hrun
    rcases hturn : iterate f s with s₁ | ⟨e, s₁⟩ | ⟨message, s₁⟩
    · rw [hturn] at hrun
      refine ih (lawful_iterate htable hs (hspared 0 n.succ_pos) hturn) (fun k hk => ?_) hrun
      have hnext := hspared (k + 1) (Nat.succ_lt_succ hk)
      change (turn (iterate f) k (iterate f s)).spared f = true at hnext
      rwa [hturn] at hnext
    · rw [hturn, turn_ended] at hrun
      cases hrun
    · rw [hturn, turn_thrown] at hrun
      cases hrun

/-- **The return buffer** in every run: as long as no creation with the buffer in use finds EOF code
in its memory, the buffer holds what the latest opcode of the call family should have left.  A
creation that traps ends the frame, so none of the turns before a running state is one. -/
theorem returnBuffer_run (htable : f.table = env.table others) (s : RunState (FrameState τ))
    (hempty : s.machine.rest.returnBytes = []) (hevents : s.machine.rest.events = []) (pc n : ℕ)
    (hspared : ∀ k < n, (run f s pc k).spared f = true) (s' : RunState (FrameState τ))
    (hrun : run f s pc n = .running s') :
    SeesReturn (lastReturn s'.machine.rest.events) s'.machine := by
  have hs : Lawful s.machine := by
    rw [Lawful, hempty, hevents]
    rfl
  rw [run] at hrun
  split at hrun
  · cases hrun
  · next hpc =>
    have hlawful : Lawful (resetJumpAnalysis { s with programCounter := pc }).machine := hs
    refine (lawful_turn htable n hlawful (fun k hk => ?_) hrun).sees
    have hnext := hspared k hk
    rwa [run, if_neg hpc] at hnext

/-- A frame whose children return the byte 1. -/
def Env.answering (code : Bytes) : Env Unit :=
  { Env.bare code with runCall := fun _ => pure ⟨0, none, [1], none⟩ }

/-- `code` run in such a frame. -/
def Frame.answering (code : Bytes) : Frame (FrameState Unit) :=
  { Frame.bare code with table := (Env.answering code).table OpcodeTable.bare }

/-- `STATICCALL`, with zeros for operands. -/
def staticcallCode : Bytes :=
  [0x60, 0, 0x60, 0, 0x60, 0, 0x60, 0, 0x60, 0, 0x60, 0, 0xfa]

theorem returnBuffer_run_staticcall :
    ∃ s', run (Frame.answering staticcallCode) (RunState.bare 100) 0 7 = .running s' ∧
      SeesReturn (lastReturn s'.machine.rest.events) s'.machine := by
  have htable : (Frame.answering staticcallCode).table =
    (Env.answering staticcallCode).table OpcodeTable.bare := rfl
  have hspared : ∀ k < 7, (run (Frame.answering staticcallCode) (RunState.bare 100) 0 k).spared
    (Frame.answering staticcallCode) = true := by decide
  exact ⟨_, rfl, returnBuffer_run htable (RunState.bare 100) rfl rfl 0 7 hspared _ rfl⟩

/-- `EF00` written to the memory, a call, and a creation of these two bytes. -/
def deployEOFCode : Bytes :=
  [0x60, 0xef, 0x60, 0, 0x53] ++ staticcallCode ++ [0x60, 2, 0x60, 0, 0x60, 0, 0xf0]

/-- After the creation `RETURNDATASIZE` still sees what the call returned. -/
theorem returnBuffer_deployEOF :
    ∃ s', run (Frame.answering deployEOFCode) (RunState.bare 100) 0 14 = .running s' ∧
      lastReturn s'.machine.rest.events = [] ∧
      (returndatasize.run s'.machine).2.stack.head? = some 1 ∧
      ¬SeesReturn (lastReturn s'.machine.rest.events) s'.machine := by
  refine ⟨_, rfl, by decide, by decide, fun hsees => ?_⟩
  have hstack := congrArg (fun r => r.2.stack.head?) hsees.size
  revert hstack
  decide

end Interpreter

end Tvmjs
