import Tvmjs.Tvm.Frame

/-!
# What the handlers of a frame keep
A relation between machines that is closed under the few things handlers do is kept by every
handler, whatever its outcome.  The handlers are unfolded here once, for all such relations.

* `Uses k R` -- closed under what an opcode does that uses regions of at most `k` words;
* `Calls k R` -- and under what the opcodes of the call family do;
* `Charges env P` -- programs closed under what gas handlers do;
* `Uses.opHandler`, `Calls.opHandler`, `Charges.gasHandler` -- **what the handlers of an opcode
  do**;
* `Uses.step_other`, `runStep_of_ofCode` -- what a step does, by the opcode it runs.
-/

namespace Tvmjs

namespace Interpreter

open Prog (Rel RelUnless RelUnlessAt)

/-! ### Words -/

/-- The words a region reaches to; none where it has no bytes. -/
def memWords (offset length : ℕ) : ℕ := if length = 0 then 0 else divCeil (offset + length) 32

/-- The words a list of regions reaches to. -/
def regionWords : List (ℕ × ℕ) → ℕ
  | [] => 0
  | (offset, length) :: regions => max (memWords offset length) (regionWords regions)

/-- An empty region needs no memory. -/
@[simp] theorem memWords_zero (offset : ℕ) : memWords offset 0 = 0 := if_pos rfl

/-- Rounding up covers the dividend. -/
private theorem le_divCeil_mul (a : ℕ) {b : ℕ} (h : 0 < b) : a ≤ b * divCeil a b := by
  have hdiv := Nat.div_add_mod a b
  have hlt := Nat.mod_lt a h
  rw [divCeil]
  split
  · omega
  · rw [Nat.mul_add, Nat.mul_one]
    omega

/-- Rounding up is monotone. -/
private theorem divCeil_mono {a a' : ℕ} (h : a ≤ a') {b : ℕ} (hb : 0 < b) :
    divCeil a b ≤ divCeil a' b := by
  have hle := Nat.div_le_div_right (c := b) h
  have hdiv := Nat.div_add_mod a b
  have hdiv' := Nat.div_add_mod a' b
  have hlt := Nat.mod_lt a hb
  rw [divCeil, divCeil]
  split
  · split <;> omega
  · split
    · -- the larger number has no remainder, so its quotient is larger
      next hrest hrest' =>
        have hne : a / b ≠ a' / b := by
          intro heq
          rw [heq] at hdiv
          omega
        omega
    · omega

/-- A longer region reaches as far or further. -/
private theorem memWords_mono (offset : ℕ) {length length' : ℕ} (h : length ≤ length') :
    memWords offset length ≤ memWords offset length' := by
  rw [memWords, memWords]
  split
  · exact Nat.zero_le _
  · rw [if_neg (by omega)]
    exact divCeil_mono (by omega) (by decide)

/-- Every byte of a region lies within its words. -/
theorem lt_of_memWords_le {offset length w i : ℕ} (h : memWords offset length ≤ w)
    (hi : offset ≤ i) (hi' : i < offset + length) : i < 32 * w := by
  have hne : length ≠ 0 := by omega
  rw [memWords, if_neg hne] at h
  have hle := le_divCeil_mul (offset + length) (b := 32) (by decide)
  omega

/-! ### Closed relations -/

variable {τ : Type} {E : Thrown → Prop} {W : τ → τ → Prop}
  {R : Machine (FrameState τ) → Machine (FrameState τ) → Prop}

/-- The machine with one more event logged. -/
def logged (m : Machine (FrameState τ)) (e : FrameEvent) : Machine (FrameState τ) :=
  { m with rest := { m.rest with events := e :: m.rest.events } }

/-- Closed under what an opcode does that uses regions of at most `k` words and changes the world
by `W`. -/
structure Uses (W : τ → τ → Prop) (k : ℕ)
    (R : Machine (FrameState τ) → Machine (FrameState τ) → Prop) : Prop where
  world : ∀ w, W w w
  refl : ∀ m, R m m
  trans : ∀ {m m' m''}, R m m' → R m' m'' → R m m''
  machine : ∀ m stack gasLeft, R m ⟨stack, gasLeft, m.rest⟩
  state : ∀ m memory limit world, W m.rest.world world → R m { m with rest := { m.rest with
    memory := memory, messageGasLimit := limit, world := world } }
  touched : ∀ m regions, regionWords regions ≤ k → R m (logged m (.touched regions))
  accessed : ∀ m offset size, memWords offset size ≤ k → R m (logged m (.accessed offset size))

/-- Closed under what the opcodes of the call family do. -/
structure Calls (W : τ → τ → Prop) (k : ℕ)
    (R : Machine (FrameState τ) → Machine (FrameState τ) → Prop) : Prop extends Uses W k R where
  entered : ∀ m, R m (logged m .entered)
  returned : ∀ m isCreate result, R m (logged m (.returned isCreate result))
  returnBytes : ∀ m bytes, R m { m with rest := { m.rest with returnBytes := bytes } }

/-- What a frame asks the rest of the machine for changes the world by `W`, unless it throws an
error in `E`. -/
structure Env.Keeps (env : Env τ) (E : Thrown → Prop) (W : τ → τ → Prop) : Prop where
  addAccessedAddress : ∀ address w, W w (env.addAccessedAddress address w)
  getCode : ∀ address, RelUnless E W (onHost (env.getCode address))
  accountExists : ∀ address, RelUnless E W (onHost (env.accountExists address))
  pushLog : ∀ data topics w, W w (env.pushLog data topics w)
  setReturnValue : ∀ data w, W w (env.setReturnValue data w)
  advanceNonce : ∀ w, W w (env.advanceNonce w)
  addLogs : ∀ results w, W w (env.addLogs results w)
  adopt : ∀ results, RelUnless E W (onHost (env.adopt results))
  /-- A call. -/
  call : ∀ msg, msg.toAddress.isSome → msg.depth = env.depth + 1 → RelUnless E W (env.runCall msg)
  /-- A creation by a contract that can pay for it. -/
  create : ∀ (gasLimit : ℤ) (value : ℕ) (data : Bytes) (salt : Option ℕ) (w : τ),
    ¬env.contractBalance w < value →
    RelUnlessAt E W (do
      onHost env.advanceContractNonce
      env.runCall { caller := env.address, gasLimit, value, data, salt, depth := env.depth + 1 }) w

/-- Closed under what gas handlers do, which fail in three ways. -/
structure Charges (env : Env τ) (P : ∀ {α : Type}, FrameM τ α → Prop) : Prop where
  pure : ∀ {α : Type} (a : α), P (Pure.pure a)
  bind : ∀ {α β : Type} {x : FrameM τ α} {f : α → FrameM τ β}, P x → (∀ a, P (f a)) → P (x >>= f)
  trap : ∀ {α : Type}, ∀ error ∈ [STACK_UNDERFLOW, OUT_OF_GAS, STATIC_STATE_CHANGE],
    P (Interpreter.trap error : FrameM τ α)
  gets : ∀ {α : Type} (f : Machine (FrameState τ) → α), P (Prog.gets f)
  addAccessedAddress : ∀ address,
    P (onWorld (Prog.modify (env.addAccessedAddress address)) : FrameM τ PUnit)
  accountExists : ∀ address, P (onWorld (onHost (env.accountExists address)))
  setMessageGasLimit : ∀ limit : ℤ, 
    P (modifyState fun s => { s with messageGasLimit := some limit })
  expand : ∀ offset length, P (subMemUsage env.params offset length)

/-! ### Outcomes -/

theorem run_onHost {α : Type} (x : Prog τ String α) (w : τ) :
    (onHost x).run w = match x.run w with
      | (.ok a, w') => (.ok a, w')
      | (.error message, w') => (.error (.host message), w') := rfl

private theorem run_onWorld {α : Type} (x : Prog τ Thrown α) (m : Machine (FrameState τ)) :
    (onWorld x).run m = ((x.run m.rest.world).1,
      { m with rest := { m.rest with world := (x.run m.rest.world).2 } }) := rfl

/-- What the state manager throws ends more than the frame. -/
theorem onHost_error {α : Type} {x : Prog τ String α} {w : τ} {e : Thrown}
    (h : ((onHost x).run w).1 = .error e) : ∃ message, e = .host message := by
  rw [run_onHost] at h
  rcases hrun : x.run w with ⟨message | a, w'⟩
  · rw [hrun] at h
    cases h
    exact ⟨message, rfl⟩
  · rw [hrun] at h
    cases h

/-- Gas is taken, or none is left and the frame traps. -/
theorem run_useGas (amount : ℤ) (m : Machine (FrameState τ)) :
    (useGas amount).run m =
      if m.gasLeft - amount < 0 then (.error (.tvm OUT_OF_GAS), { m with gasLeft := 0 })
      else (.ok (), { m with gasLeft := m.gasLeft - amount }) := by
  rw [useGas, Prog.run_bind, Prog.run_modify]
  dsimp only
  rw [Prog.run_bind, Prog.run_gets]
  dsimp only
  split
  · rfl
  · rfl

/-! ### Operands -/

/-- The operands of an opcode, the topmost item at index 0. -/
def Machine.operand (m : Machine (FrameState τ)) (i : ℕ) : ℕ := m.stack.getD i 0

/-- A handler that pops its operands. -/
theorem run_operands (n : ℕ) (regions : (ℕ → ℕ) → List (ℕ × ℕ)) (body : (ℕ → ℕ) → FrameM τ Unit)
    (m : Machine (FrameState τ)) :
    (operands n regions body).run m =
      if m.stack.length < n then (.error (.tvm STACK_UNDERFLOW), m)
      else (body m.operand).run
        (logged { m with stack := m.stack.drop n } (.touched (regions m.operand))) := by
  by_cases hlt : m.stack.length < n
  · rw [if_pos hlt, operands, Prog.run_bind, popN, Prog.run_bind, Prog.run_gets]
    dsimp only
    rw [if_pos hlt]
    rfl
  · rw [if_neg hlt, operands, Prog.run_bind, popN, Prog.run_bind, Prog.run_gets]
    dsimp only
    rw [if_neg hlt]
    rfl

/-- What becomes of a machine by a handler that uses `regions`: a kept machine, from where the
regions were noted, unless the handler failed before that. -/
def Performed (E : Thrown → Prop) (R : Machine (FrameState τ) → Machine (FrameState τ) → Prop)
    (regions : List (ℕ × ℕ)) (m : Machine (FrameState τ))
    (r : Except Thrown Unit × Machine (FrameState τ)) : Prop :=
  (∃ e, r.1 = .error e ∧ E e) ∨
    R m r.2 ∧ (r.1 = .error (.tvm STACK_UNDERFLOW) ∨ r.1 = .error (.tvm STATIC_STATE_CHANGE) ∨
      regions = [] ∨ ∃ m', .touched regions ∈ m'.rest.events ∧ R m' r.2)

/-- A handler without regions performs where its moves do. -/
private theorem Performed.of_movesAt {m : Machine (FrameState τ)} {handler : FrameM τ Unit}
    (h : RelUnlessAt E R handler m) {regions : List (ℕ × ℕ)} (hregions : regions = []) :
    Performed E R regions m (handler.run m) :=
  h.imp_right fun hm => ⟨hm, Or.inr (Or.inr (Or.inl hregions))⟩

/-- What a handler performs is a move of the machine. -/
theorem Performed.relUnlessAt {regions : List (ℕ × ℕ)} {m : Machine (FrameState τ)}
    {handler : FrameM τ Unit} (h : Performed E R regions m (handler.run m)) :
    RelUnlessAt E R handler m := h.imp_right And.left

/-! ### Small programs -/

/-- A branch is followed under its condition. -/
theorem relUnless_ite {α : Type} {c : Prop} [Decidable c] {x y : FrameM τ α}
    (hx : c → RelUnless E R x)
    (hy : ¬ c → RelUnless E R y) : RelUnless E R (if c then x else y) := by
  split
  · next hc => exact hx hc
  · next hc => exact hy hc

section Uses

variable {k : ℕ} (h : Uses W k R) {α β : Type}

include h

/-- What is used one after the other. -/
theorem Uses.bind {x : FrameM τ α} {f : α → FrameM τ β} (hx : RelUnless E R x)
    (hf : ∀ a, RelUnless E R (f a)) :
    RelUnless E R (x >>= f) :=
  have : IsTrans _ R := ⟨fun _ _ _ => h.trans⟩
  RelUnless.bind hx hf

theorem Uses.pure (a : α) : RelUnless E R (Pure.pure a : FrameM τ α) :=
  fun m => Or.inr (h.refl m)

theorem Uses.throw (e : Thrown) : RelUnless E R (Prog.throw e : FrameM τ α) :=
  fun m => Or.inr (h.refl m)

theorem Uses.gets (f : Machine (FrameState τ) → α) : RelUnless E R (Prog.gets f : FrameM τ α) :=
  fun m => Or.inr (h.refl m)

theorem Uses.push (value : ℕ) : RelUnless E R (push value : FrameM τ Unit) :=
  h.bind (h.gets _) fun _ => relUnless_ite (fun _ => h.throw _) fun _ m => Or.inr (h.machine m _ _)

theorem Uses.popN (n : ℕ) : RelUnless E R (popN n : FrameM τ (ℕ → ℕ)) :=
  h.bind (h.gets _) fun _ => relUnless_ite (fun _ => h.throw _) fun _ =>
    h.bind (fun m => Or.inr (h.machine m _ _)) fun _ => h.pure _

theorem Uses.useGas (amount : ℤ) : RelUnless E R (useGas amount : FrameM τ Unit) :=
  h.bind (fun m => Or.inr (h.machine m _ _)) fun _ => h.bind (h.gets _) fun _ => relUnless_ite
    (fun _ => h.bind (fun m => Or.inr (h.machine m _ _)) fun _ => h.throw _) fun _ => h.pure _

/-- A program of the world moves the machine by moving its world. -/
private theorem Uses.onWorldAt {x : Prog τ Thrown α} {m : Machine (FrameState τ)}
    (hx : RelUnlessAt E W x m.rest.world) : RelUnlessAt E R (onWorld x) m :=
  hx.imp_right fun hw => h.state m m.rest.memory m.rest.messageGasLimit _ hw

theorem Uses.onWorld {x : Prog τ Thrown α} (hx : RelUnless E W x) :
    RelUnless E R (onWorld x : FrameM τ α) :=
  fun m => h.onWorldAt (hx m.rest.world)

theorem Uses.modifyWorld {f : τ → τ} (hf : ∀ w, W w (f w)) :
    RelUnless E R (Interpreter.onWorld (Prog.modify f) : FrameM τ PUnit) :=
  h.onWorld (Prog.Rel.relUnless hf)

/-- Extending the memory is a use of it. -/
theorem Uses.extend (offset size : ℕ) : RelUnless E R (modifyState (τ := τ) fun s =>
    { s with memory := s.memory.extend offset size }) :=
  fun m => Or.inr (h.state m _ m.rest.messageGasLimit m.rest.world (h.world _))

/-- Reading memory extends it up to the region. -/
theorem Uses.readMemory {offset size : ℕ} (hk : memWords offset size ≤ k) :
    RelUnless E R (readMemory offset size : FrameM τ Bytes) :=
  h.bind (fun m => Or.inr (h.accessed m offset size hk)) fun _ => h.bind (h.extend _ _)
    fun _ => h.gets _

/-- Writing memory extends it up to the region. -/
theorem Uses.writeMemory {offset size : ℕ} (hk : memWords offset size ≤ k) (value : Bytes) :
    RelUnless E R (writeMemory offset size value : FrameM τ Unit) :=
  relUnless_ite (fun _ => h.pure _) fun _ => h.bind (fun m => Or.inr (h.accessed m offset size hk))
    fun _ =>
    h.bind (h.extend _ _) fun _ => h.bind (h.gets _) fun _ => relUnless_ite (fun _ => h.throw _)
      fun _ =>
      relUnless_ite (fun _ => h.throw _) fun _ m =>
        Or.inr (h.state m _ m.rest.messageGasLimit m.rest.world (h.world _))

/-- Reading a region of no length extends nothing. -/
theorem Uses.readRegion {offset length : ℕ} (hk : memWords offset length ≤ k) :
    RelUnless E R (readRegion offset length : FrameM τ Bytes) :=
  relUnless_ite (fun _ => h.readMemory hk) fun _ => h.pure _

/-- Copying extends the memory up to where the copy ends. -/
theorem Uses.copyToMemory {source : FrameM τ Bytes} (hsource : RelUnless E R source) {memOffset : ℕ}
    (dataOffset : ℕ) {dataLength : ℕ} (hk : memWords memOffset dataLength ≤ k) :
    RelUnless E R (copyToMemory source memOffset dataOffset dataLength) :=
  relUnless_ite (fun _ => h.bind hsource fun _ => h.writeMemory hk _) fun _ => h.pure _

/-- The gas limit of the message is handed over. -/
theorem Uses.takeMessageGasLimit : RelUnless E R (takeMessageGasLimit : FrameM τ ℤ) := by
  refine h.bind (h.gets _) fun limit => ?_
  rcases limit with _ | gasLimit
  · exact h.throw _
  · exact h.bind (fun m => Or.inr (h.state m m.rest.memory none m.rest.world (h.world _)))
      fun _ => h.pure _

/-- The stipend is added to what is left. -/
theorem Uses.callStipend (env : Env τ) (value : ℕ) (gasLimit : ℤ) :
    RelUnless E R (callStipend env value gasLimit) :=
  relUnless_ite (fun _ => h.bind (fun m => Or.inr (h.machine m _ _)) fun _ => h.pure _)
    fun _ => h.pure _

/-- What is written of the output of a call lies in the output region. -/
theorem Uses.writeCallOutput {outOffset outLength : ℕ} (hk : memWords outOffset outLength ≤ k) :
    RelUnless E R (writeCallOutput outOffset outLength : FrameM τ Unit) := by
  refine h.bind (h.gets _) fun returnData => relUnless_ite (fun _ => ?_) fun _ => h.pure _
  refine h.bind (h.extend _ _) fun _ => h.writeMemory ((memWords_mono outOffset ?_).trans hk) _
  split <;> omega

/-- Loading a code is a program of the world. -/
theorem Uses.legacyCode {env : Env τ} (henv : env.Keeps E W) (address : ℕ) :
    RelUnless E R (env.legacyCode address) :=
  h.bind (h.onWorld (henv.getCode _)) fun _ => h.pure _

/-- A handler that begins with its operands. -/
theorem Uses.operands {n : ℕ} {regions : (ℕ → ℕ) → List (ℕ × ℕ)} {body : (ℕ → ℕ) → FrameM τ Unit}
    (hbody : ∀ v, regionWords (regions v) ≤ k → RelUnless E R (body v)) (m : Machine (FrameState τ))
    (hk : regionWords (regions m.operand) ≤ k) :
    Performed E R (regions m.operand) m ((operands n regions body).run m) := by
  rw [run_operands]
  split
  · exact Or.inr ⟨h.refl m, Or.inl rfl⟩
  · refine (hbody _ hk _).imp_right fun hmoves => ?_
    exact ⟨h.trans (h.trans (h.machine m _ m.gasLeft) (h.touched _ _ hk)) hmoves,
      Or.inr (Or.inr (Or.inr ⟨_, List.mem_cons_self, hmoves⟩))⟩

end Uses

/-! ### The call family -/

section Calls

variable {k : ℕ} (h : Calls W k R) {env : Env τ} (henv : env.Keeps E W) {α β : Type}

include h

/-- The bytes returned are replaced. -/
private theorem Calls.setReturnBytes (bytes : Bytes) :
    RelUnless E R (modifyState (τ := τ) fun s => { s with returnBytes := bytes }) :=
  fun m => Or.inr (h.returnBytes m bytes)

include henv

/-- What is done with the results of a child frame. -/
theorem Calls.adopt (results : ExecResult) (a b : α) :
    RelUnless E R (if results.exceptionError = none then do
        onWorld (onHost (env.adopt results))
        pure a
      else pure b) :=
  relUnless_ite (fun _ => h.bind (h.onWorld (henv.adopt _)) fun _ => h.pure _) fun _ => h.pure _

/-- A call of a contract, with its message one level deeper. -/
theorem Calls.baseCall {msg : Message} (hto : msg.toAddress.isSome)
    (hdepth : msg.depth = env.depth + 1) :
    RelUnless E R (env.baseCall msg) := by
  have hu := h.toUses
  refine relUnless_ite (fun _ => hu.throw _) fun _ => relUnless_ite (fun _ => hu.throw _)
    fun _ => ?_
  refine hu.bind (h.setReturnBytes _) fun _ => hu.bind (hu.gets _) fun _ =>
    relUnless_ite (fun _ => hu.pure _) fun _ => ?_
  refine hu.bind (hu.modifyWorld henv.advanceNonce) fun _ =>
    hu.bind (hu.onWorld (henv.call msg hto hdepth)) fun results =>
    hu.bind (fun m => Or.inr (h.returned m false results)) fun _ =>
    hu.bind (hu.modifyWorld (henv.addLogs _)) fun _ => hu.bind (hu.useGas _) fun _ => ?_
  have hadopt := h.adopt henv results (if results.exceptionError = none then 1 else 0)
    (if results.exceptionError = none then 1 else 0)
  exact relUnless_ite (fun _ => hu.bind (h.setReturnBytes _) fun _ => hadopt) fun _ => hadopt

/-- What a create that was made pushes. -/
def createdWord (results : ExecResult) : ℕ :=
  match results.createdAddress with
  | some address => TRON_ADDRESS_PREFIX_WORD ||| address
  | none => 1

omit h henv in
private theorem onWorld_bind (x : Prog τ Thrown α) (f : α → Prog τ Thrown β) :
    (onWorld (x >>= f) : FrameM τ β) = onWorld x >>= fun a => onWorld (f a) := by
  refine Prog.ext fun m => ?_
  rw [Prog.run_bind, run_onWorld, run_onWorld, Prog.run_bind]
  rcases x.run m.rest.world with ⟨e | a, w⟩
  · rfl
  · rfl

/-- A creation, whose failures push zero. -/
theorem Calls.create (gasLimit : ℤ) (value : ℕ) (codeToRun : Bytes) (salt : Option ℕ) :
    RelUnless E R (env.create gasLimit value codeToRun salt) := by
  have hu := h.toUses
  have : IsTrans _ R := ⟨fun _ _ _ => h.trans⟩
  refine hu.bind (h.setReturnBytes _) fun _ m => ?_
  rw [RelUnlessAt, Prog.run_bind, getsState, Prog.run_gets]
  dsimp only
  split
  · exact hu.pure _ m
  · next hcan =>
    split
    · exact hu.pure _ m
    · have hpays : ¬env.contractBalance m.rest.world < value := fun hlt => hcan (Or.inr hlt)
      rw [← bind_assoc, ← onWorld_bind]
      refine RelUnlessAt.bind (hu.onWorldAt (henv.create gasLimit value codeToRun salt _ hpays)) ?_
      intro results m' _
      have hnote : RelUnless E R (note (.returned true results)) :=
        fun m => Or.inr (h.returned m true results)
      refine hu.bind hnote (fun _ => hu.bind (hu.modifyWorld (henv.addLogs _)) fun _ =>
        hu.bind (hu.useGas _) fun _ => ?_) m'
      have hadopt := h.adopt henv results (createdWord results) 0
      exact relUnless_ite (fun _ => hu.bind (h.setReturnBytes _) fun _ => hadopt) fun _ => hadopt

/-- A creation with what is deployed read from memory. -/
theorem Calls.deploy (gasLimit : ℤ) (value : ℕ) (data : Bytes) (salt : Option ℕ) :
    RelUnless E R (env.deploy gasLimit value data salt) :=
  relUnless_ite (fun _ => h.push _) fun _ => h.bind (h.create henv _ _ _ _) fun _ => h.push _

omit henv in
/-- What is done once a call has returned. -/
private theorem Calls.callReturned {outOffset outLength : ℕ} (hk : memWords outOffset outLength ≤ k)
    {x : FrameM τ ℕ} (hx : RelUnless E R x) :
    RelUnless E R (do
      let ret ← x
      writeCallOutput outOffset outLength
      push ret) :=
  h.bind hx fun _ => h.bind (h.writeCallOutput hk) fun _ => h.push _

end Calls

/-! ### The opcodes -/

namespace FrameOp

/-- The regions an opcode uses. -/
def regions : FrameOp → (ℕ → ℕ) → List (ℕ × ℕ)
  | KECCAK256, v => [(v 0, v 1)]
  | CALLDATACOPY, v => [(v 0, v 2)]
  | CODECOPY, v => [(v 0, v 2)]
  | EXTCODECOPY, v => [(v 1, v 3)]
  | RETURNDATASIZE, _ => []
  | RETURNDATACOPY, v => [(v 0, v 2)]
  | MLOAD, v => [(v 0, 32)]
  | MSTORE, v => [(v 0, 32)]
  | MSTORE8, v => [(v 0, 1)]
  | MSIZE, _ => []
  | MCOPY, v => [(v 1, v 2), (v 0, v 2)]
  | LOG _, v => [(v 0, v 1)]
  | CALLTOKEN, v => [(v 4, v 5), (v 6, v 7)]
  | CREATE, v => [(v 1, v 2)]
  | CALL, v => [(v 3, v 4), (v 5, v 6)]
  | CALLCODE, v => [(v 3, v 4), (v 5, v 6)]
  | RETURN, v => [(v 0, v 1)]
  | DELEGATECALL, v => [(v 2, v 3), (v 4, v 5)]
  | CREATE2, v => [(v 1, v 2)]
  | STATICCALL, v => [(v 2, v 3), (v 4, v 5)]
  | REVERT, v => [(v 0, v 1)]

/-- Whether an opcode calls or creates another frame. -/
def isCall : FrameOp → Bool
  | CALLTOKEN | CREATE | CALL | CALLCODE | DELEGATECALL | CREATE2 | STATICCALL => true
  | _ => false

end FrameOp

/-- The memory of one region is bounded by that of all. -/
theorem memWords_le_of_one {offset length k : ℕ} (h : regionWords [(offset, length)] ≤ k) :
    memWords offset length ≤ k := (le_max_left _ _).trans h

/-- So is that of each of two regions. -/
theorem memWords_le_of_two {offset length offset' length' k : ℕ}
    (h : regionWords [(offset, length), (offset', length')] ≤ k) :
    memWords offset length ≤ k ∧ memWords offset' length' ≤ k :=
  ⟨(le_max_left _ _).trans h, (le_max_left _ _).trans ((le_max_right _ _).trans h)⟩

/-- **What an opcode does** with regions of `k` words. -/
theorem Uses.opHandler {k : ℕ} (h : Uses W k R) {env : Env τ} (henv : env.Keeps E W) {op : FrameOp}
    (hcall : op.isCall = false) (m : Machine (FrameState τ))
    (hk : regionWords (op.regions m.operand) ≤ k) :
    Performed E R (op.regions m.operand) m ((op.opHandler env).run m) := by
  cases op with
  | KECCAK256 =>
    exact h.operands (fun v hv => h.bind (h.readRegion (memWords_le_of_one hv)) fun _ => h.push _)
      m hk
  | CALLDATACOPY =>
    exact h.operands (fun v hv => h.copyToMemory (h.pure _) _ (memWords_le_of_one hv)) m hk
  | CODECOPY =>
    exact h.operands (fun v hv => h.copyToMemory (h.pure _) _ (memWords_le_of_one hv)) m hk
  | EXTCODECOPY =>
    exact h.operands (fun v hv => h.copyToMemory (h.legacyCode henv _) _
      (memWords_le_of_one hv)) m hk
  | RETURNDATASIZE =>
    exact .of_movesAt (h.bind (h.gets _) (fun _ => h.push _) m) rfl
  | RETURNDATACOPY =>
    exact h.operands (fun v hv => h.copyToMemory (h.gets _) _ (memWords_le_of_one hv)) m hk
  | MLOAD =>
    refine h.operands (fun v hv => ?_) m hk
    exact h.bind (h.readMemory (memWords_le_of_one hv)) fun _ => h.push _
  | MSTORE =>
    refine h.operands (fun v hv => ?_) m hk
    exact h.writeMemory (memWords_le_of_one hv) _
  | MSTORE8 =>
    refine h.operands (fun v hv => ?_) m hk
    exact h.writeMemory (memWords_le_of_one hv) _
  | MSIZE => exact .of_movesAt (h.bind (h.gets _) (fun _ => h.push _) m) rfl
  | MCOPY =>
    exact h.operands (fun v hv => h.bind (h.readMemory (memWords_le_of_two hv).1) fun _ =>
      h.writeMemory (memWords_le_of_two hv).2 _) m hk
  | LOG topicsCount =>
    refine h.operands (fun v hv => ?_) m hk
    exact h.bind (h.popN _) fun _ =>
      h.bind (h.readRegion (memWords_le_of_one hv)) fun _ => h.modifyWorld (henv.pushLog _ _)
  | RETURN =>
    exact h.operands (fun v hv => h.bind (h.readRegion (memWords_le_of_one hv)) fun _ =>
      h.bind (h.modifyWorld (henv.setReturnValue _)) fun _ => h.throw _) m hk
  | REVERT =>
    exact h.operands (fun v hv => h.bind (h.readRegion (memWords_le_of_one hv)) fun _ =>
      h.bind (h.modifyWorld (henv.setReturnValue _)) fun _ => h.throw _) m hk
  | CALLTOKEN => cases hcall
  | CREATE => cases hcall
  | CALL => cases hcall
  | CALLCODE => cases hcall
  | DELEGATECALL => cases hcall
  | CREATE2 => cases hcall
  | STATICCALL => cases hcall

/-- **What an opcode of the call family does** with regions of `k` words. -/
theorem Calls.opHandler {k : ℕ} (h : Calls W k R) {env : Env τ} (henv : env.Keeps E W)
    (op : FrameOp)
    (m : Machine (FrameState τ)) (hk : regionWords (op.regions m.operand) ≤ k) :
    Performed E R (op.regions m.operand) m ((op.opHandler env).run m) := by
  have hu := h.toUses
  have henter : ∀ {handler : FrameM τ Unit},
      Performed E R (op.regions m.operand) (logged m .entered)
        (handler.run (logged m .entered)) →
      Performed E R (op.regions m.operand) m ((enter handler).run m) :=
    fun hhandler => hhandler.imp_right fun hdone => ⟨h.trans (h.entered m) hdone.1, hdone.2⟩
  cases op with
  | CREATE =>
    refine henter (hu.operands (fun v hv => ?_) _ hk)
    exact hu.bind hu.takeMessageGasLimit fun _ =>
      hu.bind (hu.readRegion (memWords_le_of_one hv)) fun _ => h.deploy henv _ _ _ _
  | CREATE2 =>
    refine henter ?_
    by_cases hstatic : env.isStatic = true
    · rw [if_pos hstatic]
      exact Or.inr ⟨h.refl _, Or.inr (Or.inl rfl)⟩
    · rw [if_neg hstatic]
      refine hu.operands (fun v hv => ?_) _ hk
      exact hu.bind hu.takeMessageGasLimit fun _ =>
        hu.bind (hu.readRegion (memWords_le_of_one hv)) fun _ => h.deploy henv _ _ _ _
  | CALL =>
    refine henter (hu.operands (fun v hv => ?_) _ hk)
    exact hu.bind (hu.readRegion (memWords_le_of_two hv).1) fun _ =>
      hu.bind hu.takeMessageGasLimit fun _ => hu.bind (hu.callStipend env _ _) fun _ =>
      h.callReturned (memWords_le_of_two hv).2 (h.baseCall henv rfl rfl)
  | CALLCODE =>
    refine henter (hu.operands (fun v hv => ?_) _ hk)
    exact hu.bind hu.takeMessageGasLimit fun _ => hu.bind (hu.callStipend env _ _) fun _ =>
      hu.bind (hu.readRegion (memWords_le_of_two hv).1) fun _ =>
      h.callReturned (memWords_le_of_two hv).2 (h.baseCall henv rfl rfl)
  | DELEGATECALL =>
    refine henter (hu.operands (fun v hv => ?_) _ hk)
    exact hu.bind (hu.readRegion (memWords_le_of_two hv).1) fun _ =>
      hu.bind hu.takeMessageGasLimit fun _ =>
      h.callReturned (memWords_le_of_two hv).2 (h.baseCall henv rfl rfl)
  | STATICCALL =>
    refine henter (hu.operands (fun v hv => ?_) _ hk)
    exact hu.bind hu.takeMessageGasLimit fun _ =>
      hu.bind (hu.readRegion (memWords_le_of_two hv).1) fun _ =>
      h.callReturned (memWords_le_of_two hv).2 (h.baseCall henv rfl rfl)
  | CALLTOKEN =>
    refine henter (hu.operands (fun v hv => ?_) _ hk)
    refine relUnless_ite (fun _ => hu.throw _) fun _ => relUnless_ite (fun _ => hu.throw _) fun _ =>
      relUnless_ite (fun _ => hu.throw _) fun _ => relUnless_ite (fun _ => hu.throw _) fun _ => ?_
    exact hu.bind (hu.readRegion (memWords_le_of_two hv).1) fun _ =>
      hu.bind hu.takeMessageGasLimit fun _ => hu.bind (hu.callStipend env _ _) fun _ =>
      h.callReturned (memWords_le_of_two hv).2 (h.baseCall henv rfl rfl)
  | _ => exact hu.opHandler henv rfl m hk

/-! ### Gas handlers -/

section Charges

variable {env : Env τ} {P : ∀ {α : Type}, FrameM τ α → Prop} (h : Charges env P) {α β : Type}

include h

omit h in
/-- Either branch of a gas rule. -/
theorem Charges.ite {c : Prop} [Decidable c] {x y : FrameM τ α} (hx : P x) (hy : P y) :
    P (if c then x else y) := by
  split
  · exact hx
  · exact hy

/-- A gas rule may run out of gas. -/
private theorem Charges.outOfGas : P (Interpreter.trap OUT_OF_GAS : FrameM τ α) :=
  h.trap _ (by decide)

/-- A gas rule may refuse a write in a static call. -/
theorem Charges.static : P (Interpreter.trap STATIC_STATE_CHANGE : FrameM τ α) :=
  h.trap _ (by decide)

theorem Charges.peek (n : ℕ) : P (peek n : FrameM τ (ℕ → ℕ)) :=
  h.bind (h.gets _) fun _ => Charges.ite (h.trap _ (by decide)) (h.pure _)

/-- A gas rule may set the gas limit of the message. -/
theorem Charges.setCallGasLimit (gas : ℤ) (requestedGas : ℕ) :
    P (setCallGasLimit gas requestedGas : FrameM τ ℤ) :=
  h.bind (h.gets _) fun _ => Charges.ite h.outOfGas
    (h.bind (h.setMessageGasLimit _) fun _ => h.pure _)

/-- The gas of a transfer and of the account it makes. -/
theorem Charges.transferGas (toAddress value : ℕ) : P (transferGas env toAddress value) :=
  Charges.ite (h.pure _) (h.bind (h.accountExists _) fun _ => Charges.ite (h.pure _) (h.pure _))

/-- The gas rule of `CALL`. -/
theorem Charges.callGas (gas : ℤ) : P (callGas env gas) :=
  h.bind (h.peek _) fun _ => Charges.ite h.static <|
    h.bind (h.addAccessedAddress _) fun _ => h.bind (h.expand _ _) fun _ => h.bind (h.expand _ _)
      fun _ =>
    h.bind (h.transferGas _ _) fun _ => h.setCallGasLimit _ _

/-- The gas rule of `CALLTOKEN`. -/
theorem Charges.calltokenGas (gas : ℤ) : P (calltokenGas env gas) :=
  h.bind (h.peek _) fun _ => Charges.ite h.static <|
    h.bind (h.addAccessedAddress _) fun _ => h.bind (h.expand _ _) fun _ => h.bind (h.expand _ _)
      fun _ =>
    h.bind (h.transferGas _ _) fun _ => h.setCallGasLimit _ _

/-- **What a gas handler does.** -/
theorem Charges.gasHandler {op : FrameOp} {gasHandler : ℤ → FrameM τ ℤ}
    (hop : op.gasHandler env = some gasHandler) (gas : ℤ) : P (gasHandler gas) := by
  -- A case for each opcode with a gas rule, composed of the closure rules in the order of its text.
  cases op with
  | KECCAK256 =>
    obtain rfl := Option.some.inj hop
    exact h.bind (h.peek _) fun _ => h.bind (h.expand _ _) fun _ => h.pure _
  | CALLDATACOPY =>
    obtain rfl := Option.some.inj hop
    exact h.bind (h.peek _) fun _ => h.bind (h.expand _ _) fun _ => h.pure _
  | CODECOPY =>
    obtain rfl := Option.some.inj hop
    exact h.bind (h.peek _) fun _ => h.bind (h.expand _ _) fun _ => h.pure _
  | EXTCODECOPY =>
    obtain rfl := Option.some.inj hop
    exact h.bind (h.peek _) fun _ => h.bind (h.addAccessedAddress _) fun _ =>
      h.bind (h.expand _ _) fun _ => h.pure _
  | RETURNDATASIZE => cases hop
  | RETURNDATACOPY =>
    obtain rfl := Option.some.inj hop
    exact h.bind (h.peek _) fun _ => h.bind (h.gets _) fun _ => Charges.ite h.outOfGas <|
      h.bind (h.expand _ _) fun _ => h.pure _
  | MLOAD =>
    obtain rfl := Option.some.inj hop
    exact h.bind (h.peek _) fun _ => h.bind (h.expand _ _) fun _ => h.pure _
  | MSTORE =>
    obtain rfl := Option.some.inj hop
    exact h.bind (h.peek _) fun _ => h.bind (h.expand _ _) fun _ => h.pure _
  | MSTORE8 =>
    obtain rfl := Option.some.inj hop
    exact h.bind (h.peek _) fun _ => h.bind (h.expand _ _) fun _ => h.pure _
  | MSIZE => cases hop
  | MCOPY =>
    obtain rfl := Option.some.inj hop
    exact h.bind (h.peek _) fun _ => h.bind (h.expand _ _) fun _ => h.bind (h.expand _ _) fun _ =>
      h.pure _
  | LOG topicsCount =>
    obtain rfl := Option.some.inj hop
    exact Charges.ite h.static <| h.bind (h.peek _) fun _ =>
      h.bind (h.expand _ _) fun _ => h.pure _
  | CALLTOKEN =>
    obtain rfl := Option.some.inj hop
    exact h.calltokenGas gas
  | CREATE =>
    obtain rfl := Option.some.inj hop
    exact Charges.ite h.static <| h.bind (h.peek _) fun _ =>
      h.bind (h.expand _ _) fun _ => h.bind (h.gets _) fun _ =>
      h.bind (h.setMessageGasLimit _) fun _ => h.pure _
  | CALL =>
    obtain rfl := Option.some.inj hop
    exact h.callGas gas
  | CALLCODE =>
    obtain rfl := Option.some.inj hop
    exact h.bind (h.peek _) fun _ => h.bind (h.addAccessedAddress _) fun _ =>
      h.bind (h.expand _ _) fun _ => h.bind (h.expand _ _) fun _ => h.setCallGasLimit _ _
  | RETURN =>
    obtain rfl := Option.some.inj hop
    exact h.bind (h.peek _) fun _ => h.bind (h.expand _ _) fun _ => h.pure _
  | DELEGATECALL =>
    obtain rfl := Option.some.inj hop
    exact h.bind (h.peek _) fun _ => h.bind (h.addAccessedAddress _) fun _ =>
      h.bind (h.expand _ _) fun _ => h.bind (h.expand _ _) fun _ => h.setCallGasLimit _ _
  | CREATE2 =>
    obtain rfl := Option.some.inj hop
    exact Charges.ite h.static <| h.bind (h.peek _) fun _ =>
      h.bind (h.expand _ _) fun _ => h.bind (h.gets _) fun _ =>
      h.bind (h.setMessageGasLimit _) fun _ => h.pure _
  | STATICCALL =>
    obtain rfl := Option.some.inj hop
    exact h.bind (h.peek _) fun _ => h.bind (h.addAccessedAddress _) fun _ =>
      h.bind (h.expand _ _) fun _ => h.bind (h.expand _ _) fun _ => h.setCallGasLimit _ _
  | REVERT =>
    obtain rfl := Option.some.inj hop
    exact h.bind (h.peek _) fun _ => h.bind (h.expand _ _) fun _ => h.pure _

end Charges

/-! ### The other opcodes -/

/-- No opcode of the memory or of the return buffer touches the program counter. -/
private theorem opHandler_of_ofCode (f : Frame (FrameState τ)) {code : UInt8} {op : FrameOp}
    (h : FrameOp.ofCode code = some op) :
    opHandler f code = onMachine (f.table.opHandler code) := by
  have hcodes : ∀ e ∈ FrameOp.codes, e.1 ≠ JUMP ∧ e.1 ≠ JUMPI ∧ e.1 ≠ PC ∧ e.1 ≠ JUMPDEST ∧
      isPush e.1 = false := by decide
  obtain ⟨l, l', hlist, -⟩ := List.lookup_eq_some_iff.1 h
  have hmem : (code, op) ∈ FrameOp.codes := by
    rw [hlist]
    exact List.mem_append_right _ List.mem_cons_self
  obtain ⟨h1, h2, h3, h4, h5⟩ := hcodes (code, op) hmem
  rw [opHandler, if_neg h1, if_neg h2, if_neg h3, if_neg h4, h5]
  rfl

section Table

variable {env : Env τ} {others : OpcodeTable τ} {code : UInt8} {op : FrameOp}

/-- The table has the gas rules of the opcodes that are modelled. -/
theorem Env.gasHandler_frameOp (h : FrameOp.ofCode code = some op) :
    (env.table others).gasHandler code = op.gasHandler env := by
  rw [table]
  dsimp only
  rw [h]

/-- The table has the handlers of the opcodes that are modelled. -/
theorem Env.opHandler_frameOp (h : FrameOp.ofCode code = some op) :
    (env.table others).opHandler code = op.opHandler env := by
  rw [table]
  dsimp only
  rw [h]

/-- Any other gas rule sees the stack and the world. -/
theorem Env.gasHandler_other (h : FrameOp.ofCode code = none) :
    (env.table others).gasHandler code =
      (others.gasHandler code).map fun gasHandler gas => onStackAndWorld (gasHandler gas) := by
  rw [table]
  dsimp only
  rw [h]

/-- Any other handler sees the stack and the world. -/
theorem Env.opHandler_other (h : FrameOp.ofCode code = none) :
    (env.table others).opHandler code = onStackAndWorld (others.opHandler code) := by
  rw [table]
  dsimp only
  rw [h]

end Table

/-- The opcodes change the world by `W`, unless they throw an error in `E`. -/
structure OpcodeTable.Keeps (others : OpcodeTable τ) (E : Thrown → Prop) (W : τ → τ → Prop) :
    Prop where
  gasHandler : ∀ code gasHandler, others.gasHandler code = some gasHandler →
    ∀ fee, RelUnless E (fun m m' => W m.rest m'.rest) (gasHandler fee)
  opHandler : ∀ code, RelUnless E (fun m m' => W m.rest m'.rest) (others.opHandler code)

/-- A relation of machines, between the run states that hold them. -/
abbrev Machines (R : Machine (FrameState τ) → Machine (FrameState τ) → Prop)
    (s s' : RunState (FrameState τ)) : Prop := R s.machine s'.machine

private theorem relUnless_onMachine {α : Type} {x : FrameM τ α} (hx : RelUnless E R x) :
    RelUnless E (Machines R) (onMachine x) := fun s => hx s.machine

section Others

variable {k : ℕ} (h : Uses W k R) {α : Type}

include h

/-- A program on stack and world uses the machine as it moves the world. -/
theorem Uses.onStackAndWorld {x : MachineM τ α}
    (hx : RelUnless E (fun m m' => W m.rest m'.rest) x) :
    RelUnless E R (onStackAndWorld x) := by
  intro m
  refine (hx ⟨m.stack, m.gasLeft, m.rest.world⟩).imp_right fun hw => ?_
  exact h.trans (h.state m m.rest.memory m.rest.messageGasLimit _ hw) (h.machine _ _ _)

/-- The relation of the machines of two run states. -/
private theorem Uses.trans_run : IsTrans (RunState (FrameState τ)) (Machines R) :=
  ⟨fun _ _ _ => h.trans⟩

/-- What leaves the machine alone. -/
theorem Uses.still {x : RunM (FrameState τ) α}
    (hx : Prog.Rel (fun s s' => s'.machine = s.machine) x) :
    RelUnless E (Machines R) x := by
  intro s
  refine Or.inr ?_
  rw [Machines, hx s]
  exact h.refl _

/-- A jump moves the program counter. -/
theorem Uses.jumpTo (f : Frame (FrameState τ)) (dest : ℕ) :
    RelUnless E (Machines R) (Interpreter.jumpTo f dest) := by
  refine h.still fun s => ?_
  rw [Interpreter.jumpTo, Prog.run_bind, Prog.run_gets]
  dsimp only
  split
  · rfl
  · split
    · rfl
    · rfl

theorem Uses.pop : RelUnless E R (Interpreter.pop : FrameM τ ℕ) := by
  refine h.bind (h.gets _) fun stack => ?_
  rcases stack with _ | ⟨value, stack⟩
  · exact h.throw _
  · exact h.bind (fun m => Or.inr (h.machine m _ _)) fun _ => h.pure _

theorem Uses.pop2 : RelUnless E R (Interpreter.pop2 : FrameM τ (ℕ × ℕ)) := by
  refine h.bind (h.gets _) fun stack => ?_
  rcases stack with _ | ⟨first, _ | ⟨second, stack⟩⟩
  · exact h.throw _
  · exact h.throw _
  · exact h.bind (fun m => Or.inr (h.machine m _ _)) fun _ => h.pure _

/-- A push moves the program counter and the stack. -/
theorem Uses.pushImmediate (f : Frame (FrameState τ)) :
    RelUnless E (Machines R) (Interpreter.pushImmediate f) := by
  intro s
  have htrans := h.trans_run
  have hadvance : ∀ n : ℕ, RelUnless E (Machines R) (Prog.modify fun s : RunState (FrameState τ) =>
      { s with programCounter := s.programCounter + n }) := fun n => h.still fun _ => rfl
  rw [Interpreter.pushImmediate, RelUnlessAt, Prog.run_bind, Prog.run_gets]
  dsimp only
  split
  · split
    · exact h.still (fun _ => rfl) s
    · exact RelUnless.bind (relUnless_onMachine (h.push _)) (fun _ => hadvance _) s
  · exact RelUnless.bind (hadvance _) (fun _ => relUnless_onMachine (h.push _)) s

/-- **A handler.** -/
theorem Uses.handler {f : Frame (FrameState τ)} {code : UInt8}
    (hop : RelUnless E R (f.table.opHandler code)) :
    RelUnless E (Machines R) (Interpreter.opHandler f code) := by
  have htrans := h.trans_run
  rw [Interpreter.opHandler]
  split
  · exact RelUnless.bind (relUnless_onMachine h.pop) fun dest => h.jumpTo f dest
  · split
    · refine RelUnless.bind (relUnless_onMachine h.pop2) fun v => ?_
      dsimp only
      split
      · exact h.jumpTo f v.1
      · exact h.still fun _ => rfl
    · split
      · exact fun s => relUnless_onMachine (h.push _) s
      · split
        · exact h.still fun _ => rfl
        · split
          · exact h.pushImmediate f
          · exact relUnless_onMachine hop

/-- **A step.** -/
theorem Uses.step {f : Frame (FrameState τ)} (opcodeObj : Option Opcode)
    (s : RunState (FrameState τ))
    (hgas : RelUnless E R (gasOf f (opcodeObj.getD (f.table.lookupOpInfo s.opCode)).code))
    (hop : RelUnless E R (f.table.opHandler
      (opcodeObj.getD (f.table.lookupOpInfo s.opCode)).code)) :
    RelUnlessAt E (Machines R) (runStep f opcodeObj) s := by
  have htrans := h.trans_run
  rw [runStep, RelUnlessAt, Prog.run_bind, Prog.run_gets]
  dsimp only [id]
  refine RelUnless.bind (relUnless_onMachine hgas) (fun gas s' => ?_) s
  split
  · exact h.still (fun _ => rfl) s'
  · have hlast : RelUnless E (Machines R) (do
        Prog.modify fun s => { s with programCounter := s.programCounter + 1 }
        Interpreter.opHandler f (opcodeObj.getD (f.table.lookupOpInfo s.opCode)).code) :=
      RelUnless.bind (h.still fun _ => rfl) fun _ => h.handler hop
    refine RelUnless.bind (relUnless_onMachine (h.useGas gas)) (fun _ s' => ?_) s'
    split
    · exact RelUnless.bind (h.still fun _ => rfl) (fun _ => hlast) s'
    · exact hlast s'

/-- **A step whose opcode looks neither at the memory nor at the return buffer.** -/
theorem Uses.step_other {env : Env τ} {others : OpcodeTable τ} (hothers : others.Keeps E W)
    {f : Frame (FrameState τ)} (htable : f.table = env.table others) (opcodeObj : Option Opcode)
    (s : RunState (FrameState τ))
    (hcode : FrameOp.ofCode (opcodeObj.getD (f.table.lookupOpInfo s.opCode)).code = none) :
    RelUnlessAt E (Machines R) (runStep f opcodeObj) s := by
  refine h.step opcodeObj s ?_ ?_
  · rw [Interpreter.gasOf]
    rw [htable] at hcode ⊢
    rw [Env.gasHandler_other hcode]
    rcases hhandler : others.gasHandler _ with _ | gasHandler
    · exact h.pure _
    · exact h.onStackAndWorld (hothers.gasHandler _ gasHandler hhandler _)
  · rw [htable] at hcode ⊢
    rw [Env.opHandler_other hcode]
    exact h.onStackAndWorld (hothers.opHandler _)

end Others

/-! ### Runs -/

/-- The outcome a run stands at, and its machine. -/
def Progress.outcome {σ : Type} : Progress (RunState σ) → Except Thrown Unit × Machine σ
  | .running s => (.ok (), s.machine)
  | .ended none s => (.error (.tvm STOP), s.machine)
  | .ended (some error) s => (.error (.tvm error), s.machine)
  | .thrown message s => (.error (.host message), s.machine)

/-- The outcome of a step is that of its program. -/
theorem Progress.outcome_ofStep {σ : Type} (r : Except Thrown Unit × RunState σ) :
    (Progress.ofStep r).outcome = (r.1, r.2.machine) := by
  obtain ⟨(error | message) | _, s⟩ := r
  · rw [ofStep]
    split
    · next hstop => rw [hstop, outcome]
    · rfl
  · rfl
  · rfl

/-- **A turn of the loop.** -/
theorem Uses.iterate {k : ℕ} (h : Uses W k R) {f : Frame (FrameState τ)}
    (hgas : ∀ code, RelUnless E R (gasOf f code))
    (hop : ∀ code, RelUnless E R (f.table.opHandler code))
    (s : RunState (FrameState τ)) :
    (∃ e, (Interpreter.iterate f s).outcome.1 = .error e ∧ E e) ∨
      R s.machine (Interpreter.iterate f s).outcome.2 := by
  rw [Interpreter.iterate]
  split
  · exact Or.inr (h.refl _)
  · split
    · rw [Progress.outcome_ofStep]
      exact h.step none _ (hgas _) (hop _)
    · split
      · rw [Progress.outcome_ofStep]
        exact h.step _ _ (hgas _) (hop _)
      · exact Or.inr (h.refl _)

/-- **A run**, however many turns it takes. -/
theorem Uses.turn {k : ℕ} (h : Uses W k R) {f : Frame (FrameState τ)}
    (hgas : ∀ code, RelUnless E R (gasOf f code))
    (hop : ∀ code, RelUnless E R (f.table.opHandler code)) (n : ℕ)
    {m : Machine (FrameState τ)} {q : Progress (RunState (FrameState τ))}
    (hq : (∃ e, q.outcome.1 = .error e ∧ E e) ∨ R m q.outcome.2) :
    (∃ e, (Interpreter.turn (Interpreter.iterate f) n q).outcome.1 = .error e ∧ E e) ∨
      R m (Interpreter.turn (Interpreter.iterate f) n q).outcome.2 := by
  induction n generalizing q with
  | zero => exact hq
  | succ n ih =>
    rcases q with s | ⟨exceptionError, s⟩ | ⟨message, s⟩
    · obtain ⟨e, he, -⟩ | hs := hq
      · cases he
      · exact ih ((h.iterate hgas hop s).imp_right (h.trans hs))
    · exact hq
    · exact hq

/-! ### Any world -/

/-- Nothing is known of the world. -/
abbrev AnyWorld (_ _ : τ) : Prop := True

/-- Without a condition on worlds every program will do. -/
theorem relUnless_anyWorld {α : Type} (x : Prog τ Thrown α) : RelUnless E AnyWorld x :=
  fun _ => Or.inr trivial

/-- No error is excepted. -/
abbrev NoError (_ : Thrown) : Prop := False

theorem Env.keeps_anyWorld (env : Env τ) (E : Thrown → Prop) : env.Keeps E AnyWorld where
  addAccessedAddress _ _ := trivial
  getCode _ _ := Or.inr trivial
  accountExists _ _ := Or.inr trivial
  pushLog _ _ _ := trivial
  setReturnValue _ _ := trivial
  advanceNonce _ := trivial
  addLogs _ _ := trivial
  adopt _ _ := Or.inr trivial
  call _ _ _ _ := Or.inr trivial
  create _ _ _ _ _ _ := Or.inr trivial

theorem OpcodeTable.keeps_anyWorld (others : OpcodeTable τ) (E : Thrown → Prop) :
    others.Keeps E AnyWorld where
  gasHandler _ _ _ _ _ := Or.inr trivial
  opHandler _ _ := Or.inr trivial

/-! ### Steps -/

/-- The gas of an opcode. -/
def FrameOp.gasOf (env : Env τ) (op : FrameOp) (fee : ℤ) : FrameM τ ℤ :=
  match op.gasHandler env with
  | some gasHandler => gasHandler fee
  | none => pure fee

/-- What a step does to the machine. -/
def FrameOp.step (env : Env τ) (op : FrameOp) (isInvalid : Bool) (fee : ℤ) : FrameM τ Unit := do
  let gas ← op.gasOf env fee
  if isInvalid then trap INVALID_OPCODE
  else do
    useGas gas
    op.opHandler env

/-- The gas of an opcode that is modelled is that of its rule. -/
theorem gasOf_of_ofCode {env : Env τ} {others : OpcodeTable τ} {f : Frame (FrameState τ)}
    (htable : f.table = env.table others) {code : UInt8} {op : FrameOp}
    (hcode : FrameOp.ofCode code = some op) :
    gasOf f code = op.gasOf env (f.table.fee code) := by
  rw [gasOf, FrameOp.gasOf, htable, Env.gasHandler_frameOp hcode]
  rcases op.gasHandler env with _ | gasHandler
  · rfl
  · rfl

/-- **A step whose opcode looks at the memory or at the return buffer.** -/
theorem runStep_of_ofCode {env : Env τ} {others : OpcodeTable τ} {f : Frame (FrameState τ)}
    (htable : f.table = env.table others) (opcodeObj : Option Opcode) (s : RunState (FrameState τ))
    {opInfo : Opcode} (hinfo : opcodeObj.getD (f.table.lookupOpInfo s.opCode) = opInfo)
    {op : FrameOp} (hcode : FrameOp.ofCode opInfo.code = some op) :
    ((runStep f opcodeObj).run s).1 =
        ((op.step env opInfo.isInvalid (f.table.fee opInfo.code)).run s.machine).1 ∧
      ((runStep f opcodeObj).run s).2.machine =
        ((op.step env opInfo.isInvalid (f.table.fee opInfo.code)).run s.machine).2 := by
  have hgasOf := gasOf_of_ofCode htable hcode
  have hop : opHandler f opInfo.code = onMachine (op.opHandler env) := by
    rw [opHandler_of_ofCode f hcode, htable, Env.opHandler_frameOp hcode]
  rw [runStep, Prog.run_bind, Prog.run_gets]
  dsimp only [id]
  rw [hinfo, Prog.run_bind, FrameOp.step, Prog.run_bind, hgasOf, run_onMachine]
  rcases (op.gasOf env (f.table.fee opInfo.code)).run s.machine with ⟨e | gas, m⟩
  · exact ⟨rfl, rfl⟩
  · dsimp only
    split
    · exact ⟨rfl, rfl⟩
    · rw [Prog.run_bind, Prog.run_bind, run_onMachine]
      dsimp only
      rcases (useGas gas).run m with ⟨e | _, m'⟩
      · exact ⟨rfl, rfl⟩
      · rw [hop]
        dsimp only
        split
        · exact ⟨rfl, rfl⟩
        · exact ⟨rfl, rfl⟩

end Interpreter

end Tvmjs
