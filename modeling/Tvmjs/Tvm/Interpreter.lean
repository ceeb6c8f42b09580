import Tvmjs.Base.InstrStream
import Tvmjs.Base.Prog
import Tvmjs.Util.Account
import Mathlib.Logic.Function.Basic

/-!
# The interpreter loop

`Interpreter` runs legacy bytecode.  Opcodes are looked up by the byte at the program counter until
the first `JUMP` or `JUMPI` which can pay its gas; from then on they come from a table filled by one
pass over the code, and so do the values of the `PUSH` instructions.

* `Machine` -- what an opcode may change: the stack, the gas and a state of type `σ` for the rest
  (memory, return data, the world);
* `OpcodeTable` -- which opcodes a hard fork defines, their gas, and the handlers of those which do
  not touch the program counter;
* `RunState` -- a machine with the program counter and what the jump analysis left behind;
* `getValidJumpDestinations` -- the jump analysis;
* `iterate` -- one turn of the loop of `run`.

Handlers run in `Prog`: a trap keeps what the opcode did before it.
-/

namespace Tvmjs

namespace Interpreter

/-! ### Byte strings -/

/-- `bytesToBigInt`: a byte string read as a big-endian number. -/
def bytesToBigInt (bytes : Bytes) : ℕ := bytes.foldl (fun n b => n * 256 + b.toNat) 0

/-- `setLengthRight`: a byte string padded with zeros on the right. -/
def setLengthRight (bytes : Bytes) (length : ℕ) : Bytes :=
  bytes ++ List.replicate (length - bytes.length) 0

/-- `bytes.subarray(start, stop)` -/
def subarray (bytes : Bytes) (start stop : ℕ) : Bytes := (bytes.take stop).drop start

/-! ### Errors -/

/-- More gas was to be used than is left. -/
def OUT_OF_GAS : String := "out of gas"

/-- An operand is missing. -/
def STACK_UNDERFLOW : String := "stack underflow"

/-- A push on a full stack. -/
def STACK_OVERFLOW : String := "stack overflow"

/-- A jump to what is no destination. -/
def INVALID_JUMP : String := "invalid JUMP"

/-- An opcode that is not in use. -/
def INVALID_OPCODE : String := "invalid opcode"

/-- The execution ends without an error. -/
def STOP : String := "stop"

/-- What a handler can throw. -/
inductive Thrown where
  /-- A `TVMError`: it ends the frame. -/
  | tvm (error : String)
  /-- Anything else: it is thrown on. -/
  | host (message : String)
deriving DecidableEq, Repr

/-! ### The machine -/

/-- What an opcode handler may change. -/
structure Machine (σ : Type) where
  /-- The stack, topmost item first. -/
  stack : List ℕ
  gasLeft : ℤ
  rest : σ

/-- Programs on a machine. -/
abbrev MachineM (σ α : Type) := Prog (Machine σ) Thrown α

variable {σ : Type}

/-- `trap(err)` -/
def trap {τ α : Type} (error : String) : Prog τ Thrown α := Prog.throw (.tvm error)

/-- The height a stack may reach. -/
def MAX_HEIGHT : ℕ := 1024

/-- `stack.push(value)` -/
def push (value : ℕ) : MachineM σ Unit := do
  if (← Prog.gets fun m => m.stack.length) ≥ MAX_HEIGHT then trap STACK_OVERFLOW
  else Prog.modify fun m => { m with stack := value :: m.stack }

/-- `stack.pop()` -/
def pop : MachineM σ ℕ := do
  match ← Prog.gets Machine.stack with
  | [] => trap STACK_UNDERFLOW
  | value :: stack => do
    Prog.modify fun m => { m with stack := stack }
    pure value

/-- `stack.popN(2)`: nothing is popped unless there are two. -/
def pop2 : MachineM σ (ℕ × ℕ) := do
  match ← Prog.gets Machine.stack with
  | first :: second :: stack => do
    Prog.modify fun m => { m with stack := stack }
    pure (first, second)
  | _ => trap STACK_UNDERFLOW

/-- `useGas(amount)` -/
def useGas (amount : ℤ) : MachineM σ Unit := do
  Prog.modify fun m => { m with gasLeft := m.gasLeft - amount }
  if (← Prog.gets Machine.gasLeft) < 0 then do
    Prog.modify fun m => { m with gasLeft := 0 }
    trap OUT_OF_GAS
  else pure ()

/-! ### Opcodes -/

/-- `opcodeInfo`: the opcode an entry of the opcode map stands for. -/
structure Opcode where
  code : UInt8
  isInvalid : Bool
deriving DecidableEq, Repr

/-- The opcode map of a hard fork. -/
structure OpcodeTable (σ : Type) where
  /-- Whether the hard fork has the opcode; the others share the entry of `INVALID`. -/
  defined : UInt8 → Bool
  /-- `feeBigInt` -/
  fee : UInt8 → ℤ
  /-- `gasHandler`, for opcodes with dynamic gas: the gas to charge in place of the fee. -/
  gasHandler : UInt8 → Option (ℤ → MachineM σ ℤ)
  /-- `opHandler` of the opcodes which leave the program counter alone. -/
  opHandler : UInt8 → MachineM σ Unit

/-- The opcodes whose handlers touch the program counter or the jump analysis. -/
def JUMP : UInt8 := 0x56
def JUMPI : UInt8 := 0x57
def PC : UInt8 := 0x58
def JUMPDEST : UInt8 := 0x5b
def INVALID : UInt8 := 0xfe

/-- Whether an opcode is one of `PUSH1` to `PUSH32`. -/
def isPush (opcode : UInt8) : Bool := 0x60 ≤ opcode && opcode ≤ 0x7f

/-- How many immediates follow an opcode: `opcode - 0x5f` after a `PUSH`. -/
def bytesToPush (opcode : UInt8) : ℕ := if isPush opcode then opcode.toNat - 0x5f else 0

/-- `lookupOpInfo(op)` -/
def OpcodeTable.lookupOpInfo (table : OpcodeTable σ) (op : UInt8) : Opcode :=
  if table.defined op ∧ op ≠ INVALID then ⟨op, false⟩ else ⟨INVALID, true⟩

/-! ### Jump analysis -/

/-- What `_getValidJumpDestinations` returns. -/
structure JumpAnalysis where
  /-- One entry a byte: 1 at a jump destination. -/
  jumps : List UInt8
  /-- The pushed value by the position of the first immediate. -/
  pushes : ℕ → Option ℕ
  /-- One entry a byte: the opcode, empty on immediates. -/
  opcodesCached : List (Option Opcode)

variable (table : OpcodeTable σ)

/-- The body of the loop at position `i`. -/
def JumpAnalysis.visit (code : Bytes) (a : JumpAnalysis) (i : ℕ) (opcode : UInt8) :
    JumpAnalysis :=
  let a := { a with opcodesCached := a.opcodesCached.set i (some (table.lookupOpInfo opcode)) }
  if isPush opcode then
    let pushBytes := subarray code (i + 1) (i + opcode.toNat - 0x5e)
    let push := bytesToBigInt (setLengthRight pushBytes (bytesToPush opcode))
    { a with pushes := Function.update a.pushes (i + 1) (some push) }
  else if opcode = JUMPDEST then { a with jumps := a.jumps.set i 1 }
  else a

/-- `_getValidJumpDestinations(code)` -/
def getValidJumpDestinations (code : Bytes) : JumpAnalysis :=
  InstrStream.scan (JumpAnalysis.visit table code) bytesToPush 0 0 code
    { jumps := List.replicate code.length 0
      pushes := fun _ => none
      opcodesCached := List.replicate code.length none }

/-! ### The run state -/

/-- `RunState`, together with the opcode cache of the interpreter. -/
structure RunState (σ : Type) where
  programCounter : ℕ
  opCode : UInt8
  machine : Machine σ
  shouldDoJumpAnalysis : Bool
  validJumps : List UInt8
  cachedPushes : ℕ → Option ℕ
  cachedOpcodes : Option (List (Option Opcode))

/-- Programs on a run state. -/
abbrev RunM (σ α : Type) := Prog (RunState σ) Thrown α

/-- What does not change while a frame runs. -/
structure Frame (σ : Type) where
  table : OpcodeTable σ
  code : Bytes
  /-- `getCodeSize()`: the size of the code the environment names. -/
  codeSize : ℕ
  /-- The code hash and the address, as `describeLocation` prints them. -/
  location : String

/-- Run a program on the machine of a run state. -/
def onMachine {α : Type} (x : MachineM σ α) : RunM σ α := fun s =>
  let (out, m) := x.run s.machine
  (out, { s with machine := m })

theorem run_onMachine {α : Type} (x : MachineM σ α) (s : RunState σ) :
    (onMachine x).run s = ((x.run s.machine).1, { s with machine := (x.run s.machine).2 }) := rfl

variable (f : Frame σ)

/-- `describeLocation(runState)` -/
def describeLocation (programCounter : ℕ) : String :=
  f.location ++ ":" ++ toString ((programCounter : ℤ) - 1)

/-- `jumpIsValid(runState, dest)` -/
def jumpIsValid (s : RunState σ) (dest : ℕ) : Bool := s.validJumps[dest]? = some 1

/-- The destination of a jump is checked, and the program counter set to it. -/
def jumpTo (dest : ℕ) : RunM σ Unit := do
  let s ← Prog.gets id
  if dest > f.codeSize then trap (INVALID_JUMP ++ " at " ++ describeLocation f s.programCounter)
  else if !jumpIsValid s dest then
    trap (INVALID_JUMP ++ " at " ++ describeLocation f s.programCounter)
  else Prog.modify fun s => { s with programCounter := dest }

/-- Handler of `JUMP`. -/
def jump : RunM σ Unit := do
  let dest ← onMachine pop
  jumpTo f dest

/-- Handler of `JUMPI`. -/
def jumpi : RunM σ Unit := do
  let (dest, cond) ← onMachine pop2
  if cond ≠ 0 then jumpTo f dest else pure ()

/-- Handler of `PC`. -/
def pc : RunM σ Unit := do
  let s ← Prog.gets id
  onMachine (push (s.programCounter - 1))

/-- Handler of `PUSH`. -/
def pushImmediate : RunM σ Unit := do
  let s ← Prog.gets id
  let numToPush := s.opCode.toNat - 0x5f
  if !s.shouldDoJumpAnalysis then
    match s.cachedPushes s.programCounter with
    -- an absent cache entry would push `undefined`
    | none => Prog.throw (.host "undefined pushed")
    | some value => do
      onMachine (push value)
      Prog.modify fun s => { s with programCounter := s.programCounter + numToPush }
  else do
    let loadedBytes := subarray f.code s.programCounter (s.programCounter + numToPush)
    Prog.modify fun s => { s with programCounter := s.programCounter + numToPush }
    onMachine (push (bytesToBigInt (setLengthRight loadedBytes numToPush)))

/-- The handler of an entry. -/
def opHandler (opcode : UInt8) : RunM σ Unit :=
  if opcode = JUMP then jump f
  else if opcode = JUMPI then jumpi f
  else if opcode = PC then pc
  else if opcode = JUMPDEST then pure ()
  else if isPush opcode then pushImmediate f
  else onMachine (f.table.opHandler opcode)

/-- The gas of an opcode: its fee, or what its gas handler makes of it. -/
def gasOf (opcode : UInt8) : MachineM σ ℤ :=
  match f.table.gasHandler opcode with
  | some gasHandler => gasHandler (f.table.fee opcode)
  | none => pure (f.table.fee opcode)

/-- Fill the caches. -/
def doJumpAnalysis : RunM σ Unit := Prog.modify fun s =>
  let a := getValidJumpDestinations f.table f.code
  { s with
    validJumps := a.jumps
    cachedPushes := a.pushes
    cachedOpcodes := some a.opcodesCached
    shouldDoJumpAnalysis := false }

/-- `runStep(opcodeObj)` -/
def runStep (opcodeObj : Option Opcode) : RunM σ Unit := do
  let s ← Prog.gets id
  let opInfo := opcodeObj.getD (f.table.lookupOpInfo s.opCode)
  let gas ← onMachine (gasOf f opInfo.code)
  if opInfo.isInvalid then trap INVALID_OPCODE
  else do
    onMachine (useGas gas)
    -- the first jump that can pay its gas cost
    if s.shouldDoJumpAnalysis ∧ (opInfo.code = JUMP ∨ opInfo.code = JUMPI) then doJumpAnalysis f
    else pure ()
    Prog.modify fun s => { s with programCounter := s.programCounter + 1 }
    opHandler f opInfo.code

/-! ### The loop -/

/-- Where a run stands: going on in a state, ended with an exception error or none, or broken off
by an error which is no `TVMError`. -/
inductive Progress (τ : Type) where
  | running (s : τ)
  | ended (exceptionError : Option String) (s : τ)
  | thrown (message : String) (s : τ)

/-- How a turn of the loop goes on after the step. -/
def Progress.ofStep {τ : Type} : Except Thrown Unit × τ → Progress τ
  | (.ok _, s) => .running s
  | (.error (.tvm error), s) => .ended (if error = STOP then none else some error) s
  | (.error (.host message), s) => .thrown message s

/-- One turn of the loop of `run`. -/
def iterate (s : RunState σ) : Progress (RunState σ) :=
  match f.code[s.programCounter]? with
  | none => .ended none s
  | some byte =>
    match s.cachedOpcodes with
    | none => .ofStep ((runStep f none).run { s with opCode := byte })
    | some opcodes =>
      match opcodes[s.programCounter]? with
      | some (some opInfo) =>
        .ofStep ((runStep f (some opInfo)).run { s with opCode := opInfo.code })
      | _ => .thrown "undefined has no opcodeInfo" s

/-- Turn the loop `n` times, as long as it runs. -/
def turn {τ : Type} (body : τ → Progress τ) : ℕ → Progress τ → Progress τ
  | n + 1, .running s => turn body n (body s)
  | _, p => p

/-- `_resetJumpAnalysis()` -/
def resetJumpAnalysis (s : RunState σ) : RunState σ :=
  { s with cachedOpcodes := none, shouldDoJumpAnalysis := true }

/-- `run(code, { pc })`, `n` turns of its loop: the interpreter holds `s` before. -/
def run (s : RunState σ) (pc : ℕ) (n : ℕ) : Progress (RunState σ) :=
  let s := { s with programCounter := pc }
  if pc ≠ 0 ∧ pc ≥ f.code.length then .thrown "Internal error: program counter not in range" s
  else turn (iterate f) n (.running (resetJumpAnalysis s))

end Interpreter

end Tvmjs
