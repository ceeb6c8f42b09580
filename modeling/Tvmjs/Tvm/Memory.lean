import Tvmjs.Base.HighWater
import Tvmjs.Tvm.Interpreter

/-!
# Memory

The memory of a frame, and what its expansion costs.

* `Memory` -- the container, which grows by whole chunks of `CONTAINER_SIZE` bytes;
* `FrameState` -- what a frame keeps beside its stack and its gas, with a log of what its opcodes
  did to the memory and of the calls they made, which no opcode reads;
* `subMemUsage` -- the charge for an access.
-/

namespace Tvmjs

namespace Interpreter

/-! ### The container -/

/-- `ceil(value, ceiling)`: the next multiple. -/
def ceil (value ceiling : ℕ) : ℕ :=
  let r := value % ceiling
  if r = 0 then value else value + ceiling - r

/-- The step in which the container grows. -/
def CONTAINER_SIZE : ℕ := 8192

/-- `Memory`: the bytes of `_store`, zero from its length on. -/
structure Memory where
  length : ℕ
  store : ℕ → UInt8

/-- `new Memory()` -/
def Memory.new : Memory := ⟨CONTAINER_SIZE, fun _ => 0⟩

/-- `extend(offset, size)` -/
def Memory.extend (m : Memory) (offset size : ℕ) : Memory :=
  if size = 0 then m
  else
    let newSize := ceil (offset + size) 32
    if newSize > m.length then
      let chunks := (newSize - m.length + CONTAINER_SIZE - 1) / CONTAINER_SIZE
      { length := m.length + chunks * CONTAINER_SIZE
        store := fun i => if i < m.length then m.store i else 0 }
    else m

/-- `_store.subarray(offset, offset + size)` -/
def Memory.subarray (m : Memory) (offset size : ℕ) : Bytes :=
  (List.range (min size (m.length - offset))).map fun i => m.store (offset + i)

/-- `_store.set(value, offset)` -/
def Memory.set (m : Memory) (offset : ℕ) (value : Bytes) : Memory :=
  { m with store := fun i =>
      if offset ≤ i ∧ i < offset + value.length then value.getD (i - offset) 0 else m.store i }

theorem le_ceil (value : ℕ) {ceiling : ℕ} (h : 0 < ceiling) : value ≤ ceil value ceiling := by
  have hlt := Nat.mod_lt value h
  rw [ceil]
  split
  · exact le_rfl
  · omega

/-! ### The state of a frame -/

/-- What a child frame reports: the fields of `ExecResult` a call looks at, and the address of
`TVMResult`. -/
structure ExecResult where
  executionGasUsed : ℤ
  exceptionError : Option String
  returnValue : Bytes
  createdAddress : Option ℕ
deriving DecidableEq

/-- What an opcode did. -/
inductive FrameEvent where
  /-- An opcode took regions of the memory from the stack, by offset and length. -/
  | touched (regions : List (ℕ × ℕ))
  /-- Bytes of the memory were read or written. -/
  | accessed (offset size : ℕ)
  /-- An opcode of the call family began. -/
  | entered
  /-- A child frame returned to the opcode that called or created it. -/
  | returned (isCreate : Bool) (result : ExecResult)
deriving DecidableEq

/-- What a frame keeps beside its stack and its gas. -/
structure FrameState (τ : Type) where
  memory : Memory
  memoryWordCount : ℕ
  highestMemCost : ℕ
  returnBytes : Bytes
  messageGasLimit : Option ℤ
  /-- What the opcodes did, the latest first. -/
  events : List FrameEvent
  /-- The world outside the frame, with the frame's own logs and results. -/
  world : τ

/-- Programs of a frame. -/
abbrev FrameM (τ α : Type) := MachineM (FrameState τ) α

variable {τ α : Type}

/-- Read the state of the frame. -/
def getsState (g : FrameState τ → α) : FrameM τ α := Prog.gets fun m => g m.rest

/-- Change the state of the frame. -/
def modifyState (g : FrameState τ → FrameState τ) : FrameM τ Unit :=
  Prog.modify fun m => { m with rest := g m.rest }

/-- Log an event. -/
def note (e : FrameEvent) : FrameM τ Unit := modifyState fun s => { s with events := e :: s.events }

/-- Run a program of the world. -/
def onWorld (x : Prog τ Thrown α) : FrameM τ α := fun m =>
  let (out, world) := x.run m.rest.world
  (out, { m with rest := { m.rest with world := world } })

/-- `memory.read(offset, size)` -/
def readMemory (offset size : ℕ) : FrameM τ Bytes := do
  note (.accessed offset size)
  modifyState fun s => { s with memory := s.memory.extend offset size }
  getsState fun s => s.memory.subarray offset size

/-- `memory.write(offset, size, value)` -/
def writeMemory (offset size : ℕ) (value : Bytes) : FrameM τ Unit := do
  if size = 0 then pure ()
  else do
    note (.accessed offset size)
    modifyState fun s => { s with memory := s.memory.extend offset size }
    let length ← getsState fun s => s.memory.length
    if value.length ≠ size then Prog.throw (.host "Invalid value size")
    else if offset + size > length then Prog.throw (.host "Value exceeds memory capacity")
    else modifyState fun s => { s with memory := s.memory.set offset value }

/-! ### The cost of expansion -/

/-- `divCeil(a, b)` -/
def divCeil (a b : ℕ) : ℕ := if a % b = 0 then a / b else a / b + 1

/-- The parameters the opcodes below look up in `common`. -/
structure Params where
  memoryGas : ℕ
  quadCoefficientDivGas : ℕ
  keccak256WordGas : ℕ
  copyGas : ℕ
  logTopicGas : ℕ
  logDataGas : ℕ
  callValueTransferGas : ℕ
  callNewAccountGas : ℕ
  callStipendGas : ℕ
  stackLimit : ℕ

/-- `paramsTVM` -/
def paramsTVM : Params where
  memoryGas := 3
  quadCoefficientDivGas := 512
  keccak256WordGas := 6
  copyGas := 3
  logTopicGas := 375
  logDataGas := 8
  callValueTransferGas := 9000
  callNewAccountGas := 25000
  callStipendGas := 2300
  stackLimit := 64

variable (p : Params)

/-- What `words` words of memory cost. -/
def Params.memCost (words : ℕ) : ℕ :=
  words * p.memoryGas + words * words / p.quadCoefficientDivGas

/-- `subMemUsage(runState, offset, length, common)` -/
def subMemUsage (offset length : ℕ) : FrameM τ ℤ := do
  if length = 0 then pure 0
  else do
    let newMemoryWordCount := divCeil (offset + length) 32
    let s ← getsState id
    if newMemoryWordCount ≤ s.memoryWordCount then pure 0
    else do
      let cost := p.memCost newMemoryWordCount
      let charge := if cost > s.highestMemCost then cost - s.highestMemCost else cost
      modifyState fun s => { s with
        highestMemCost := if cost > s.highestMemCost then cost else s.highestMemCost
        memoryWordCount := newMemoryWordCount }
      pure charge

end Interpreter

end Tvmjs
