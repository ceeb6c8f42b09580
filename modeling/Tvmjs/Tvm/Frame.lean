import Tvmjs.Tvm.Memory

/-!
# The opcodes that use the memory or the return buffer

The gas handlers and the handlers of the opcodes which read or write the memory, and of those which
call another frame or create one.  A child frame is run by `Env.runCall`, which stands for
`_runCall` of the interpreter: it acts on the world, and reports an `ExecResult`.

* `Env` -- what a frame is run with;
* `Env.baseCall`, `Env.create` -- the two ways into a child frame;
* `FrameOp` -- the opcodes, with `FrameOp.gasHandler` and `FrameOp.opHandler`;
* `Env.table` -- the opcode map they are part of.
-/

namespace Tvmjs

namespace Interpreter

/-! ### Errors and constants -/

/-- A write in a static call. -/
def STATIC_STATE_CHANGE : String := "static state change"

/-- The frame gives up what it wrote. -/
def REVERT : String := "revert"

/-- A value beyond 63 bits. -/
def VALUE_OVERFLOW : String := "value overflow"

/-- A token id that can be none. -/
def INVALID_TOKENID : String := "invalid token id"

/-- A transfer to the caller. -/
def CAN_NOT_TRANSFER_TRX_YOURSELF : String :=
  "transfer trx failed: Cannot transfer TRX to yourself."

/-- A transfer of a token to the caller. -/
def CAN_NOT_TRANSFER_ASSET_YOURSELF : String :=
  "transfer trc10 failed: Cannot transfer asset to yourself."

/-- The largest integer of 64 bits with a sign. -/
def MAX_INT64 : ℕ := 2 ^ 63 - 1

/-- The largest integer of 64 bits, where nonces end. -/
def MAX_UINT64 : ℕ := 2 ^ 64 - 1

/-- The number above which token ids begin. -/
def MIN_TOKEN_ID : ℕ := 1000000

/-- The largest token id. -/
def MAX_TRON_TOKEN_ID : ℕ := MAX_INT64

/-- `FORMAT` and `MAGIC`, the first two bytes of an EOF container. -/
def EOFBYTES : Bytes := [0xef, 0x00]

/-- `isEOF(code)` -/
def isEOF (code : Bytes) : Bool := code.take EOFBYTES.length = EOFBYTES

/-- `createAddressFromStackBigInt(value)` -/
def createAddressFromStackBigInt (value : ℕ) : ℕ := value % 2 ^ 160

/-- `0x41` in front of an address of 20 bytes. -/
def TRON_ADDRESS_PREFIX_WORD : ℕ := 0x41 * 2 ^ 160

/-- `isValidTronTokenId(tokenId)` -/
def isValidTronTokenId (tokenId : ℕ) : Bool :=
  tokenId > MIN_TOKEN_ID ∧ tokenId ≤ MAX_TRON_TOKEN_ID

/-- `getDataSlice(data, offset, length)` -/
def getDataSlice (data : Bytes) (offset length : ℕ) : Bytes :=
  let len := data.length
  let offset := if offset > len then len else offset
  let stop := if offset + length > len then len else offset + length
  setLengthRight (Interpreter.subarray data offset stop) length

/-! ### Environments -/

/-- `Message`: what a frame is called with. -/
structure Message where
  caller : ℕ
  /-- `to` -/
  toAddress : Option ℕ := none
  codeAddress : Option ℕ := none
  gasLimit : ℤ
  value : ℕ := 0
  tokenId : ℕ := 0
  tokenValue : ℕ := 0
  data : Bytes
  code : Option Bytes := none
  isStatic : Bool := false
  depth : ℕ
  delegatecall : Bool := false
  callcode : Bool := false
  salt : Option ℕ := none

/-- What is thrown by the state manager is no `TVMError`. -/
def onHost {τ α : Type} (x : Prog τ String α) : Prog τ Thrown α := fun s =>
  match x.run s with
  | (.ok a, s') => (.ok a, s')
  | (.error message, s') => (.error (.host message), s')

/-- `Env`, together with what a frame asks the rest of the machine for. -/
structure Env (τ : Type) where
  params : Params
  address : ℕ
  caller : ℕ
  callData : Bytes
  callValue : ℕ
  code : Bytes
  isStatic : Bool
  depth : ℕ
  /-- `customCrypto.keccak256 ?? keccak_256`, as a word. -/
  keccak256 : Bytes → ℕ
  addAccessedAddress : ℕ → τ → τ
  getCode : ℕ → Prog τ String Bytes
  /-- `stateManager.getAccount(address) !== undefined` -/
  accountExists : ℕ → Prog τ String Bool
  /-- `_env.contract.balance` -/
  contractBalance : τ → ℤ
  /-- `_env.contract.getTokenBalance(tokenId)` -/
  contractTokenBalance : τ → ℕ → ℤ
  /-- `_env.contract.nonce` -/
  contractNonce : τ → ℕ
  /-- The nonce of the transaction context, where there is one, advances. -/
  advanceNonce : τ → τ
  /-- The nonce of the contract advances and its account is written. -/
  advanceContractNonce : Prog τ String Unit
  /-- `_runCall(message)` -/
  runCall : Message → Prog τ Thrown ExecResult
  /-- The logs of a child join those of the frame. -/
  addLogs : ExecResult → τ → τ
  /-- The self-destructs, created addresses and refund of a child that succeeded, and the account it
  left to the frame. -/
  adopt : ExecResult → Prog τ String Unit
  /-- `_result.logs.push(log)` -/
  pushLog : Bytes → List ℕ → τ → τ
  /-- `_result.returnValue = returnData` -/
  setReturnValue : Bytes → τ → τ

variable {τ : Type} (env : Env τ)

/-! ### Stack operands -/

/-- `stack.popN(n)`, the topmost item at index 0. -/
def popN {σ : Type} (n : ℕ) : MachineM σ (ℕ → ℕ) := do
  let stack ← Prog.gets Machine.stack
  if stack.length < n then trap STACK_UNDERFLOW
  else do
    Prog.modify fun m => { m with stack := stack.drop n }
    pure fun i => stack.getD i 0

/-- `stack.peek(n)`, the topmost item at index 0. -/
def peek {σ : Type} (n : ℕ) : MachineM σ (ℕ → ℕ) := do
  let stack ← Prog.gets Machine.stack
  if stack.length < n then trap STACK_UNDERFLOW
  else pure fun i => stack.getD i 0

/-- A handler pops its operands, which name the regions of the memory it uses. -/
def operands (n : ℕ) (regions : (ℕ → ℕ) → List (ℕ × ℕ)) (body : (ℕ → ℕ) → FrameM τ Unit) :
    FrameM τ Unit := do
  let v ← popN n
  note (.touched (regions v))
  body v

/-! ### Child frames -/

/-- `_baseCall(msg)` -/
def Env.baseCall (msg : Message) : FrameM τ ℕ := do
  let toItself := !msg.delegatecall && !msg.callcode && msg.toAddress = some msg.caller
  if toItself ∧ msg.value > 0 then trap CAN_NOT_TRANSFER_TRX_YOURSELF
  else if toItself ∧ msg.tokenValue > 0 then trap CAN_NOT_TRANSFER_ASSET_YOURSELF
  else do
    -- empty the return data
    modifyState fun s => { s with returnBytes := [] }
    let world ← getsState FrameState.world
    if env.depth ≥ env.params.stackLimit ∨
        (!msg.delegatecall ∧ env.contractBalance world < msg.value) ∨
        (msg.tokenValue > 0 ∧ env.contractTokenBalance world msg.tokenId < msg.tokenValue) then
      pure 0
    else do
      onWorld (Prog.modify env.advanceNonce)
      let results ← onWorld (env.runCall msg)
      note (.returned false results)
      onWorld (Prog.modify (env.addLogs results))
      useGas results.executionGasUsed
      if results.exceptionError = none ∨ results.exceptionError = some REVERT then
        modifyState fun s => { s with returnBytes := results.returnValue }
      else pure ()
      if results.exceptionError = none then onWorld (onHost (env.adopt results)) else pure ()
      pure (if results.exceptionError = none then 1 else 0)

/-- `call(gasLimit, address, value, data)` -/
def Env.call (gasLimit : ℤ) (address value : ℕ) (data : Bytes) : FrameM τ ℕ :=
  env.baseCall
    { caller := env.address, gasLimit, toAddress := some address, value, data,
      isStatic := env.isStatic, depth := env.depth + 1 }

/-- `callCode(gasLimit, address, value, data)` -/
def Env.callCode (gasLimit : ℤ) (address value : ℕ) (data : Bytes) : FrameM τ ℕ :=
  env.baseCall
    { caller := env.address, gasLimit, toAddress := some env.address, codeAddress := some address,
      value, data, isStatic := env.isStatic, callcode := true, depth := env.depth + 1 }

/-- `callStatic(gasLimit, address, value, data)` -/
def Env.callStatic (gasLimit : ℤ) (address value : ℕ) (data : Bytes) : FrameM τ ℕ :=
  env.baseCall
    { caller := env.address, gasLimit, toAddress := some address, value, data, isStatic := true,
      depth := env.depth + 1 }

/-- `callDelegate(gasLimit, address, value, data)` -/
def Env.callDelegate (gasLimit : ℤ) (address value : ℕ) (data : Bytes) : FrameM τ ℕ :=
  env.baseCall
    { caller := env.caller, gasLimit, toAddress := some env.address, codeAddress := some address,
      value, data, isStatic := env.isStatic, delegatecall := true, depth := env.depth + 1 }

/-- `callToken(gasLimit, address, value, tokenId, tokenValue, data)` -/
def Env.callToken (gasLimit : ℤ) (address value tokenId tokenValue : ℕ) (data : Bytes) :
    FrameM τ ℕ :=
  env.baseCall
    { caller := env.address, gasLimit, toAddress := some address, value, tokenId, tokenValue, data,
      isStatic := env.isStatic, depth := env.depth + 1 }

/-- `create(gasLimit, value, codeToRun, salt)` -/
def Env.create (gasLimit : ℤ) (value : ℕ) (codeToRun : Bytes) (salt : Option ℕ) : FrameM τ ℕ := do
  -- empty the return data
  modifyState fun s => { s with returnBytes := [] }
  let world ← getsState FrameState.world
  if env.depth ≥ env.params.stackLimit ∨ env.contractBalance world < value then pure 0
  else if env.contractNonce world ≥ MAX_UINT64 then pure 0
  else do
    onWorld (onHost env.advanceContractNonce)
    let results ← onWorld (env.runCall
      { caller := env.address, gasLimit, value, data := codeToRun, salt, depth := env.depth + 1 })
    note (.returned true results)
    onWorld (Prog.modify (env.addLogs results))
    useGas results.executionGasUsed
    if results.exceptionError = some REVERT then
      modifyState fun s => { s with returnBytes := results.returnValue }
    else pure ()
    if results.exceptionError = none then do
      onWorld (onHost (env.adopt results))
      pure (match results.createdAddress with
        | some address => TRON_ADDRESS_PREFIX_WORD ||| address
        | none => 1)
    else pure 0

/-- `writeCallOutput(runState, outOffset, outLength)` -/
def writeCallOutput (outOffset outLength : ℕ) : FrameM τ Unit := do
  let returnData ← getsState FrameState.returnBytes
  if returnData.length > 0 then do
    let dataLength := if returnData.length < outLength then returnData.length else outLength
    let data := getDataSlice returnData 0 dataLength
    modifyState fun s => { s with memory := s.memory.extend outOffset dataLength }
    writeMemory outOffset dataLength data
  else pure ()

/-! ### Gas handlers -/

/-- `setCallGasLimit(runState, gas, requestedGas)` -/
def setCallGasLimit (gas : ℤ) (requestedGas : ℕ) : FrameM τ ℤ := do
  let gasLeft ← Prog.gets Machine.gasLeft
  if gas > gasLeft then trap OUT_OF_GAS
  else do
    let gasLimit := if (requestedGas : ℤ) > gasLeft - gas then gasLeft - gas else requestedGas
    modifyState fun s => { s with messageGasLimit := some gasLimit }
    pure gas

/-- Gas handler of `KECCAK256`. -/
def keccak256Gas (gas : ℤ) : FrameM τ ℤ := do
  let v ← peek 2
  let memory ← subMemUsage env.params (v 0) (v 1)
  pure (gas + memory + (env.params.keccak256WordGas * divCeil (v 1) 32 : ℕ))

/-- The charge for a copy of `dataLength` bytes. -/
def copyCharge (dataLength : ℕ) : ℤ := (env.params.copyGas * divCeil dataLength 32 : ℕ)

/-- Gas handler of `CALLDATACOPY` and `CODECOPY`. -/
def copyGas (gas : ℤ) : FrameM τ ℤ := do
  let v ← peek 3
  let memory ← subMemUsage env.params (v 0) (v 2)
  pure (gas + memory + if v 2 ≠ 0 then copyCharge env (v 2) else 0)

/-- Gas handler of `EXTCODECOPY`. -/
def extcodecopyGas (gas : ℤ) : FrameM τ ℤ := do
  let v ← peek 4
  onWorld (Prog.modify (env.addAccessedAddress (createAddressFromStackBigInt (v 0))))
  let memory ← subMemUsage env.params (v 1) (v 3)
  pure (gas + memory + copyCharge env (v 3))

/-- Gas handler of `RETURNDATACOPY`. -/
def returndatacopyGas (gas : ℤ) : FrameM τ ℤ := do
  let v ← peek 3
  let size ← getsState fun s => s.returnBytes.length
  if v 1 + v 2 > size then trap OUT_OF_GAS
  else do
    let memory ← subMemUsage env.params (v 0) (v 2)
    pure (gas + memory + if v 2 ≠ 0 then copyCharge env (v 2) else 0)

/-- Gas handler of `MLOAD` and `MSTORE`, and with `size` 1 of `MSTORE8`. -/
def wordGas (size : ℕ) (gas : ℤ) : FrameM τ ℤ := do
  let v ← peek 1
  let memory ← subMemUsage env.params (v 0) size
  pure (gas + memory)

/-- Gas handler of `MCOPY`. -/
def mcopyGas (gas : ℤ) : FrameM τ ℤ := do
  let v ← peek 3
  let wordsCopied := (v 2 + 31) / 32
  let source ← subMemUsage env.params (v 1) (v 2)
  let target ← subMemUsage env.params (v 0) (v 2)
  pure (gas + (3 * wordsCopied : ℕ) + source + target)

/-- Gas handler of `LOG0` to `LOG4`. -/
def logGas (topicsCount : Fin 5) (gas : ℤ) : FrameM τ ℤ := do
  if env.isStatic then trap STATIC_STATE_CHANGE
  else do
    let v ← peek 2
    let memory ← subMemUsage env.params (v 0) (v 1)
    pure (gas + memory +
      (env.params.logTopicGas * topicsCount + v 1 * env.params.logDataGas : ℕ))

/-- Gas handler of `RETURN` and `REVERT`. -/
def returnGas (gas : ℤ) : FrameM τ ℤ := do
  let v ← peek 2
  let memory ← subMemUsage env.params (v 0) (v 1)
  pure (gas + memory)

/-- Gas handler of `CREATE`. -/
def createGas (gas : ℤ) : FrameM τ ℤ := do
  if env.isStatic then trap STATIC_STATE_CHANGE
  else do
    let v ← peek 3
    let memory ← subMemUsage env.params (v 1) (v 2)
    let gas := gas + memory
    let gasLeft ← Prog.gets Machine.gasLeft
    modifyState fun s => { s with messageGasLimit := some (gasLeft - gas) }
    pure gas

/-- Gas handler of `CREATE2`. -/
def create2Gas (gas : ℤ) : FrameM τ ℤ := do
  if env.isStatic then trap STATIC_STATE_CHANGE
  else do
    let v ← peek 4
    let memory ← subMemUsage env.params (v 1) (v 2)
    let gas := gas + memory + (env.params.keccak256WordGas * divCeil (v 2) 32 : ℕ)
    let gasLeft ← Prog.gets Machine.gasLeft
    modifyState fun s => { s with messageGasLimit := some (gasLeft - gas) }
    pure gas

/-- What a call is charged for a transfer of `value` to `toAddress`. -/
def transferGas (toAddress value : ℕ) : FrameM τ ℤ :=
  if value = 0 then pure 0
  else do
    if ← onWorld (onHost (env.accountExists toAddress)) then
      pure env.params.callValueTransferGas
    else
      pure (env.params.callValueTransferGas + env.params.callNewAccountGas : ℕ)

/-- Gas handler of `CALL`. -/
def callGas (gas : ℤ) : FrameM τ ℤ := do
  let v ← peek 7
  let toAddress := createAddressFromStackBigInt (v 1)
  if env.isStatic ∧ v 2 ≠ 0 then trap STATIC_STATE_CHANGE
  else do
    onWorld (Prog.modify (env.addAccessedAddress toAddress))
    let input ← subMemUsage env.params (v 3) (v 4)
    let output ← subMemUsage env.params (v 5) (v 6)
    let transfer ← transferGas env toAddress (v 2)
    setCallGasLimit (gas + input + output + transfer) (v 0)

/-- Gas handler of `CALLCODE`. -/
def callcodeGas (gas : ℤ) : FrameM τ ℤ := do
  let v ← peek 7
  onWorld (Prog.modify (env.addAccessedAddress (createAddressFromStackBigInt (v 1))))
  let input ← subMemUsage env.params (v 3) (v 4)
  let output ← subMemUsage env.params (v 5) (v 6)
  let transfer : ℤ := if v 2 ≠ 0 then env.params.callValueTransferGas else 0
  setCallGasLimit (gas + input + output + transfer) (v 0)

/-- Gas handler of `DELEGATECALL` and `STATICCALL`. -/
def delegatecallGas (gas : ℤ) : FrameM τ ℤ := do
  let v ← peek 6
  onWorld (Prog.modify (env.addAccessedAddress (createAddressFromStackBigInt (v 1))))
  let input ← subMemUsage env.params (v 2) (v 3)
  let output ← subMemUsage env.params (v 4) (v 5)
  setCallGasLimit (gas + input + output) (v 0)

/-- Gas handler of `CALLTOKEN`. -/
def calltokenGas (gas : ℤ) : FrameM τ ℤ := do
  let v ← peek 8
  let toAddress := createAddressFromStackBigInt (v 1)
  if env.isStatic ∧ v 2 ≠ 0 then trap STATIC_STATE_CHANGE
  else do
    onWorld (Prog.modify (env.addAccessedAddress toAddress))
    let input ← subMemUsage env.params (v 4) (v 5)
    let output ← subMemUsage env.params (v 6) (v 7)
    let transfer ← transferGas env toAddress (v 2)
    setCallGasLimit (gas + input + output + transfer) (v 0)

/-! ### Handlers -/

/-- The bytes of a region, read only where it has any. -/
def readRegion (offset length : ℕ) : FrameM τ Bytes :=
  if length ≠ 0 then readMemory offset length else pure []

/-- Bytes of `source` are copied to a region. -/
def copyToMemory (source : FrameM τ Bytes) (memOffset dataOffset dataLength : ℕ) :
    FrameM τ Unit :=
  if dataLength ≠ 0 then do
    let data ← source
    writeMemory memOffset dataLength (getDataSlice data dataOffset dataLength)
  else pure ()

/-- Handler of `KECCAK256`. -/
def keccak256Op : FrameM τ Unit :=
  operands 2 (fun v => [(v 0, v 1)]) fun v => do
    let data ← readRegion (v 0) (v 1)
    push (env.keccak256 data)

/-- Handler of `CALLDATACOPY`. -/
def calldatacopy : FrameM τ Unit :=
  operands 3 (fun v => [(v 0, v 2)]) fun v =>
    copyToMemory (pure env.callData) (v 0) (v 1) (v 2)

/-- Handler of `CODECOPY`. -/
def codecopy : FrameM τ Unit :=
  operands 3 (fun v => [(v 0, v 2)]) fun v => copyToMemory (pure env.code) (v 0) (v 1) (v 2)

/-- The code of an account, where EOF code is treated as its first two bytes. -/
def Env.legacyCode (address : ℕ) : FrameM τ Bytes := do
  let code ← onWorld (onHost (env.getCode address))
  pure (if isEOF code then EOFBYTES else code)

/-- Handler of `EXTCODECOPY`. -/
def extcodecopy : FrameM τ Unit :=
  operands 4 (fun v => [(v 1, v 3)]) fun v =>
    copyToMemory (env.legacyCode (createAddressFromStackBigInt (v 0))) (v 1) (v 2) (v 3)

/-- Handler of `RETURNDATASIZE`. -/
def returndatasize : FrameM τ Unit := do
  push (← getsState fun s => s.returnBytes.length)

/-- Handler of `RETURNDATACOPY`. -/
def returndatacopy : FrameM τ Unit :=
  operands 3 (fun v => [(v 0, v 2)]) fun v =>
    copyToMemory (getsState FrameState.returnBytes) (v 0) (v 1) (v 2)

/-- The big-endian bytes of a word, `size` of them. -/
def wordBytes (size word : ℕ) : Bytes :=
  (List.range size).map fun i => UInt8.ofNat (word / 256 ^ (size - 1 - i))

/-- Handler of `MLOAD`. -/
def mload : FrameM τ Unit :=
  operands 1 (fun v => [(v 0, 32)]) fun v => do
    let word ← readMemory (v 0) 32
    push (bytesToBigInt word)

/-- Handler of `MSTORE`. -/
def mstore : FrameM τ Unit :=
  operands 2 (fun v => [(v 0, 32)]) fun v => writeMemory (v 0) 32 (wordBytes 32 (v 1))

/-- Handler of `MSTORE8`. -/
def mstore8 : FrameM τ Unit :=
  operands 2 (fun v => [(v 0, 1)]) fun v => writeMemory (v 0) 1 (wordBytes 1 (v 1))

/-- Handler of `MSIZE`. -/
def msize : FrameM τ Unit := do
  push (← getsState fun s => s.memoryWordCount * 32)

/-- Handler of `MCOPY`. -/
def mcopy : FrameM τ Unit :=
  operands 3 (fun v => [(v 1, v 2), (v 0, v 2)]) fun v => do
    let data ← readMemory (v 1) (v 2)
    writeMemory (v 0) (v 2) data

/-- Handler of `LOG0` to `LOG4`. -/
def logOp (topicsCount : Fin 5) : FrameM τ Unit :=
  operands 2 (fun v => [(v 0, v 1)]) fun v => do
    let topics ← popN topicsCount
    let data ← readRegion (v 0) (v 1)
    onWorld (Prog.modify (env.pushLog data ((List.range topicsCount).map topics)))

/-- `runState.messageGasLimit!`, which the gas handler has set, is taken. -/
def takeMessageGasLimit : FrameM τ ℤ := do
  match ← getsState FrameState.messageGasLimit with
  | some gasLimit => do
    modifyState fun s => { s with messageGasLimit := none }
    pure gasLimit
  | none => Prog.throw (.host "Cannot mix BigInt and other types")

/-- A call with a value brings a stipend. -/
def callStipend (value : ℕ) (gasLimit : ℤ) : FrameM τ ℤ :=
  if value ≠ 0 then do
    Prog.modify fun m => { m with gasLeft := m.gasLeft + env.params.callStipendGas }
    pure (gasLimit + env.params.callStipendGas)
  else pure gasLimit

/-- An opcode of the call family. -/
def enter (handler : FrameM τ Unit) : FrameM τ Unit := do
  note .entered
  handler

/-- Deploy `data`; legacy code cannot deploy EOF code. -/
def Env.deploy (gasLimit : ℤ) (value : ℕ) (data : Bytes) (salt : Option ℕ) : FrameM τ Unit :=
  if isEOF data then push 0
  else do
    let ret ← env.create gasLimit value data salt
    push ret

/-- Handler of `CREATE`. -/
def createOp : FrameM τ Unit :=
  enter (operands 3 (fun v => [(v 1, v 2)]) fun v => do
    let gasLimit ← takeMessageGasLimit
    let data ← readRegion (v 1) (v 2)
    env.deploy gasLimit (v 0) data none)

/-- Handler of `CREATE2`. -/
def create2Op : FrameM τ Unit :=
  enter (if env.isStatic then trap STATIC_STATE_CHANGE
    else operands 4 (fun v => [(v 1, v 2)]) fun v => do
      let gasLimit ← takeMessageGasLimit
      let data ← readRegion (v 1) (v 2)
      env.deploy gasLimit (v 0) data (some (v 3)))

/-- Handler of `CALL`. -/
def callOp : FrameM τ Unit :=
  enter (operands 7 (fun v => [(v 3, v 4), (v 5, v 6)]) fun v => do
    let data ← readRegion (v 3) (v 4)
    let gasLimit ← takeMessageGasLimit
    let gasLimit ← callStipend env (v 2) gasLimit
    let ret ← env.call gasLimit (createAddressFromStackBigInt (v 1)) (v 2) data
    writeCallOutput (v 5) (v 6)
    push ret)

/-- Handler of `CALLCODE`. -/
def callcodeOp : FrameM τ Unit :=
  enter (operands 7 (fun v => [(v 3, v 4), (v 5, v 6)]) fun v => do
    let gasLimit ← takeMessageGasLimit
    let gasLimit ← callStipend env (v 2) gasLimit
    let data ← readRegion (v 3) (v 4)
    let ret ← env.callCode gasLimit (createAddressFromStackBigInt (v 1)) (v 2) data
    writeCallOutput (v 5) (v 6)
    push ret)

/-- Handler of `DELEGATECALL`. -/
def delegatecallOp : FrameM τ Unit :=
  enter (operands 6 (fun v => [(v 2, v 3), (v 4, v 5)]) fun v => do
    let data ← readRegion (v 2) (v 3)
    let gasLimit ← takeMessageGasLimit
    let ret ← env.callDelegate gasLimit (createAddressFromStackBigInt (v 1)) env.callValue data
    writeCallOutput (v 4) (v 5)
    push ret)

/-- Handler of `STATICCALL`. -/
def staticcallOp : FrameM τ Unit :=
  enter (operands 6 (fun v => [(v 2, v 3), (v 4, v 5)]) fun v => do
    let gasLimit ← takeMessageGasLimit
    let data ← readRegion (v 2) (v 3)
    let ret ← env.callStatic gasLimit (createAddressFromStackBigInt (v 1)) 0 data
    writeCallOutput (v 4) (v 5)
    push ret)

/-- Handler of `CALLTOKEN`. -/
def calltokenOp : FrameM τ Unit :=
  enter (operands 8 (fun v => [(v 4, v 5), (v 6, v 7)]) fun v =>
    if env.isStatic ∧ v 2 ≠ 0 then trap STATIC_STATE_CHANGE
    else if v 2 > MAX_INT64 then trap VALUE_OVERFLOW
    else if v 3 ≠ 0 ∧ !isValidTronTokenId (v 3) then trap INVALID_TOKENID
    else if v 3 = 0 ∧ v 2 > 0 then trap INVALID_TOKENID
    else do
      let data ← readRegion (v 4) (v 5)
      let gasLimit ← takeMessageGasLimit
      let gasLimit ← callStipend env (v 2) gasLimit
      let ret ← env.callToken gasLimit (createAddressFromStackBigInt (v 1)) 0 (v 3) (v 2) data
      writeCallOutput (v 6) (v 7)
      push ret)

/-- Handler of `RETURN`. -/
def returnOp : FrameM τ Unit :=
  operands 2 (fun v => [(v 0, v 1)]) fun v => do
    let returnData ← readRegion (v 0) (v 1)
    onWorld (Prog.modify (env.setReturnValue returnData))
    trap STOP

/-- Handler of `REVERT`. -/
def revertOp : FrameM τ Unit :=
  operands 2 (fun v => [(v 0, v 1)]) fun v => do
    let returnData ← readRegion (v 0) (v 1)
    onWorld (Prog.modify (env.setReturnValue returnData))
    trap REVERT

/-! ### The opcode map -/

/-- The opcodes which look at the memory or at the return buffer. -/
inductive FrameOp where
  | KECCAK256
  | CALLDATACOPY
  | CODECOPY
  | EXTCODECOPY
  | RETURNDATASIZE
  | RETURNDATACOPY
  | MLOAD
  | MSTORE
  | MSTORE8
  | MSIZE
  | MCOPY
  | LOG (topicsCount : Fin 5)
  | CALLTOKEN
  | CREATE
  | CALL
  | CALLCODE
  | RETURN
  | DELEGATECALL
  | CREATE2
  | STATICCALL
  | REVERT
deriving DecidableEq, Repr

namespace FrameOp

/-- Their codes. -/
def codes : List (UInt8 × FrameOp) :=
  [(0x20, KECCAK256), (0x37, CALLDATACOPY), (0x39, CODECOPY), (0x3c, EXTCODECOPY),
    (0x3d, RETURNDATASIZE), (0x3e, RETURNDATACOPY), (0x51, MLOAD), (0x52, MSTORE),
    (0x53, MSTORE8), (0x59, MSIZE), (0x5e, MCOPY), (0xa0, LOG 0), (0xa1, LOG 1), (0xa2, LOG 2),
    (0xa3, LOG 3), (0xa4, LOG 4), (0xd0, CALLTOKEN), (0xf0, CREATE), (0xf1, CALL),
    (0xf2, CALLCODE), (0xf3, RETURN), (0xf4, DELEGATECALL), (0xf5, CREATE2), (0xfa, STATICCALL),
    (0xfd, REVERT)]

/-- The opcode of a code. -/
def ofCode (code : UInt8) : Option FrameOp := codes.lookup code

/-- `dynamicGasHandlers.get(code)` -/
def gasHandler : FrameOp → Option (ℤ → FrameM τ ℤ)
  | KECCAK256 => some (keccak256Gas env)
  | CALLDATACOPY => some (copyGas env)
  | CODECOPY => some (copyGas env)
  | EXTCODECOPY => some (extcodecopyGas env)
  | RETURNDATASIZE => none
  | RETURNDATACOPY => some (returndatacopyGas env)
  | MLOAD => some (wordGas env 32)
  | MSTORE => some (wordGas env 32)
  | MSTORE8 => some (wordGas env 1)
  | MSIZE => none
  | MCOPY => some (mcopyGas env)
  | LOG topicsCount => some (logGas env topicsCount)
  | CALLTOKEN => some (calltokenGas env)
  | CREATE => some (createGas env)
  | CALL => some (callGas env)
  | CALLCODE => some (callcodeGas env)
  | RETURN => some (returnGas env)
  | DELEGATECALL => some (delegatecallGas env)
  | CREATE2 => some (create2Gas env)
  | STATICCALL => some (delegatecallGas env)
  | REVERT => some (returnGas env)

/-- `handlers.get(code)` -/
def opHandler : FrameOp → FrameM τ Unit
  | KECCAK256 => keccak256Op env
  | CALLDATACOPY => calldatacopy env
  | CODECOPY => codecopy env
  | EXTCODECOPY => extcodecopy env
  | RETURNDATASIZE => returndatasize
  | RETURNDATACOPY => returndatacopy
  | MLOAD => mload
  | MSTORE => mstore
  | MSTORE8 => mstore8
  | MSIZE => msize
  | MCOPY => mcopy
  | LOG topicsCount => logOp env topicsCount
  | CALLTOKEN => calltokenOp env
  | CREATE => createOp env
  | CALL => callOp env
  | CALLCODE => callcodeOp env
  | RETURN => returnOp env
  | DELEGATECALL => delegatecallOp env
  | CREATE2 => create2Op env
  | STATICCALL => staticcallOp env
  | REVERT => revertOp env

end FrameOp

/-- An opcode that sees the stack, the gas and the world, and nothing else of the frame. -/
def onStackAndWorld {α : Type} (x : MachineM τ α) : FrameM τ α := fun m =>
  let (out, m') := x.run ⟨m.stack, m.gasLeft, m.rest.world⟩
  (out, ⟨m'.stack, m'.gasLeft, { m.rest with world := m'.rest }⟩)

/-- The opcode map, the other opcodes given by `others`. -/
def Env.table (others : OpcodeTable τ) : OpcodeTable (FrameState τ) where
  defined := others.defined
  fee := others.fee
  gasHandler code :=
    match FrameOp.ofCode code with
    | some op => op.gasHandler env
    | none => (others.gasHandler code).map fun gasHandler gas => onStackAndWorld (gasHandler gas)
  opHandler code :=
    match FrameOp.ofCode code with
    | some op => op.opHandler env
    | none => onStackAndWorld (others.opHandler code)

end Interpreter

end Tvmjs
