import Tvmjs.Base.Nested
import Tvmjs.Base.Rollback
import Tvmjs.Tvm.FrameRules

/-!
# Messages

The class `TVM` executes a message: `_runCall` opens checkpoints and emits events around
`_executeCall` or `_executeCreate`, which run an interpreter, whose opcodes send messages again.

* `World` -- what the frames of a transaction share: the accounts with their checkpoints, the
  transaction context, which nothing rolls back, and the events that were emitted;
* `TVM` -- what is looked up elsewhere: parameters, precompiles, hashes, and the opcodes that only
  see the stack, the chain and their contract;
* `TVM.executeCall`, `TVM.executeCreate`, `TVM._runCall` -- a message, given an interpreter;
* `TVM.runInterpreter` -- an interpreter, given what sends messages;
* `TVM.runCall` -- both, to a depth of calls and a number of turns.

Logs, refunds and the records of self-destructs are left out.
-/

namespace Tvmjs

namespace Interpreter

/-- A transfer of more than the caller has. -/
def INSUFFICIENT_BALANCE : String := "insufficient balance"

/-- A transfer of more of a token than the caller has. -/
def INSUFFICIENT_TOKEN_BALANCE : String := "insufficient token balance"

/-- A creation at an address that is taken. -/
def CREATE_COLLISION : String := "create collision"

/-- A creation whose code may not be deployed. -/
def INVALID_BYTECODE_RESULT : String := "invalid bytecode deployed"

/-- A creation whose code begins with the byte of the object format. -/
def INVALID_EOF_FORMAT : String := "invalid EOF format"

/-- The largest word. -/
def MAX_INTEGER : ℕ := 2 ^ 256 - 1

/-- `FORMAT` -/
def FORMAT : UInt8 := 0xef

/-- The opcode that ends a contract. -/
def SELFDESTRUCT : UInt8 := 0xff

/-! ### The world of a transaction -/

/-- What is rolled back: the accounts, the code they name by its hash, and the rest. -/
structure Chain (σ : Type) where
  accounts : ℕ → Option Account
  codes : Bytes → Bytes
  rest : σ

/-- `TronTransactionContext` -/
structure TronTransactionContext where
  rootTransactionId : Bytes
  nonce : ℕ

/-- `InterpreterStep` -/
structure Step where
  /-- `opcode.code` -/
  opcode : UInt8
  /-- The topmost item first. -/
  stack : List ℕ
  depth : ℕ
  address : ℕ
  account : Account

/-- What happens within a frame. -/
inductive Happening where
  | step (step : Step)
  /-- An address was derived from a nonce of the transaction context, which no listener is told. -/
  | derived (nonce : ℕ)

/-- The events `beforeMessage` and `afterMessage`, and what happens between them. -/
abbrev CallEvent := Bracket Message ExecResult Happening

/-- `beforeMessage` -/
abbrev CallEvent.beforeMessage (message : Message) : CallEvent := .opened message

/-- `afterMessage` -/
abbrev CallEvent.afterMessage (result : ExecResult) : CallEvent := .closed result

/-- What the frames of a transaction share. -/
structure World (σ : Type) where
  chain : Snapshots (Chain σ)
  context : Option TronTransactionContext
  /-- What was emitted, the earliest first. -/
  events : List CallEvent

/-- Programs on the world. -/
abbrev CallM (σ α : Type) := Prog (World σ) Thrown α

section World

variable {σ α : Type}

/-- `getAccount(address)` -/
def World.getAccount (w : World σ) (address : ℕ) : Option Account :=
  w.chain.current.accounts address

/-- Change the chain. -/
def World.update (f : Chain σ → Chain σ) (w : World σ) : World σ :=
  { w with chain := w.chain.update f }

/-- `putAccount(address, account)` -/
def Chain.putAccount (address : ℕ) (account : Account) (chain : Chain σ) : Chain σ :=
  { chain with accounts := Function.update chain.accounts address (some account) }

/-- The nonce of the transaction context, where there is one, advances. -/
def World.advanceNonce (w : World σ) : World σ :=
  { w with context := w.context.map fun context => { context with nonce := context.nonce + 1 } }

/-- `_emit(event)` -/
def World.emit (e : CallEvent) (w : World σ) : World σ := { w with events := w.events ++ [e] }

/-- The account at an address. -/
def getAccount (address : ℕ) : CallM σ (Option Account) := Prog.gets fun w => w.getAccount address

/-- Stores an account at an address. -/
def putAccount (address : ℕ) (account : Account) : CallM σ Unit :=
  Prog.modify (World.update (Chain.putAccount address account))

/-- Notes an event. -/
def emit (e : CallEvent) : CallM σ Unit := Prog.modify (World.emit e)

/-- `journal.checkpoint()` -/
def checkpoint : CallM σ Unit := Prog.modify fun w => { w with chain := w.chain.checkpoint }

/-- `journal.commit()` -/
def commit : CallM σ Unit := Prog.modify fun w => { w with chain := w.chain.commit }

/-- `journal.revert()` -/
def revert : CallM σ Unit := Prog.modify fun w => { w with chain := w.chain.revert }

/-- A program of the chain; what it throws is no `TVMError`. -/
def onChain (x : Prog (Chain σ) String α) : CallM σ α := fun w =>
  let (out, chain) := (onHost x).run w.chain.current
  (out, w.update fun _ => chain)

/-- `try { ... } catch (e) { errorMessage = e }` -/
def errorOf (x : CallM σ α) : CallM σ (Option String) :=
  (do
    let _ ← x
    pure none).tryCatch fun e =>
      pure (match e with
        | .tvm error => some error
        | .host message => some message)

end World

/-! ### Balances -/

section Balances

variable {σ : Type}

/-- `_reduceSenderBalance(account, message)`, which returns the account as it leaves it. -/
def reduceSenderBalance (account : Account) (message : Message) : CallM σ Account := do
  let account := { account with balance := account.balance - message.value }
  if account.balance < 0 then trap INSUFFICIENT_BALANCE
  else do
    putAccount message.caller account
    pure account

/-- `account.asset[tokenId] = balance` where there is a token. -/
def setToken (account : Account) (tokenId : ℕ) (balance : ℤ) : Account :=
  if tokenId ≠ 0 then { account with asset := Function.update account.asset tokenId (some balance) }
  else account

/-- `_reduceSenderTokenBalance(account, message)` -/
def reduceSenderTokenBalance (account : Account) (message : Message) : CallM σ Unit := do
  if message.tokenValue = 0 then pure ()
  else do
    let newBalance := account.token message.tokenId - message.tokenValue
    if newBalance < 0 then trap INSUFFICIENT_TOKEN_BALANCE
    else putAccount message.caller (setToken account message.tokenId newBalance)

/-- `_addToBalance(toAccount, message)` -/
def addToBalance (toAddress : ℕ) (toAccount : Account) (message : Message) : CallM σ Account := do
  let newBalance := toAccount.balance + message.value
  if newBalance > MAX_INTEGER then trap VALUE_OVERFLOW
  else do
    let toAccount := { toAccount with balance := newBalance }
    putAccount toAddress toAccount
    pure toAccount

/-- `_addToTokenBalance(toAccount, message)` -/
def addToTokenBalance (toAddress : ℕ) (toAccount : Account) (message : Message) : CallM σ Unit := do
  if message.tokenValue = 0 then pure ()
  else do
    let newBalance := toAccount.token message.tokenId + message.tokenValue
    if newBalance > MAX_INT64 then trap VALUE_OVERFLOW
    else putAccount toAddress (setToken toAccount message.tokenId newBalance)

/-- What is sent leaves its sender. -/
def reduceSender (account : Account) (message : Message) : CallM σ Unit := do
  let account ← reduceSenderBalance account message
  reduceSenderTokenBalance account message

/-- What is sent reaches its recipient. -/
def addToRecipient (toAddress : ℕ) (toAccount : Account) (message : Message) : CallM σ Unit := do
  let toAccount ← addToBalance toAddress toAccount message
  addToTokenBalance toAddress toAccount message

end Balances

/-! ### Results -/

/-- `OOGResult(gasLimit)` -/
def OOGResult (gasLimit : ℤ) : ExecResult := ⟨gasLimit, some OUT_OF_GAS, [], none⟩

/-- `INVALID_BYTECODE_RESULT(gasLimit)` -/
def invalidBytecodeResult (gasLimit : ℤ) : ExecResult :=
  ⟨gasLimit, some INVALID_BYTECODE_RESULT, [], none⟩

/-! ### The machine -/

/-- What `message.code` is loaded with. -/
inductive Code (σ : Type) where
  | precompile (run : Bytes → ℤ → Prog (Chain σ) String ExecResult)
  | bytecode (code : Bytes)

/-- Whether there is nothing to run. -/
def Code.isEmpty {σ : Type} : Code σ → Bool
  | .precompile _ => false
  | .bytecode code => code.isEmpty

/-- What the class `TVM` looks up elsewhere. -/
structure TVM (σ : Type) where
  params : Params
  createDataGas : ℕ
  keccak256 : Bytes → Bytes
  /-- The storage of an address is emptied. -/
  clearStorage : ℕ → σ → σ
  addAccessedAddress : ℕ → σ → σ
  /-- `createdAddresses.has(address)` and `createdAddresses.add(address)` -/
  hasCreated : ℕ → σ → Bool
  addCreated : ℕ → σ → σ
  /-- `postMessageCleanup()` -/
  postMessageCleanup : σ → σ
  getPrecompile : ℕ → Option (Bytes → ℤ → Prog (Chain σ) String ExecResult)
  generateTronAddress2 : ℕ → ℕ → Bytes → ℕ
  generateTronContractAddress : Bytes → ℕ → ℕ
  /-- The code hash and the address, as `describeLocation` prints them. -/
  location : Message → Bytes → String
  /-- The other opcodes of a frame. -/
  others : Message → OpcodeTable (Chain σ × Account)

/-- What the opcodes of a frame see of the world. -/
structure FrameWorld (σ : Type) where
  world : World σ
  /-- `_env.contract` -/
  contract : Account
  /-- `_result.returnValue` -/
  returnValue : Option Bytes

section TVM

variable {σ : Type} (tvm : TVM σ)

/-- Change what is neither account nor code. -/
def World.updateRest (f : σ → σ) (w : World σ) : World σ :=
  w.update fun chain => { chain with rest := f chain.rest }

/-- `getCode(address)` -/
def Chain.getCode (chain : Chain σ) (address : ℕ) : Bytes :=
  match chain.accounts address with
  | none => []
  | some account => if account.codeHash = KECCAK256_NULL then [] else chain.codes account.codeHash

/-- `putCode(address, code)` -/
def TVM.putCode (address : ℕ) (code : Bytes) (chain : Chain σ) : Chain σ :=
  let codeHash := tvm.keccak256 code
  let account := (chain.accounts address).getD {}
  { chain with codes := Function.update chain.codes codeHash code }.putAccount address
    { account with codeHash }

/-- `clearStorage(address)` -/
def TVM.clearStorageOf (address : ℕ) (chain : Chain σ) : Chain σ :=
  let account := (chain.accounts address).getD {}
  { chain with rest := tvm.clearStorage address chain.rest }.putAccount address
    { account with storageRoot := KECCAK256_RLP }

/-- `_loadCode(message)` -/
def TVM.loadCode (message : Message) (codeAddress : ℕ) : CallM σ (Code σ) := fun w =>
  (.ok (match message.code with
    | some code => .bytecode code
    | none =>
      match tvm.getPrecompile codeAddress with
      | some run => .precompile run
      | none => .bytecode (w.chain.current.getCode codeAddress)), w)

/-- `generateTronCreateAddress(rootTransactionId, nonce)`: the nonce in eight bytes behind the
transaction id, hashed, and of the hash the last 20 bytes. -/
def TVM.generateTronCreateAddress (rootTransactionId : Bytes) (nonce : ℕ) : Except String ℕ :=
  if rootTransactionId.length ≠ 32 then .error "Expected rootTransactionId to be of length 32"
  else if nonce > MAX_UINT64 then .error "Expected nonce to fit in an unsigned 64-bit integer"
  else
    let nonceBytes : Bytes := (List.range 8).map fun i => UInt8.ofNat (nonce / 256 ^ (7 - i))
    let hash := tvm.keccak256 (rootTransactionId ++ nonceBytes)
    .ok (bytesToBigInt (hash.drop (hash.length - 20)))

/-- `_generateAddress(message)` -/
def TVM.generateAddress (message : Message) (code : Bytes) : CallM σ ℕ := do
  match message.salt with
  | some salt => pure (tvm.generateTronAddress2 message.caller salt code)
  | none => do
    match ← Prog.gets World.context with
    | none => Prog.throw (.host "rootTransactionId is required for TRON address derivation")
    | some context =>
      if message.depth = 0 then
        pure (tvm.generateTronContractAddress context.rootTransactionId message.caller)
      else match tvm.generateTronCreateAddress context.rootTransactionId context.nonce with
        | .error message => Prog.throw (.host message)
        | .ok toAddress => do
          emit (.single (.derived context.nonce))
          pure toAddress

/-- What is done once the interpreter has finished depth 0. -/
def TVM.cleanup (message : Message) : CallM σ Unit :=
  if message.depth = 0 then Prog.modify (World.updateRest tvm.postMessageCleanup) else pure ()

/-- The value of a call leaves its sender; a delegate call carries none. -/
def sendValue (account : Account) (message : Message) : CallM σ (Option String) :=
  if message.delegatecall then pure none else errorOf (reduceSender account message)

/-- The value of a call reaches its recipient; an empty call without a transfer does not create a
missing one. -/
def receiveValue (toAddress : ℕ) (recipient : Option Account) (message : Message) :
    CallM σ (Option String) :=
  let suppliesCode := message.code.any fun code => !code.isEmpty
  if !message.delegatecall ∧
      (recipient.isSome ∨ message.value ≠ 0 ∨ message.tokenValue ≠ 0 ∨ suppliesCode = true) then
    errorOf (addToRecipient toAddress (recipient.getD {}) message)
  else pure none

/-- A precompile, or an interpreter. -/
def runCode (interpret : Message → Bytes → CallM σ ExecResult) (message : Message) :
    Code σ → CallM σ ExecResult
  | .precompile run => onChain (run message.data message.gasLimit)
  | .bytecode code => interpret message code

/-- `_executeCall(message)` -/
def TVM.executeCall (interpret : Message → Bytes → CallM σ ExecResult) (message : Message)
    (toAddress : ℕ) : CallM σ ExecResult := do
  let codeAddress := message.codeAddress.getD toAddress
  Prog.modify (World.updateRest (tvm.addAccessedAddress codeAddress))
  let account ← getAccount message.caller
  let reduceError ← sendValue (account.getD {}) message
  let recipient ← getAccount toAddress
  let addError ← receiveValue toAddress recipient message
  let errorMessage := addError <|> reduceError
  let code ← tvm.loadCode message codeAddress
  if code.isEmpty ∨ errorMessage ≠ none then pure ⟨0, errorMessage, [], none⟩
  else do
    let result ← runCode interpret message code
    tvm.cleanup message
    pure { result with createdAddress := none }

/-- The checks of the code that a creation returns, and its deposit. -/
def TVM.checkCode (gasLimit : ℤ) (result : ExecResult) : ExecResult :=
  let returnFee : ℤ := if result.exceptionError = none then
    (result.returnValue.length * tvm.createDataGas : ℕ) else 0
  let totalGas := result.executionGasUsed + returnFee
  if totalGas ≤ gasLimit then
    if result.returnValue.head? = some FORMAT then invalidBytecodeResult gasLimit
    else { result with executionGasUsed := totalGas }
  else OOGResult gasLimit

/-- The code of a new contract is saved. -/
def TVM.saveCode (toAddress : ℕ) (result : ExecResult) : CallM σ Unit :=
  if result.exceptionError = none ∧ result.returnValue ≠ [] then
    Prog.modify (World.update (tvm.putCode toAddress result.returnValue))
  else pure ()

/-- Whether the account at a new address is in use. -/
def collides (toAccount : Account) : Bool :=
  toAccount.nonce > 0 ∨ toAccount.codeHash ≠ KECCAK256_NULL ∨ toAccount.storageRoot ≠ KECCAK256_RLP

/-- The nonce of the transaction context advances with a nested creation. -/
def advanceNested (message : Message) : CallM σ Unit :=
  if message.depth > 0 then Prog.modify World.advanceNonce else pure ()

/-- `_executeCreate(message)` -/
def TVM.executeCreate (interpret : Message → Bytes → CallM σ ExecResult) (message : Message) :
    CallM σ ExecResult := do
  let account ← getAccount message.caller
  reduceSender (account.getD {}) message
  let code := message.data
  let toAddress ← tvm.generateAddress message code
  Prog.modify (World.updateRest fun rest =>
    tvm.addCreated toAddress (tvm.addAccessedAddress toAddress rest))
  let toAccount ← getAccount toAddress
  advanceNested message
  if collides (toAccount.getD {}) then
    pure ⟨message.gasLimit, some CREATE_COLLISION, [], some toAddress⟩
  else do
    putAccount toAddress (toAccount.getD {})
    Prog.modify (World.update (tvm.clearStorageOf toAddress))
    let toAccount ← getAccount toAddress
    let errorMessage ← errorOf (addToRecipient toAddress
      { toAccount.getD {} with nonce := (toAccount.getD {}).nonce + 1 } message)
    if code = [] ∨ errorMessage ≠ none then pure ⟨0, errorMessage, [], some toAddress⟩
    else do
      let result ← interpret { message with toAddress := some toAddress, data := [] } code
      let result := tvm.checkCode message.gasLimit result
      tvm.saveCode toAddress result
      tvm.cleanup message
      pure { result with createdAddress := some toAddress }

/-- What the catch clause of `_runCall` does with the checkpoints that are open: the execution
checkpoint, when it is, and the outer one. -/
def rethrow {α : Type} (execution : Bool) (e : Thrown) : CallM σ α := do
  if execution then revert else pure ()
  revert
  Prog.throw e

/-- The caller of a transaction, funded where `skipBalance` asks for it, sends its next message. -/
def callerAccount (skipBalance : Bool) (message : Message) : CallM σ Unit := do
  if message.depth = 0 then do
    let account := (← getAccount message.caller).getD {}
    let account := if skipBalance ∧ account.balance < message.value then
      { account with balance := message.value } else account
    putAccount message.caller { account with nonce := account.nonce + 1 }
  else pure ()

/-- A message, within its execution checkpoint: every failed frame reverts its changes. -/
def TVM.execute (interpret : Message → Bytes → CallM σ ExecResult) (message : Message) :
    CallM σ ExecResult := do
  let result ← match message.toAddress with
    | some toAddress => tvm.executeCall interpret message toAddress
    | none => tvm.executeCreate interpret message
  if result.exceptionError ≠ none then revert else commit
  pure result

/-- A message is told, and its execution checkpoint opened. -/
def openMessage (skipBalance : Bool) (message : Message) : CallM σ Unit := do
  callerAccount skipBalance message
  emit (CallEvent.beforeMessage message)
  checkpoint

/-- A result is told, and the outer checkpoint committed. -/
def closeMessage (result : ExecResult) : CallM σ ExecResult := do
  emit (CallEvent.afterMessage result)
  commit
  pure result

/-- `_runCall(opts)` for a message -/
def TVM._runCall (interpret : Message → Bytes → CallM σ ExecResult) (skipBalance : Bool)
    (message : Message) : CallM σ ExecResult := do
  checkpoint
  (openMessage skipBalance message).tryCatch (rethrow false)
  let result ← (tvm.execute interpret message).tryCatch (rethrow true)
  (closeMessage result).tryCatch (rethrow false)

/-! ### The interpreter of a frame -/

/-- Run a program of the world in a frame. -/
def inWorld {α : Type} (x : CallM σ α) : Prog (FrameWorld σ) Thrown α := fun w =>
  let (out, world) := x.run w.world
  (out, { w with world := world })

/-- Change the world in a frame. -/
def FrameWorld.update (f : World σ → World σ) (w : FrameWorld σ) : FrameWorld σ :=
  { w with world := f w.world }

/-- What a frame is run with; `runCall` is `_runCall` of nested messages. -/
def TVM.env (runCall : Message → CallM σ ExecResult) (message : Message) (code : Bytes) :
    Env (FrameWorld σ) where
  params := tvm.params
  address := message.toAddress.getD 0
  caller := message.caller
  callData := message.data
  callValue := message.value
  code := code
  isStatic := message.isStatic
  depth := message.depth
  keccak256 data := bytesToBigInt (tvm.keccak256 data)
  addAccessedAddress address :=
    FrameWorld.update (World.updateRest (tvm.addAccessedAddress address))
  getCode address := Prog.gets fun w => w.world.chain.current.getCode address
  accountExists address := Prog.gets fun w => (w.world.getAccount address).isSome
  contractBalance w := w.contract.balance
  contractTokenBalance w tokenId := w.contract.token tokenId
  contractNonce w := w.contract.nonce
  advanceNonce := FrameWorld.update World.advanceNonce
  advanceContractNonce := Prog.modify fun w =>
    let contract := { w.contract with nonce := w.contract.nonce + 1 }
    { w with
      contract := contract
      world := w.world.update (Chain.putAccount (message.toAddress.getD 0) contract) }
  runCall message := inWorld (runCall message)
  addLogs _ := id
  adopt _ := fun w =>
    match w.world.getAccount (message.toAddress.getD 0) with
    | some account => (.ok (), { w with contract := account })
    | none => (.error "could not read contract account", w)
  pushLog _ _ := id
  setReturnValue data w := { w with returnValue := some data }

/-- An opcode that sees the stack, the gas, the chain and its contract. -/
def onContract {α : Type} (x : MachineM (Chain σ × Account) α) : MachineM (FrameWorld σ) α :=
  fun m =>
    let (out, m') := x.run ⟨m.stack, m.gasLeft, (m.rest.world.chain.current, m.rest.contract)⟩
    (out, ⟨m'.stack, m'.gasLeft, { m.rest with
      world := m.rest.world.update fun _ => m'.rest.1
      contract := m'.rest.2 }⟩)

/-- Change the world of a machine that sees a frame's world. -/
def onWorldOf (f : World σ → World σ) (m : Machine (FrameWorld σ)) : Machine (FrameWorld σ) :=
  ⟨m.stack, m.gasLeft, m.rest.update f⟩

/-- Gas handler of `SELFDESTRUCT`. -/
def TVM.selfdestructGas (message : Message) (gas : ℤ) : MachineM (FrameWorld σ) ℤ := do
  if message.isStatic then trap STATIC_STATE_CHANGE
  else do
    let v ← peek 1
    let beneficiary := createAddressFromStackBigInt (v 0)
    Prog.modify (onWorldOf (World.updateRest (tvm.addAccessedAddress beneficiary)))
    let account ← Prog.gets fun m => m.rest.world.getAccount beneficiary
    pure (if account = none then gas + tvm.params.callNewAccountGas else gas)

/-- What the beneficiary of a self-destruct receives. -/
def received (toAccount fromAccount : Account) (contractBalance : ℤ) : Account :=
  { toAccount with
    balance := toAccount.balance + contractBalance
    asset := fun tokenId =>
      match fromAccount.asset tokenId with
      | some tokenBalance =>
        if tokenBalance > 0 then some ((toAccount.asset tokenId).getD 0 + tokenBalance)
        else toAccount.asset tokenId
      | none => toAccount.asset tokenId }

/-- The accounts after `_selfDestruct(toAddress)`. -/
def TVM.settleSelfDestruct (address toAddress : ℕ) (contract : Account) (chain : Chain σ) :
    Chain σ :=
  let toSelf := toAddress = address
  let chain := if toSelf then chain else
    chain.putAccount toAddress (received ((chain.accounts toAddress).getD {})
      ((chain.accounts address).getD {}) contract.balance)
  let doModify := tvm.hasCreated address chain.rest ∨ ¬toSelf
  if doModify then
    chain.putAccount address
      { (chain.accounts address).getD {} with balance := 0, asset := fun _ => none }
  else chain

/-- Handler of `SELFDESTRUCT`. -/
def TVM.selfdestructOp (message : Message) : MachineM (FrameWorld σ) Unit := do
  let value ← pop
  let toAddress := createAddressFromStackBigInt value
  let contract ← Prog.gets fun m => m.rest.contract
  Prog.modify (onWorldOf World.advanceNonce)
  Prog.modify (onWorldOf (World.update
    (tvm.settleSelfDestruct (message.toAddress.getD 0) toAddress contract)))
  trap STOP

/-- The opcodes which look neither at the memory nor at the return buffer. -/
def TVM.table (message : Message) : OpcodeTable (FrameWorld σ) where
  defined := (tvm.others message).defined
  fee := (tvm.others message).fee
  gasHandler code :=
    if code = SELFDESTRUCT then some (tvm.selfdestructGas message)
    else ((tvm.others message).gasHandler code).map fun gasHandler gas =>
      onContract (gasHandler gas)
  opHandler code :=
    if code = SELFDESTRUCT then tvm.selfdestructOp message
    else onContract ((tvm.others message).opHandler code)

/-- `_runStepHook` -/
def stepHook (message : Message) (opcode : UInt8) : FrameM (FrameWorld σ) Unit :=
  Prog.modify fun m => { m with rest := { m.rest with
    world := m.rest.world.update (World.emit (.single (.step
    { opcode := opcode
      stack := m.stack
      depth := message.depth
      address := message.toAddress.getD 0
      account := m.rest.world.contract }))) } }

/-- The gas of an opcode: its fee, or what its gas handler makes of it. -/
def OpcodeTable.gas {τ : Type} (table : OpcodeTable τ) (opcode : UInt8) (fee : ℤ) : MachineM τ ℤ :=
  match table.gasHandler opcode with
  | some gasHandler => gasHandler fee
  | none => pure fee

/-- An opcode map whose steps are told once their gas is known. -/
def OpcodeTable.hooked {τ : Type} (hook : UInt8 → MachineM τ Unit) (table : OpcodeTable τ) :
    OpcodeTable τ :=
  { table with
    gasHandler := fun code => some fun fee => do
      let gas ← table.gas code fee
      hook code
      pure gas }

/-- The frame of a message. -/
def TVM.frame (runCall : Message → CallM σ ExecResult) (message : Message) (code : Bytes) :
    Frame (FrameState (FrameWorld σ)) where
  table := ((tvm.env runCall message code).table (tvm.table message)).hooked (stepHook message)
  code := code
  codeSize := code.length
  location := tvm.location message code

/-- The interpreter of a message before its first step. -/
def startState (message : Message) (w : World σ) : RunState (FrameState (FrameWorld σ)) where
  programCounter := 0
  opCode := 0
  machine :=
    { stack := []
      gasLeft := message.gasLimit
      rest :=
        { memory := Memory.new
          memoryWordCount := 0
          highestMemCost := 0
          returnBytes := []
          messageGasLimit := none
          events := []
          world :=
            { world := w
              contract := (w.getAccount (message.toAddress.getD 0)).getD {}
              returnValue := none } } }
  shouldDoJumpAnalysis := true
  validJumps := []
  cachedPushes := fun _ => none
  cachedOpcodes := none

/-- What `runInterpreter` makes of the end of a run. -/
def interpreterResult (message : Message) (exceptionError : Option String)
    (m : Machine (FrameState (FrameWorld σ))) : ExecResult where
  executionGasUsed :=
    if exceptionError = none ∨ exceptionError = some REVERT ∨
      exceptionError = some INVALID_EOF_FORMAT then
      message.gasLimit - m.gasLeft
    else message.gasLimit
  exceptionError := exceptionError
  returnValue := m.rest.world.returnValue.getD []
  createdAddress := none

/-- `runInterpreter(message)`, `turns` turns of its loop. -/
def TVM.runInterpreter (runCall : Message → CallM σ ExecResult) (turns : ℕ) (message : Message)
    (code : Bytes) : CallM σ ExecResult := fun w =>
  match run (tvm.frame runCall message code) (startState message w) 0 turns with
  | .running s => (.error (.host "out of turns"), s.machine.rest.world.world)
  | .ended exceptionError s =>
    (.ok (interpreterResult message exceptionError s.machine), s.machine.rest.world.world)
  | .thrown error s => (.error (.host error), s.machine.rest.world.world)

/-- `_runCall` of nested messages: `fuel` bounds the depth of calls and the turns of each frame. -/
def TVM.runNested : ℕ → Message → CallM σ ExecResult
  | 0, _ => Prog.throw (.host "out of fuel")
  | fuel + 1, message =>
    tvm._runCall (tvm.runInterpreter (TVM.runNested fuel) fuel) false message

/-- `runCall(opts)`: a message from outside, at depth 0. -/
def TVM.runCall (fuel : ℕ) (skipBalance : Bool) (message : Message) : CallM σ ExecResult :=
  tvm._runCall (tvm.runInterpreter (tvm.runNested fuel) fuel) skipBalance message

end TVM

/-! ### An empty chain -/

/-- A machine without precompiles, with short addresses, whose other opcodes stop. -/
def TVM.bare : TVM Unit where
  params := paramsTVM
  createDataGas := 200
  keccak256 data := data
  clearStorage _ := id
  addAccessedAddress _ := id
  hasCreated _ _ := false
  addCreated _ := id
  postMessageCleanup := id
  getPrecompile _ := none
  generateTronAddress2 caller salt _ := caller + salt
  generateTronContractAddress _ caller := caller + 1
  location _ _ := ""
  others _ :=
    { defined _ := true
      fee _ := 3
      gasHandler _ := none
      opHandler _ := trap STOP }

/-- A world without accounts, in a transaction. -/
def World.bare : World Unit where
  chain := ⟨⟨fun _ => none, fun _ => [], ()⟩, []⟩
  context := some ⟨List.replicate 32 1, 0⟩
  events := []

/-- Whether a message returned with an exception, or without any. -/
def endsWith (exceptionError : Option String) : Except Thrown ExecResult → Bool
  | .ok result => result.exceptionError == exceptionError
  | .error _ => false

theorem exists_of_endsWith {τ : Type} {exceptionError : Option String}
    {out : Except Thrown ExecResult × τ} (h : endsWith exceptionError out.1 = true) :
    ∃ result w', out = (.ok result, w') ∧ result.exceptionError = exceptionError := by
  obtain ⟨error | result, w'⟩ := out
  · cases h
  · exact ⟨result, w', rfl, eq_of_beq h⟩

/-- A transaction that runs `code`. -/
def Message.bare (code : Bytes) : Message :=
  { caller := 2, toAddress := some 1, gasLimit := 100000, data := [], code := some code,
    depth := 0 }

end Interpreter

end Tvmjs
