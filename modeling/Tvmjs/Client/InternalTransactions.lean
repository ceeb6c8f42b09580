import Mathlib.Data.List.Infix
import Tvmjs.Tvm.CallTrace
import Tvmjs.Util.Hex

/-!
# Internal transactions

While a transaction executes, the node records the frames below it and the contracts that destroy
themselves in one flat list.  Replies and receipts print this list, with the frames that were undone
marked as rejected.

* `captureInternalCalls` -- the record, made from what a run emits, with a stack of open frames;
* `buildInternalTransactions` -- the printed list: hashes along the chain of frames, and one pass
  which spreads rejections;
* `capture_events` -- what is recorded of a forest of frames: **one entry for each frame and each
  self-destruct**, with its innermost frame as its parent;
* `spreadRejected_eq` -- the pass marks exactly the entries **within a frame that failed**;
* `internalTransactions_runCall` -- both, of an execution.
-/

namespace Tvmjs

namespace Interpreter

/-! ### The record -/

/-- `InternalCall`; an address is a number of 160 bits. -/
structure InternalCall where
  caller : ℕ
  /-- `to` -/
  toAddress : Option ℕ
  /-- The frame that made this one, or -1 when the transaction itself did. -/
  parentIndex : ℤ
  valueSun : ℤ
  data : Bytes
  tokenId : Option ℕ := none
  tokenValue : Option ℕ := none
  create : Bool
  create2 : Bool := false
  /-- The frame was made by a contract destroying itself. -/
  suicide : Bool := false
  /-- TRC-10 amounts the frame carries beside its TRX value, by asset id. -/
  tokens : Option (List (ℕ × ℤ)) := none
  rejected : Bool := false

/-- What a record is made with: the entries, and the frames that are open, the innermost first. -/
structure Capture where
  internalTxs : List InternalCall
  frames : List ℤ

/-- The frame from which something is made. -/
def Capture.parentIndex (c : Capture) : ℤ := c.frames.head?.getD (-1)

/-- The entry of a message. -/
def messageCall (message : Message) (parentIndex : ℤ) : InternalCall where
  -- delegate messages inherit their sender and their value without a transfer
  caller := if message.delegatecall then message.toAddress.getD 0 else message.caller
  toAddress := message.toAddress
  parentIndex := parentIndex
  valueSun := if message.delegatecall then 0 else message.value
  data := message.data
  tokenId := if message.tokenId > 0 then some message.tokenId else none
  tokenValue := if message.tokenId > 0 then some message.tokenValue else none
  create := message.toAddress.isNone
  create2 := message.salt.isSome

/-- `onBeforeMessage` -/
def Capture.onBeforeMessage (message : Message) (c : Capture) : Capture :=
  if message.depth = 0 then { c with frames := -1 :: c.frames }
  else { internalTxs := c.internalTxs ++ [messageCall message c.parentIndex]
         frames := c.internalTxs.length :: c.frames }

/-- The entry of a message with its result. -/
def InternalCall.finish (result : ExecResult) (call : InternalCall) : InternalCall :=
  { call with
    rejected := call.rejected || result.exceptionError.isSome
    toAddress := if call.create = true ∧ result.createdAddress.isSome then result.createdAddress
      else call.toAddress }

/-- `onAfterMessage` -/
def Capture.onAfterMessage (result : ExecResult) (c : Capture) : Capture :=
  match c.frames with
  | [] => c
  | index :: frames =>
    if index < 0 then { c with frames := frames }
    else { internalTxs := c.internalTxs.modify index.toNat (InternalCall.finish result)
           frames := frames }

section Record

-- `Object.entries` of the tokens of an account
variable (entries : (ℕ → Option ℤ) → List (ℕ × ℤ))

/-- The tokens an account holds, by their ids. -/
def heldTokens (account : Account) : List (ℕ × ℤ) :=
  ((entries account.asset).filter fun e => decide (0 < e.2)).mergeSort fun a b => decide (a.1 ≤ b.1)

/-- The entry of a contract that destroys itself. -/
def selfdestructCall (step : Step) (parentIndex : ℤ) : InternalCall where
  caller := step.address
  toAddress := some (createAddressFromStackBigInt (step.stack.headD 0))
  parentIndex := parentIndex
  valueSun := step.account.balance
  data := []
  create := false
  suicide := true
  tokens := if heldTokens entries step.account = [] then none
    else some (heldTokens entries step.account)

/-- `onStep`; the slots that are stored to are told to another listener. -/
def Capture.onStep (step : Step) (c : Capture) : Capture :=
  if step.opcode ≠ SELFDESTRUCT ∨ step.stack = [] then c
  else { c with internalTxs := c.internalTxs ++ [selfdestructCall entries step c.parentIndex] }

/-- What the record makes of an event. -/
def Capture.listen (c : Capture) : CallEvent → Capture
  | .opened message => c.onBeforeMessage message
  | .closed result => c.onAfterMessage result
  | .single (.step step) => c.onStep entries step
  | .single (.derived _) => c

/-- `captureInternalCalls` of the events that are emitted until it is detached. -/
def captureInternalCalls (events : List CallEvent) : List InternalCall :=
  (events.foldl (Capture.listen entries) ⟨[], []⟩).internalTxs

end Record

/-! ### The printed list -/

/-- The number `list[index]` of a list, where there is one. -/
def elementAt {α : Type} (l : List α) (index : ℤ) : Option α :=
  if index < 0 then none else l[index.toNat]?

/-- `int64BE(value)` -/
def int64BE (value : ℤ) : Bytes :=
  let held := if value < 0 then value + 2 ^ 64 else value
  (List.range 8).reverse.map fun i => UInt8.ofNat (held / 256 ^ i % 256).toNat

/-- The 21 bytes of `toTronHex(address)`. -/
def tronAddress (address : ℕ) : Bytes :=
  0x41 :: (List.range 20).reverse.map fun i => UInt8.ofNat (address / 256 ^ i)

/-- What an internal transaction is the hash of. -/
def hashBody (parent : Bytes) (call : InternalCall) (index : ℕ) : Bytes :=
  let receiver := if call.create then [] else (call.toAddress.map tronAddress).getD []
  let trxValue := if call.tokenId.getD 0 > 0 then 0 else call.valueSun
  parent ++ receiver ++ call.data ++ int64BE trxValue ++ int64BE ((index : ℤ) + 1)

/-- `internalTxHashes(txID, calls)`; no transaction has the empty id. -/
def internalTxHashes (keccak256 : Bytes → Bytes) (txID : Bytes) (calls : List InternalCall) :
    List Bytes :=
  calls.zipIdx.foldl (fun hashes (call, index) =>
    hashes ++ [keccak256 (hashBody ((elementAt hashes call.parentIndex).getD txID) call index)]) []

/-- An entry of `callValueInfo`. -/
structure CallValueInfo where
  callValue : Option ℤ
  tokenId : Option ℕ

/-- What `internalTxToJSON` prints. -/
structure InternalTransaction where
  hash : HexString
  caller_address : HexString
  transferTo_address : Option HexString
  callValueInfo : List CallValueInfo
  note : HexString
  /-- Printed when it is true. -/
  rejected : Bool
  data : Option HexString

/-- `noteOf(call)` -/
def noteOf (call : InternalCall) : String :=
  if call.suicide then "suicide" else if call.create then "create" else "call"

/-- The hex of the bytes of a word, which are its characters. -/
def fromUtf8 (word : String) : HexString :=
  lowerHex.bytesToHex (word.toList.map fun c => UInt8.ofNat c.toNat)

/-- The tokens an entry carries. -/
def tokensOf (call : InternalCall) : List (ℕ × ℤ) :=
  match call.tokens, call.tokenId with
  | some tokens, _ => tokens
  | none, some tokenId => [(tokenId, (call.tokenValue.getD 0 : ℕ))]
  | none, none => []

/-- An amount is printed unless it is zero. -/
def positive (amount : ℤ) : Option ℤ := if amount > 0 then some amount else none

/-- `internalTxToJSON(hash, call, outerRejected)` -/
def internalTxToJSON (hash : Bytes) (call : InternalCall) (outerRejected : Bool) :
    InternalTransaction where
  hash := lowerHex.bytesToHex hash
  caller_address := lowerHex.bytesToHex (tronAddress call.caller)
  transferTo_address := call.toAddress.map fun address => lowerHex.bytesToHex (tronAddress address)
  callValueInfo := ⟨positive call.valueSun, none⟩ ::
    (tokensOf call).map fun token => ⟨positive token.2, some token.1⟩
  note := fromUtf8 (noteOf call)
  rejected := call.rejected || outerRejected
  data := if call.data = [] then none else some (lowerHex.bytesToHex call.data)

/-- One turn of the pass over the list. -/
def spreadStep (rejected : List Bool) (e : InternalCall × ℕ) : List Bool :=
  if e.1.parentIndex ≥ 0 ∧ elementAt rejected e.1.parentIndex = some true then rejected.set e.2 true
  else rejected

/-- An outer failure rejects its descendants as well as the frame that failed. -/
def spreadRejected (internals : List InternalCall) : List Bool :=
  internals.zipIdx.foldl spreadStep (internals.map InternalCall.rejected)

/-- `buildInternalTransactions(txid, { internalTxs, reverted })` -/
def buildInternalTransactions (keccak256 : Bytes → Bytes) (txid : Bytes)
    (internals : List InternalCall)
    (reverted : Bool) : Option (List InternalTransaction) :=
  if internals = [] then none
  else
    let rejected := spreadRejected internals
    let hashes := internalTxHashes keccak256 txid internals
    some (internals.zipIdx.map fun (call, index) =>
      internalTxToJSON (hashes.getD index []) call (reverted || rejected.getD index false))

/-- The internal transactions of a receipt, and of the reply to a broadcast. -/
def receiptInternals (keccak256 : Bytes → Bytes) (txid : Bytes) (internalTxs : List InternalCall)
    (execResult : ExecResult) : Option (List InternalTransaction) :=
  buildInternalTransactions keccak256 txid internalTxs execResult.exceptionError.isSome

/-- `isRevert(result)`, which reads the text of the error. -/
def isRevert (execResult : ExecResult) : Bool :=
  execResult.exceptionError.any fun error => decide ("revert".toList <:+: error.toList)

/-- The internal transactions of the reply to a constant call, which has no id; a failure other than
a revert is reported without them. -/
def constantInternals (keccak256 : Bytes → Bytes) (internalTxs : List InternalCall)
    (execResult : ExecResult) : Option (List InternalTransaction) :=
  if execResult.exceptionError = none ∨ isRevert execResult = true then
    buildInternalTransactions keccak256 [] internalTxs false
  else none

/-! ### What is recorded -/

/-- What happens within a frame and has an entry. -/
def isSelfdestruct : Happening → Bool
  | .step step => step.opcode == SELFDESTRUCT
  | .derived _ => false

/-- The number of the innermost frame around an entry. -/
def parentOf : List ℕ → ℤ
  | [] => -1
  | j :: _ => j

/-- A frame with its result, or something that happens within one. -/
abbrev Opened := Nested.Entry Message ExecResult Happening

/-- Whether a frame ended with an exception. -/
def failed : Opened → Bool
  | .frame _ result => result.exceptionError.isSome
  | .single _ => false

variable {entries : (ℕ → Option ℤ) → List (ℕ × ℤ)}

variable (entries) in
/-- The entry of a frame, or of a self-destruct. -/
def internalCall : Opened × List ℕ → InternalCall
  | (.frame message result, around) => (messageCall message (parentOf around)).finish result
  | (.single (.step step), around) => selfdestructCall entries step (parentOf around)
  -- no other happening is recorded
  | (.single (.derived _), around) => selfdestructCall entries ⟨0, [], 0, 0, {}⟩ (parentOf around)

private theorem rejected_internalCall (e : Opened × List ℕ) :
    (internalCall entries e).rejected = failed e.1 := by
  obtain ⟨⟨message, result⟩ | ⟨step | nonce⟩, around⟩ := e
  · exact Bool.false_or _
  · rfl
  · rfl

private theorem parentIndex_internalCall (e : Opened × List ℕ) :
    (internalCall entries e).parentIndex = parentOf e.2 := by
  obtain ⟨⟨message, result⟩ | ⟨step | nonce⟩, around⟩ := e
  · rfl
  · rfl
  · rfl

variable {around : List ℕ} {d : ℕ}

private theorem listen_opened {message : Message} (hdepth : message.depth = d + 1) {c : Capture}
    (hparent : c.parentIndex = parentOf around) :
    c.listen entries (.opened message) = ⟨c.internalTxs ++ [messageCall message (parentOf around)],
      c.internalTxs.length :: c.frames⟩ := by
  have hne : message.depth ≠ 0 := by omega
  rw [Capture.listen, Capture.onBeforeMessage, if_neg hne, hparent]

private theorem modify_length_append {α : Type} (f : α → α) (l l' : List α) (a : α) :
    (l ++ a :: l').modify l.length f = l ++ f a :: l' := by
  induction l with
  | nil => rfl
  | cons b l ih => rw [List.cons_append, List.length_cons, List.modify_succ_cons, ih,
      List.cons_append]

/-- The entry of a frame is completed when the frame ends. -/
private theorem listen_closed (result : ExecResult) (calls below : List InternalCall)
    (call : InternalCall)
    (frames : List ℤ) :
    Capture.listen entries ⟨calls ++ call :: below, calls.length :: frames⟩ (.closed result) =
      ⟨calls ++ call.finish result :: below, frames⟩ := by
  have hindex : ¬((calls.length : ℤ) < 0) := by omega
  rw [Capture.listen, Capture.onAfterMessage]
  dsimp only
  rw [if_neg hindex, Int.toNat_natCast, modify_length_append]

private theorem listen_selfdestruct {step : Step} (hopcode : step.opcode = SELFDESTRUCT)
    (hstack : step.stack ≠ []) {c : Capture} (hparent : c.parentIndex = parentOf around) :
    c.listen entries (.single (.step step)) =
      ⟨c.internalTxs ++ [selfdestructCall entries step (parentOf around)], c.frames⟩ := by
  have hnot : ¬(step.opcode ≠ SELFDESTRUCT ∨ step.stack = []) := by
    rintro (hne | hnil)
    · exact hne hopcode
    · exact hstack hnil
  rw [Capture.listen, Capture.onStep, if_neg hnot, hparent]

/-- **What is recorded of a forest of frames**: its frames and self-destructs, in the order they are
opened, each with the innermost frame around it for its parent. -/
theorem capture_events (t : Nested Message ExecResult Happening)
    (ht : t.At AtDepth HasBeneficiary (d + 1)) (c : Capture)
    (hparent : c.parentIndex = parentOf around) :
    t.events.foldl (Capture.listen entries) c = ⟨c.internalTxs ++
      (t.preorder isSelfdestruct c.internalTxs.length around).map (internalCall entries),
        c.frames⟩ := by
  induction t generalizing c around d with
  | nil =>
    rw [Nested.preorder, List.map_nil, List.append_nil]
    rfl
  | single s rest ih =>
    obtain ⟨hs, hrest⟩ := ht
    have hafter := fun calls => ih hrest ⟨calls, c.frames⟩ hparent
    rw [Nested.events, List.foldl_cons, Nested.preorder]
    by_cases hkeep : isSelfdestruct s = true
    · rcases s with step | nonce
      · have hopcode : step.opcode = SELFDESTRUCT := eq_of_beq hkeep
        rw [if_pos hkeep, listen_selfdestruct hopcode (hs hopcode) hparent, hafter]
        rw [List.length_append, List.append_assoc]
        rfl
      · cases hkeep
    · have hskip : c.listen entries (.single s) = c := by
        rcases s with step | nonce
        · have hne : step.opcode ≠ SELFDESTRUCT := fun h => hkeep (beq_of_eq h)
          exact if_pos (Or.inl hne)
        · rfl
      rw [if_neg hkeep, hskip, ih hrest c hparent]
  | frame message inner result rest hinner hrest =>
    obtain ⟨hdepth, hin, hout⟩ := ht
    have hafter := fun calls => hrest hout ⟨calls, c.frames⟩ hparent
    have hframe : Capture.parentIndex ⟨c.internalTxs ++ [messageCall message (parentOf around)],
      c.internalTxs.length :: c.frames⟩ = parentOf (c.internalTxs.length :: around) := rfl
    rw [Nested.events, List.foldl_cons, listen_opened hdepth hparent, List.foldl_append,
      hinner hin _ hframe, List.foldl_cons]
    dsimp only
    rw [List.append_assoc, List.singleton_append, listen_closed, hafter, Nested.preorder]
    dsimp only
    have hbelow : ∀ (call : InternalCall) (below : List (Opened × List ℕ)),
      (c.internalTxs ++ call ::
        below.map (internalCall entries)).length = c.internalTxs.length + 1 + below.length := by
      intro call below
      rw [List.length_append, List.length_cons, List.length_map]
      omega
    rw [List.length_append, List.length_singleton, hbelow, List.map_cons, List.map_append,
      List.append_assoc, List.cons_append]
    rfl

/-! ### What is rejected -/

/-- Whether the entry of a number failed. -/
def failedAt (l : List (Opened × List ℕ)) (j : ℕ) : Bool :=
  (l[j]?.map fun e => failed e.1).getD false

/-- Whether an entry failed, or a frame around it. -/
def undone (l : List (Opened × List ℕ)) (e : Opened × List ℕ) : Bool :=
  failed e.1 || e.2.any (failedAt l)

/-- One turn of the pass: the entries before have been marked. -/
private theorem spreadStep_eq {l₁ l₂ : List (Opened × List ℕ)} {e : Opened × List ℕ}
    (hlinked : Nested.IsLinked (l₁ ++ e :: l₂)) (tail : List Bool) :
    spreadStep (l₁.map (undone (l₁ ++ e :: l₂)) ++ failed e.1 :: tail)
        (internalCall entries e, l₁.length) =
      l₁.map (undone (l₁ ++ e :: l₂)) ++ undone (l₁ ++ e :: l₂) e :: tail := by
  rw [spreadStep]
  dsimp only
  rw [parentIndex_internalCall]
  obtain ⟨opened, around⟩ := e
  rcases around with _ | ⟨j, outer⟩
  · have htop : ¬(parentOf [] ≥ 0 ∧ elementAt (l₁.map (undone (l₁ ++ (opened, []) :: l₂)) ++
        failed opened :: tail) (parentOf []) = some true) := by
      rintro ⟨hnonneg, -⟩
      exact absurd hnonneg (by decide)
    rw [if_neg htop, undone, List.any_nil, Bool.or_false]
  · generalize hl : l₁ ++ (opened, j :: outer) :: l₂ = l at hlinked ⊢
    have hself : l[l₁.length]? = some (opened, j :: outer) := by
      rw [← hl, List.getElem?_append_right (le_refl _), Nat.sub_self]
      rfl
    obtain ⟨hj, message, result, hparent⟩ := hlinked _ _ _ _ hself
    have hbefore : l₁[j]? = some (.frame message result, outer) := by
      rw [← hl, List.getElem?_append_left hj] at hparent
      exact hparent
    have hat : elementAt (l₁.map (undone l) ++ failed opened :: tail) (parentOf (j :: outer)) =
        some (undone l (.frame message result, outer)) := by
      have hnonneg : ¬((j : ℤ) < 0) := by omega
      rw [parentOf, elementAt, if_neg hnonneg, Int.toNat_natCast, List.getElem?_append_left
        (by rwa [List.length_map]), List.getElem?_map, hbefore]
      rfl
    -- what is around an entry is its parent, and what is around its parent
    have hundone : undone l (opened, j :: outer) =
        (failed opened || undone l (.frame message result, outer)) := by
      rw [undone, undone, List.any_cons, failedAt, hparent]
      rfl
    have hnonneg : parentOf (j :: outer) ≥ 0 := Int.natCast_nonneg j
    rw [hat, hundone]
    rcases undone l (.frame message result, outer) with _ | _
    · rw [if_neg (fun h => Bool.false_ne_true (Option.some.inj h.2)), Bool.or_false]
    · rw [if_pos ⟨hnonneg, rfl⟩, Bool.or_true, List.set_eq_modify]
      have hset := modify_length_append (fun _ => true) (l₁.map (undone l)) tail (failed opened)
      rwa [List.length_map] at hset

private theorem foldl_spreadStep {l₁ l₂ : List (Opened × List ℕ)}
    (hlinked : Nested.IsLinked (l₁ ++ l₂)) :
    ((l₂.map (internalCall entries)).zipIdx l₁.length).foldl spreadStep
        (l₁.map (undone (l₁ ++ l₂)) ++ l₂.map fun e => failed e.1) =
      (l₁ ++ l₂).map (undone (l₁ ++ l₂)) := by
  induction l₂ generalizing l₁ with
  | nil => rw [List.map_nil, List.append_nil, List.append_nil]; rfl
  | cons e l₂ ih =>
    have hassoc : l₁ ++ e :: l₂ = l₁ ++ [e] ++ l₂ :=
      by rw [List.append_assoc, List.singleton_append]
    rw [List.map_cons, List.map_cons, List.zipIdx_cons, List.foldl_cons, spreadStep_eq hlinked]
    have hrest := @ih (l₁ ++ [e]) (by rwa [← hassoc])
    rwa [← hassoc, List.map_append, List.map_cons, List.map_nil, List.append_assoc,
      List.singleton_append, List.length_append, List.length_singleton] at hrest

/-- **What the pass marks** are the entries that failed or lie within a frame that did. -/
theorem spreadRejected_eq {l : List (Opened × List ℕ)} (hlinked : Nested.IsLinked l) :
    spreadRejected (l.map (internalCall entries)) = l.map (undone l) := by
  have hmap : (l.map (internalCall entries)).map InternalCall.rejected =
    l.map fun e => failed e.1 := by
    rw [List.map_map]
    exact List.map_congr_left fun e _ => rejected_internalCall e
  rw [spreadRejected, hmap]
  exact @foldl_spreadStep entries [] l hlinked

/-- Whether the printed entry of a number is marked. -/
def rejectedAt (printed : Option (List InternalTransaction)) (n : ℕ) : Option Bool :=
  ((printed.getD [])[n]?).map InternalTransaction.rejected

/-- **What is marked in the printed list.** -/
theorem rejectedAt_buildInternalTransactions {l : List (Opened × List ℕ)}
    (hlinked : Nested.IsLinked l) {n : ℕ} {e : Opened × List ℕ} (hn : l[n]? = some e)
    (keccak256 : Bytes → Bytes) (txid : Bytes) (reverted : Bool) :
    rejectedAt (buildInternalTransactions keccak256 txid
      (l.map (internalCall entries)) reverted) n =
      some (undone l e || reverted) := by
  have hcall : (l.map (internalCall entries))[n]? = some (internalCall entries e) := by
    rw [List.getElem?_map, hn]
    rfl
  have hne : ¬l.map (internalCall entries) = [] := by
    intro hnil
    rw [hnil] at hcall
    cases hcall
  have hundone : (l.map (undone l)).getD n false = undone l e := by
    rw [List.getD_eq_getElem?_getD, List.getElem?_map, hn]
    rfl
  rw [rejectedAt, buildInternalTransactions, if_neg hne, Option.getD_some, List.getElem?_map,
    List.getElem?_zipIdx, hcall, Option.map_some, Option.map_some, Option.map_some]
  dsimp only [internalTxToJSON]
  rw [spreadRejected_eq hlinked, Nat.zero_add, hundone, rejected_internalCall, undone]
  generalize failed e.1 = b
  generalize e.2.any (failedAt l) = b'
  revert b b' reverted
  decide

/-! ### Executions -/

section Execution

variable {σ : Type} (tvm : TVM σ)

/-- What is emitted on the way from one world to another. -/
def emitted (w w' : World σ) : List CallEvent := w'.events.drop w.events.length

/-- The frames below the transaction's own, and the self-destructs. -/
def opensEntry : CallEvent → Bool
  | .opened message => decide (message.depth > 0)
  | .closed _ => false
  | .single happening => isSelfdestruct happening

variable (entries) in
/-- The internal transactions of an execution with the frames of `t` below its own. -/
structure Recorded (log : List CallEvent) (message : Message) (result : ExecResult)
    (t : Nested Message ExecResult Happening) : Prop where
  log_eq : log = .opened message :: (t.events ++ [.closed result])
  /-- One entry for each frame below the transaction's own, and one for each self-destruct. -/
  opening : (t.preorder isSelfdestruct 0 []).map (fun e => e.1.opening) = log.filter opensEntry
  /-- The entries are recorded in this order, each with its innermost frame for its parent. -/
  calls : captureInternalCalls entries log =
    (t.preorder isSelfdestruct 0 []).map (internalCall entries)
  /-- A parent comes before, and is a frame within the other frames around its children. -/
  linked : Nested.IsLinked (t.preorder isSelfdestruct 0 [])
  /-- In replies and receipts an entry is rejected when it failed, or a frame around it, or the
  transaction. -/
  receipt : ∀ keccak256 txid n e, (t.preorder isSelfdestruct 0 [])[n]? = some e →
    rejectedAt (receiptInternals keccak256 txid (captureInternalCalls entries log) result) n =
      some (undone (t.preorder isSelfdestruct 0 []) e || result.exceptionError.isSome)
  /-- In the reply to a constant call, when it failed or a frame around it that is an entry. -/
  constant : result.exceptionError = none ∨ isRevert result = true →
    ∀ keccak256 n e, (t.preorder isSelfdestruct 0 [])[n]? = some e →
      rejectedAt (constantInternals keccak256 (captureInternalCalls entries log) result) n =
        some (undone (t.preorder isSelfdestruct 0 []) e)

/-- **The internal transactions of every execution that returns.** -/
theorem internalTransactions_runCall {fuel : ℕ} {skipBalance : Bool} {message : Message}
    {w w' : World σ} {result : ExecResult} (hdepth : message.depth = 0)
    (hrun : (tvm.runCall fuel skipBalance message).run w = (.ok result, w')) :
    ∃ t, Recorded entries (emitted w w') message result t := by
  obtain ⟨t, ht, hevents⟩ := runCall_events tvm hrun
  have hlog : emitted w w' = .opened message :: (t.events ++ [.closed result]) := by
    rw [emitted, hevents, List.drop_left]
  rw [hdepth, Nat.zero_add] at ht
  have hnone : Nested.IsLinked ([] : List (Opened × List ℕ)) := by
    intro n e j around hn
    rw [List.getElem?_nil] at hn
    cases hn
  have houter : Nested.IsOpen ([] : List (Opened × List ℕ)) [] := by
    intro j outer h
    cases h
  have hlinked : Nested.IsLinked (t.preorder isSelfdestruct 0 []) := t.preorder_linked hnone houter
  have hcalls : captureInternalCalls entries (emitted w w') =
      (t.preorder isSelfdestruct 0 []).map (internalCall entries) := by
    have hopen : Capture.listen entries ⟨[], []⟩ (.opened message) = ⟨[], [-1]⟩ := if_pos hdepth
    rw [captureInternalCalls, hlog, List.foldl_cons, hopen, List.foldl_append,
      capture_events t ht ⟨[], [-1]⟩ (show _ = parentOf [] from rfl)]
    rfl
  refine ⟨t, hlog, ?_, hcalls, hlinked, fun keccak256 txid n e hn => ?_,
    fun hserved keccak256 n e hn => ?_⟩
  · have hroot : ¬opensEntry (.opened message) = true := by
      rw [opensEntry, hdepth]
      decide
    have hsame : t.events.filter opensEntry = t.events.filter (Nested.opens isSelfdestruct) := by
      refine List.filter_congr fun event hevent => ?_
      rcases event with message' | result' | happening
      · obtain ⟨k, hk⟩ := ht.of_mem hevent
        have hbelow : message'.depth = 1 + k := hk
        exact decide_eq_true (by omega)
      · rfl
      · rfl
    rw [Nested.preorder_opening, hlog, List.filter_cons_of_neg hroot, List.filter_append, hsame]
    exact (List.append_nil _).symm
  · rw [receiptInternals, hcalls, rejectedAt_buildInternalTransactions hlinked hn]
  · rw [constantInternals, if_pos hserved, hcalls, rejectedAt_buildInternalTransactions hlinked hn,
      Bool.or_false]

end Execution

/-- An empty creation, before everything is reverted: `PUSH1 0` thrice, `CREATE`, `PUSH1 0` twice,
`REVERT`. -/
def createThenRevert : Bytes := [0x60, 0, 0x60, 0, 0x60, 0, 0xf0, 0x60, 0, 0x60, 0, 0xfd]

theorem internalTransactions_runCall_create :
    ∃ result w' t, (TVM.bare.runCall 12 false (Message.bare createThenRevert)).run World.bare =
        (.ok result, w') ∧ result.exceptionError = some REVERT ∧
      Recorded (fun _ => []) (emitted World.bare w') (Message.bare createThenRevert) result t := by
  obtain ⟨result, w', hrun, hrevert⟩ := exists_of_endsWith
    (show endsWith (some REVERT) ((TVM.bare.runCall 12 false (Message.bare createThenRevert)).run
      World.bare).1 = true by decide +kernel)
  obtain ⟨t, ht⟩ := @internalTransactions_runCall (fun _ => []) Unit TVM.bare _ _ _ _ _ _
    (show (Message.bare createThenRevert).depth = 0 from rfl) hrun
  exact ⟨result, w', t, hrun, hrevert, ht⟩

end Interpreter

end Tvmjs
