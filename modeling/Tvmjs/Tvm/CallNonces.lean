import Tvmjs.Tvm.CallTrace
import Mathlib.Data.List.Nodup

/-!
# The nonces of a transaction

The nonce of a transaction context is shared by all its frames, and nothing rolls it back.  A
creation within a frame takes its address from the nonce and advances it before anything else can
take one, so a transaction never takes a nonce twice, however its frames end.

* `Throughout` -- the relations of worlds that hold across all that a message can do;
* `Throughout.runNested`, `Throughout.runCall` -- **they hold across a message**, whether it returns
  or throws, by induction on its fuel;
* `Derives` -- the nonces taken go up, from the nonce before to the nonce after;
* `derives_derive` -- a nonce that is taken is below the nonce that is left;
* `derives_runCall` -- **a transaction** takes its nonces in order, so that the addresses of its
  nested creations differ.
-/

namespace Tvmjs

namespace Interpreter

open Prog (Rel)

variable {σ α : Type}

/-! ### Relations that a message keeps -/

/-- Relations of worlds that hold across whatever a message does. -/
structure Throughout (W : World σ → World σ → Prop) : Prop extends Observes W where
  opened : ∀ w message, W w (w.emit (.opened message))
  closed : ∀ w result, W w (w.emit (.closed result))
  /-- A nonce is taken and advanced; only the chain changes in between. -/
  derive : ∀ {w context} (f : Chain σ → Chain σ), w.context = some context →
    W w ((w.emit (.single (.derived context.nonce))).update f).advanceNonce

section Throughout

variable {W : World σ → World σ → Prop} [Std.Refl W] [IsTrans (World σ) W]

private theorem rel_errorOf {x : CallM σ α} (hx : Rel W x) : Rel W (errorOf x) :=
  Rel.tryCatch (Rel.bind hx fun _ => Rel.pure _) fun _ => Rel.pure _

variable (tvm : TVM σ) {interpret : Message → Bytes → CallM σ ExecResult} (message : Message)
variable (hW : Throughout W)

include hW

omit [Std.Refl W] [IsTrans (World σ) W] in
/-- What changes only the chain. -/
theorem Throughout.onWorld {x : CallM σ α} (hx : Rel Silent x) : Rel W x :=
  hx.mono fun _ _ h => hW.silent h

omit [IsTrans (World σ) W] in
theorem Throughout.cleanup : Rel W (tvm.cleanup message) :=
  Rel.ite (hW.onWorld fun _ => ⟨rfl, rfl⟩) (Rel.pure _)

theorem Throughout.executeCall (hinterpret : ∀ code, Rel W (interpret message code))
    (toAddress : ℕ) : Rel W (tvm.executeCall interpret message toAddress) := by
  refine Rel.bind (hW.onWorld fun _ => ⟨rfl, rfl⟩) fun _ => Rel.bind (Rel.gets _) fun account =>
    Rel.bind ?_ fun reduceError => Rel.bind (Rel.gets _) fun recipient =>
    Rel.bind ?_ fun addError => Rel.bind (hW.onWorld fun _ => ⟨rfl, rfl⟩) fun code =>
    Rel.ite (Rel.pure _) ?_
  · exact Rel.ite (Rel.pure _) (rel_errorOf (hW.onWorld (silent_reduceSender _ _)))
  · exact Rel.ite (rel_errorOf (hW.onWorld (silent_addToRecipient _ _ _))) (Rel.pure _)
  · refine Rel.bind ?_ fun result => Rel.bind (hW.cleanup tvm message) fun _ => Rel.pure _
    rcases code with run | code
    · exact hW.onWorld fun _ => ⟨rfl, rfl⟩
    · exact hinterpret code

omit hW in
/-- A creation within a frame takes the nonce of the transaction context. -/
private theorem run_generateAddress {w : World σ} {context : TronTransactionContext} (code : Bytes)
    (hsalt : message.salt = none) (hdepth : message.depth ≠ 0)
    (hcontext : w.context = some context) {toAddress : ℕ}
    (haddress : tvm.generateTronCreateAddress context.rootTransactionId context.nonce =
      .ok toAddress) :
    (tvm.generateAddress message code).run w =
      (.ok toAddress, w.emit (.single (.derived context.nonce))) := by
  rw [TVM.generateAddress, hsalt]
  dsimp only
  rw [Prog.run_bind, Prog.run_gets, hcontext]
  dsimp only
  rw [if_neg hdepth, haddress]
  rfl

/-- A nonce that is taken is advanced before anything else is done, collisions included. -/
theorem Throughout.generateAddress {k : ℕ → Option Account → CallM σ α}
    (hk : ∀ toAddress toAccount, Rel W (k toAddress toAccount)) (code : Bytes)
    (f : ℕ → σ → σ) :
    Rel W (do
      let toAddress ← tvm.generateAddress message code
      Prog.modify (World.updateRest (f toAddress))
      let toAccount ← getAccount toAddress
      advanceNested message
      k toAddress toAccount) := by
  have hadvance : Rel W (advanceNested message : CallM σ Unit) :=
    Rel.ite (fun w => hW.advanceNonce w) (Rel.pure _)
  have hrest : ∀ toAddress, Rel W (do
      Prog.modify (World.updateRest (f toAddress))
      let toAccount ← getAccount toAddress
      advanceNested message
      k toAddress toAccount) := fun toAddress =>
    Rel.bind (hW.onWorld fun _ => ⟨rfl, rfl⟩) fun _ => Rel.bind (Rel.gets _) fun toAccount =>
      Rel.bind hadvance fun _ => hk toAddress toAccount
  intro w
  rcases hsalt : message.salt with _ | salt
  · rcases hcontext : w.context with _ | context
    -- without a transaction context the derivation throws
    · rw [Prog.run_bind, TVM.generateAddress, hsalt]
      dsimp only
      rw [Prog.run_bind, Prog.run_gets, hcontext]
      exact refl_of W w
    · by_cases hdepth : message.depth = 0
      -- a deployment takes the address of its root transaction, and no nonce
      · rw [Prog.run_bind, TVM.generateAddress, hsalt]
        dsimp only
        rw [Prog.run_bind, Prog.run_gets, hcontext]
        dsimp only
        rw [if_pos hdepth]
        exact hrest _ w
      rcases haddress : tvm.generateTronCreateAddress context.rootTransactionId context.nonce with
        e | toAddress
      -- no address is derived, and no nonce is taken
      · rw [Prog.run_bind, TVM.generateAddress, hsalt]
        dsimp only
        rw [Prog.run_bind, Prog.run_gets, hcontext]
        dsimp only
        rw [if_neg hdepth, haddress]
        exact refl_of W w
      · rw [Prog.run_bind, run_generateAddress tvm message code hsalt hdepth hcontext haddress]
        change W w (Prog.run (advanceNested message >>= fun _ => k _ _) _).2
        rw [Prog.run_bind, advanceNested, if_pos (Nat.pos_of_ne_zero hdepth)]
        exact trans_of W (hW.derive _ hcontext) (hk _ _ _)
  -- a salt stands in for the nonce, which still advances
  · rw [TVM.generateAddress, hsalt]
    exact hrest _ w

theorem Throughout.executeCreate (hinterpret : ∀ message' code, message'.depth = message.depth →
      Rel W (interpret message' code)) : Rel W (tvm.executeCreate interpret message) := by
  refine Rel.bind (Rel.gets _) fun account =>
    Rel.bind (hW.onWorld (silent_reduceSender _ _)) fun _ => ?_
  refine hW.generateAddress tvm message (fun toAddress toAccount => ?_) _ _
  refine Rel.ite (Rel.pure _) (Rel.bind (hW.onWorld fun _ => ⟨rfl, rfl⟩) fun _ =>
    Rel.bind (hW.onWorld fun _ => ⟨rfl, rfl⟩) fun _ => Rel.bind (Rel.gets _) fun toAccount =>
    Rel.bind (rel_errorOf (hW.onWorld (silent_addToRecipient _ _ _))) fun errorMessage =>
    Rel.ite (Rel.pure _) (Rel.bind (hinterpret _ _ rfl) fun result => Rel.bind ?_ fun _ =>
    Rel.bind (hW.cleanup tvm message) fun _ => Rel.pure _))
  exact Rel.ite (hW.onWorld fun _ => ⟨rfl, rfl⟩) (Rel.pure _)

theorem Throughout.execute (hinterpret : ∀ message' code, message'.depth = message.depth →
      Rel W (interpret message' code)) : Rel W (tvm.execute interpret message) := by
  have hsettle : ∀ result : ExecResult, Rel W (do
      if result.exceptionError ≠ none then revert else commit
      pure result : CallM σ ExecResult) := fun result =>
    Rel.ite (Rel.bind (hW.onWorld fun _ => ⟨rfl, rfl⟩) fun _ => Rel.pure _)
      (Rel.bind (hW.onWorld fun _ => ⟨rfl, rfl⟩) fun _ => Rel.pure _)
  rw [TVM.execute]
  rcases message.toAddress with _ | toAddress
  · exact Rel.bind (hW.executeCreate tvm message hinterpret) hsettle
  · exact Rel.bind (hW.executeCall tvm message (fun code => hinterpret _ code rfl) _) hsettle

theorem Throughout.rethrow (execution : Bool) (e : Thrown) :
    Rel W (rethrow execution e : CallM σ α) := by
  have hrevert : Rel W (revert : CallM σ Unit) := hW.onWorld fun _ => ⟨rfl, rfl⟩
  have houter : Rel W (revert >>= fun _ => Prog.throw e : CallM σ α) :=
    Rel.bind hrevert fun _ => Rel.throw e
  cases execution with
  | true => exact Rel.bind hrevert fun _ => houter
  | false => exact houter

/-- **A message**, given what its interpreter does: it keeps the relation also when it throws. -/
theorem Throughout._runCall (skipBalance : Bool)
    (hinterpret : ∀ message' code, message'.depth = message.depth →
      Rel W (interpret message' code)) : Rel W (tvm._runCall interpret skipBalance message) := by
  have hcaller : Rel W (callerAccount skipBalance message : CallM σ Unit) :=
    Rel.ite (Rel.bind (Rel.gets _) fun _ => hW.onWorld fun _ => ⟨rfl, rfl⟩) (Rel.pure _)
  have hopen : Rel W (openMessage skipBalance message : CallM σ Unit) :=
    Rel.bind hcaller fun _ => Rel.bind (fun w => hW.opened w message) fun _ =>
      hW.onWorld fun _ => ⟨rfl, rfl⟩
  have hclose : ∀ result, Rel W (closeMessage result : CallM σ ExecResult) := fun result =>
    Rel.bind (fun w => hW.closed w result) fun _ =>
      Rel.bind (hW.onWorld fun _ => ⟨rfl, rfl⟩) fun _ => Rel.pure _
  -- whatever is thrown, the catch clauses only revert the chain
  refine Rel.bind (hW.onWorld fun _ => ⟨rfl, rfl⟩) fun _ =>
    Rel.bind (Rel.tryCatch hopen fun e => hW.rethrow false e) fun _ => Rel.bind ?_ fun result =>
    Rel.tryCatch (hclose result) fun e => hW.rethrow false e
  exact Rel.tryCatch (hW.execute tvm message hinterpret) fun e => hW.rethrow true e

omit [Std.Refl W] [IsTrans (World σ) W] in
/-- **An interpreter**, given what nested messages do. -/
theorem Throughout.runInterpreter {runCall : Message → CallM σ ExecResult}
    (hcalls : ∀ message, Rel W (runCall message)) (turns : ℕ) (code : Bytes) :
    Rel W (tvm.runInterpreter runCall turns message code) := by
  intro w
  have hrun := @Observes.run _ tvm runCall message code W hW.toObserves (fun _ => False)
    (fun message w _ _ => Or.inr (hcalls message w)) turns w
  rw [Prog.run, TVM.runInterpreter]
  generalize run (tvm.frame runCall message code) (startState message w) 0 turns = q at hrun ⊢
  obtain ⟨e, -, hfalse⟩ | hrun := hrun
  · exact hfalse.elim
  · rcases q with s | ⟨_ | error, s⟩ | ⟨error, s⟩
    · exact hrun
    · exact hrun
    · exact hrun
    · exact hrun

theorem Throughout.runNested (fuel : ℕ) (message : Message) :
    Rel W (tvm.runNested fuel message) := by
  induction fuel generalizing message with
  | zero => exact Rel.throw _
  | succ fuel ih =>
    exact hW._runCall tvm message false fun message' code _ =>
      hW.runInterpreter tvm message' ih fuel code

/-- **A message from outside**. -/
theorem Throughout.runCall (fuel : ℕ) (skipBalance : Bool) :
    Rel W (tvm.runCall fuel skipBalance message) :=
  hW._runCall tvm message skipBalance fun message' code _ =>
    hW.runInterpreter tvm message' (hW.runNested tvm fuel) fuel code

end Throughout

/-! ### The nonces of a transaction -/

/-- The nonce of the transaction context. -/
def World.nonce (w : World σ) : ℕ := (w.context.map TronTransactionContext.nonce).getD 0

/-- The nonce an address was derived from. -/
def derivedNonce : CallEvent → Option ℕ
  | .single (.derived nonce) => some nonce
  | _ => none

/-- The nonces that addresses were derived from, the earliest first. -/
def derivedNonces (events : List CallEvent) : List ℕ := events.filterMap derivedNonce

/-- The nonces taken between two worlds of a transaction go up, from the nonce before to the nonce
after. -/
structure Derives (w w' : World σ) (nonces : List ℕ) : Prop where
  root : w'.context.map TronTransactionContext.rootTransactionId =
    w.context.map TronTransactionContext.rootTransactionId
  events : derivedNonces w'.events = derivedNonces w.events ++ nonces
  nonce_le : w.nonce ≤ w'.nonce
  increasing : nonces.Pairwise (· < ·)
  bounds : ∀ nonce ∈ nonces, w.nonce ≤ nonce ∧ nonce < w'.nonce

/-- Some nonces are taken. -/
def DerivesSome (w w' : World σ) : Prop := ∃ nonces, Derives w w' nonces

theorem Derives.nil {w w' : World σ}
    (hroot : w'.context.map TronTransactionContext.rootTransactionId =
      w.context.map TronTransactionContext.rootTransactionId)
    (hevents : derivedNonces w'.events = derivedNonces w.events) (hnonce : w.nonce ≤ w'.nonce) :
    Derives w w' [] where
  root := hroot
  events := by rw [hevents, List.append_nil]
  nonce_le := hnonce
  increasing := List.Pairwise.nil
  bounds _ h := absurd h List.not_mem_nil

/-- Later nonces are above earlier ones. -/
theorem Derives.append {w w' w'' : World σ} {ns ns' : List ℕ} (h : Derives w w' ns)
    (h' : Derives w' w'' ns') : Derives w w'' (ns ++ ns') where
  root := h'.root.trans h.root
  events := by rw [h'.events, h.events, List.append_assoc]
  nonce_le := h.nonce_le.trans h'.nonce_le
  increasing := List.pairwise_append.2 ⟨h.increasing, h'.increasing, fun a ha b hb =>
    lt_of_lt_of_le (h.bounds a ha).2 (h'.bounds b hb).1⟩
  bounds nonce hmem := by
    rcases List.mem_append.1 hmem with hmem | hmem
    · exact ⟨(h.bounds nonce hmem).1, lt_of_lt_of_le (h.bounds nonce hmem).2 h'.nonce_le⟩
    · exact ⟨h.nonce_le.trans (h'.bounds nonce hmem).1, (h'.bounds nonce hmem).2⟩

/-- What is told without taking a nonce. -/
private theorem derivesSome_emit (w : World σ) {e : CallEvent} (he : derivedNonce e = none) :
    DerivesSome w (w.emit e) := by
  refine ⟨[], Derives.nil rfl ?_ le_rfl⟩
  change List.filterMap derivedNonce (w.events ++ [e]) = List.filterMap derivedNonce w.events
  rw [List.filterMap_append, List.filterMap_cons, he, List.filterMap_nil]
  exact List.append_nil _

private theorem nonce_advanceNonce {w : World σ} {context : TronTransactionContext}
    (h : w.context = some context) : w.advanceNonce.nonce = context.nonce + 1 := by
  rw [World.nonce, World.advanceNonce, h]
  rfl

private theorem derivesSome_advanceNonce (w : World σ) : DerivesSome w w.advanceNonce := by
  refine ⟨[], ?_⟩
  rcases hcontext : w.context with _ | context
  · refine Derives.nil ?_ rfl ?_
    · rw [World.advanceNonce, hcontext]
      rfl
    · rw [World.nonce, World.nonce, World.advanceNonce, hcontext]
      exact le_rfl
  · refine Derives.nil ?_ rfl ?_
    · rw [World.advanceNonce, hcontext]
      rfl
    · rw [nonce_advanceNonce hcontext, World.nonce, hcontext]
      exact Nat.le_succ _

/-- **A nonce that is taken** is below the nonce that is left. -/
theorem derives_derive {w : World σ} {context : TronTransactionContext} (f : Chain σ → Chain σ)
    (h : w.context = some context) :
    Derives w ((w.emit (.single (.derived context.nonce))).update f).advanceNonce
      [context.nonce] := by
  have hbefore : w.nonce = context.nonce := by
    rw [World.nonce, h]
    rfl
  have hafter : ((w.emit (.single (.derived context.nonce))).update f).advanceNonce.nonce =
      context.nonce + 1 := nonce_advanceNonce h
  refine ⟨?_, List.filterMap_append, ?_, List.pairwise_singleton _ _, fun nonce hmem => ?_⟩
  · change (Option.map _ w.context).map _ = _
    rw [h]
    rfl
  · rw [hbefore, hafter]
    exact Nat.le_succ _
  · obtain rfl := List.mem_singleton.1 hmem
    rw [hbefore, hafter]
    exact ⟨le_rfl, Nat.lt_succ_self _⟩

private theorem throughout_derivesSome : Throughout (DerivesSome : World σ → World σ → Prop) where
  silent h := by
    obtain ⟨hcontext, hevents⟩ := h
    refine ⟨[], Derives.nil (by rw [hcontext]) (by rw [hevents]) ?_⟩
    rw [World.nonce, World.nonce, hcontext]
  trans h h' := by
    obtain ⟨ns, h⟩ := h
    obtain ⟨ns', h'⟩ := h'
    exact ⟨ns ++ ns', h.append h'⟩
  advanceNonce := derivesSome_advanceNonce
  step w _ _ := derivesSome_emit w rfl
  opened w _ := derivesSome_emit w rfl
  closed w _ := derivesSome_emit w rfl
  derive f h := ⟨_, derives_derive f h⟩

instance : Std.Refl (DerivesSome : World σ → World σ → Prop) :=
  ⟨fun _ => throughout_derivesSome.silent ⟨rfl, rfl⟩⟩

instance : IsTrans (World σ) DerivesSome := ⟨fun _ _ _ => throughout_derivesSome.trans⟩

/-- Where the hash tells the nonces taken apart, the addresses derived from them differ. -/
private theorem Derives.nodup_addresses {w w' : World σ} {nonces : List ℕ} (h : Derives w w' nonces)
    {address : ℕ → Except String ℕ} (haddress : Set.InjOn address {nonce | nonce ∈ nonces}) :
    (nonces.map address).Nodup := by
  have hnodup : nonces.Nodup := h.increasing.imp ne_of_lt
  exact hnodup.map_on fun nonce hnonce nonce' hnonce' => haddress hnonce hnonce'

/-- **A transaction** takes its nonces in order, whatever its code does and however it ends: no
frame that fails gives one back, and no two creations within its frames have one address, as long as
the hash tells the nonces apart that were taken. -/
theorem derives_runCall (tvm : TVM σ) (fuel : ℕ) (skipBalance : Bool) (message : Message)
    (w : World σ) :
    ∃ nonces, Derives w ((tvm.runCall fuel skipBalance message).run w).2 nonces ∧
      ∀ rootTransactionId, Set.InjOn (tvm.generateTronCreateAddress rootTransactionId)
          {nonce | nonce ∈ nonces} →
        (nonces.map (tvm.generateTronCreateAddress rootTransactionId)).Nodup := by
  obtain ⟨nonces, h⟩ := throughout_derivesSome.runCall tvm message fuel skipBalance w
  exact ⟨nonces, h, fun _ => h.nodup_addresses⟩

/-- Two empty creations, before everything is reverted: `PUSH1 0` thrice and `CREATE`, twice, then
`PUSH1 0` twice and `REVERT`. -/
def createTwiceThenRevert : Bytes :=
  [0x60, 0, 0x60, 0, 0x60, 0, 0xf0, 0x60, 0, 0x60, 0, 0x60, 0, 0xf0, 0x60, 0, 0x60, 0, 0xfd]

/-- Both nonces stay taken, and the addresses differ. -/
theorem derives_runCall_twoCreations : ∃ w', w' = ((TVM.bare.runCall 20 false
      (Message.bare createTwiceThenRevert)).run World.bare).2 ∧ Derives World.bare w' [0, 1] ∧
    ([0, 1].map (TVM.bare.generateTronCreateAddress (List.replicate 32 1))).Nodup := by
  have hderived : derivedNonces ((TVM.bare.runCall 20 false
      (Message.bare createTwiceThenRevert)).run World.bare).2.events = [0, 1] := by decide +kernel
  obtain ⟨nonces, h, hdistinct⟩ :=
    derives_runCall TVM.bare 20 false (Message.bare createTwiceThenRevert) World.bare
  obtain rfl : nonces = [0, 1] := (h.events.symm.trans hderived : [] ++ nonces = [0, 1])
  refine ⟨_, rfl, h, hdistinct _ ?_⟩
  have hdiffer : ∀ nonce ∈ [0, 1], ∀ nonce' ∈ [0, 1],
      TVM.bare.generateTronCreateAddress (List.replicate 32 1) nonce =
        TVM.bare.generateTronCreateAddress (List.replicate 32 1) nonce' → nonce = nonce' := by
    decide +kernel
  exact fun nonce hnonce nonce' hnonce' => hdiffer nonce hnonce nonce' hnonce'

end Interpreter

end Tvmjs
