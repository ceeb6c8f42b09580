import Mathlib.Order.MinMax
import Tvmjs.Tvm.MemoryGas

/-!
# The cost of memory in a run
Whatever opcodes a frame runs, the gas it paid for memory is what the memory costs that its opcodes
used.

* `runMemoryGas` -- what a run paid for memory;
* `charged_gasOf` -- the gas of an opcode pays for the regions of the opcode, and for nothing else;
* `stepped_opHandler` -- an opcode that was paid for reads and writes what was paid for;
* `Balanced`, `stepped_iterate` -- the recorded word count is the largest that was used, unless a
  step fails between its charge and its use;
* `memoryCost_run` -- **the cost of memory** in every run.
-/

namespace Tvmjs

namespace Interpreter

open Prog (Rel Ensures)

variable {τ α : Type}

/-! ### What the events say -/

/-- The largest number of words an opcode used. -/
def touchedWords : List FrameEvent → ℕ
  | [] => 0
  | .touched regions :: events => max (regionWords regions) (touchedWords events)
  | _ :: events => touchedWords events

/-- The largest number of words up to which bytes were read or written. -/
def accessedWords : List FrameEvent → ℕ
  | [] => 0
  | .accessed offset size :: events => max (memWords offset size) (accessedWords events)
  | _ :: events => accessedWords events

/-- What was accessed reaches as far as noted. -/
private theorem memWords_le_accessedWords {offset size : ℕ} {events : List FrameEvent}
    (h : .accessed offset size ∈ events) : memWords offset size ≤ accessedWords events := by
  induction events with
  | nil => cases h
  | cons e events ih =>
    obtain heq | h := List.mem_cons.1 h
    · rw [← heq]
      exact le_max_left _ _
    · refine (ih h).trans ?_
      cases e with
      | accessed offset' size' => exact le_max_right _ _
      | _ => exact le_rfl

/-! ### Charging -/

variable (p : Params)

/-- What a gas handler keeps. -/
structure Pays (m m' : Machine (FrameState τ)) : Prop where
  stack : m'.stack = m.stack
  metered : Metered p m → Metered p m'
  touched : touchedWords m'.rest.events = touchedWords m.rest.events
  accessed : accessedWords m'.rest.events = accessedWords m.rest.events
  count : m.rest.memoryWordCount ≤ m'.rest.memoryWordCount

variable {p}

/-- **A charge** for a region. -/
theorem pays_subMemUsage (hgas : 0 < p.memoryGas) (offset length : ℕ) :
    Rel (Pays p) (subMemUsage p offset length : FrameM τ ℤ) := by
  intro m
  rw [run_subMemUsage]
  exact ⟨rfl, fun hm => hm.expanded hgas _, rfl, rfl, Meter.le_raise_level p.memCost m.meter _⟩

/-- Gas rules pay for the memory they raise the count by. -/
private theorem charges_pays (env : Env τ) (hgas : 0 < env.params.memoryGas) :
    Charges env fun {_} x => Rel (Pays env.params) x where
  pure _ _ := ⟨rfl, id, rfl, rfl, le_rfl⟩
  bind hx hf :=
    have : IsTrans _ (Pays env.params : Machine (FrameState τ) → Machine (FrameState τ) → Prop) :=
      ⟨fun _ _ _ h h' => ⟨h'.stack.trans h.stack, fun hm => h'.metered (h.metered hm),
        h'.touched.trans h.touched, h'.accessed.trans h.accessed, h.count.trans h'.count⟩⟩
    Rel.bind hx hf
  trap _ _ _ := ⟨rfl, id, rfl, rfl, le_rfl⟩
  gets _ _ := ⟨rfl, id, rfl, rfl, le_rfl⟩
  addAccessedAddress _ _ := ⟨rfl, id, rfl, rfl, le_rfl⟩
  accountExists _ _ := ⟨rfl, id, rfl, rfl, le_rfl⟩
  setMessageGasLimit _ _ := ⟨rfl, id, rfl, rfl, le_rfl⟩
  expand := pays_subMemUsage hgas

/-! ### What a gas handler pays for -/

/-- One region alone. -/
private theorem regionWords_one (offset length : ℕ) :
    regionWords [(offset, length)] = memWords offset length := max_eq_left (Nat.zero_le _)

/-- The further of two regions. -/
private theorem regionWords_two (offset length offset' length' : ℕ) :
    regionWords [(offset, length), (offset', length')] =
      max (memWords offset length) (memWords offset' length') := by
  rw [regionWords, regionWords_one]

section Ensures

variable {β : Type} {Q : β → Machine (FrameState τ) → Prop} {m : Machine (FrameState τ)}

/-- Operands may be read ahead. -/
private theorem ensures_peek {n : ℕ} {f : (ℕ → ℕ) → FrameM τ β} (h : Ensures (f m.operand) Q m) :
    Ensures (peek n >>= f) Q m :=
  Ensures.bind (Ensures.bind (Ensures.gets (Ensures.ite (fun _ => Ensures.throw)
    fun _ => Ensures.pure h)))

/-- An expansion raises the count to the end of its region. -/
private theorem ensures_expand {offset length : ℕ} {f : ℤ → FrameM τ β}
    (h : ∀ cost m', m'.rest.memoryWordCount =
      max m.rest.memoryWordCount (memWords offset length) → Ensures (f cost) Q m') :
    Ensures (subMemUsage p offset length >>= f) Q m := by
  refine Ensures.bind fun cost m' hrun => h cost m' ?_
  rw [run_subMemUsage] at hrun
  obtain ⟨-, rfl⟩ := Prod.mk.inj hrun
  exact expanded_memoryWordCount m _

/-- A program that leaves the word count alone. -/
private theorem ensures_keep {x : FrameM τ α} {f : α → FrameM τ β}
    (hx : Rel (fun m m' => m'.rest.memoryWordCount = m.rest.memoryWordCount) x)
    (h : ∀ a m', m'.rest.memoryWordCount = m.rest.memoryWordCount → Ensures (f a) Q m') :
    Ensures (x >>= f) Q m :=
  Ensures.bind (hx.ensures.mono h)

end Ensures

/-- The world does not count words. -/
private theorem keep_onWorld (x : Prog τ Thrown α) :
    Rel (fun m m' => m'.rest.memoryWordCount = m.rest.memoryWordCount)
      (onWorld x : FrameM τ α) := fun _ => rfl

/-- The gas limit of a message counts no words. -/
private theorem keep_setCallGasLimit (gas : ℤ) (requestedGas : ℕ) :
    Rel (fun m m' => m'.rest.memoryWordCount = m.rest.memoryWordCount)
      (setCallGasLimit gas requestedGas : FrameM τ ℤ) := by
  intro m
  rw [setCallGasLimit, Prog.run_bind, Prog.run_gets]
  dsimp only
  split
  · rfl
  · rfl

variable (env : Env τ)

/-- Nor does the gas of a transfer. -/
private theorem keep_transferGas (toAddress value : ℕ) :
    Rel (fun m m' => m'.rest.memoryWordCount = m.rest.memoryWordCount)
      (transferGas env toAddress value) := by
  intro m
  rw [transferGas]
  split
  · rfl
  · rw [Prog.run_bind]
    rcases hrun : (onWorld (onHost (env.accountExists toAddress))).run m with ⟨_ | exists?, m'⟩
    · have hkeep := keep_onWorld (onHost (env.accountExists toAddress)) m
      rwa [hrun] at hkeep
    · have hkeep := keep_onWorld (onHost (env.accountExists toAddress)) m
      rw [hrun] at hkeep
      dsimp only
      split
      · exact hkeep
      · exact hkeep

/-- The word count after the regions of an opcode were paid for. -/
def Paid (op : FrameOp) (m m' : Machine (FrameState τ)) : Prop :=
  m'.rest.memoryWordCount = max m.rest.memoryWordCount (regionWords (op.regions m.operand))

/-- **What an opcode pays for** with its gas. -/
theorem ensures_gasHandler {op : FrameOp} {gasHandler : ℤ → FrameM τ ℤ}
    (hop : op.gasHandler env = some gasHandler) (gas : ℤ) (m : Machine (FrameState τ)) :
    Ensures (gasHandler gas) (fun _ m' => Paid op m m') m := by
  have hlast : ∀ {x : FrameM τ ℤ} {m' : Machine (FrameState τ)},
      Rel (fun m m' => m'.rest.memoryWordCount = m.rest.memoryWordCount) x →
      Paid op m m' → Ensures x (fun _ m' => Paid op m m') m' :=
    fun hx hpaid => hx.ensures.mono fun _ _ hkeep => hkeep.trans hpaid
  have htwo : ∀ {w offset length offset' length' : ℕ},
      max (max w (memWords offset length)) (memWords offset' length') =
        max w (regionWords [(offset, length), (offset', length')]) := by
    intro w offset length offset' length'
    rw [regionWords_two, max_assoc]
  -- One expansion for each region; nothing else in a gas rule touches the word count.
  cases op with
  | KECCAK256 =>
    obtain rfl := Option.some.inj hop
    exact ensures_peek <| ensures_expand fun _ _ hcount => Ensures.pure (by
      rw [Paid, hcount, FrameOp.regions, regionWords_one])
  | CALLDATACOPY =>
    obtain rfl := Option.some.inj hop
    exact ensures_peek <| ensures_expand fun _ _ hcount => Ensures.pure (by
      rw [Paid, hcount, FrameOp.regions, regionWords_one])
  | CODECOPY =>
    obtain rfl := Option.some.inj hop
    exact ensures_peek <| ensures_expand fun _ _ hcount => Ensures.pure (by
      rw [Paid, hcount, FrameOp.regions, regionWords_one])
  | EXTCODECOPY =>
    obtain rfl := Option.some.inj hop
    exact ensures_peek <| ensures_keep (keep_onWorld _) fun _ _ hkeep =>
      ensures_expand fun _ _ hcount => Ensures.pure (by
      rw [Paid, hcount, hkeep, FrameOp.regions, regionWords_one])
  | RETURNDATASIZE => cases hop
  | RETURNDATACOPY =>
    obtain rfl := Option.some.inj hop
    exact ensures_peek <| ensures_keep (fun _ => rfl) fun _ _ hkeep =>
      Ensures.ite (fun _ => Ensures.throw) fun _ => ensures_expand fun _ _ hcount =>
      Ensures.pure (by rw [Paid, hcount, hkeep, FrameOp.regions, regionWords_one])
  | MLOAD =>
    obtain rfl := Option.some.inj hop
    exact ensures_peek <| ensures_expand fun _ _ hcount => Ensures.pure (by
      rw [Paid, hcount, FrameOp.regions, regionWords_one])
  | MSTORE =>
    obtain rfl := Option.some.inj hop
    exact ensures_peek <| ensures_expand fun _ _ hcount => Ensures.pure (by
      rw [Paid, hcount, FrameOp.regions, regionWords_one])
  | MSTORE8 =>
    obtain rfl := Option.some.inj hop
    exact ensures_peek <| ensures_expand fun _ _ hcount => Ensures.pure (by
      rw [Paid, hcount, FrameOp.regions, regionWords_one])
  | MSIZE => cases hop
  | MCOPY =>
    obtain rfl := Option.some.inj hop
    exact ensures_peek <| ensures_expand fun _ _ hcount => ensures_expand fun _ _ hcount' =>
      Ensures.pure (by rw [Paid, hcount', hcount, FrameOp.regions, htwo])
  | LOG topicsCount =>
    obtain rfl := Option.some.inj hop
    exact Ensures.ite (fun _ => Ensures.throw) fun _ => ensures_peek <|
      ensures_expand fun _ _ hcount => Ensures.pure (by
      rw [Paid, hcount, FrameOp.regions, regionWords_one])
  | CALLTOKEN =>
    obtain rfl := Option.some.inj hop
    exact ensures_peek <| Ensures.ite (fun _ => Ensures.throw) fun _ =>
      ensures_keep (keep_onWorld _) fun _ _ hkeep => ensures_expand fun _ _ hcount =>
      ensures_expand fun _ _ hcount' => ensures_keep (keep_transferGas env _ _) fun _ _ hkeep' =>
      hlast (keep_setCallGasLimit _ _) (by
      rw [Paid, hkeep', hcount', hcount, hkeep, FrameOp.regions, htwo])
  | CREATE =>
    obtain rfl := Option.some.inj hop
    exact Ensures.ite (fun _ => Ensures.throw) fun _ => ensures_peek <|
      ensures_expand fun _ _ hcount => ensures_keep (fun _ => rfl) fun _ _ hkeep =>
      ensures_keep (fun _ => rfl) fun _ _ hkeep' => Ensures.pure (by
      rw [Paid, hkeep', hkeep, hcount, FrameOp.regions, regionWords_one])
  | CALL =>
    obtain rfl := Option.some.inj hop
    exact ensures_peek <| Ensures.ite (fun _ => Ensures.throw) fun _ =>
      ensures_keep (keep_onWorld _) fun _ _ hkeep => ensures_expand fun _ _ hcount =>
      ensures_expand fun _ _ hcount' => ensures_keep (keep_transferGas env _ _) fun _ _ hkeep' =>
      hlast (keep_setCallGasLimit _ _) (by
      rw [Paid, hkeep', hcount', hcount, hkeep, FrameOp.regions, htwo])
  | CALLCODE =>
    obtain rfl := Option.some.inj hop
    exact ensures_peek <| ensures_keep (keep_onWorld _) fun _ _ hkeep =>
      ensures_expand fun _ _ hcount => ensures_expand fun _ _ hcount' =>
      hlast (keep_setCallGasLimit _ _) (by
      rw [Paid, hcount', hcount, hkeep, FrameOp.regions, htwo])
  | RETURN =>
    obtain rfl := Option.some.inj hop
    exact ensures_peek <| ensures_expand fun _ _ hcount => Ensures.pure (by
      rw [Paid, hcount, FrameOp.regions, regionWords_one])
  | DELEGATECALL =>
    obtain rfl := Option.some.inj hop
    exact ensures_peek <| ensures_keep (keep_onWorld _) fun _ _ hkeep =>
      ensures_expand fun _ _ hcount => ensures_expand fun _ _ hcount' =>
      hlast (keep_setCallGasLimit _ _) (by
      rw [Paid, hcount', hcount, hkeep, FrameOp.regions, htwo])
  | REVERT =>
    obtain rfl := Option.some.inj hop
    exact ensures_peek <| ensures_expand fun _ _ hcount => Ensures.pure (by
      rw [Paid, hcount, FrameOp.regions, regionWords_one])
  | CREATE2 =>
    obtain rfl := Option.some.inj hop
    exact Ensures.ite (fun _ => Ensures.throw) fun _ => ensures_peek <|
      ensures_expand fun _ _ hcount => ensures_keep (fun _ => rfl) fun _ _ hkeep =>
      ensures_keep (fun _ => rfl) fun _ _ hkeep' => Ensures.pure (by
      rw [Paid, hkeep', hkeep, hcount, FrameOp.regions, regionWords_one])
  | STATICCALL =>
    obtain rfl := Option.some.inj hop
    exact ensures_peek <| ensures_keep (keep_onWorld _) fun _ _ hkeep =>
      ensures_expand fun _ _ hcount => ensures_expand fun _ _ hcount' =>
      hlast (keep_setCallGasLimit _ _) (by
      rw [Paid, hcount', hcount, hkeep, FrameOp.regions, htwo])

/-! ### What a handler uses -/

/-- What a handler keeps that uses regions of `k` words. -/
structure Used (k : ℕ) (m m' : Machine (FrameState τ)) : Prop where
  count : m'.rest.memoryWordCount = m.rest.memoryWordCount
  highest : m'.rest.highestMemCost = m.rest.highestMemCost
  touched_ge : touchedWords m.rest.events ≤ touchedWords m'.rest.events
  touched_le : touchedWords m'.rest.events ≤ max k (touchedWords m.rest.events)
  accessed : accessedWords m'.rest.events ≤ max k (accessedWords m.rest.events)

/-- A machine whose counts and events are the same. -/
private theorem Used.of_eq {k : ℕ} {m m' : Machine (FrameState τ)}
    (hcount : m'.rest.memoryWordCount = m.rest.memoryWordCount)
    (hhighest : m'.rest.highestMemCost = m.rest.highestMemCost)
    (htouched : touchedWords m'.rest.events = touchedWords m.rest.events)
    (haccessed : accessedWords m'.rest.events = accessedWords m.rest.events) : Used k m m' :=
  ⟨hcount, hhighest, htouched.ge, htouched.le.trans (le_max_right _ _),
    haccessed.le.trans (le_max_right _ _)⟩

/-- What a handler uses is a relation that calls follow. -/
private theorem calls_used (k : ℕ) :
    Calls AnyWorld k (Used k : Machine (FrameState τ) → Machine (FrameState τ) → Prop) where
  world _ := trivial
  refl _ := .of_eq rfl rfl rfl rfl
  trans h h' := by
    refine ⟨h'.count.trans h.count, h'.highest.trans h.highest,
      h.touched_ge.trans h'.touched_ge, ?_, ?_⟩
    · exact h'.touched_le.trans (max_le (le_max_left _ _) h.touched_le)
    · exact h'.accessed.trans (max_le (le_max_left _ _) h.accessed)
  machine _ _ _ := .of_eq rfl rfl rfl rfl
  state _ _ _ _ _ := .of_eq rfl rfl rfl rfl
  touched m regions hk := ⟨rfl, rfl, le_max_right _ _, max_le_max hk le_rfl, le_max_right _ _⟩
  accessed m offset size hk := ⟨rfl, rfl, le_rfl, le_max_right _ _, max_le_max hk le_rfl⟩
  entered _ := .of_eq rfl rfl rfl rfl
  returned _ _ _ := .of_eq rfl rfl rfl rfl
  returnBytes _ _ := .of_eq rfl rfl rfl rfl

/-- What was touched reaches as far as noted. -/
private theorem le_touchedWords {regions : List (ℕ × ℕ)} {events : List FrameEvent}
    (h : .touched regions ∈ events) : regionWords regions ≤ touchedWords events := by
  induction events with
  | nil => cases h
  | cons e events ih =>
    obtain heq | h := List.mem_cons.1 h
    · rw [← heq]
      exact le_max_left _ _
    · refine (ih h).trans ?_
      cases e with
      | touched regions' => exact le_max_right _ _
      | _ => exact le_rfl

/-! ### Between two opcodes -/

/-- An outcome of an opcode with which its frame goes on, or ends without an exception or with
`REVERT`. -/
def Completes : Except Thrown Unit → Prop
  | .ok _ => True
  | .error (.tvm error) => error = STOP ∨ error = REVERT
  | .error (.host _) => False

/-- An outcome that can come before `useGas` has taken the gas of an opcode: its gas handler failed,
the opcode is invalid, or the gas ran out. -/
def Unpaid : Except Thrown Unit → Prop
  | .ok _ => False
  | .error (.tvm error) =>
    error ∈ [STACK_UNDERFLOW, OUT_OF_GAS, STATIC_STATE_CHANGE, INVALID_OPCODE]
  | .error (.host _) => True

/-- A step that fails unpaid does not complete. -/
private theorem Unpaid.not_completes {out : Except Thrown Unit} (h : Unpaid out) :
    ¬Completes out := by
  rcases out with (error | message) | _
  · have hne : ∀ error ∈ [STACK_UNDERFLOW, OUT_OF_GAS, STATIC_STATE_CHANGE, INVALID_OPCODE],
        ¬(error = STOP ∨ error = REVERT) := by decide
    exact hne error h
  · exact id
  · exact h.elim

/-- The memory of a frame between two opcodes. -/
structure Balanced (p : Params) (m : Machine (FrameState τ)) : Prop where
  metered : Metered p m
  touched : touchedWords m.rest.events = m.rest.memoryWordCount
  accessed : accessedWords m.rest.events ≤ m.rest.memoryWordCount

/-- What is left of a machine by an opcode, where `w` words are paid for: what was used lies within
them, they are the recorded word count unless the opcode was not paid for, and the largest number
that was used unless it failed. -/
structure Stepped (p : Params) (w : ℕ) (r : Except Thrown Unit × Machine (FrameState τ)) :
    Prop where
  metered : Metered p r.2
  touched : touchedWords r.2.rest.events ≤ w
  accessed : accessedWords r.2.rest.events ≤ w
  le_count : w ≤ r.2.rest.memoryWordCount
  count : ¬Unpaid r.1 → w = r.2.rest.memoryWordCount
  balanced : Completes r.1 → w = touchedWords r.2.rest.events

/-- Memory within what was paid for stays within it. -/
private theorem Used.metered {k : ℕ} {m m' : Machine (FrameState τ)} (h : Used k m m')
    (hm : Metered p m) :
    Metered p m' := by
  have hmeter : m'.meter = m.meter := Meter.ext h.count h.highest
  rw [Metered, hmeter]
  exact hm

variable {env}

/-- **An opcode that was paid for.** -/
theorem stepped_opHandler {op : FrameOp} {m : Machine (FrameState τ)} (hmetered : Metered p m)
    (haccessed : accessedWords m.rest.events ≤ m.rest.memoryWordCount)
    (hcount : m.rest.memoryWordCount =
      max (touchedWords m.rest.events) (regionWords (op.regions m.operand))) :
    Stepped p m.rest.memoryWordCount ((op.opHandler env).run m) := by
  have hkeeps := env.keeps_anyWorld NoError
  obtain ⟨e, -, hfalse⟩ | ⟨hused, hnoted⟩ :=
    (calls_used (regionWords (op.regions m.operand))).opHandler hkeeps op m le_rfl
  · exact hfalse.elim
  have hle : touchedWords ((op.opHandler env).run m).2.rest.events ≤ m.rest.memoryWordCount := by
    rw [hcount, max_comm]
    exact hused.touched_le
  refine ⟨hused.metered hmetered, hle, ?_, hused.count.ge, fun _ => hused.count.symm,
    fun hcompletes => le_antisymm ?_ hle⟩
  · refine hused.accessed.trans (max_le ?_ haccessed)
    rw [hcount]
    exact le_max_right _ _
  · rw [hcount]
    refine max_le hused.touched_ge ?_
    obtain herror | herror | hnil | ⟨m', hmem, hused'⟩ := hnoted
    · rw [herror] at hcompletes
      exact absurd hcompletes (show ¬(STACK_UNDERFLOW = STOP ∨ STACK_UNDERFLOW = REVERT) by decide)
    · rw [herror] at hcompletes
      exact absurd hcompletes
        (show ¬(STATIC_STATE_CHANGE = STOP ∨ STATIC_STATE_CHANGE = REVERT) by decide)
    · rw [hnil]
      exact Nat.zero_le _
    · exact (le_touchedWords hmem).trans hused'.touched_ge

/-! ### A step -/

/-- A program that fails as a gas handler does. -/
def FailsUnpaid (x : FrameM τ α) : Prop := ∀ m e, (x.run m).1 = .error e → Unpaid (.error e)

/-- A gas rule that fails has taken no gas. -/
private theorem charges_failsUnpaid (env : Env τ) :
    Charges env fun {_} x => FailsUnpaid x where
  pure _ _ _ h := by cases h
  bind {_ _ x f} hx hf m e h := by
    rw [Prog.run_bind] at h
    rcases hrun : x.run m with ⟨e' | a, m'⟩
    · have he : (x.run m).1 = .error e' := by rw [hrun]
      rw [hrun] at h
      cases h
      exact hx m _ he
    · rw [hrun] at h
      exact hf a m' e h
  trap error herror m e h := by
    have hsub : ∀ error ∈ [STACK_UNDERFLOW, OUT_OF_GAS, STATIC_STATE_CHANGE],
        error ∈ [STACK_UNDERFLOW, OUT_OF_GAS, STATIC_STATE_CHANGE, INVALID_OPCODE] := by decide
    cases h
    exact hsub error herror
  gets _ _ _ h := by cases h
  addAccessedAddress _ _ _ h := by cases h
  accountExists address m e h := by
    obtain ⟨message, rfl⟩ := onHost_error (x := env.accountExists address) h
    exact trivial
  setMessageGasLimit _ _ _ h := by cases h
  expand offset length m e h := by
    rw [run_subMemUsage] at h
    cases h

/-- What the gas of an opcode leaves. -/
structure Charged (p : Params) (op : FrameOp) (m m' : Machine (FrameState τ)) : Prop
    extends Pays p m m' where
  paid : Paid op m m'

/-- **The gas of an opcode**, which pays for its regions unless it fails. -/
theorem charged_gasOf (hgas : 0 < env.params.memoryGas) (op : FrameOp) (fee : ℤ)
    (m : Machine (FrameState τ)) :
    (∃ gas m', (op.gasOf env fee).run m = (.ok gas, m') ∧ Charged env.params op m m') ∨
      ∃ e m', (op.gasOf env fee).run m = (.error e, m') ∧ Pays env.params m m' ∧
        Unpaid (.error e) := by
  rw [FrameOp.gasOf]
  rcases hop : op.gasHandler env with _ | gasHandler
  · -- the two opcodes without dynamic gas use no region
    have hregions : op.regions m.operand = [] := by
      cases op <;> first | rfl | cases hop
    refine Or.inl ⟨fee, m, rfl, ⟨⟨rfl, id, rfl, rfl, le_rfl⟩, ?_⟩⟩
    rw [Paid, hregions]
    exact (max_eq_left (Nat.zero_le _)).symm
  · have hpays := (charges_pays env hgas).gasHandler hop fee m
    have hpaid := ensures_gasHandler env hop fee m
    have hfails := (charges_failsUnpaid env).gasHandler hop fee m
    rcases hrun : (gasHandler fee).run m with ⟨e | gas, m'⟩
    · rw [hrun] at hpays hfails
      exact Or.inr ⟨e, m', rfl, hpays, hfails e rfl⟩
    · rw [hrun] at hpays
      exact Or.inl ⟨gas, m', rfl, hpays, hpaid gas m' hrun⟩

/-- A machine whose opcode was not paid for. -/
private theorem Balanced.stepped_of_unpaid {m m' : Machine (FrameState τ)} (h : Balanced p m)
    (hpays : Pays p m m') {out : Except Thrown Unit} (hout : Unpaid out) :
    Stepped p m.rest.memoryWordCount (out, m') :=
  ⟨hpays.metered h.metered, (hpays.touched.trans h.touched).le, hpays.accessed.trans_le h.accessed,
    hpays.count, fun hpaid => absurd hout hpaid,
    fun hcompletes => absurd hcompletes hout.not_completes⟩

variable {others : OpcodeTable τ} {f : Frame (FrameState τ)}

/-- **A step** of an opcode of the memory: it pays for the words it adds. -/
theorem stepped_step (htable : f.table = env.table others) (hgas : 0 < env.params.memoryGas)
    {opInfo : Opcode} {op : FrameOp} (hcode : FrameOp.ofCode opInfo.code = some op)
    {m : Machine (FrameState τ)} (h : Balanced env.params m) :
    ∃ w, Stepped env.params w
        ((op.step env opInfo.isInvalid (f.table.fee opInfo.code)).run m) ∧
      memoryGas f opInfo m =
        env.params.memCost w - env.params.memCost m.rest.memoryWordCount := by
  have hgasOf := gasOf_of_ofCode htable hcode
  rw [FrameOp.step, Prog.run_bind]
  obtain ⟨gas, m₁, hrun, hcharged⟩ | ⟨e, m₁, hrun, hpays, hout⟩ :=
    charged_gasOf hgas op (f.table.fee opInfo.code) m
  · have hrun' : (gasOf f opInfo.code).run m = (.ok gas, m₁) := by rw [hgasOf, hrun]
    rw [hrun]
    dsimp only
    -- an invalid opcode traps before its gas is taken, and so does one that has too little
    by_cases hinvalid : opInfo.isInvalid = true
    · have hunpaid : Unpaid (.error (.tvm INVALID_OPCODE)) :=
        show INVALID_OPCODE ∈ [STACK_UNDERFLOW, OUT_OF_GAS, STATIC_STATE_CHANGE, INVALID_OPCODE] by
          decide
      rw [if_pos hinvalid]
      refine ⟨_, h.stepped_of_unpaid hcharged.toPays hunpaid, ?_⟩
      rw [memoryGas_of_invalid hrun' hinvalid, sub_self]
    · rw [if_neg hinvalid, Prog.run_bind, run_useGas]
      by_cases hgasLeft : m₁.gasLeft - gas < 0
      · have hunpaid : Unpaid (.error (.tvm OUT_OF_GAS)) :=
          show OUT_OF_GAS ∈ [STACK_UNDERFLOW, OUT_OF_GAS, STATIC_STATE_CHANGE, INVALID_OPCODE] by
            decide
        have hpays : Pays env.params m { m₁ with gasLeft := 0 } :=
          ⟨hcharged.stack, hcharged.metered, hcharged.touched, hcharged.accessed, hcharged.count⟩
        rw [if_pos hgasLeft]
        refine ⟨_, h.stepped_of_unpaid hpays hunpaid, ?_⟩
        rw [memoryGas_of_outOfGas hrun' hinvalid hgasLeft, sub_self]
      · have hpaid : m₁.rest.memoryWordCount =
            max m.rest.memoryWordCount (regionWords (op.regions m.operand)) := hcharged.paid
        have hoperand : Machine.operand { m₁ with gasLeft := m₁.gasLeft - gas } = m.operand := by
          funext i
          change m₁.stack.getD i 0 = m.stack.getD i 0
          rw [hcharged.stack]
        -- once the gas is taken the handler may touch what was paid for
        have hstepped : Stepped env.params m₁.rest.memoryWordCount
            ((op.opHandler env).run { m₁ with gasLeft := m₁.gasLeft - gas }) := by
          refine stepped_opHandler (m := { m₁ with gasLeft := m₁.gasLeft - gas })
            (hcharged.metered h.metered)
            (hcharged.accessed.trans_le (h.accessed.trans hcharged.count)) ?_
          rw [hoperand]
          change m₁.rest.memoryWordCount = max (touchedWords m₁.rest.events) _
          rw [hpaid, hcharged.touched, h.touched]
        rw [if_neg hgasLeft]
        refine ⟨_, hstepped, ?_⟩
        rw [memoryGas_of_paid hrun' hinvalid hgasLeft]
        exact memoryGas_of_frameOp htable hgas hcode h.metered hrun' (hpaid ▸ le_max_right _ _)
  · rw [hrun]
    refine ⟨_, h.stepped_of_unpaid hpays hout, ?_⟩
    rw [memoryGas_of_error (by rw [hgasOf, hrun]), sub_self]

/-- The other opcodes pay nothing for memory. -/
private theorem memoryGas_of_other (htable : f.table = env.table others) {opInfo : Opcode}
    (hcode : FrameOp.ofCode opInfo.code = none) (m : Machine (FrameState τ)) :
    memoryGas f opInfo m = 0 := by
  have hcount : ((gasOf f opInfo.code).run m).2.rest.memoryWordCount = m.rest.memoryWordCount := by
    rw [gasOf, htable, Env.gasHandler_other hcode]
    rcases others.gasHandler opInfo.code with _ | gasHandler
    · rfl
    · rfl
  rcases hrun : (gasOf f opInfo.code).run m with ⟨e | gas, m₁⟩
  · exact memoryGas_of_error hrun
  · rw [hrun] at hcount
    by_cases hinvalid : opInfo.isInvalid = true
    · exact memoryGas_of_invalid hrun hinvalid
    · by_cases hgas : m₁.gasLeft - gas < 0
      · exact memoryGas_of_outOfGas hrun hinvalid hgas
      · rw [memoryGas_of_paid hrun hinvalid hgas]
        exact memoryGas_of_count hrun hcount

/-! ### Runs -/

/-- The opcode the next turn of the loop runs. -/
def nextOpInfo {σ : Type} (f : Frame σ) (s : RunState σ) : Option Opcode :=
  match f.code[s.programCounter]? with
  | none => none
  | some byte =>
    match s.cachedOpcodes with
    | none => some (f.table.lookupOpInfo byte)
    | some opcodes => opcodes[s.programCounter]?.join

/-- What the next turn of the loop pays for memory. -/
def stepMemoryGas (f : Frame (FrameState τ)) (s : RunState (FrameState τ)) : ℤ :=
  match nextOpInfo f s with
  | some opInfo => memoryGas f opInfo s.machine
  | none => 0

/-- What `n` turns of the loop pay for memory. -/
def turnsMemoryGas (f : Frame (FrameState τ)) : ℕ → Progress (RunState (FrameState τ)) → ℤ
  | n + 1, .running s => stepMemoryGas f s + turnsMemoryGas f n (iterate f s)
  | _, _ => 0

/-- What `run(code, { pc })` pays for memory in `n` turns of its loop. -/
def runMemoryGas (f : Frame (FrameState τ)) (s : RunState (FrameState τ)) (pc n : ℕ) : ℤ :=
  if pc ≠ 0 ∧ pc ≥ f.code.length then 0
  else turnsMemoryGas f n (.running (resetJumpAnalysis { s with programCounter := pc }))

/-- **A step of the interpreter.** -/
theorem stepped_runStep (htable : f.table = env.table others) (hgas : 0 < env.params.memoryGas)
    (opcodeObj : Option Opcode) {s : RunState (FrameState τ)} {opInfo : Opcode}
    (hinfo : opcodeObj.getD (f.table.lookupOpInfo s.opCode) = opInfo)
    (h : Balanced env.params s.machine) :
    ∃ w, Stepped env.params w
        (((runStep f opcodeObj).run s).1, ((runStep f opcodeObj).run s).2.machine) ∧
      memoryGas f opInfo s.machine =
        env.params.memCost w - env.params.memCost s.machine.rest.memoryWordCount := by
  rcases hcode : FrameOp.ofCode opInfo.code with _ | op
  · -- nothing is charged and nothing is used
    have hused := ((calls_used 0).toUses.step_other
      (others.keeps_anyWorld NoError) htable opcodeObj s
      (by rw [hinfo, hcode])).related
    have htouched : touchedWords ((runStep f opcodeObj).run s).2.machine.rest.events =
        touchedWords s.machine.rest.events :=
      le_antisymm (hused.touched_le.trans (max_le (Nat.zero_le _) le_rfl)) hused.touched_ge
    refine ⟨s.machine.rest.memoryWordCount, ⟨hused.metered h.metered, ?_, ?_, hused.count.ge,
      fun _ => hused.count.symm, fun _ => ?_⟩, ?_⟩
    · exact (htouched.trans h.touched).le
    · exact hused.accessed.trans (max_le (Nat.zero_le _) h.accessed)
    · exact (htouched.trans h.touched).symm
    · rw [memoryGas_of_other htable hcode, sub_self]
  · obtain ⟨hout, hmachine⟩ := runStep_of_ofCode htable opcodeObj s hinfo hcode
    rw [hout, hmachine]
    exact stepped_step htable hgas hcode h

/-- A step after which the frame runs on has been paid. -/
private theorem Stepped.balanced_of_running {w : ℕ} {m : Machine (FrameState τ)}
    (h : Stepped p w (.ok (), m)) : Balanced p m ∧ m.rest.memoryWordCount = w := by
  have hcount : w = m.rest.memoryWordCount := h.count id
  have htouched : w = touchedWords m.rest.events := h.balanced trivial
  exact ⟨⟨h.metered, htouched.symm.trans hcount, h.accessed.trans h.le_count⟩, hcount.symm⟩

/-- A frame without a step has paid for what it has. -/
private theorem Balanced.stepped {m : Machine (FrameState τ)} (h : Balanced p m)
    (out : Except Thrown Unit) : Stepped p m.rest.memoryWordCount (out, m) :=
  ⟨h.metered, h.touched.le, h.accessed, le_rfl, fun _ => rfl, fun _ => h.touched.symm⟩

/-- **A turn of the loop.** -/
theorem stepped_iterate (htable : f.table = env.table others) (hgas : 0 < env.params.memoryGas)
    {s : RunState (FrameState τ)} (h : Balanced env.params s.machine) :
    ∃ w, Stepped env.params w (iterate f s).outcome ∧ stepMemoryGas f s =
      env.params.memCost w - env.params.memCost s.machine.rest.memoryWordCount := by
  rw [iterate, stepMemoryGas, nextOpInfo]
  rcases f.code[s.programCounter]? with _ | byte
  · exact ⟨_, h.stepped _, (sub_self _).symm⟩
  · dsimp only
    rcases s.cachedOpcodes with _ | opcodes
    · dsimp only
      rw [Progress.outcome_ofStep]
      exact stepped_runStep htable hgas none rfl h
    · dsimp only
      rcases opcodes[s.programCounter]? with _ | _ | opInfo
      · exact ⟨_, h.stepped _, (sub_self _).symm⟩
      · exact ⟨_, h.stepped _, (sub_self _).symm⟩
      · dsimp only [Option.join]
        rw [Progress.outcome_ofStep]
        exact stepped_runStep htable hgas (some opInfo) rfl h

/-- What the turns pay telescopes. -/
private theorem stepped_turn (htable : f.table = env.table others) (hgas : 0 < env.params.memoryGas)
    (n : ℕ)
    {q : Progress (RunState (FrameState τ))} {w : ℕ} (h : Stepped env.params w q.outcome) :
    ∃ w', Stepped env.params w' (turn (iterate f) n q).outcome ∧
      turnsMemoryGas f n q = env.params.memCost w' - env.params.memCost w := by
  induction n generalizing q w with
  | zero => exact ⟨w, h, (sub_self _).symm⟩
  | succ n ih =>
    rcases q with s | ⟨exceptionError, s⟩ | ⟨message, s⟩
    · obtain ⟨hbalanced, hcount⟩ := h.balanced_of_running
      obtain ⟨w₁, hstepped, hpaid⟩ := stepped_iterate htable hgas hbalanced
      obtain ⟨w', hturn, hturns⟩ := ih hstepped
      refine ⟨w', hturn, ?_⟩
      rw [turnsMemoryGas, hpaid, hturns, hcount]
      ring
    · exact ⟨w, h, (sub_self _).symm⟩
    · exact ⟨w, h, (sub_self _).symm⟩

/-- The memory of a frame that has not begun. -/
structure Fresh (m : Machine (FrameState τ)) : Prop where
  count : m.rest.memoryWordCount = 0
  highest : m.rest.highestMemCost = 0
  events : m.rest.events = []

/-- No memory costs nothing. -/
private theorem memCost_zero (p : Params) : p.memCost 0 = 0 := by
  rw [Params.memCost, Nat.zero_mul, Nat.zero_mul, Nat.zero_div]

/-- A new frame has nothing to pay for. -/
private theorem Fresh.balanced {m : Machine (FrameState τ)} (h : Fresh m) (p : Params) :
    Balanced p m := by
  refine ⟨?_, ?_, ?_⟩
  · change m.rest.highestMemCost = p.memCost m.rest.memoryWordCount
    rw [h.highest, h.count, memCost_zero]
  · rw [h.events, h.count]
    rfl
  · rw [h.events, h.count]
    rfl

/-- In every run the gas taken for memory is the cost of the words that were paid for. -/
private theorem stepped_run (htable : f.table = env.table others) (hgas : 0 < env.params.memoryGas)
    {s : RunState (FrameState τ)} (hfresh : Fresh s.machine) (pc n : ℕ) :
    ∃ w, Stepped env.params w (run f s pc n).outcome ∧
      runMemoryGas f s pc n = env.params.memCost w := by
  have hbalanced := hfresh.balanced env.params
  have hzero : env.params.memCost s.machine.rest.memoryWordCount = 0 := by
    rw [hfresh.count, memCost_zero]
  rw [run, runMemoryGas]
  split
  · refine ⟨_, hbalanced.stepped _, ?_⟩
    rw [hzero]
    rfl
  · have hstart : Stepped env.params s.machine.rest.memoryWordCount
        (Progress.running (resetJumpAnalysis { s with programCounter := pc })).outcome :=
      hbalanced.stepped (.ok ())
    obtain ⟨w, hstepped, hpaid⟩ := stepped_turn htable hgas n hstart
    refine ⟨w, hstepped, ?_⟩
    rw [hpaid, hzero]
    exact sub_zero _

/-- **The cost of memory** in every run.  What `useGas` took for memory is what `w` words cost; they
are the recorded word count unless the run ended before its last opcode was paid for, and where the
frame goes on, or ends without an exception or with `REVERT`, they are the largest number of words
that was used.  Whatever is read or written lies within them. -/
theorem memoryCost_run (htable : f.table = env.table others) (hgas : 0 < env.params.memoryGas)
    (s : RunState (FrameState τ)) (hfresh : Fresh s.machine) (pc n : ℕ) :
    let r := (run f s pc n).outcome
    ∃ w, runMemoryGas f s pc n = env.params.memCost w ∧
      touchedWords r.2.rest.events ≤ w ∧ w ≤ r.2.rest.memoryWordCount ∧
      (¬Unpaid r.1 → w = r.2.rest.memoryWordCount) ∧
      (Completes r.1 → w = touchedWords r.2.rest.events) ∧
      ∀ offset size, .accessed offset size ∈ r.2.rest.events →
        ∀ i, offset ≤ i → i < offset + size → i < 32 * w ∧ i < 32 * r.2.rest.memoryWordCount := by
  intro r
  obtain ⟨w, h, hpaid⟩ := stepped_run htable hgas hfresh pc n
  refine ⟨w, hpaid, h.touched, h.le_count, h.count, h.balanced, ?_⟩
  intro offset size hmem i hi hi'
  have hwords := (memWords_le_accessedWords hmem).trans h.accessed
  exact ⟨lt_of_memWords_le hwords hi hi', lt_of_memWords_le (hwords.trans h.le_count) hi hi'⟩

/-! ### A run with too few operands -/

/-- An environment with nothing in its world. -/
def Env.bare (code : Bytes) : Env Unit where
  params := paramsTVM
  address := 1
  caller := 2
  callData := []
  callValue := 0
  code := code
  isStatic := false
  depth := 0
  keccak256 _ := 0
  addAccessedAddress _ := id
  getCode _ := pure []
  accountExists _ := pure true
  contractBalance _ := 0
  contractTokenBalance _ _ := 0
  contractNonce _ := 0
  advanceNonce := id
  advanceContractNonce := pure ()
  runCall _ := pure ⟨0, none, [], none⟩
  addLogs _ := id
  adopt _ := pure ()
  pushLog _ _ := id
  setReturnValue _ := id

/-- An opcode map with nothing but the opcodes of the frame and the pushes. -/
def OpcodeTable.bare : OpcodeTable Unit where
  defined _ := true
  fee _ := 3
  gasHandler _ := none
  opHandler _ := trap STOP

/-- `code` run with an empty world. -/
def Frame.bare (code : Bytes) : Frame (FrameState Unit) where
  table := (Env.bare code).table OpcodeTable.bare
  code := code
  codeSize := code.length
  location := ""

/-- A frame of `gasLimit` before its first step. -/
def RunState.bare (gasLimit : ℤ) : RunState (FrameState Unit) where
  programCounter := 0
  opCode := 0
  machine := ⟨[], gasLimit, ⟨Memory.new, 0, 0, [], none, [], ()⟩⟩
  shouldDoJumpAnalysis := true
  validJumps := []
  cachedPushes _ := none
  cachedOpcodes := none

/-- `PUSH1 32 PUSH1 0 MSTORE` pays for one word. -/
theorem memoryCost_run_mstore :
    let r := (run (Frame.bare [0x60, 0x20, 0x60, 0x00, 0x52]) (RunState.bare 100) 0 3).outcome
    runMemoryGas (Frame.bare [0x60, 0x20, 0x60, 0x00, 0x52]) (RunState.bare 100) 0 3 = 3 ∧
      touchedWords r.2.rest.events = 1 ∧ r.2.rest.memoryWordCount = 1 ∧
      ∀ i < 32, i < 32 * r.2.rest.memoryWordCount := by
  have hrun := memoryCost_run (show (Frame.bare [0x60, 0x20, 0x60, 0x00, 0x52]).table =
      (Env.bare [0x60, 0x20, 0x60, 0x00, 0x52]).table OpcodeTable.bare from rfl)
    (by decide) (RunState.bare 100) ⟨rfl, rfl, rfl⟩ 0 3
  obtain ⟨w, hpaid, -, -, hcount, htouched, haccessed⟩ := hrun
  have hone : w = 1 := htouched trivial
  have hwords := hcount id
  rw [hone] at hpaid hwords
  refine ⟨hpaid, (htouched trivial).symm.trans hone, hwords.symm, fun i hi => ?_⟩
  exact (haccessed 0 32 (by decide) i (Nat.zero_le i) (by omega)).2

/-- `PUSH1 0 MSTORE` pays for the word its operand names, and underflows before it uses it. -/
theorem runMemoryGas_underflow :
    let r := (run (Frame.bare [0x60, 0x00, 0x52]) (RunState.bare 100) 0 2).outcome
    r.1 = .error (.tvm STACK_UNDERFLOW) ∧
      runMemoryGas (Frame.bare [0x60, 0x00, 0x52]) (RunState.bare 100) 0 2 ≠
        paramsTVM.memCost (touchedWords r.2.rest.events) := by
  refine ⟨rfl, ?_⟩
  decide

end Interpreter

end Tvmjs
