import Tvmjs.Tvm.Interpreter

/-!
# Jump analysis agrees with plain decoding

`getValidJumpDestinations` fills its three tables in one pass, and `PUSH` skips its immediates by
code of its own.  This file shows that they read the same instructions.

* `getValidJumpDestinations_jumps` -- exactly the `JUMPDEST` bytes at instruction boundaries are
  marked;
* `getValidJumpDestinations_opcodesCached`, `getValidJumpDestinations_pushes` -- an instruction has
  its opcode cached, and a `PUSH` the value of the raw bytes behind it;
* `plainRun` -- the same interpreter without caches: every byte is decoded when it is reached;
* `run_agrees` -- a run with the caches and a run without them give the same result.
-/

namespace Tvmjs

namespace Interpreter

open InstrStream

variable {σ : Type}

/-! ### The tables -/

/-- A position at which decoding `code` from the front expects an opcode. -/
abbrev IsBoundary (code : Bytes) (i : ℕ) : Prop := Boundary bytesToPush code i

/-- The number the raw bytes from `start` on encode, missing bytes being zeros. -/
def immediate (code : Bytes) (start length : ℕ) : ℕ :=
  bytesToBigInt (setLengthRight (subarray code start (start + length)) length)

section Tables

variable (table : OpcodeTable σ) {code : Bytes} {i j : ℕ} {b : UInt8}

/-- The entries a visit of position `i` writes: the opcode and the mark at `i`, the value behind
it. -/
def JumpAnalysis.entry (a : JumpAnalysis) (i : ℕ) :
    Option (Option Opcode) × Option UInt8 × Option ℕ :=
  (a.opcodesCached[i]?, a.jumps[i]?, a.pushes (i + 1))

private theorem JumpAnalysis.entry_visit_of_ne (a : JumpAnalysis) (hne : j ≠ i) :
    (a.visit table code i b).entry j = a.entry j := by
  have hne' : ¬ j + 1 = i + 1 := by omega
  simp only [entry, visit]
  split
  · simp [List.getElem?_set_ne hne.symm, hne]
  · split <;> simp [List.getElem?_set_ne hne.symm]

private theorem JumpAnalysis.entry_visit (a : JumpAnalysis) (ho : a.opcodesCached[i]? = some none)
    (hj : a.jumps[i]? = some 0) :
    (a.visit table code i b).entry i =
      (some (some (table.lookupOpInfo b)), some (if b = JUMPDEST then 1 else 0),
        if isPush b then some (immediate code (i + 1) (bytesToPush b)) else a.pushes (i + 1)) := by
  obtain ⟨hio, -⟩ := List.getElem?_eq_some_iff.1 ho
  obtain ⟨hij, hzero⟩ := List.getElem?_eq_some_iff.1 hj
  simp only [entry, visit]
  split
  · rename_i hpush
    have hdest : b ≠ JUMPDEST := by
      rintro rfl
      exact absurd hpush (by decide)
    have hstop : i + b.toNat - 0x5e = i + 1 + bytesToPush b := by
      have hlo : (0x60 : UInt8).toNat ≤ b.toNat := by
        simp only [isPush, Bool.and_eq_true, decide_eq_true_eq] at hpush
        exact hpush.1
      rw [bytesToPush, if_pos hpush]
      change 96 ≤ b.toNat at hlo
      omega
    rw [if_neg hdest, hj, immediate, hstop]
    simp [hio]
  · split <;> simp [hio, hij, hzero]

/-- A visit writes the entry of its own position only. -/
private theorem entry_visit_frame (a : JumpAnalysis) (i : ℕ) (b : UInt8) (j : ℕ) (hne : j ≠ i) :
    (JumpAnalysis.visit table code a i b).entry j = a.entry j := a.entry_visit_of_ne table hne

/-- What the pass wrote for an instruction. -/
private theorem entry_getValidJumpDestinations (hi : IsBoundary code i) (hb : code[i]? = some b) :
    (getValidJumpDestinations table code).entry i =
      (some (some (table.lookupOpInfo b)), some (if b = JUMPDEST then 1 else 0),
        if isPush b then some (immediate code (i + 1) (bytesToPush b)) else none) := by
  obtain ⟨hlt, -⟩ := List.getElem?_eq_some_iff.1 hb
  obtain ⟨a, hbefore, hafter⟩ := scan_entry_of_boundary (entry_visit_frame table) hi hb
    { jumps := List.replicate code.length 0
      pushes := fun _ => none
      opcodesCached := List.replicate code.length none }
  simp only [JumpAnalysis.entry, Prod.mk.injEq] at hbefore
  obtain ⟨ho, hj, hp⟩ := hbefore
  rw [getValidJumpDestinations, hafter, a.entry_visit table, hp]
  · rw [ho]
    simp [hlt]
  · rw [hj]
    simp [hlt]

/-- What the pass left of a position which is no instruction. -/
private theorem entry_getValidJumpDestinations_of_not
    (hi : ¬ (IsBoundary code i ∧ i < code.length)) :
    (getValidJumpDestinations table code).entry i =
      ((List.replicate code.length none)[i]?, (List.replicate code.length 0)[i]?, none) :=
  scan_entry_of_not_boundary (entry_visit_frame table) hi _

/-- An instruction has its opcode cached. -/
theorem getValidJumpDestinations_opcodesCached (hi : IsBoundary code i) (hb : code[i]? = some b) :
    (getValidJumpDestinations table code).opcodesCached[i]? = some (some (table.lookupOpInfo b)) :=
  congrArg Prod.fst (entry_getValidJumpDestinations table hi hb)

/-- A `PUSH` has the number its raw bytes encode cached, cut off by the end of the code or not. -/
theorem getValidJumpDestinations_pushes (hi : IsBoundary code i) (hb : code[i]? = some b)
    (hpush : isPush b) :
    (getValidJumpDestinations table code).pushes (i + 1) =
      some (immediate code (i + 1) (bytesToPush b)) := by
  have h := congrArg (fun e => e.2.2) (entry_getValidJumpDestinations table hi hb)
  simpa only [JumpAnalysis.entry, hpush, if_true] using h

/-- **Jump destinations.**  Exactly the `JUMPDEST` bytes at instruction boundaries are marked. -/
theorem getValidJumpDestinations_jumps :
    (getValidJumpDestinations table code).jumps[i]? = some 1 ↔
      IsBoundary code i ∧ code[i]? = some JUMPDEST := by
  constructor
  · intro h
    have hi : IsBoundary code i ∧ i < code.length := by
      by_contra hi
      have hnone := congrArg (fun e => e.2.1) (entry_getValidJumpDestinations_of_not table hi)
      simp only [JumpAnalysis.entry, h, List.getElem?_replicate] at hnone
      split at hnone <;> simp at hnone
    obtain ⟨hi, hlt⟩ := hi
    have hb : code[i]? = some code[i] := List.getElem?_eq_getElem hlt
    have hmark := congrArg (fun e => e.2.1) (entry_getValidJumpDestinations table hi hb)
    simp only [JumpAnalysis.entry, h, Option.some.injEq] at hmark
    split at hmark
    · rename_i hdest
      exact ⟨hi, hdest ▸ hb⟩
    · simp at hmark
  · rintro ⟨hi, hb⟩
    exact congrArg (fun e => e.2.1) (entry_getValidJumpDestinations table hi hb)

end Tables

/-! ### Decoding without caches -/

/-- The state of a run which caches nothing. -/
structure PlainState (σ : Type) where
  programCounter : ℕ
  machine : Machine σ

/-- Programs on such a state. -/
abbrev PlainM (σ α : Type) := Prog (PlainState σ) Thrown α

/-- Whether decoding from the front finds a `JUMPDEST` at `dest`. -/
def isJumpDest (code : Bytes) (dest : ℕ) : Bool :=
  (dest, JUMPDEST) ∈ sweep bytesToPush 0 0 code

private theorem isJumpDest_iff {code : Bytes} {dest : ℕ} :
    isJumpDest code dest ↔ IsBoundary code dest ∧ code[dest]? = some JUMPDEST := by
  rw [isJumpDest, decide_eq_true_iff, mem_sweep_iff]

variable (f : Frame σ)

/-- Run a program on the machine. -/
def plainMachine {α : Type} (x : MachineM σ α) : PlainM σ α := fun s =>
  let (out, m) := x.run s.machine
  (out, { s with machine := m })

/-- Jump to a destination which decoding from the front finds. -/
def plainJumpTo (dest : ℕ) : PlainM σ Unit := do
  let s ← Prog.gets id
  if dest > f.codeSize ∨ !isJumpDest f.code dest then
    trap (INVALID_JUMP ++ " at " ++ describeLocation f s.programCounter)
  else Prog.modify fun s => { s with programCounter := dest }

/-- The handler of an opcode, its immediates decoded from the code. -/
def plainHandler (opcode : UInt8) : PlainM σ Unit := do
  if opcode = JUMP then do
    let dest ← plainMachine pop
    plainJumpTo f dest
  else if opcode = JUMPI then do
    let (dest, cond) ← plainMachine pop2
    if cond ≠ 0 then plainJumpTo f dest else pure ()
  else if opcode = PC then do
    let s ← Prog.gets id
    plainMachine (push (s.programCounter - 1))
  else if opcode = JUMPDEST then pure ()
  else if isPush opcode then do
    let s ← Prog.gets id
    plainMachine (push (immediate f.code s.programCounter (bytesToPush opcode)))
    Prog.modify fun s => { s with programCounter := s.programCounter + bytesToPush opcode }
  else plainMachine (f.table.opHandler opcode)

/-- One step, the opcode looked up by its byte. -/
def plainStep (byte : UInt8) : PlainM σ Unit := do
  let opInfo := f.table.lookupOpInfo byte
  let gas ← plainMachine (gasOf f opInfo.code)
  if opInfo.isInvalid then trap INVALID_OPCODE
  else do
    plainMachine (useGas gas)
    Prog.modify fun s => { s with programCounter := s.programCounter + 1 }
    plainHandler f opInfo.code

/-- One turn of the loop. -/
def plainIterate (s : PlainState σ) : Progress (PlainState σ) :=
  match f.code[s.programCounter]? with
  | none => .ended none s
  | some byte => .ofStep ((plainStep f byte).run s)

/-- `n` turns from `pc` on. -/
def plainRun (m : Machine σ) (pc n : ℕ) : Progress (PlainState σ) :=
  if pc ≠ 0 ∧ pc ≥ f.code.length then
    .thrown "Internal error: program counter not in range" ⟨pc, m⟩
  else turn (plainIterate f) n (.running ⟨pc, m⟩)

/-! ### The two runs side by side -/

variable {f}

/-- The caches are either not in use or filled from the code. -/
def CacheFilled (f : Frame σ) (s : RunState σ) : Prop :=
  let a := getValidJumpDestinations f.table f.code
  s.cachedOpcodes = some a.opcodesCached ∧ s.shouldDoJumpAnalysis = false ∧
    s.validJumps = a.jumps ∧ s.cachedPushes = a.pushes

/-- The frame begins without an analysis of its code. -/
def CacheUnused (s : RunState σ) : Prop := s.cachedOpcodes = none ∧ s.shouldDoJumpAnalysis = true

/-- The invariant of a run: it stands at an instruction boundary, with caches one may rely on. -/
structure Coherent (f : Frame σ) (s : RunState σ) : Prop where
  boundary : IsBoundary f.code s.programCounter
  cache : CacheUnused s ∨ CacheFilled f s

/-- Two outcomes of a step: the same value or error, the same machine, and, unless a push found the
stack full, the same program counter; after a return the invariant holds again. -/
structure Matches (f : Frame σ) (out : Except Thrown Unit × RunState σ)
    (plain : Except Thrown Unit × PlainState σ) : Prop where
  outcome : out.1 = plain.1
  machine : out.2.machine = plain.2.machine
  programCounter : out.1 ≠ .error (.tvm STACK_OVERFLOW) →
    out.2.programCounter = plain.2.programCounter
  coherent : out.1 = .ok () → Coherent f out.2

private theorem run_plainMachine {α : Type} (x : MachineM σ α) (s : PlainState σ) :
    (plainMachine x).run s = ((x.run s.machine).1, { s with machine := (x.run s.machine).2 }) := rfl

private theorem run_push (value : ℕ) (m : Machine σ) :
    (push value).run m = if m.stack.length ≥ MAX_HEIGHT then (.error (.tvm STACK_OVERFLOW), m)
      else (.ok (), { m with stack := value :: m.stack }) := by
  rw [push, Prog.run_bind, Prog.run_gets]
  dsimp only
  split <;> rfl

/-- Both machines take the same step, and go on together when it returns. -/
theorem Matches.bind {α : Type} (x : MachineM σ α) {k : α → RunM σ Unit} {k' : α → PlainM σ Unit}
    {s : RunState σ} {p : PlainState σ} (hm : s.machine = p.machine)
    (hpc : s.programCounter = p.programCounter)
    (hk : ∀ a m, x.run s.machine = (.ok a, m) →
      Matches f ((k a).run { s with machine := m }) ((k' a).run { p with machine := m })) :
    Matches f ((onMachine x >>= k).run s) ((plainMachine x >>= k').run p) := by
  rw [Prog.run_bind, Prog.run_bind, run_onMachine, run_plainMachine, ← hm]
  rcases hx : x.run s.machine with ⟨e | a, m⟩
  · exact ⟨rfl, rfl, fun _ => hpc, fun h => by cases h⟩
  · exact hk a m hx

/-- A handler which changes the machine only ends at the boundary it stands at. -/
theorem Matches.last (x : MachineM σ Unit) {s : RunState σ} {p : PlainState σ}
    (hm : s.machine = p.machine) (hpc : s.programCounter = p.programCounter)
    (hs : Coherent f s) : Matches f ((onMachine x).run s) ((plainMachine x).run p) := by
  rw [run_onMachine, run_plainMachine, ← hm]
  exact ⟨rfl, rfl, fun _ => hpc, fun _ => ⟨hs.boundary, hs.cache⟩⟩

/-- A jump goes where decoding from the front finds a destination. -/
theorem Matches.jumpTo {s : RunState σ} {p : PlainState σ} (hm : s.machine = p.machine)
    (hpc : s.programCounter = p.programCounter) (hs : CacheFilled f s) (dest : ℕ) :
    Matches f ((jumpTo f dest).run s) ((plainJumpTo f dest).run p) := by
  obtain ⟨hopcodes, hdone, hjumps, hpushes⟩ := hs
  have hvalid : jumpIsValid s dest = isJumpDest f.code dest := by
    rw [Bool.eq_iff_iff, isJumpDest_iff, ← getValidJumpDestinations_jumps f.table, jumpIsValid,
      hjumps, decide_eq_true_iff]
  simp only [Interpreter.jumpTo, plainJumpTo, Prog.run_bind, Prog.run_gets, id, hvalid]
  split
  · rename_i hsize
    rw [if_pos (.inl hsize), hpc]
    exact ⟨rfl, hm, fun _ => hpc, fun h => by cases h⟩
  · rename_i hsize
    split
    · rename_i hno
      rw [if_pos (.inr hno), hpc]
      exact ⟨rfl, hm, fun _ => hpc, fun h => by cases h⟩
    · rename_i hyes
      rw [if_neg (not_or.2 ⟨hsize, hyes⟩)]
      have hdest : isJumpDest f.code dest = true := by simpa using hyes
      exact ⟨rfl, hm, fun _ => rfl, fun _ =>
        ⟨(isJumpDest_iff.1 hdest).1, .inr ⟨hopcodes, hdone, hjumps, hpushes⟩⟩⟩

/-- The handlers agree, whichever of the two ways a `PUSH` takes. -/
theorem Matches.opHandler {s : RunState σ} {i : ℕ} {b : UInt8} (hi : IsBoundary f.code i)
    (hb : f.code[i]? = some b) (hpc : s.programCounter = i + 1) (hop : s.opCode = b)
    (hcache : CacheUnused s ∨ CacheFilled f s) (hjump : b = JUMP ∨ b = JUMPI → CacheFilled f s) :
    Matches f ((Interpreter.opHandler f b).run s) ((plainHandler f b).run ⟨i + 1, s.machine⟩) := by
  have hnext : IsBoundary f.code (i + 1 + bytesToPush b) := .next hi hb
  rw [Interpreter.opHandler, plainHandler]
  split
  · rename_i hb'
    refine .bind pop rfl hpc fun dest m _ => ?_
    exact .jumpTo (s := { s with machine := m }) (p := ⟨i + 1, m⟩) rfl hpc (hjump (.inl hb')) dest
  split
  · rename_i hb'
    refine .bind pop2 rfl hpc fun p m _ => ?_
    obtain ⟨dest, cond⟩ := p
    dsimp only
    have hsize : bytesToPush b = 0 := by
      rw [hb']
      decide
    split
    · exact .jumpTo (s := { s with machine := m }) (p := ⟨i + 1, m⟩) rfl hpc (hjump (.inr hb')) dest
    · exact ⟨rfl, rfl, fun _ => hpc, fun _ => ⟨by simpa [hpc, hsize] using hnext, hcache⟩⟩
  split
  · rename_i hb'
    have hsize : bytesToPush b = 0 := by
      rw [hb']
      decide
    simp only [pc, Prog.run_bind, Prog.run_gets, id, hpc]
    exact .last _ rfl hpc ⟨by simpa [hpc, hsize] using hnext, hcache⟩
  split
  · rename_i hb'
    have hsize : bytesToPush b = 0 := by
      rw [hb']
      decide
    exact ⟨rfl, rfl, fun _ => hpc, fun _ => ⟨by simpa [hpc, hsize] using hnext, hcache⟩⟩
  split
  · rename_i hpush
    have hnum : s.opCode.toNat - 0x5f = bytesToPush b := by
      rw [hop, bytesToPush, if_pos hpush]
    simp only [pushImmediate, Prog.run_bind, Prog.run_gets, id, hnum]
    rcases hcache with hunused | hfilled
    · -- here the program counter moves before the push, so a full stack leaves it elsewhere
      simp only [hunused.2, Bool.not_true, Bool.false_eq_true, if_false, Prog.run_modify,
        Prog.run_bind, run_onMachine, run_plainMachine, run_push, hpc]
      rw [← immediate]
      split
      · exact ⟨rfl, rfl, fun h => absurd rfl h, fun h => by cases h⟩
      · exact ⟨rfl, rfl, fun _ => rfl, fun _ => ⟨hnext, .inl ⟨hunused.1, rfl⟩⟩⟩
    · have hvalue : s.cachedPushes s.programCounter =
          some (immediate f.code (i + 1) (bytesToPush b)) := by
        rw [hfilled.2.2.2, hpc]
        exact getValidJumpDestinations_pushes f.table hi hb hpush
      simp only [hfilled.2.1, Bool.not_false, if_true, hvalue]
      refine .bind _ rfl hpc fun _ m _ => ?_
      exact ⟨rfl, rfl, fun _ => congrArg (· + bytesToPush b) hpc,
        fun _ => ⟨by rw [← hpc] at hnext; exact hnext, .inr hfilled⟩⟩
  · rename_i hpush
    have hsize : bytesToPush b = 0 := by
      rw [bytesToPush, if_neg hpush]
    exact .last _ rfl hpc ⟨by simpa [hpc, hsize] using hnext, hcache⟩

/-- The state with its caches filled. -/
def filled (f : Frame σ) (s : RunState σ) : RunState σ :=
  let a := getValidJumpDestinations f.table f.code
  { s with
    validJumps := a.jumps
    cachedPushes := a.pushes
    cachedOpcodes := some a.opcodesCached
    shouldDoJumpAnalysis := false }

/-- The steps agree: the opcode comes from the cache or from the byte. -/
theorem Matches.runStep {s : RunState σ} {b : UInt8} {opcodeObj : Option Opcode}
    (hs : Coherent f s) (hb : f.code[s.programCounter]? = some b)
    (hobj : opcodeObj.getD (f.table.lookupOpInfo s.opCode) = f.table.lookupOpInfo b)
    (hop : (f.table.lookupOpInfo b).isInvalid = false → s.opCode = b) :
    Matches f ((Interpreter.runStep f opcodeObj).run s)
      ((plainStep f b).run ⟨s.programCounter, s.machine⟩) := by
  simp only [Interpreter.runStep, plainStep, Prog.run_bind (Prog.gets id), Prog.run_gets, id, hobj]
  refine .bind _ rfl rfl fun gas m _ => ?_
  split
  · exact ⟨rfl, rfl, fun _ => rfl, fun h => by cases h⟩
  · rename_i hvalid
    have hcode : (f.table.lookupOpInfo b).code = b := by
      rw [OpcodeTable.lookupOpInfo] at hvalid ⊢
      split
      · rfl
      · rename_i hno
        rw [if_neg hno] at hvalid
        exact absurd rfl hvalid
    have hop' : s.opCode = b := hop (by simpa using hvalid)
    rw [hcode]
    refine .bind _ rfl rfl fun _ m' _ => ?_
    dsimp only
    split
    · exact .opHandler (s := { (filled f s) with
        programCounter := s.programCounter + 1
        machine := m' }) hs.boundary hb rfl hop' (.inr ⟨rfl, rfl, rfl, rfl⟩)
        fun _ => ⟨rfl, rfl, rfl, rfl⟩
    · rename_i hskip
      refine .opHandler (s := { s with
        programCounter := s.programCounter + 1
        machine := m' }) hs.boundary hb rfl hop' hs.cache fun hjump => ?_
      rcases hs.cache with hunused | hfilled
      · exact absurd ⟨hunused.2, hjump⟩ hskip
      · exact hfilled

/-- One turn with caches and one turn without them. -/
inductive Agree (f : Frame σ) : Progress (RunState σ) → Progress (PlainState σ) → Prop
  | running {s : RunState σ} (hs : Coherent f s) :
      Agree f (.running s) (.running ⟨s.programCounter, s.machine⟩)
  | ended {s : RunState σ} {p : PlainState σ} {e : Option String} (hm : s.machine = p.machine)
      (hpc : e ≠ some STACK_OVERFLOW → s.programCounter = p.programCounter) :
      Agree f (.ended e s) (.ended e p)
  | thrown {s : RunState σ} {p : PlainState σ} {e : String} (hm : s.machine = p.machine)
      (hpc : s.programCounter = p.programCounter) : Agree f (.thrown e s) (.thrown e p)

theorem Agree.ofStep {out : Except Thrown Unit × RunState σ}
    {plain : Except Thrown Unit × PlainState σ} (h : Matches f out plain) :
    Agree f (.ofStep out) (.ofStep plain) := by
  obtain ⟨outcome, machine, programCounter, coherent⟩ := h
  obtain ⟨x, s⟩ := out
  obtain ⟨y, p⟩ := plain
  dsimp only at outcome machine programCounter coherent
  subst outcome
  rcases x with (error | message) | _
  · refine .ended machine fun hne => programCounter ?_
    rintro ⟨⟩
    exact hne rfl
  · exact .thrown machine (programCounter (by simp))
  · have hp : p = ⟨s.programCounter, s.machine⟩ := by
      rw [machine, programCounter (by simp)]
    rw [hp]
    exact .running (coherent rfl)

/-- **A turn.**  From a boundary the two loops do the same. -/
theorem Agree.iterate {s : RunState σ} (hs : Coherent f s) :
    Agree f (Interpreter.iterate f s) (plainIterate f ⟨s.programCounter, s.machine⟩) := by
  rw [Interpreter.iterate, plainIterate]
  cases hb : f.code[s.programCounter]? with
  | none => exact .ended rfl fun _ => rfl
  | some b =>
    dsimp only
    rcases hs.cache with hunused | hfilled
    · split
      · exact .ofStep (.runStep (s := { s with opCode := b }) ⟨hs.boundary, .inl hunused⟩ hb rfl
          fun _ => rfl)
      · rename_i hsome
        rw [hunused.1] at hsome
        cases hsome
    · split
      · rename_i hnone
        rw [hfilled.1] at hnone
        cases hnone
      · rename_i opcodes hopcodes
        have hobj := getValidJumpDestinations_opcodesCached f.table hs.boundary hb
        rw [← Option.some.inj (hopcodes.symm.trans hfilled.1)] at hobj
        rw [hobj]
        refine .ofStep (.runStep (s := { s with opCode := (f.table.lookupOpInfo b).code })
          ⟨hs.boundary, .inr hfilled⟩ hb rfl fun hvalid => ?_)
        rw [OpcodeTable.lookupOpInfo] at hvalid ⊢
        split at hvalid
        · rename_i hdefined
          rw [if_pos hdefined]
        · cases hvalid

/-- **A run.**  However many turns the loops take, they agree. -/
theorem Agree.turn {p : Progress (RunState σ)} {q : Progress (PlainState σ)} (h : Agree f p q)
    (n : ℕ) : Agree f (Interpreter.turn (Interpreter.iterate f) n p)
      (Interpreter.turn (plainIterate f) n q) := by
  induction n generalizing p q with
  | zero => exact h
  | succ n ih =>
    cases h with
    | running hs => exact ih (.iterate hs)
    | ended hm hpc => exact .ended hm hpc
    | thrown hm hpc => exact .thrown hm hpc

/-- The same result: while running the same machine at the same program counter; at the end the same
exception error and the same machine.  Where a push found the stack full the program counter left
behind is not compared, as the two ways a `PUSH` takes move it before and after the push. -/
inductive SameResult : Progress (RunState σ) → Progress (PlainState σ) → Prop
  | running {s : RunState σ} {p : PlainState σ} (hm : s.machine = p.machine)
      (hpc : s.programCounter = p.programCounter) : SameResult (.running s) (.running p)
  | ended {s : RunState σ} {p : PlainState σ} {e : Option String} (hm : s.machine = p.machine)
      (hpc : e ≠ some STACK_OVERFLOW → s.programCounter = p.programCounter) :
      SameResult (.ended e s) (.ended e p)
  | thrown {s : RunState σ} {p : PlainState σ} {e : String} (hm : s.machine = p.machine)
      (hpc : s.programCounter = p.programCounter) : SameResult (.thrown e s) (.thrown e p)

theorem Agree.coherent {s : RunState σ} {q : Progress (PlainState σ)} (h : Agree f (.running s) q) :
    Coherent f s := by
  cases h with
  | running hs => exact hs

private theorem Agree.sameResult {p : Progress (RunState σ)} {q : Progress (PlainState σ)}
    (h : Agree f p q) : SameResult p q := by
  cases h with
  | running hs => exact .running rfl rfl
  | ended hm hpc => exact .ended hm hpc
  | thrown hm hpc => exact .thrown hm hpc

/-- What a state may rely on once the analysis has happened: the marks of `validJumps` are the jump
destinations, the opcode at the program counter is cached, and so is the number a `PUSH` there
pushes. -/
structure Analyzed (f : Frame σ) (s : RunState σ) : Prop where
  jumps : ∀ i, s.validJumps[i]? = some 1 ↔ IsBoundary f.code i ∧ f.code[i]? = some JUMPDEST
  opcode : ∀ b, f.code[s.programCounter]? = some b → ∃ opcodes, s.cachedOpcodes = some opcodes ∧
    opcodes[s.programCounter]? = some (some (f.table.lookupOpInfo b))
  push : ∀ b, f.code[s.programCounter]? = some b → isPush b →
    s.cachedPushes (s.programCounter + 1) =
      some (immediate f.code (s.programCounter + 1) (bytesToPush b))

private theorem Coherent.analyzed {s : RunState σ} (hs : Coherent f s)
    (hdone : s.shouldDoJumpAnalysis = false) : Analyzed f s := by
  rcases hs.cache with hunused | ⟨hopcodes, -, hjumps, hpushes⟩
  · rw [hunused.2] at hdone
    cases hdone
  · refine ⟨fun i => ?_, fun b hb => ⟨_, hopcodes, ?_⟩, fun b hb hpush => ?_⟩
    · rw [hjumps]
      exact getValidJumpDestinations_jumps f.table
    · exact getValidJumpDestinations_opcodesCached f.table hs.boundary hb
    · rw [hpushes]
      exact getValidJumpDestinations_pushes f.table hs.boundary hb hpush

variable (f) in
/-- **Jump analysis agrees with plain decoding.**  For every bytecode and every run from an
instruction boundary: the analysis marks exactly the `JUMPDEST` bytes at boundaries, every state the
run reaches after it finds its opcode and its push value cached, and the run gives the result of a
run which decodes every byte afresh. -/
theorem run_agrees (s₀ : RunState σ) {pc : ℕ} (hpc : IsBoundary f.code pc) (n : ℕ) :
    (∀ i, (getValidJumpDestinations f.table f.code).jumps[i]? = some 1 ↔
      IsBoundary f.code i ∧ f.code[i]? = some JUMPDEST) ∧
    (∀ s, run f s₀ pc n = .running s → s.shouldDoJumpAnalysis = false → Analyzed f s) ∧
    SameResult (run f s₀ pc n) (plainRun f s₀.machine pc n) := by
  have hagree : Agree f (run f s₀ pc n) (plainRun f s₀.machine pc n) := by
    rw [run, plainRun]
    split
    · exact .thrown rfl rfl
    · exact .turn (.running (s := resetJumpAnalysis { s₀ with programCounter := pc })
        ⟨hpc, .inl ⟨rfl, rfl⟩⟩) n
  refine ⟨fun i => getValidJumpDestinations_jumps f.table, fun s hrun hdone => ?_,
    hagree.sameResult⟩
  rw [hrun] at hagree
  exact hagree.coherent.analyzed hdone

/-- `PUSH1 4; JUMP; INVALID; JUMPDEST; PUSH2 1`, the last push cut off by the end of the code, where
every opcode costs one unit and nothing else is defined. -/
def truncatedPush : Frame Unit where
  table := ⟨fun b => isPush b || b == JUMP || b == JUMPDEST, fun _ => 1, fun _ => none,
    fun _ => trap STOP⟩
  code := [0x60, 4, 0x56, 0xfe, 0x5b, 0x61, 1]
  codeSize := 7
  location := ""

/-- The state of a new interpreter with ten units of gas. -/
def freshState : RunState Unit where
  programCounter := 0
  opCode := INVALID
  machine := ⟨[], 10, ()⟩
  shouldDoJumpAnalysis := true
  validJumps := []
  cachedPushes _ := none
  cachedOpcodes := none

theorem run_agrees_truncatedPush :
    (∃ s, run truncatedPush freshState 0 5 = .ended none s ∧ s.machine.stack = [256]) ∧
    (∀ i, (getValidJumpDestinations truncatedPush.table truncatedPush.code).jumps[i]? = some 1 ↔
      IsBoundary truncatedPush.code i ∧ truncatedPush.code[i]? = some JUMPDEST) ∧
    (∀ s, run truncatedPush freshState 0 5 = .running s → s.shouldDoJumpAnalysis = false →
      Analyzed truncatedPush s) ∧
    SameResult (run truncatedPush freshState 0 5)
      (plainRun truncatedPush freshState.machine 0 5) :=
  ⟨⟨_, rfl, rfl⟩, run_agrees truncatedPush freshState .start 5⟩

end Interpreter

end Tvmjs
