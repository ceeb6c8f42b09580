import Mathlib.Tactic.Linarith
import Mathlib.Tactic.Ring
import Tvmjs.Base.HighWater
import Tvmjs.Tvm.FrameRules

/-!
# The gas an opcode pays for memory
`useGas` takes the gas of an opcode as a whole.  Its memory part is what it exceeds the gas of the
same opcode by on a memory which already has the words.

* `gasTaken` -- what `useGas` takes for an opcode;
* `memoryGas` -- the part of it that is paid for memory;
* `Costs` -- a gas handler, compared with itself on a memory which already has the words;
* `memoryGas_of_frameOp` -- **the memory part** is the rise of the cost of the recorded word count.
-/

namespace Tvmjs

namespace Interpreter

open Prog (Ensures)

variable {τ α β : Type}

/-! ### What is paid -/

section Gas

variable (f : Frame (FrameState τ))

/-- What `useGas` takes for an opcode before its handler is run; nothing is taken where the gas
handler fails, where the opcode is invalid, or where the gas runs out. -/
def gasTaken (opInfo : Opcode) (m : Machine (FrameState τ)) : Option ℤ :=
  match (gasOf f opInfo.code).run m with
  | (.error _, _) => none
  | (.ok gas, m₁) =>
    if opInfo.isInvalid then none
    else match (useGas gas).run m₁ with
      | (.error _, _) => none
      | (.ok _, m₂) => some (m₁.gasLeft - m₂.gasLeft)

/-- The machine with a memory of `words` words. -/
def Machine.withWords (m : Machine (FrameState τ)) (words : ℕ) : Machine (FrameState τ) :=
  { m with rest := { m.rest with memoryWordCount := words } }

/-- The gas of an opcode on a memory which already has as many words as the opcode leaves. -/
def gasWithWords (opInfo : Opcode) (m : Machine (FrameState τ)) : ℤ :=
  let words := ((gasOf f opInfo.code).run m).2.rest.memoryWordCount
  match ((gasOf f opInfo.code).run (m.withWords words)).1 with
  | .ok gas => gas
  | .error _ => 0

/-- The part of the gas that is paid for memory. -/
def memoryGas (opInfo : Opcode) (m : Machine (FrameState τ)) : ℤ :=
  match gasTaken f opInfo m with
  | some gas => gas - gasWithWords f opInfo m
  | none => 0

variable {f} {opInfo : Opcode} {m m₁ : Machine (FrameState τ)}

/-- An opcode whose gas handler fails pays nothing. -/
theorem memoryGas_of_error {e : Thrown} (h : (gasOf f opInfo.code).run m = (.error e, m₁)) :
    memoryGas f opInfo m = 0 := by
  rw [memoryGas, gasTaken, h]

theorem memoryGas_of_invalid {gas : ℤ} (h : (gasOf f opInfo.code).run m = (.ok gas, m₁))
    (hinvalid : opInfo.isInvalid = true) : memoryGas f opInfo m = 0 := by
  rw [memoryGas, gasTaken, h]
  dsimp only
  rw [if_pos hinvalid]

/-- An opcode that runs out of gas pays nothing. -/
theorem memoryGas_of_outOfGas {gas : ℤ} (h : (gasOf f opInfo.code).run m = (.ok gas, m₁))
    (hinvalid : ¬opInfo.isInvalid = true) (hgas : m₁.gasLeft - gas < 0) :
    memoryGas f opInfo m = 0 := by
  rw [memoryGas, gasTaken, h]
  dsimp only
  rw [if_neg hinvalid, run_useGas, if_pos hgas]

/-- Otherwise the whole gas is taken. -/
theorem memoryGas_of_paid {gas : ℤ} (h : (gasOf f opInfo.code).run m = (.ok gas, m₁))
    (hinvalid : ¬opInfo.isInvalid = true) (hgas : ¬m₁.gasLeft - gas < 0) :
    memoryGas f opInfo m = gas - gasWithWords f opInfo m := by
  rw [memoryGas, gasTaken, h]
  dsimp only
  rw [if_neg hinvalid, run_useGas, if_neg hgas]
  dsimp only
  rw [sub_sub_cancel]

private theorem gasWithWords_of_ok {gas gas' : ℤ} {m₂ : Machine (FrameState τ)}
    (h : (gasOf f opInfo.code).run m = (.ok gas, m₁))
    (h' : (gasOf f opInfo.code).run (m.withWords m₁.rest.memoryWordCount) = (.ok gas', m₂)) :
    gasWithWords f opInfo m = gas' := by
  rw [gasWithWords, h]
  dsimp only
  rw [h']

end Gas

/-! ### The meter of a frame -/

/-- The meter of a frame. -/
def Machine.meter (m : Machine (FrameState τ)) : Meter ℕ :=
  ⟨m.rest.memoryWordCount, m.rest.highestMemCost⟩

variable (p : Params)

/-- The highest cost so far is what the recorded word count costs. -/
def Metered (m : Machine (FrameState τ)) : Prop := m.meter.Settled p.memCost

variable {p}

private theorem strictMono_memCost (hgas : 0 < p.memoryGas) : StrictMono p.memCost := by
  intro a b hab
  have hlinear : a * p.memoryGas < b * p.memoryGas := Nat.mul_lt_mul_of_pos_right hab hgas
  have hquadratic : a * a / p.quadCoefficientDivGas ≤ b * b / p.quadCoefficientDivGas :=
    Nat.div_le_div_right (Nat.mul_le_mul hab.le hab.le)
  exact Nat.add_lt_add_of_lt_of_le hlinear hquadratic

/-- The machine whose meter was raised. -/
def Machine.expanded (p : Params) (m : Machine (FrameState τ)) (words : ℕ) :
    Machine (FrameState τ) :=
  { m with rest := { m.rest with
    highestMemCost := (m.meter.raise p.memCost words).highest
    memoryWordCount := (m.meter.raise p.memCost words).level } }

private theorem expanded_of_le {m : Machine (FrameState τ)} {words : ℕ}
    (h : words ≤ m.rest.memoryWordCount) : m.expanded p words = m := by
  have hlevel : words ≤ m.meter.level := h
  rw [Machine.expanded, Meter.raise, if_pos hlevel]
  rfl

/-- **The charge** for a region. -/
theorem run_subMemUsage (offset length : ℕ) (m : Machine (FrameState τ)) :
    (subMemUsage p offset length).run m =
      (.ok (m.meter.charge p.memCost (memWords offset length) : ℤ),
        m.expanded p (memWords offset length)) := by
  rw [subMemUsage]
  by_cases hzero : length = 0
  · have hwords : memWords offset length = 0 := if_pos hzero
    have hle : memWords offset length ≤ m.meter.level := by
      rw [hwords]
      exact Nat.zero_le _
    rw [if_pos hzero, expanded_of_le hle, Meter.charge, if_pos hle]
    rfl
  · have hwords : memWords offset length = divCeil (offset + length) 32 := if_neg hzero
    rw [if_neg hzero, ← hwords, Prog.run_bind]
    dsimp only [getsState, Prog.run_gets, id]
    by_cases hle : memWords offset length ≤ m.rest.memoryWordCount
    · have hlevel : memWords offset length ≤ m.meter.level := hle
      rw [if_pos hle, expanded_of_le hle, Meter.charge, if_pos hlevel]
      rfl
    · have hlevel : ¬memWords offset length ≤ m.meter.level := hle
      rw [if_neg hle, Machine.expanded, Meter.raise, Meter.charge, if_neg hlevel, if_neg hlevel]
      rfl

theorem Metered.expanded (hgas : 0 < p.memoryGas) {m : Machine (FrameState τ)} (h : Metered p m)
    (words : ℕ) : Metered p (m.expanded p words) :=
  Meter.Settled.raise (strictMono_memCost hgas) h words

@[simp] theorem expanded_memoryWordCount (m : Machine (FrameState τ)) (words : ℕ) :
    (m.expanded p words).rest.memoryWordCount = max m.rest.memoryWordCount words :=
  Meter.raise_level p.memCost m.meter words

/-! ### A gas handler on a memory which has the words -/

/-- `n` is `m` on a memory of `K` words. -/
structure OnWords (K : ℕ) (m n : Machine (FrameState τ)) : Prop where
  eq : n = { m with rest := { m.rest with
    memoryWordCount := K
    highestMemCost := n.rest.highestMemCost } }

/-- Where `x` returns a gas from `m`, `y` returns one from `n`, and they differ by what the recorded
word count costs then, but for the cost `c` it had before. -/
def Costs (p : Params) (c : ℕ) (x y : FrameM τ ℤ) (m n : Machine (FrameState τ)) : Prop :=
  ∀ gas m', x.run m = (.ok gas, m') → ∃ gas' n', y.run n = (.ok gas', n') ∧
    gas - gas' + c = p.memCost m'.rest.memoryWordCount

/-- A program that does not look at the word count. -/
def Blind (K : ℕ) (z : FrameM τ α) : Prop :=
  ∀ m n, OnWords K m n → (z.run n).1 = (z.run m).1 ∧ OnWords K (z.run m).2 (z.run n).2 ∧
    (z.run m).2.meter = m.meter

section Costs

variable {K c : ℕ} {m n : Machine (FrameState τ)}

private theorem OnWords.blind {z : FrameM τ α} (hz : Blind K z) (h : OnWords K m n) {a : α}
    {m' : Machine (FrameState τ)} (hrun : z.run m = (.ok a, m')) :
    ∃ n', z.run n = (.ok a, n') ∧ OnWords K m' n' ∧ m'.meter = m.meter := by
  obtain ⟨hout, hwords, hmeter⟩ := hz m n h
  rw [hrun] at hout hwords hmeter
  exact ⟨(z.run n).2, Prod.ext hout rfl, hwords, hmeter⟩

private theorem costs_pure {a b : ℤ} (h : a - b + c = p.memCost m.rest.memoryWordCount) :
    Costs p c (pure a) (pure b) m n := by
  intro gas m' hrun
  obtain ⟨hgas, rfl⟩ := Prod.mk.inj hrun
  obtain rfl := Except.ok.inj hgas
  exact ⟨b, n, rfl, h⟩

private theorem costs_throw {e : Thrown} {y : FrameM τ ℤ} : Costs p c (Prog.throw e) y m n := by
  intro gas m' hrun
  cases hrun

private theorem costs_ite {q : Prop} [Decidable q] {x x' y y' : FrameM τ ℤ}
    (hx : q → Costs p c x y m n)
    (hy : ¬q → Costs p c x' y' m n) :
    Costs p c (if q then x else x') (if q then y else y') m n := by
  by_cases hq : q
  · rw [if_pos hq, if_pos hq]
    exact hx hq
  · rw [if_neg hq, if_neg hq]
    exact hy hq

/-- What does not look at the word count comes before what does. -/
private theorem costs_blind {z : FrameM τ α} {f g : α → FrameM τ ℤ} (hz : Blind K z)
    (h : OnWords K m n)
    (hm : Metered p m) (hnext : ∀ a m' n', OnWords K m' n' → Metered p m' →
      m'.rest.memoryWordCount = m.rest.memoryWordCount → Costs p c (f a) (g a) m' n') :
    Costs p c (z >>= f) (z >>= g) m n := by
  intro gas m'' hrun
  obtain ⟨a, m', hz', hf⟩ := Prog.run_bind_ok.1 hrun
  obtain ⟨n', hzn, hwords, hmeter⟩ := h.blind hz hz'
  have hmetered : Metered p m' := by
    rw [Metered, hmeter]
    exact hm
  have hcount : m'.rest.memoryWordCount = m.rest.memoryWordCount := congrArg Meter.level hmeter
  rw [Prog.run_bind_of_ok hzn]
  exact hnext a m' n' hwords hmetered hcount gas m'' hf

private theorem costs_peek {k : ℕ} {f g : (ℕ → ℕ) → FrameM τ ℤ} (h : OnWords K m n)
    (hnext : Costs p c (f m.operand) (g m.operand) m n) :
    Costs p c (peek k >>= f) (peek k >>= g) m n := by
  intro gas m' hrun
  have hstack : n.stack = m.stack := by rw [h.eq]
  rw [peek, Prog.run_bind, Prog.run_bind, Prog.run_gets] at hrun ⊢
  dsimp only at hrun ⊢
  rw [hstack]
  by_cases hlt : m.stack.length < k
  · rw [if_pos hlt] at hrun
    cases hrun
  · rw [if_neg hlt] at hrun ⊢
    exact hnext gas m' hrun

/-- The limit of a message is set to what the gas leaves, which may differ. -/
private theorem costs_limit {limit limit' : ℤ} {x y : FrameM τ ℤ}
    (hnext : ∀ m' n', m'.rest.memoryWordCount = m.rest.memoryWordCount → Costs p c x y m' n') :
    Costs p c (modifyState (fun s => { s with messageGasLimit := some limit }) >>= fun _ => x)
      (modifyState (fun s => { s with messageGasLimit := some limit' }) >>= fun _ => y) m n :=
  hnext { m with rest := { m.rest with messageGasLimit := some limit } }
    { n with rest := { n.rest with messageGasLimit := some limit' } } rfl

/-- A region that is paid for is free where its words are there. -/
private theorem costs_expand (hgas : 0 < p.memoryGas) {offset length : ℕ} {f g : ℤ → FrameM τ ℤ}
    (h : OnWords K m n) (hm : Metered p m) (hK : memWords offset length ≤ K)
    (hnext : ∀ (v : ℤ) m', OnWords K m' n → Metered p m' → 0 ≤ v →
      v + p.memCost m.rest.memoryWordCount = p.memCost m'.rest.memoryWordCount →
      Costs p c (f v) (g 0) m' n) :
    Costs p c (subMemUsage p offset length >>= f) (subMemUsage p offset length >>= g) m n := by
  intro gas m'' hrun
  have hn : n.rest.memoryWordCount = K := by rw [h.eq]
  have hfree : memWords offset length ≤ n.meter.level := hK.trans hn.ge
  have hrunn : (subMemUsage p offset length).run n = (.ok 0, n) := by
    rw [run_subMemUsage, expanded_of_le hfree, Meter.charge, if_pos hfree]
    rfl
  rw [Prog.run_bind_of_ok (run_subMemUsage offset length m)] at hrun
  rw [Prog.run_bind_of_ok hrunn]
  refine hnext _ _ ⟨?_⟩ (hm.expanded hgas _) (Int.natCast_nonneg _) ?_ gas m'' hrun
  · rw [h.eq]
    rfl
  · have hcharge := Meter.Settled.charge (strictMono_memCost hgas) hm (memWords offset length)
    rw [expanded_memoryWordCount]
    change p.memCost m.rest.memoryWordCount + _ =
      p.memCost (max m.rest.memoryWordCount _) at hcharge
    rw [← hcharge]
    push_cast
    ring

/-- Gas that is forwarded: less gas passes the check as well. -/
private theorem costs_setCallGasLimit {a b : ℤ} (requestedGas : ℕ) (h : OnWords K m n) (hle : b ≤ a)
    (hcost : a - b + c = p.memCost m.rest.memoryWordCount) :
    Costs p c (setCallGasLimit a requestedGas) (setCallGasLimit b requestedGas) m n := by
  intro gas m' hrun
  have hleft : n.gasLeft = m.gasLeft := by rw [h.eq]
  rw [setCallGasLimit, Prog.run_bind, Prog.run_gets] at hrun ⊢
  dsimp only at hrun ⊢
  rw [hleft]
  by_cases hout : a > m.gasLeft
  · rw [if_pos hout] at hrun
    cases hrun
  · have hout' : ¬b > m.gasLeft := by omega
    rw [if_neg hout] at hrun
    rw [if_neg hout']
    obtain ⟨hgas, rfl⟩ := Prod.mk.inj hrun
    obtain rfl := Except.ok.inj hgas
    exact ⟨b, _, rfl, hcost⟩

end Costs

/-! ### The gas handlers -/

section GasHandlers

variable {K : ℕ}

private theorem blind_gets {g : Machine (FrameState τ) → α}
    (hg : ∀ m n, OnWords K m n → g n = g m) : Blind K (Prog.gets g) := by
  intro m n h
  exact ⟨congrArg Except.ok (hg m n h), h, rfl⟩

private theorem blind_onWorld (x : Prog τ Thrown α) : Blind K (onWorld x : FrameM τ α) := by
  intro m n h
  rw [h.eq]
  exact ⟨rfl, ⟨rfl⟩, rfl⟩

private theorem blind_transferGas (env : Env τ) (toAddress value : ℕ) :
    Blind K (transferGas env toAddress value) := by
  intro m n h
  rw [transferGas]
  by_cases hzero : value = 0
  · rw [if_pos hzero]
    exact ⟨rfl, h, rfl⟩
  · rw [if_neg hzero, Prog.run_bind, Prog.run_bind]
    obtain ⟨hout, hwords, hmeter⟩ := blind_onWorld (onHost (env.accountExists toAddress)) m n h
    rcases hrun : (onWorld (onHost (env.accountExists toAddress))).run m with ⟨e | exists?, m'⟩
    · rw [hrun] at hout hwords hmeter
      rcases hrunn : (onWorld (onHost (env.accountExists toAddress))).run n with ⟨e' | a, n'⟩
      · rw [hrunn] at hout hwords
        have he : e' = e := Except.error.inj hout
        rw [he]
        exact ⟨rfl, hwords, hmeter⟩
      · rw [hrunn] at hout
        cases hout
    · rw [hrun] at hout hwords hmeter
      rcases hrunn : (onWorld (onHost (env.accountExists toAddress))).run n with ⟨e' | a, n'⟩
      · rw [hrunn] at hout
        cases hout
      · rw [hrunn] at hout hwords
        obtain rfl := Except.ok.inj hout
        dsimp only
        split
        · exact ⟨rfl, hwords, hmeter⟩
        · exact ⟨rfl, hwords, hmeter⟩

variable {env : Env τ}

/-- **A gas handler** charges for its regions what the words they add cost. -/
theorem costs_gasHandler (hgas : 0 < env.params.memoryGas) {op : FrameOp}
    {gasHandler : ℤ → FrameM τ ℤ} (hop : op.gasHandler env = some gasHandler) (fee : ℤ)
    {m n : Machine (FrameState τ)} (h : OnWords K m n) (hm : Metered env.params m)
    (hK : regionWords (op.regions m.operand) ≤ K) :
    Costs env.params (env.params.memCost m.rest.memoryWordCount) (gasHandler fee) (gasHandler fee)
      m n := by
  have hworld : ∀ address, Blind K
      (onWorld (Prog.modify (env.addAccessedAddress address)) : FrameM τ PUnit) :=
    fun _ => blind_onWorld _
  -- A case for each opcode with a gas rule: up to two regions are expanded, and what stands around
  -- the expansions does not look at the word count.
  cases op with
  | KECCAK256 =>
    obtain rfl := Option.some.inj hop
    refine costs_peek h (costs_expand hgas h hm (memWords_le_of_one hK) fun v m' _ _ _ hcost =>
      costs_pure ?_)
    linarith
  | CALLDATACOPY =>
    obtain rfl := Option.some.inj hop
    refine costs_peek h (costs_expand hgas h hm (memWords_le_of_one hK) fun v m' _ _ _ hcost =>
      costs_pure ?_)
    linarith
  | CODECOPY =>
    obtain rfl := Option.some.inj hop
    refine costs_peek h (costs_expand hgas h hm (memWords_le_of_one hK) fun v m' _ _ _ hcost =>
      costs_pure ?_)
    linarith
  | EXTCODECOPY =>
    obtain rfl := Option.some.inj hop
    refine costs_peek h (costs_blind (hworld _) h hm fun _ m₁ n₁ h₁ hm₁ hcount => ?_)
    rw [← hcount]
    refine costs_expand hgas h₁ hm₁ (memWords_le_of_one hK) fun v m' _ _ _ hcost => costs_pure ?_
    linarith
  | RETURNDATASIZE => cases hop
  | RETURNDATACOPY =>
    obtain rfl := Option.some.inj hop
    have hsize : Blind K (getsState (τ := τ) fun s => s.returnBytes.length) :=
      blind_gets fun m n h => by rw [h.eq]
    refine costs_peek h (costs_blind hsize h hm fun _ m₁ n₁ h₁ hm₁ hcount => ?_)
    rw [← hcount]
    refine costs_ite (fun _ => costs_throw) fun _ =>
      costs_expand hgas h₁ hm₁ (memWords_le_of_one hK) fun v m' _ _ _ hcost => costs_pure ?_
    linarith
  | MLOAD =>
    obtain rfl := Option.some.inj hop
    refine costs_peek h (costs_expand hgas h hm (memWords_le_of_one hK) fun v m' _ _ _ hcost =>
      costs_pure ?_)
    linarith
  | MSTORE =>
    obtain rfl := Option.some.inj hop
    refine costs_peek h (costs_expand hgas h hm (memWords_le_of_one hK) fun v m' _ _ _ hcost =>
      costs_pure ?_)
    linarith
  | MSTORE8 =>
    obtain rfl := Option.some.inj hop
    refine costs_peek h (costs_expand hgas h hm (memWords_le_of_one hK) fun v m' _ _ _ hcost =>
      costs_pure ?_)
    linarith
  | MSIZE => cases hop
  | MCOPY =>
    -- two regions: the second expansion starts from the count that the first one left
    obtain rfl := Option.some.inj hop
    refine costs_peek h (costs_expand hgas h hm (memWords_le_of_two hK).1 fun v m₁ h₁ hm₁ _ hcost =>
      costs_expand hgas h₁ hm₁ (memWords_le_of_two hK).2 fun v' m' _ _ _ hcost' => costs_pure ?_)
    linarith
  | LOG topicsCount =>
    obtain rfl := Option.some.inj hop
    refine costs_ite (fun _ => costs_throw) fun _ => costs_peek h
      (costs_expand hgas h hm (memWords_le_of_one hK) fun v m' _ _ _ hcost => costs_pure ?_)
    linarith
  | CALLTOKEN =>
    obtain rfl := Option.some.inj hop
    refine costs_peek h (costs_ite (fun _ => costs_throw) fun _ =>
      costs_blind (hworld _) h hm fun _ m₁ n₁ h₁ hm₁ hcount => ?_)
    rw [← hcount]
    refine costs_expand hgas h₁ hm₁ (memWords_le_of_two hK).1 fun v m₂ h₂ hm₂ hv hcost =>
      costs_expand hgas h₂ hm₂ (memWords_le_of_two hK).2 fun v' m₃ h₃ hm₃ hv' hcost' =>
      costs_blind (blind_transferGas env _ _) h₃ hm₃ fun transfer m₄ n₄ h₄ _ hcount' => ?_
    rw [← hcount'] at hcost'
    exact costs_setCallGasLimit _ h₄ (by linarith) (by linarith)
  | CREATE =>
    -- the gas that is left is the same on both machines, since they differ in their word counts
    -- only
    obtain rfl := Option.some.inj hop
    have hleft : Blind K (Prog.gets (Machine.gasLeft (σ := FrameState τ))) :=
      blind_gets fun m n h => by rw [h.eq]
    refine costs_ite (fun _ => costs_throw) fun _ => costs_peek h
      (costs_expand hgas h hm (memWords_le_of_one hK) fun v m₁ h₁ hm₁ _ hcost =>
      costs_blind hleft h₁ hm₁ fun _ m₂ n₂ _ _ hcount => costs_limit
        fun m' _ hcount' => costs_pure ?_)
    rw [hcount', hcount]
    linarith
  | CALL =>
    obtain rfl := Option.some.inj hop
    refine costs_peek h (costs_ite (fun _ => costs_throw) fun _ =>
      costs_blind (hworld _) h hm fun _ m₁ n₁ h₁ hm₁ hcount => ?_)
    rw [← hcount]
    refine costs_expand hgas h₁ hm₁ (memWords_le_of_two hK).1 fun v m₂ h₂ hm₂ hv hcost =>
      costs_expand hgas h₂ hm₂ (memWords_le_of_two hK).2 fun v' m₃ h₃ hm₃ hv' hcost' =>
      costs_blind (blind_transferGas env _ _) h₃ hm₃ fun transfer m₄ n₄ h₄ _ hcount' => ?_
    rw [← hcount'] at hcost'
    exact costs_setCallGasLimit _ h₄ (by linarith) (by linarith)
  | CALLCODE =>
    obtain rfl := Option.some.inj hop
    refine costs_peek h (costs_blind (hworld _) h hm fun _ m₁ n₁ h₁ hm₁ hcount => ?_)
    rw [← hcount]
    refine costs_expand hgas h₁ hm₁ (memWords_le_of_two hK).1 fun v m₂ h₂ hm₂ hv hcost =>
      costs_expand hgas h₂ hm₂ (memWords_le_of_two hK).2 fun v' m₃ h₃ _ hv' hcost' => ?_
    exact costs_setCallGasLimit _ h₃ (by linarith) (by linarith)
  | RETURN =>
    obtain rfl := Option.some.inj hop
    refine costs_peek h (costs_expand hgas h hm (memWords_le_of_one hK) fun v m' _ _ _ hcost =>
      costs_pure ?_)
    linarith
  | DELEGATECALL =>
    obtain rfl := Option.some.inj hop
    refine costs_peek h (costs_blind (hworld _) h hm fun _ m₁ n₁ h₁ hm₁ hcount => ?_)
    rw [← hcount]
    refine costs_expand hgas h₁ hm₁ (memWords_le_of_two hK).1 fun v m₂ h₂ hm₂ hv hcost =>
      costs_expand hgas h₂ hm₂ (memWords_le_of_two hK).2 fun v' m₃ h₃ _ hv' hcost' => ?_
    exact costs_setCallGasLimit _ h₃ (by linarith) (by linarith)
  | CREATE2 =>
    obtain rfl := Option.some.inj hop
    have hleft : Blind K (Prog.gets (Machine.gasLeft (σ := FrameState τ))) :=
      blind_gets fun m n h => by rw [h.eq]
    refine costs_ite (fun _ => costs_throw) fun _ => costs_peek h
      (costs_expand hgas h hm (memWords_le_of_one hK) fun v m₁ h₁ hm₁ _ hcost =>
      costs_blind hleft h₁ hm₁ fun _ m₂ n₂ _ _ hcount => costs_limit
        fun m' _ hcount' => costs_pure ?_)
    rw [hcount', hcount]
    linarith
  | STATICCALL =>
    obtain rfl := Option.some.inj hop
    refine costs_peek h (costs_blind (hworld _) h hm fun _ m₁ n₁ h₁ hm₁ hcount => ?_)
    rw [← hcount]
    refine costs_expand hgas h₁ hm₁ (memWords_le_of_two hK).1 fun v m₂ h₂ hm₂ hv hcost =>
      costs_expand hgas h₂ hm₂ (memWords_le_of_two hK).2 fun v' m₃ h₃ _ hv' hcost' => ?_
    exact costs_setCallGasLimit _ h₃ (by linarith) (by linarith)
  | REVERT =>
    obtain rfl := Option.some.inj hop
    refine costs_peek h (costs_expand hgas h hm (memWords_le_of_one hK) fun v m' _ _ _ hcost =>
      costs_pure ?_)
    linarith

end GasHandlers

/-! ### The memory part -/

section Part

variable {env : Env τ} {others : OpcodeTable τ} {f : Frame (FrameState τ)} {opInfo : Opcode}
variable {m m₁ : Machine (FrameState τ)} {gas : ℤ}

/-- **The memory part** of the gas of an opcode is the rise of the cost of the recorded word
count. -/
theorem memoryGas_of_frameOp (htable : f.table = env.table others) (hgas : 0 < env.params.memoryGas)
    {op : FrameOp} (hcode : FrameOp.ofCode opInfo.code = some op) (hm : Metered env.params m)
    (hrun : (gasOf f opInfo.code).run m = (.ok gas, m₁))
    (hwords : regionWords (op.regions m.operand) ≤ m₁.rest.memoryWordCount) :
    gas - gasWithWords f opInfo m =
      env.params.memCost m₁.rest.memoryWordCount - env.params.memCost m.rest.memoryWordCount := by
  have hsame := gasOf_of_ofCode htable hcode
  rcases hop : op.gasHandler env with _ | gasHandler
  · have hfee : gasOf f opInfo.code = pure (f.table.fee opInfo.code) := by
      rw [hsame, FrameOp.gasOf, hop]
    rw [hfee] at hrun
    obtain ⟨hfee', rfl⟩ := Prod.mk.inj hrun
    obtain rfl := Except.ok.inj hfee'
    have hwith : gasWithWords f opInfo m = f.table.fee opInfo.code := by
      rw [gasWithWords, hfee]
      rfl
    rw [hwith, sub_self, sub_self]
  · have hhandler : gasOf f opInfo.code = gasHandler (f.table.fee opInfo.code) := by
      rw [hsame, FrameOp.gasOf, hop]
    have hcosts := costs_gasHandler hgas hop (f.table.fee opInfo.code)
      (K := m₁.rest.memoryWordCount) (n := m.withWords m₁.rest.memoryWordCount) ⟨rfl⟩ hm hwords
    rw [← hhandler] at hcosts
    obtain ⟨gas', n', hrun', hcost⟩ := hcosts gas m₁ hrun
    rw [gasWithWords_of_ok hrun hrun']
    linarith

/-- An opcode that leaves the word count alone pays nothing for memory. -/
theorem memoryGas_of_count (hrun : (gasOf f opInfo.code).run m = (.ok gas, m₁))
    (hcount : m₁.rest.memoryWordCount = m.rest.memoryWordCount) :
    gas - gasWithWords f opInfo m = 0 := by
  have hsame : m.withWords m₁.rest.memoryWordCount = m := by
    rw [hcount]
    rfl
  have hrun' : (gasOf f opInfo.code).run (m.withWords m₁.rest.memoryWordCount) = (.ok gas, m₁) := by
    rw [hsame, hrun]
  rw [gasWithWords_of_ok hrun hrun', sub_self]

end Part

end Interpreter

end Tvmjs
