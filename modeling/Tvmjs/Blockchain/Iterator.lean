import Tvmjs.Blockchain.Canonical

/-!
# Iterators across reorgs

An iterator gives the canonical blocks above its head to a callback, one after the other, and puts
may come in between: while no iterator runs, and while a callback runs that has the lock released.
A log records the blocks that were passed and the heads that were reached.

* `Machine`, `Step` -- iterator runs interleaved with puts;
* `RunInOrder` -- a block was passed after its parent had become the head and been run in order;
* `Covers` -- the head is canonical and was run in order, and so was everything below it;
* `SafeAction` -- the steps that keep it.
-/

namespace Tvmjs

namespace Blockchain

variable {H : Type}

/-! ### Puts and the iterator head -/

/-- A reorg leaves a head alone or moves it to the last hash both chains share. -/
def MovesToCommon (c c' : ℕ → Option H) (h h' : H) (k j : ℕ) : Prop :=
  j ≤ k ∧ c j = some h' ∧ c' j = some h' ∧
    (h' = h ∨ ∀ i x, c i = some x → c' i = some x → i ≤ j)

section Put

variable [DecidableEq H] {env : Env H} {s s' : Blockchain H} {name : String} {item : Item H}
  {top k : ℕ}

/-- Where the new chain is not shorter than the head's number, or holds the new head already, a put
moves the iterator head to a common hash. -/
private theorem WasPut.movesToCommon (h : WasPut env item top s s')
    (hfree : NoCollision env s.db item.getHeader) (hi : Indexed env s.db top)
    (hzero : item.getHeader.number ≠ 0)
    (hbound : item.getHeader.number + 1 < 2 ^ 64)
    (hk : s.db.numberToHash k = some (iteratorHead env name s))
    (hshort : Wins env s item → item.getHeader.number < k →
      s.db.numberToHash item.getHeader.number = some (env.hash item.getHeader)) :
    (∃ top', Indexed env s'.db top') ∧
      ∃ j, MovesToCommon s.db.numberToHash s'.db.numberToHash (iteratorHead env name s)
        (iteratorHead env name s') k j := by
  rcases h with @⟨ops, t, hwins, hhead⟩ | @⟨b, hloses, hblock⟩
  · obtain ⟨hindexed, htop, fork, common, path, f, hdesc, hcommon, hf, rfl, hnumber⟩ :=
      hhead.graft hfree hi hzero hbound
    refine ⟨⟨_, hindexed.congr rfl rfl rfl⟩, ?_⟩
    have hle := hdesc.fork_le
    have hgenesis : f (env.hash env.genesis) = env.hash env.genesis :=
      hf.kept _ fun i hi' hci => by
        have := hi.number_inj hci hi.chain.root
        omega
    have hmoved : ((s.heads name).map f).getD (env.hash env.genesis) =
        f (iteratorHead env name s) := by
      unfold iteratorHead
      rcases s.heads name with _ | h
      · exact hgenesis.symm
      · rfl
    change ∃ j, MovesToCommon _ _ _ (((s.heads name).map f).getD (env.hash env.genesis)) k j
    rw [hmoved]
    -- the chains share no height above the fork
    have hapart : ∀ i x, fork < i → i ≤ item.getHeader.number →
        overlay path (Tvmjs.prune s.db.numberToHash item.getHeader.number) i = some x →
          s.db.numberToHash i ≠ some x := by
      intro i x hlow hhigh hx hcx
      exact hdesc.overlay_ne _ hlow hhigh (hx.trans hcx.symm)
    change ∃ j, MovesToCommon _
      ((s.db.storeItem (env.hash item.getHeader) item (s.db.itemTd item)).batch ops).numberToHash
      _ _ k j
    by_cases hfork : k ≤ fork
    · have hsame : f (iteratorHead env name s) = iteratorHead env name s :=
        hf.kept _ fun i hi' hci => by
          have := hi.number_inj hci hk
          omega
      rw [hsame, hnumber]
      refine ⟨k, Nat.le_refl k, hk, ?_, .inl rfl⟩
      rw [hdesc.overlay_of_not_mem _ (.inl hfork), prune_of_le (by omega)]
      exact hk
    · by_cases habove : item.getHeader.number < k
      · rw [hf.above k _ habove hk]
        refine ⟨item.getHeader.number, by omega, hshort hwins habove, htop, .inr ?_⟩
        exact fun i x _ hx => hindexed.chain.le_top hx
      · rw [hf.replaced k _ (by omega) (by omega) hk]
        refine ⟨fork, by omega, hcommon, ?_, .inr fun i x hcx hx => ?_⟩
        · rw [hnumber, hdesc.overlay_of_not_mem _ (.inl (Nat.le_refl _)), prune_of_le hle]
          exact hcommon
        · by_contra hlow
          exact hapart i x (by omega) (hindexed.chain.le_top hx) (hnumber ▸ hx) hcx
  · obtain ⟨hnumber, hindexed⟩ := hi.storeAside hfree (s.db.itemTd item) hzero hbound
    refine ⟨⟨top, hindexed.congr rfl rfl rfl⟩, k, Nat.le_refl k, hk, ?_, .inl rfl⟩
    exact (congrFun hnumber k).trans hk

end Put

/-- A canonical block stands on the canonical hash below it. -/
private theorem Indexed.parentHash_eq {env : Env H} {db : Database H} {top n : ℕ}
    (hi : Indexed env db top)
    {header : Header H} {p : H} (hstored : db.header (n + 1) (env.hash header) = some header)
    (hn : db.numberToHash (n + 1) = some (env.hash header)) (hp : db.numberToHash n = some p) :
    header.parentHash = p := by
  obtain ⟨header', hstored', -, -, rfl⟩ := hi.chain.linked n p _ hp hn
  rw [hstored] at hstored'
  rw [Option.some.inj hstored']

/-! ### The machine -/

/-- What is logged: a block was passed to the callback, and a hash became the iterator head. -/
inductive Event (H : Type) where
  | onBlock (block : Header H)
  | head (hash : H)
deriving DecidableEq

/-- Where an iterator run stands. -/
inductive Phase (H : Type) where
  | idle
  | looping (r : Running H)
  | inCallback (r : Running H) (nextBlock : Header H)

/-- The chain, the iterator run under the name that is watched, and the log, newest first. -/
structure Machine (H : Type) where
  chain : Blockchain H
  phase : Phase H
  log : List (Event H)

/-- What may happen next. -/
inductive Action (H : Type) where
  | put (item : Item H)
  | start (maxBlocks : Option ℤ) (releaseLockOnCallback : Bool)
  | next
  | callbackReturns

/-- The lock is free: no iterator runs, or its callback runs with the lock released. -/
def Phase.unlocked : Phase H → Bool
  | .idle => true
  | .looping _ => false
  | .inCallback r _ => r.releaseLockOnCallback

/-- The machine over a chain as it is created. -/
def Machine.init [DecidableEq H] (env : Env H) (genesisBody : Bytes) : Machine H :=
  ⟨createBlockchain env genesisBody, .idle, [.head (env.hash env.genesis)]⟩

/-- One step of the machine.  Between its callbacks a run holds the lock, so its steps between two
callbacks are one. -/
inductive Step [DecidableEq H] (env : Env H) (name : String) :
    Machine H → Action H → Machine H → Prop
  | put {m : Machine H} {item : Item H} {chain : Blockchain H} (fuel : ℕ)
      (hlock : m.phase.unlocked = true)
      (hput : (putBlockOrHeader env fuel item).run m.chain = (.ok (), chain)) :
      Step env name m (.put item) ⟨chain, m.phase, .head (iteratorHead env name chain) :: m.log⟩
  /-- A put that throws before its batch; the heads are brought back. -/
  | putThrows {m : Machine H} {item : Item H} {e : ChainError H} (fuel : ℕ)
      (hlock : m.phase.unlocked = true)
      (hput : (putBlockOrHeader env fuel item).run m.chain = (.error e, m.chain)) :
      Step env name m (.put item) m
  | start {chain chain' : Blockchain H} {log : List (Event H)} {maxBlocks : Option ℤ}
      {releaseLockOnCallback : Bool} {r : Running H}
      (hstart : (beginIterator env name maxBlocks releaseLockOnCallback).run chain =
        (.ok r, chain')) :
      Step env name ⟨chain, .idle, log⟩ (.start maxBlocks releaseLockOnCallback)
        ⟨chain', .looping r, log⟩
  | onBlock {chain chain' : Blockchain H} {log : List (Event H)} {r r' : Running H}
      {nextBlock : Header H} {reorg : Bool}
      (hnext : (nextCallback env r).run chain = (.ok (some (r', nextBlock, reorg)), chain')) :
      Step env name ⟨chain, .looping r, log⟩ .next
        ⟨chain', .inCallback r' nextBlock, .onBlock nextBlock :: log⟩
  | finish {chain chain' : Blockchain H} {log : List (Event H)} {r : Running H}
      (hnext : (nextCallback env r).run chain = (.ok none, chain')) :
      Step env name ⟨chain, .looping r, log⟩ .next ⟨(saveHeads.run chain').2, .idle, log⟩
  | throw {chain chain' : Blockchain H} {log : List (Event H)} {r : Running H} {e : ChainError H}
      (hnext : (nextCallback env r).run chain = (.error e, chain')) :
      Step env name ⟨chain, .looping r, log⟩ .next ⟨(saveHeads.run chain').2, .idle, log⟩
  | callbackReturns {chain chain' : Blockchain H} {log : List (Event H)} {r r' : Running H}
      {nextBlock : Header H}
      (hreturn : (afterCallback env r nextBlock).run chain = (.ok r', chain')) :
      Step env name ⟨chain, .inCallback r nextBlock, log⟩ .callbackReturns
        ⟨chain', .looping r', .head (iteratorHead env name chain') :: log⟩

/-- The step an action makes, if it makes one. -/
def Machine.exec [DecidableEq H] (env : Env H) (name : String) (fuel : ℕ) (m : Machine H) :
    Action H → Option (Machine H)
  | .put item => match m.phase.unlocked, (putBlockOrHeader env fuel item).run m.chain with
    | true, (.ok (), chain) =>
      some ⟨chain, m.phase, .head (iteratorHead env name chain) :: m.log⟩
    | _, _ => none
  | .start maxBlocks releaseLockOnCallback =>
    match m.phase, (beginIterator env name maxBlocks releaseLockOnCallback).run m.chain with
    | .idle, (.ok r, chain) => some ⟨chain, .looping r, m.log⟩
    | _, _ => none
  | .next => match m.phase with
    | .looping r => match (nextCallback env r).run m.chain with
      | (.ok (some (r', nextBlock, _)), chain) =>
        some ⟨chain, .inCallback r' nextBlock, .onBlock nextBlock :: m.log⟩
      | (.ok none, chain) => some ⟨(saveHeads.run chain).2, .idle, m.log⟩
      | (.error _, chain) => some ⟨(saveHeads.run chain).2, .idle, m.log⟩
    | _ => none
  | .callbackReturns => match m.phase with
    | .inCallback r nextBlock => match (afterCallback env r nextBlock).run m.chain with
      | (.ok r', chain) => some ⟨chain, .looping r', .head (iteratorHead env name chain) :: m.log⟩
      | _ => none
    | _ => none

/-- What the machine computes is a step. -/
private theorem Step.of_exec [DecidableEq H] {env : Env H} {name : String} {fuel : ℕ}
    {m m' : Machine H}
    {a : Action H} (h : m.exec env name fuel a = some m') : Step env name m a m' := by
  rcases m with ⟨chain, phase, log⟩
  cases a with
  | put item =>
    simp only [Machine.exec] at h
    split at h
    · cases h
      exact .put fuel ‹_› ‹_›
    · cases h
  | start maxBlocks releaseLockOnCallback =>
    simp only [Machine.exec] at h
    split at h
    · cases h
      exact .start ‹_›
    · cases h
  | next =>
    rcases phase with _ | r | _
    · cases h
    · simp only [Machine.exec] at h
      split at h
      · cases h
        exact .onBlock ‹_›
      · cases h
        exact .finish ‹_›
      · cases h
        exact .throw ‹_›
    · cases h
  | callbackReturns =>
    rcases phase with _ | _ | ⟨r, nextBlock⟩
    · cases h
    · cases h
    · simp only [Machine.exec] at h
      split at h
      · cases h
        exact .callbackReturns ‹_›
      · cases h

/-- Steps one after the other, each one `Allowed` in the state it meets. -/
inductive Steps [DecidableEq H] (env : Env H) (name : String)
    (Allowed : Machine H → Action H → Prop) (m : Machine H) : Machine H → Prop
  | refl : Steps env name Allowed m m
  | step {m' m'' : Machine H} {a : Action H} (hsteps : Steps env name Allowed m m')
      (hallowed : Allowed m' a) (hstep : Step env name m' a m'') : Steps env name Allowed m m''

/-- The machine after some actions. -/
def Machine.execAll [DecidableEq H] (env : Env H) (name : String) (fuel : ℕ) (m : Machine H)
    (as : List (Action H)) : Option (Machine H) :=
  as.foldlM (fun m a => m.exec env name fuel a) m

private theorem Steps.of_execAll [DecidableEq H] {env : Env H} {name : String} {fuel : ℕ}
    {m m' m₀ : Machine H} {as : List (Action H)} (hm : Steps env name (fun _ _ => True) m₀ m)
    (h : m.execAll env name fuel as = some m') : Steps env name (fun _ _ => True) m₀ m' := by
  induction as generalizing m with
  | nil =>
    cases h
    exact hm
  | cons a as ih =>
    obtain ⟨t, ht, hrest⟩ := Option.bind_eq_some_iff.1 h
    exact ih (hm.step trivial (Step.of_exec ht)) hrest

/-! ### Running in order -/

/-- A block was run in order: it is genesis, or it was passed to the callback after its parent had
been run in order and had become the head. -/
inductive RunInOrder (env : Env H) : List (Event H) → H → Prop
  | genesis (log : List (Event H)) : RunInOrder env log (env.hash env.genesis)
  | passed {earlier : List (Event H)} {header : Header H} (later : List (Event H))
      (hparent : RunInOrder env earlier header.parentHash)
      (hhead : .head header.parentHash ∈ earlier) :
      RunInOrder env (later ++ .onBlock header :: earlier) (env.hash header)

namespace RunInOrder

variable {env : Env H} {log : List (Event H)} {h : H}

theorem append (hrun : RunInOrder env log h) (later : List (Event H)) :
    RunInOrder env (later ++ log) h := by
  rcases hrun with _ | ⟨later', hparent, hhead⟩
  · exact .genesis _
  · rw [← List.append_assoc]
    exact .passed _ hparent hhead

theorem cons (hrun : RunInOrder env log h) (e : Event H) : RunInOrder env (e :: log) h :=
  hrun.append [e]

/-- What was run in order is genesis or was passed. -/
private theorem eq_or_mem (hrun : RunInOrder env log h) :
    h = env.hash env.genesis ∨ ∃ block, .onBlock block ∈ log ∧ env.hash block = h := by
  rcases hrun with _ | @⟨_, header, later, hparent, hhead⟩
  · exact .inl rfl
  · exact .inr ⟨header, by simp, rfl⟩

/-- Below a canonical block that was run in order, every canonical block was, if the blocks that
were passed and those that are stored have hashes that differ. -/
theorem of_le {S : Set (Header H)} (hinj : Set.InjOn env.hash S) {db : Database H} {top : ℕ}
    (hi : Indexed env db top) (hstored : HeadersMeet (fun _ header => header ∈ S) db)
    (hrun : RunInOrder env log h) (hlogged : ∀ block, .onBlock block ∈ log → block ∈ S) {k j : ℕ}
    {x : H} (hk : db.numberToHash k = some h) (hj : j ≤ k) (hx : db.numberToHash j = some x) :
    RunInOrder env log x := by
  induction hrun generalizing k with
  | genesis log =>
    obtain rfl : k = 0 := hi.number_inj hk hi.chain.root
    obtain rfl : j = 0 := by omega
    rw [hi.chain.root] at hx
    rw [← Option.some.inj hx]
    exact .genesis log
  | @passed earlier header later hparent hhead ih =>
    by_cases hjk : j = k
    · rw [hjk, hk] at hx
      rw [← Option.some.inj hx]
      exact .passed later hparent hhead
    · obtain ⟨m, rfl⟩ : ∃ m, k = m + 1 := ⟨k - 1, by omega⟩
      obtain ⟨p, hp⟩ := hi.chain.exists_of_le (n := m) (by have := hi.chain.le_top hk; omega)
      obtain ⟨header', hheader', -, hhash, rfl⟩ := hi.chain.linked m p _ hp hk
      obtain rfl : header' = header :=
        hinj (hstored _ _ _ hheader') (hlogged header (by simp)) hhash
      have hrun := ih (fun block hblock => hlogged block (by simp [hblock])) hp (by omega)
      rw [List.append_cons]
      exact hrun.append _

end RunInOrder

/-! ### The invariant -/

/-- The property: the iterator head is canonical, and every canonical block up to it was run in
order. -/
def Covers (env : Env H) (name : String) (m : Machine H) : Prop :=
  ∃ k, m.chain.db.numberToHash k = some (iteratorHead env name m.chain) ∧
    ∀ j h, j ≤ k → m.chain.db.numberToHash j = some h → RunInOrder env m.log h

/-- A hash that became the head after it was run in order. -/
def Reached (env : Env H) (log : List (Event H)) (h : H) : Prop :=
  .head h ∈ log ∧ RunInOrder env log h

theorem Reached.cons {env : Env H} {log : List (Event H)} {h : H} (hr : Reached env log h)
    (e : Event H) : Reached env (e :: log) h :=
  ⟨List.mem_cons_of_mem e hr.1, hr.2.cons e⟩

/-- A block on a hash that was reached is run in order once it is passed. -/
theorem Reached.passed {env : Env H} {log : List (Event H)} {header : Header H}
    (hr : Reached env log header.parentHash) :
    RunInOrder env (.onBlock header :: log) (env.hash header) :=
  .passed [] hr.2 hr.1

/-- The counters of a run: the last block was reached, and so was the head they were loaded from. -/
structure Counters (env : Env H) (name : String) (log : List (Event H)) (r : Running H) :
    Prop where
  name : r.name = name
  nextBlockNumber : ∃ n : ℕ, r.nextBlockNumber = n + 1 ∧ n + 1 < 2 ^ 64
  lastBlock : ∀ last, r.lastBlock = some last → Reached env log (env.hash last)
  headHash : Reached env log r.headHash

/-- What holds of the phase. -/
def Phase.Sound (env : Env H) (name : String) (db : Database H) (log : List (Event H)) :
    Phase H → Prop
  | .idle => True
  | .looping r => Counters env name log r
  | .inCallback r nextBlock => Counters env name log r ∧
      RunInOrder env log (env.hash nextBlock) ∧
      (r.releaseLockOnCallback = false →
        db.numberToHash (asUintN64 r.nextBlockNumber) = some (env.hash nextBlock))

/-- The invariant of the machine, where the headers that are put are in a set. -/
structure Invariant (env : Env H) (S : Set (Header H)) (name : String) (m : Machine H) : Prop where
  indexed : ∃ top, Indexed env m.chain.db top
  stored : HeadersMeet (fun _ header => header ∈ S) m.chain.db
  logged : ∀ block, .onBlock block ∈ m.log → block ∈ S
  head : OnChain m.chain.db (iteratorHead env name m.chain)
  reached : Reached env m.log (iteratorHead env name m.chain)
  phase : m.phase.Sound env name m.chain.db m.log

theorem Counters.cons {env : Env H} {name : String} {log : List (Event H)} {r : Running H}
    (hc : Counters env name log r) (e : Event H) : Counters env name (e :: log) r :=
  ⟨hc.name, hc.nextBlockNumber, fun last hlast => (hc.lastBlock last hlast).cons e,
    hc.headHash.cons e⟩

theorem Invariant.covers {env : Env H} {S : Set (Header H)} (hinj : Set.InjOn env.hash S)
    {name : String} {m : Machine H} (hm : Invariant env S name m) : Covers env name m := by
  obtain ⟨top, hi⟩ := hm.indexed
  obtain ⟨k, hk⟩ := hm.head
  exact ⟨k, hk, fun j h hj hx => hm.reached.2.of_le hinj hi hm.stored hm.logged hk hj hx⟩

/-- The steps that keep the head covered.  A put has a number that fits into the keys, and where it
wins with a lower number than the iterator head's it was canonical already.  A run that has no last
block goes on only where the head its counters were loaded from is canonical still. -/
def SafeAction (env : Env H) [DecidableEq H] (name : String) (m : Machine H) : Action H → Prop
  | .put item => item.getHeader.number + 1 < 2 ^ 64 ∧
      (Wins env m.chain item →
        ∀ k, m.chain.db.numberToHash k = some (iteratorHead env name m.chain) →
          item.getHeader.number < k →
            m.chain.db.numberToHash item.getHeader.number = some (env.hash item.getHeader))
  | .next => ∀ r, m.phase = .looping r → r.lastBlock = none → r.maxBlocks ≠ some r.blocksRan →
      (m.chain.db.numberToHash (asUintN64 r.nextBlockNumber)).isSome →
        m.chain.db.numberToHash (asUintN64 (r.nextBlockNumber - 1)) = some r.headHash
  | _ => True

/-- The actions that put headers of a set only. -/
def SafeActionIn (env : Env H) [DecidableEq H] (S : Set (Header H)) (name : String) (m : Machine H)
    (a : Action H) : Prop :=
  SafeAction env name m a ∧ ∀ item, a = .put item → item.getHeader ∈ S

section Preservation

variable [DecidableEq H] {env : Env H} {S : Set (Header H)} (hinj : Set.InjOn env.hash S)
  {name : String}

include hinj in
/-- What one put does to the head. -/
theorem Invariant.put {m m' : Machine H} {item : Item H} (hm : Invariant env S name m)
    (hsafe : SafeAction env name m (.put item)) (hitem : item.getHeader ∈ S)
    (hstep : Step env name m (.put item) m') :
    Invariant env S name m' ∧ ∃ k j,
      m.chain.db.numberToHash k = some (iteratorHead env name m.chain) ∧
      MovesToCommon m.chain.db.numberToHash m'.chain.db.numberToHash
        (iteratorHead env name m.chain) (iteratorHead env name m'.chain) k j := by
  obtain ⟨top, hi⟩ := hm.indexed
  obtain ⟨k, hk⟩ := hm.head
  rcases hstep with @⟨_, _, chain, fuel, hlock, hput⟩ | _
  swap
  · exact ⟨hm, k, k, hk, Nat.le_refl k, hk, hk, .inl rfl⟩
  have hfree : NoCollision env m.chain.db item.getHeader := fun n stored hn =>
    hinj (hm.stored _ _ _ hn) hitem (hi.stored.key _ _ _ hn).2.1
  have hmoves : (∃ top', Indexed env chain.db top') ∧
      ∃ j, MovesToCommon m.chain.db.numberToHash chain.db.numberToHash
        (iteratorHead env name m.chain) (iteratorHead env name chain) k j := by
    rcases putBlockOrHeader_spec fuel hfree hi hsafe.1 _ _ hput with rfl | ⟨hzero, hwas⟩
    · exact ⟨⟨top, hi⟩, k, Nat.le_refl k, hk, hk, .inl rfl⟩
    · exact hwas.movesToCommon hfree hi hzero hsafe.1 hk fun hwins => hsafe.2 hwins k hk
  obtain ⟨hindexed, j, hj⟩ := hmoves
  have hstored : HeadersMeet (fun _ header => header ∈ S) chain.db := by
    have hkeeps := keeps_putBlockOrHeader (P := fun _ header => header ∈ S) env fuel hitem m.chain
    rw [hput] at hkeeps
    exact hkeeps hm.stored
  have hlogged : ∀ block, .onBlock block ∈ .head (iteratorHead env name chain) :: m.log →
      block ∈ S := by
    intro block hblock
    rcases List.mem_cons.1 hblock with heq | hblock
    · cases heq
    · exact hm.logged block hblock
  -- the head is a canonical block of the old chain below the old head
  have hrun := hm.reached.2.of_le hinj hi hm.stored hm.logged hk hj.1 hj.2.1
  refine ⟨⟨hindexed, hstored, hlogged, ⟨j, hj.2.2.1⟩, ⟨List.mem_cons_self .., hrun.cons _⟩, ?_⟩,
    k, j, hk, hj⟩
  have hphase := hm.phase
  rcases hp : m.phase with _ | r | ⟨r, nextBlock⟩
  · trivial
  · rw [hp] at hlock
    cases hlock
  · rw [hp] at hlock hphase
    obtain ⟨hcounters, hran, -⟩ := hphase
    have hlock' : r.releaseLockOnCallback = true := hlock
    exact ⟨hcounters.cons _, hran.cons _, fun h => by rw [hlock'] at h; cases h⟩

/-- A run starts from the head. -/
theorem Invariant.start {m m' : Machine H} {maxBlocks : Option ℤ} {releaseLockOnCallback : Bool}
    (hm : Invariant env S name m)
    (hstep : Step env name m (.start maxBlocks releaseLockOnCallback) m') :
    Invariant env S name m' := by
  obtain ⟨top, hi⟩ := hm.indexed
  obtain ⟨k, hk⟩ := hm.head
  rcases hstep with _ | _ | @⟨chain, chain', log, _, _, r, hstart⟩
  have hbegin : (beginIterator env name maxBlocks releaseLockOnCallback).Ensures
      (fun r s' => s' = chain ∧ Counters env name log r) chain := by
    refine .bind (.gets (.ite (fun _ => .throw) fun _ => .bind (ensures_hashToNumber
      fun n hn => .pure ⟨rfl, rfl, ⟨n, rfl, ?_⟩, nofun, hm.reached⟩)))
    have hnk : n = k := by
      rw [hi.hashToNumber_eq hk] at hn
      exact (Option.some.inj hn).symm
    have := hi.chain.le_top hk
    have := hi.top_lt
    omega
  obtain ⟨rfl, hcounters⟩ := hbegin _ _ hstart
  exact ⟨⟨top, hi⟩, hm.stored, hm.logged, ⟨k, hk⟩, hm.reached, hcounters⟩

/-- A block is passed on a parent that was reached. -/
theorem Invariant.next {m m' : Machine H} (hm : Invariant env S name m)
    (hsafe : SafeAction env name m .next) (hstep : Step env name m .next m') :
    Invariant env S name m' := by
  obtain ⟨top, hi⟩ := hm.indexed
  obtain ⟨k, hk⟩ := hm.head
  have htop := hi.top_lt
  rcases hstep with _ | _ | _ | @⟨chain, chain', log, r, r', nextBlock, reorg, hnext⟩ |
    @⟨chain, chain', log, r, hnext⟩ | @⟨chain, chain', log, r, e, hnext⟩
  · have hcounters : Counters env name log r := hm.phase
    have hpasses := nextCallback_spec hi.stored r _ _ hnext r' nextBlock reorg rfl
    obtain rfl : chain = chain' := (rel_nextCallback r).ensures _ _ hnext
    have hlogged : nextBlock ∈ S → ∀ block, .onBlock block ∈ .onBlock nextBlock :: log →
        block ∈ S := by
      intro hnextBlock block hblock
      rcases List.mem_cons.1 hblock with heq | hblock
      · cases heq
        exact hnextBlock
      · exact hm.logged block hblock
    rcases hpasses with ⟨hmax, hblock, hheader, hlast⟩ | ⟨hlast, hhead, hblock, hheader⟩
    · have hparent : Reached env log nextBlock.parentHash := by
        rcases hr : r.lastBlock with _ | last
        · -- the counters are those the run started with
          obtain ⟨n, hn, hbound⟩ := hcounters.nextBlockNumber
          have hload := hsafe r rfl hr hmax (by rw [hblock]; rfl)
          have hprev : r.nextBlockNumber - 1 = n := by omega
          have hkey : asUintN64 r.nextBlockNumber = n + 1 := by
            rw [hn]
            exact asUintN64_natCast hbound
          rw [hprev, asUintN64_natCast (by omega)] at hload
          rw [hkey] at hblock hheader
          rw [hi.parentHash_eq hheader hblock hload]
          exact hcounters.headHash
        · rw [← hlast last hr]
          exact hcounters.lastBlock last hr
      exact ⟨⟨top, hi⟩, hm.stored, hlogged (hm.stored _ _ _ hheader), ⟨k, hk⟩, hm.reached.cons _,
        hcounters.cons _, hparent.passed, fun _ => hblock⟩
    · obtain rfl : r.name = name := hcounters.name
      rw [hi.hashToNumber_eq hk] at hhead
      obtain rfl := Option.some.inj hhead
      have hle := hi.chain.le_top hk
      have hkey : asUintN64 ((k : ℤ) + 1) = k + 1 := asUintN64_natCast (n := k + 1) (by omega)
      have hblock' := hblock
      have hheader' := hheader
      rw [hkey] at hblock' hheader'
      have hparent : Reached env log nextBlock.parentHash := by
        rw [hi.parentHash_eq hheader' hblock' hk]
        exact hm.reached
      have hloaded : Counters env r.name log
          { r with headHash := iteratorHead env r.name chain, nextBlockNumber := (k : ℤ) + 1 } :=
        ⟨rfl, ⟨k, rfl, by omega⟩, hcounters.lastBlock, hm.reached⟩
      exact ⟨⟨top, hi⟩, hm.stored, hlogged (hm.stored _ _ _ hheader), ⟨k, hk⟩, hm.reached.cons _,
        hloaded.cons _, hparent.passed, fun _ => hblock⟩
  · obtain rfl : chain = chain' := (rel_nextCallback r).ensures _ _ hnext
    exact ⟨⟨top, hi.congr rfl rfl rfl⟩, hm.stored, hm.logged, ⟨k, hk⟩, hm.reached, trivial⟩
  · have hsame : chain = ((nextCallback env r).run chain).2 := rel_nextCallback r chain
    rw [hnext] at hsame
    obtain rfl : chain = chain' := hsame
    exact ⟨⟨top, hi.congr rfl rfl rfl⟩, hm.stored, hm.logged, ⟨k, hk⟩, hm.reached, trivial⟩

/-- After a callback the head stays or moves to the block that was passed. -/
private theorem Invariant.callbackReturns {m m' : Machine H} (hm : Invariant env S name m)
    (hstep : Step env name m .callbackReturns m') : Invariant env S name m' := by
  obtain ⟨top, hi⟩ := hm.indexed
  have htop := hi.top_lt
  rcases hstep with _ | _ | _ | _ | _ | _ | @⟨chain, chain', log, r, r', nextBlock, hreturn⟩
  obtain ⟨hcounters, hran, hsame⟩ :
    Counters env name log r ∧ RunInOrder env log (env.hash nextBlock) ∧ _ := hm.phase
  have hlogged : ∀ h block, .onBlock block ∈ .head h :: log → block ∈ S := by
    intro h block hblock
    rcases List.mem_cons.1 hblock with heq | hblock
    · cases heq
    · exact hm.logged block hblock
  -- what stands after the callback either sees the reorg or moves the head on
  have hafter : (afterCallback env r nextBlock).Ensures
      (fun r' s' => Invariant env S name ⟨s', .looping r', .head (iteratorHead env name s') :: log⟩)
      chain := by
    refine .bind fun reorged t hrun => ?_
    have hspec := reorgWhileOnBlock_spec hi.stored r nextBlock _ _ hrun
    obtain rfl : chain = t := (rel_reorgWhileOnBlock r nextBlock).ensures _ _ hrun
    refine .ite (fun _ => .pure ?_) fun hno => .bind (.modify (.pure ?_))
    · have hcounted : Counters env name log { r with blocksRan := r.blocksRan + 1 } :=
        ⟨hcounters.name, hcounters.nextBlockNumber, hcounters.lastBlock, hcounters.headHash⟩
      exact ⟨⟨top, hi⟩, hm.stored, hlogged _, hm.head, hm.reached.cons _, hcounted.cons _⟩
    · -- without a reorg the block is still the canonical one of its number
      have hcanonical : chain.db.numberToHash (asUintN64 r.nextBlockNumber) =
          some (env.hash nextBlock) := by
        rcases hlock : r.releaseLockOnCallback with _ | _
        · exact hsame hlock
        · exact hspec (by simpa using hno) hlock
      have hhead : iteratorHead env name { chain with
          heads := Function.update chain.heads r.name (some (env.hash nextBlock)) } =
            env.hash nextBlock := by
        change (Function.update chain.heads r.name (some (env.hash nextBlock)) name).getD _ = _
        rw [hcounters.name, Function.update_self]
        rfl
      -- the callback ran for it, after those of its ancestors
      have hreached : Reached env (.head (env.hash nextBlock) :: log) (env.hash nextBlock) :=
        ⟨List.mem_cons_self .., hran.cons _⟩
      obtain ⟨n, hn, hbound⟩ := hcounters.nextBlockNumber
      have hkey : asUintN64 r.nextBlockNumber = n + 1 := by
        rw [hn]
        exact asUintN64_natCast hbound
      refine ⟨⟨top, hi⟩, hm.stored, hlogged _, ?_, ?_, ?_⟩
      · rw [hhead]
        exact ⟨_, hcanonical⟩
      · rw [hhead]
        exact hreached
      · rw [hhead]
        rw [hkey] at hcanonical
        have hle := hi.chain.le_top hcanonical
        refine ⟨hcounters.name, ⟨n + 1, ?_, by omega⟩, ?_, hcounters.headHash.cons _⟩
        · rw [hn]
          rfl
        · rintro last ⟨⟩
          exact hreached
  exact hafter _ _ hreturn

private theorem invariant_init (hgenesis : env.genesis ∈ S) (name : String) (body : Bytes) :
    Invariant env S name (Machine.init env body) := by
  obtain ⟨⟨top, ha⟩, -⟩ := coherent_createBlockchain env body
  have hlogged : ∀ block, .onBlock block ∈ [Event.head (env.hash env.genesis)] → block ∈ S := by
    intro block hblock
    cases List.mem_singleton.1 hblock
  exact ⟨⟨top, ha.indexed⟩, headersMeet_createBlockchain hgenesis body, hlogged,
    ⟨0, ha.indexed.chain.root⟩, ⟨List.mem_cons_self .., .genesis _⟩, trivial⟩

include hinj in
theorem Invariant.step {m m' : Machine H} {a : Action H} (hm : Invariant env S name m)
    (hsafe : SafeActionIn env S name m a) (hstep : Step env name m a m') :
    Invariant env S name m' := by
  cases a with
  | put item => exact (hm.put hinj hsafe.1 (hsafe.2 item rfl) hstep).1
  | start maxBlocks releaseLockOnCallback => exact hm.start hstep
  | next => exact hm.next hsafe.1 hstep
  | callbackReturns => exact hm.callbackReturns hstep

include hinj in
private theorem invariant_of_steps (hgenesis : env.genesis ∈ S) (body : Bytes) {m : Machine H}
    (hsteps : Steps env name (SafeActionIn env S name) (Machine.init env body) m) :
    Invariant env S name m := by
  induction hsteps with
  | refl => exact invariant_init hgenesis name body
  | step _ hallowed hstep ih => exact ih.step hinj hallowed hstep

end Preservation

/-! ### Sample runs -/

section Safe

variable [DecidableEq H] {env : Env H} {S : Set (Header H)} {name : String} {m : Machine H}

/-- A put above which nothing is canonical is safe. -/
private theorem Invariant.safeAction_put (hm : Invariant env S name m) {item : Item H}
    (hbound : item.getHeader.number + 1 < 2 ^ 64)
    (hnone : m.chain.db.numberToHash (item.getHeader.number + 1) = none) :
    SafeAction env name m (.put item) := by
  obtain ⟨top, hi⟩ := hm.indexed
  refine ⟨hbound, fun _ k hk hlt => ?_⟩
  have hle := hi.chain.le_top hk
  obtain ⟨h, hh⟩ := hi.chain.exists_of_le (n := item.getHeader.number + 1) (by omega)
  rw [hnone] at hh
  cases hh

/-- What a run without a last block has to hold. -/
private theorem safeAction_next {r : Running H} (hphase : m.phase = .looping r)
    (h : r.lastBlock = none →
      m.chain.db.numberToHash (asUintN64 (r.nextBlockNumber - 1)) = some r.headHash) :
    SafeAction env name m .next := by
  intro r' hphase' hlast _ _
  cases hphase.symm.trans hphase'
  exact h hlast

end Safe

/-- Blocks ordered by total difficulty. -/
def difficultyEnv : Env (List ℕ) :=
  { sampleEnv with isGenesis := sampleEnv_isGenesis, hasConsensus := true }

/-- Two blocks on genesis, one after the other. -/
def lightBlocks : Header (List ℕ) × Header (List ℕ) :=
  let first : Header (List ℕ) := ⟨1, sampleHash sampleEnv.genesis, 1, 10, []⟩
  (first, ⟨2, sampleHash first, 1, 20, []⟩)

/-- A single block on genesis which is more difficult than both. -/
def heavyBlock : Header (List ℕ) := ⟨1, sampleHash sampleEnv.genesis, 5, 11, []⟩

/-- A light block is put and run, the heavy one is put in its place, and that is run. -/
def replacingActions : List (Action (List ℕ)) :=
  [.put (.block lightBlocks.1 []), .start none false, .next, .callbackReturns, .next,
    .put (.block heavyBlock []), .start none false, .next, .callbackReturns]

/-- The machine after some of these actions. -/
def replacingMachine (n : ℕ) : Machine (List ℕ) :=
  (replacingActions.take n).foldl (fun m a => (m.exec difficultyEnv "vm" 9 a).getD m)
    (Machine.init difficultyEnv [])

/-- The blocks of these actions, with genesis. -/
def replacingHeaders : Set (Header (List ℕ)) :=
  {sampleEnv.genesis, lightBlocks.1, heavyBlock}

private theorem Step.exec [DecidableEq H] {env : Env H} {name : String} {m : Machine H} (fuel : ℕ)
    {a : Action H} (hsome : (m.exec env name fuel a).isSome = true) :
    Step env name m a ((m.exec env name fuel a).getD m) := by
  obtain ⟨m', hm'⟩ := Option.isSome_iff_exists.1 hsome
  rw [hm']
  exact Step.of_exec hm'

/-- The light blocks are put and run, and then the heavy one is put. -/
def heavyActions : List (Action (List ℕ)) :=
  [.put (.block lightBlocks.1 []), .put (.block lightBlocks.2 []), .start none false, .next,
    .callbackReturns, .next, .callbackReturns, .next, .put (.block heavyBlock [])]

end Blockchain

end Tvmjs
