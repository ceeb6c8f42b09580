import Tvmjs.Blockchain.Filing

/-!
# The canonical chain over whole runs

The index by number is one chain of stored headers from genesis up to the head header, every head is
a hash on it, and the heads in memory are those in the database.

* `Coherent` -- the property;
* `Coherent.putBlockOrHeader`, `Coherent.resetCanonicalHead`, `Coherent.delBlock`,
  `Coherent.iterator` -- what one call keeps;
* `Call.Safe`, `Run` -- the calls that keep it, and runs;
* `Call.keeps` -- what calls keep of the stored headers;
* `coherent_of_run` -- runs of safe calls, over headers whose hashes differ.
-/

namespace Tvmjs

namespace Blockchain

variable {H : Type}

/-- The heads in memory are those that would be read from the database. -/
structure Persisted (env : Env H) (s : Blockchain H) : Prop where
  heads : s.db.heads.getD (fun _ => none) = s.heads
  headHeader : s.db.headHeader.getD (env.hash env.genesis) = s.headHeaderHash
  headBlock : s.db.headBlock.getD (env.hash env.genesis) = s.headBlockHash

/-- The canonical chain ends in the head header at `top`, and the other heads are on it. -/
structure Anchored (env : Env H) (s : Blockchain H) (top : ℕ) : Prop where
  indexed : Indexed env s.db top
  headHeader : s.db.numberToHash top = some s.headHeaderHash
  headBlock : OnChain s.db s.headBlockHash
  heads : ∀ name h, s.heads name = some h → OnChain s.db h

/-- The property: one canonical chain, all heads on it, memory and database in step. -/
def Coherent (env : Env H) (s : Blockchain H) : Prop :=
  (∃ top, Anchored env s top) ∧ Persisted env s

private theorem persisted_persist (env : Env H) (s : Blockchain H) : Persisted env (persist s) :=
  ⟨rfl, rfl, rfl⟩

theorem Anchored.persist {env : Env H} {s : Blockchain H} {top : ℕ} (ha : Anchored env s top) :
    Anchored env (persist s) top :=
  ⟨ha.indexed.congr rfl rfl rfl, ha.headHeader, ha.headBlock, ha.heads⟩

/-- A head moves to a canonical block. -/
private theorem Anchored.setHead {env : Env H} {s : Blockchain H} {top : ℕ}
    (ha : Anchored env s top)
    (name : String) {hash : H} (hhash : OnChain s.db hash) :
    Anchored env { s with heads := Function.update s.heads name (some hash) } top := by
  refine ⟨ha.indexed, ha.headHeader, ha.headBlock, fun name' h hh => ?_⟩
  replace hh : Function.update s.heads name (some hash) name' = some h := hh
  by_cases hname : name' = name
  · rw [hname, Function.update_self] at hh
    exact Option.some.inj hh ▸ hhash
  · rw [Function.update_of_ne hname] at hh
    exact ha.heads name' h hh

section Calls

variable [DecidableEq H] {env : Env H} {s : Blockchain H}

/-- A put that takes the head block only where it is canonical keeps the chain anchored. -/
private theorem WasPut.anchored {item : Item H} {top : ℕ} {s' : Blockchain H}
    (h : WasPut env item top s s') (hfree : NoCollision env s.db item.getHeader)
    (ha : Anchored env s top)
    (hzero : item.getHeader.number ≠ 0)
    (hbound : item.getHeader.number + 1 < 2 ^ 64)
    (haside : env.hasConsensus = true → item.isBlock = true → ¬ Wins env s item →
      s.db.td s.headBlockHash < s.db.itemTd item →
      s.db.numberToHash item.getHeader.number = some (env.hash item.getHeader)) :
    ∃ top', Anchored env s' top' := by
  have hi := ha.indexed
  have hdist : ∀ k k' h, s.db.numberToHash k = some h → s.db.numberToHash k' = some h → k = k' :=
    fun k k' h => hi.number_inj
  rcases h with @⟨ops, t, hwins, hhead⟩ | @⟨b, hloses, hblock⟩
  · refine ⟨item.getHeader.number, Anchored.persist ?_⟩
    obtain ⟨hindexed, htop, fork, common, path, f, hdesc, hcommon, hf, rfl, hnumber⟩ :=
      hhead.graft hfree hi hzero hbound
    have hmoved : ∀ h, OnChain s.db h → OnChain
        ((s.db.storeItem (env.hash item.getHeader) item (s.db.itemTd item)).batch ops) (f h) := by
      rintro h ⟨k, hk⟩
      rw [OnChain, hnumber]
      exact hf.onChain hdist hdesc hcommon (hnumber ▸ htop) hk
    refine ⟨hindexed, htop, ?_, fun name h hh => ?_⟩
    · by_cases hblock : item.isBlock
      · exact ⟨_, by simpa [hblock] using htop⟩
      · simpa [hblock] using hmoved _ ha.headBlock
    · obtain ⟨h', hh', rfl⟩ := Option.map_eq_some_iff.1 hh
      exact hmoved h' (ha.heads name h' hh')
  · refine ⟨top, Anchored.persist ?_⟩
    obtain ⟨hnumber, hindexed⟩ := hi.storeAside hfree (s.db.itemTd item) hzero hbound
    refine ⟨hindexed, ?_, ?_, fun name h hh => ?_⟩
    · rw [hnumber]
      exact ha.headHeader
    · rw [OnChain, hnumber]
      rcases hblock with rfl | ⟨hisBlock, hadvances, rfl⟩
      · exact ha.headBlock
      · refine ⟨item.getHeader.number, ?_⟩
        unfold Advances at hadvances
        split at hadvances
        · exact haside ‹_› hisBlock hloses hadvances
        · rwa [asUintN64_natCast (by omega)] at hadvances
    · rw [OnChain, hnumber]
      exact ha.heads name h hh

theorem WasPut.persisted {item : Item H} {top : ℕ} {s' : Blockchain H}
    (h : WasPut env item top s s') : Persisted env s' := by
  rcases h with _ | _
  · exact persisted_persist env _
  · exact persisted_persist env _

/-- The puts that keep the chain coherent: numbers fit into the keys, and under consensus metadata a
block that loses the fork choice takes the head block only where it is canonical. -/
structure SafePut (env : Env H) (s : Blockchain H) (item : Item H) : Prop where
  number : item.getHeader.number + 1 < 2 ^ 64
  aside : env.hasConsensus = true → item.isBlock = true → ¬ Wins env s item →
    s.db.td s.headBlockHash < s.db.itemTd item →
    s.db.numberToHash item.getHeader.number = some (env.hash item.getHeader)

theorem Coherent.putBlockOrHeader (hs : Coherent env s) (fuel : ℕ) {item : Item H}
    (hfree : NoCollision env s.db item.getHeader) (hsafe : SafePut env s item) :
    (putBlockOrHeader env fuel item).Ensures (fun _ s' => Coherent env s') s := by
  obtain ⟨⟨top, ha⟩, hp⟩ := hs
  refine (putBlockOrHeader_spec fuel hfree ha.indexed hsafe.number).mono ?_
  rintro _ s' (rfl | ⟨hzero, hput⟩)
  · exact ⟨⟨top, ha⟩, hp⟩
  · exact ⟨hput.anchored hfree ha hzero hsafe.number hsafe.aside, hput.persisted⟩

omit [DecidableEq H] in
/-- Where the stored headers and a new one are in a set on which hashes differ, the new one has a
hash of its own. -/
private theorem Coherent.noCollision {S : Set (Header H)} (hinj : Set.InjOn env.hash S)
    (hs : Coherent env s) (hstored : HeadersMeet (fun _ header => header ∈ S) s.db)
    {header : Header H} (hheader : header ∈ S) : NoCollision env s.db header := by
  obtain ⟨⟨top, ha⟩, -⟩ := hs
  intro n stored hn
  obtain ⟨-, hhash, -⟩ := ha.indexed.stored.key _ _ _ hn
  exact hinj (hstored _ _ _ hn) hheader hhash

/-- A list of puts is safe when each is in the state it meets. -/
def SafePuts (env : Env H) (fuel : ℕ) : List (Item H) → Blockchain H → Prop
  | [], _ => True
  | item :: items, s => SafePut env s item ∧
      (Blockchain.putBlockOrHeader env fuel item).Ensures (fun _ => SafePuts env fuel items) s

theorem Coherent.putAll {S : Set (Header H)} (hinj : Set.InjOn env.hash S) (fuel : ℕ)
    {items : List (Item H)} (hitems : ∀ item ∈ items, item.getHeader ∈ S) (hs : Coherent env s)
    (hstored : HeadersMeet (fun _ header => header ∈ S) s.db)
    (hsafe : SafePuts env fuel items s) :
    (putAll env fuel items).Ensures (fun _ s' => Coherent env s') s := by
  induction items generalizing s with
  | nil => exact .pure hs
  | cons item items ih =>
    obtain ⟨hput, hrest⟩ := hsafe
    have hitem := hitems item (List.mem_cons_self ..)
    refine .bind fun a s' hrun => ?_
    refine ih (fun item' hitem' => hitems item' (List.mem_cons_of_mem _ hitem'))
      (hs.putBlockOrHeader fuel (hs.noCollision hinj hstored hitem) hput a s' hrun) ?_
      (hrest a s' hrun)
    have hkeeps := keeps_putBlockOrHeader (P := fun _ header => header ∈ S) env fuel hitem s
    rw [hrun] at hkeeps
    exact hkeeps hstored

/-- Resetting the head prunes the chain. -/
theorem Coherent.resetCanonicalHead (hs : Coherent env s) (fuel : ℕ) (canonicalHead : ℤ) :
    (resetCanonicalHead env fuel canonicalHead).Ensures (fun _ s' => Coherent env s') s := by
  obtain ⟨⟨top, ha⟩, -⟩ := hs
  have hi := ha.indexed
  refine .bind (ensures_numberToHash ?_)
  obtain ⟨n, hn⟩ : ∃ n, asUintN64 canonicalHead = n := ⟨_, rfl⟩
  rw [hn]
  rcases hhash : s.db.numberToHash n with _ | hash
  · exact .throw
  have hle := hi.chain.le_top hhash
  have htop := hi.top_lt
  have hnext : asUintN64 (canonicalHead + 1) = n + 1 := by
    unfold asUintN64 at hn ⊢
    omega
  have hfresh : ∀ k, n + 1 ≤ k → s.db.numberToHash k ≠ some hash := by
    intro k hk hck
    have := hi.number_inj hck hhash
    omega
  refine .bind (ensures_getHeader fun header _ => ?_)
  refine .bind ((deleteCanonicalChainReferences_spec hi.chain htop fuel hnext hfresh
    (by rfl)).mono ?_)
  rintro forgotten t ⟨⟨f, hf, rfl⟩, hops⟩
  refine .bind (.gets (.bind (.modify (.ofExcept fun _ _ => ?_))))
  rw [Database.batch_append, batch_saveHeadOps]
  refine ⟨⟨n, Anchored.persist (s := { relocate f s with db := s.db.batch forgotten }) ?_⟩,
    persisted_persist env { relocate f s with db := s.db.batch forgotten }⟩
  -- what is left of the index is its part up to the new head
  have hnumber : (s.db.batch forgotten).numberToHash = Tvmjs.prune s.db.numberToHash n := by
    rw [hops, ← forget_eq_prune hi.chain]
  -- a head that was above is moved to it, any other one stays
  have hmoved : ∀ h, OnChain s.db h → OnChain (s.db.batch forgotten) (f h) := by
    rintro h ⟨k, hk⟩
    rw [OnChain, hnumber]
    by_cases hkn : k ≤ n
    · have hsame : f h = h := hf.kept h fun k' hk' hck' => by
        have := hi.number_inj hk hck'
        omega
      exact ⟨k, by rw [prune_of_le hkn, hsame, hk]⟩
    · exact ⟨n, by rw [prune_of_le (Nat.le_refl n), hf.forgotten k h (by omega) hk, hhash]⟩
  have hhead : f s.headHeaderHash = hash := by
    by_cases htopn : top = n
    · have hsame : s.headHeaderHash = hash :=
        Option.some.inj (ha.headHeader.symm.trans (htopn ▸ hhash))
      rw [hsame]
      exact hf.kept hash hfresh
    · exact hf.forgotten top _ (by omega) ha.headHeader
  refine ⟨hi.prune hle (by rw [hops]) (by rw [hops]) hnumber, ?_, hmoved _ ha.headBlock,
    fun name h hh => ?_⟩
  · rw [hnumber, prune_of_le (Nat.le_refl n), hhash, ← hhead]
    rfl
  · obtain ⟨h', hh', rfl⟩ := Option.map_eq_some_iff.1 hh
    exact hmoved h' (ha.heads name h' hh')

theorem Coherent.delBlock (hs : Coherent env s) (fuel : ℕ) {hash : H}
    (hside : ¬ OnChain s.db hash) :
    (delBlock env fuel hash).Ensures (fun _ s' => Coherent env s') s := by
  obtain ⟨⟨top, ha⟩, hp⟩ := hs
  refine .bind (.bind (ensures_hashToNumber fun n hn => ensures_getHeader fun header hheader => ?_))
  have hkey : asUintN64 n = n := by
    obtain ⟨stored, hstored⟩ := Option.isSome_iff_exists.1
      ((ha.indexed.stored.hashToNumber_iff hash n).1 hn)
    have := (ha.indexed.stored.key n hash stored hstored).2.2
    exact asUintN64_natCast (by omega)
  rw [hkey] at hheader
  obtain ⟨rfl, rfl, -⟩ := ha.indexed.stored.key n hash header hheader
  refine .bind (ensures_numberToHash (.ite (fun hc => ?_) fun hc => ?_))
  · exact absurd ⟨_, hc⟩ hside
  rw [hkey] at hc
  refine .bind ?_
  rcases fuel with _ | fuel
  · exact .throw
  refine .pure (.modify ⟨⟨top, ?_, ha.headHeader, ha.headBlock, ha.heads⟩,
    hp.heads, hp.headHeader, hp.headBlock⟩)
  refine ha.indexed.delete hheader hc (fun m h => ?_) rfl rfl
  exact if_congr (by rw [hkey]) rfl rfl

/-! ### Iterator runs -/

theorem Anchored.iterate {top : ℕ} (fuel : ℕ) (r : Running H) (ha : Anchored env s top) :
    (iterate env fuel r).Ensures (fun _ s' => Anchored env s' top) s := by
  induction fuel generalizing r s with
  | zero => exact .throw
  | succ fuel ih =>
    refine .bind fun next t hrun => ?_
    have hpasses := nextCallback_spec ha.indexed.stored r next t hrun
    obtain rfl : s = t := (rel_nextCallback r).ensures next t hrun
    rcases next with _ | ⟨r', nextBlock, reorg⟩
    · exact .pure ha
    · refine .bind (.bind ((rel_reorgWhileOnBlock r' nextBlock).ensures.mono ?_))
      rintro reorged t rfl
      refine .ite (fun _ => .pure (ih _ ha)) fun _ => .bind (.modify (.pure (ih _ ?_)))
      refine ha.setHead r'.name ?_
      rcases hpasses r' nextBlock reorg rfl with ⟨-, hblock, -⟩ | ⟨-, -, hblock⟩
      · exact ⟨_, hblock⟩
      · exact ⟨_, hblock⟩

theorem Coherent.iterator (hs : Coherent env s) (fuel : ℕ) (name : String) (maxBlocks : Option ℤ)
    (releaseLockOnCallback : Bool) :
    (iterator env fuel name maxBlocks releaseLockOnCallback).Ensures
      (fun _ s' => Coherent env s') s := by
  obtain ⟨⟨top, ha⟩, -⟩ := hs
  have hbegin : Prog.Rel Eq (beginIterator env name maxBlocks releaseLockOnCallback) :=
    .bind (.gets _) fun _ => .ite (.throw _) (.bind (rel_hashToNumber _) fun _ => .pure _)
  refine .bind (hbegin.ensures.mono ?_)
  rintro r t rfl
  refine .tryCatch (.bind ((ha.iterate fuel r).mono fun ran t ht => ?_)) fun e t _ => ?_
  · refine .bind (.bind (.gets (.modify (.pure ?_))))
    exact ⟨⟨top, ht.persist⟩, persisted_persist env t⟩
  · exact .bind (.bind (.gets (.modify .throw)))

end Calls

/-! ### Runs -/

/-- A call on the chain. -/
inductive Call (H : Type) where
  | putBlock (header : Header H) (body : Bytes)
  | putHeader (header : Header H)
  | putBlocks (blocks : List (Header H × Bytes))
  | putHeaders (headers : List (Header H))
  | resetCanonicalHead (canonicalHead : ℤ)
  | delBlock (hash : H)
  | iterator (name : String) (maxBlocks : Option ℤ) (releaseLockOnCallback : Bool)

/-- The blocks of a list as items. -/
def blockItems (blocks : List (Header H × Bytes)) : List (Item H) :=
  blocks.map fun b => .block b.1 b.2

section Runs

variable [DecidableEq H] {env : Env H}

/-- What a call does. -/
def Call.run (env : Env H) (fuel : ℕ) : Call H → ChainM H Unit
  | .putBlock header body => Blockchain.putBlockOrHeader env fuel (.block header body)
  | .putHeader header => Blockchain.putBlockOrHeader env fuel (.header header)
  | .putBlocks blocks => Blockchain.putAll env fuel (blockItems blocks)
  | .putHeaders headers => Blockchain.putAll env fuel (headers.map .header)
  | .resetCanonicalHead canonicalHead => Blockchain.resetCanonicalHead env fuel canonicalHead
  | .delBlock hash => Blockchain.delBlock env fuel hash
  | .iterator name maxBlocks releaseLockOnCallback => do
    let _ ← Blockchain.iterator env fuel name maxBlocks releaseLockOnCallback
    pure ()

/-- The headers that a call puts. -/
def Call.headers : Call H → List (Header H)
  | .putBlock header _ => [header]
  | .putHeader header => [header]
  | .putBlocks blocks => blocks.map Prod.fst
  | .putHeaders headers => headers
  | .resetCanonicalHead _ => []
  | .delBlock _ => []
  | .iterator _ _ _ => []

/-- Whatever its outcome, a call keeps a condition on the stored headers which its own meet. -/
theorem Call.keeps {P : ℕ → Header H → Prop} (env : Env H) (fuel : ℕ) {call : Call H}
    (h : ∀ header ∈ call.headers, P (asUintN64 header.number) header) :
    Prog.Rel (Keeps P) (call.run env fuel) := by
  cases call with
  | putBlock header body => exact keeps_putBlockOrHeader env fuel (h header (List.mem_cons_self ..))
  | putHeader header => exact keeps_putBlockOrHeader env fuel (h header (List.mem_cons_self ..))
  | putBlocks blocks =>
    refine keeps_putAll env fuel fun item hitem => ?_
    obtain ⟨block, hblock, rfl⟩ := List.mem_map.1 hitem
    exact h block.1 (List.mem_map_of_mem hblock)
  | putHeaders headers =>
    refine keeps_putAll env fuel fun item hitem => ?_
    obtain ⟨header, hheader, rfl⟩ := List.mem_map.1 hitem
    exact h header hheader
  | resetCanonicalHead canonicalHead => exact keeps_resetCanonicalHead env fuel canonicalHead
  | delBlock hash => exact keeps_delBlock env fuel hash
  | iterator name maxBlocks releaseLockOnCallback =>
    exact .bind (keeps_iterator env fuel name maxBlocks releaseLockOnCallback) fun _ => .pure _

/-- The calls that keep the chain coherent: puts are safe, and no canonical block is deleted. -/
def Call.Safe (env : Env H) (fuel : ℕ) (s : Blockchain H) : Call H → Prop
  | .putBlock header body => SafePut env s (.block header body)
  | .putHeader header => SafePut env s (.header header)
  | .putBlocks blocks => SafePuts env fuel (blockItems blocks) s
  | .putHeaders headers => SafePuts env fuel (headers.map .header) s
  | .resetCanonicalHead _ => True
  | .delBlock hash => ¬ OnChain s.db hash
  | .iterator _ _ _ => True

/-- Calls that return, one after the other, each one `Allowed` in the state it meets. -/
inductive Run (env : Env H) (Allowed : ℕ → Blockchain H → Call H → Prop) (s : Blockchain H) :
    Blockchain H → Prop
  | start : Run env Allowed s s
  | call {t s' : Blockchain H} (fuel : ℕ) (call : Call H) (hrun : Run env Allowed s t)
      (hallowed : Allowed fuel t call) (hcall : (call.run env fuel).run t = (.ok (), s')) :
      Run env Allowed s s'

/-- The step: a safe call that returns keeps the chain coherent. -/
theorem Coherent.call {S : Set (Header H)} (hinj : Set.InjOn env.hash S) {s : Blockchain H}
    (hs : Coherent env s) (hstored : HeadersMeet (fun _ header => header ∈ S) s.db) {fuel : ℕ}
    {call : Call H} (hheaders : ∀ header ∈ call.headers, header ∈ S)
    (hsafe : call.Safe env fuel s) :
    (call.run env fuel).Ensures (fun _ s' => Coherent env s') s := by
  cases call with
  | putBlock header body =>
    have hheader := hheaders header (List.mem_cons_self ..)
    exact hs.putBlockOrHeader fuel (hs.noCollision hinj hstored hheader) hsafe
  | putHeader header =>
    have hheader := hheaders header (List.mem_cons_self ..)
    exact hs.putBlockOrHeader fuel (hs.noCollision hinj hstored hheader) hsafe
  | putBlocks blocks =>
    refine Coherent.putAll hinj fuel (fun item hitem => ?_) hs hstored hsafe
    obtain ⟨block, hblock, rfl⟩ := List.mem_map.1 hitem
    exact hheaders block.1 (List.mem_map_of_mem hblock)
  | putHeaders headers =>
    refine Coherent.putAll hinj fuel (fun item hitem => ?_) hs hstored hsafe
    obtain ⟨header, hheader, rfl⟩ := List.mem_map.1 hitem
    exact hheaders header hheader
  | resetCanonicalHead canonicalHead => exact hs.resetCanonicalHead fuel canonicalHead
  | delBlock hash => exact hs.delBlock fuel hsafe
  | iterator name maxBlocks releaseLockOnCallback =>
    exact .bind ((hs.iterator fuel name maxBlocks releaseLockOnCallback).mono fun _ _ h => .pure h)

/-- The only header of a chain as it is created. -/
private theorem header_createBlockchain (env : Env H) (body : Bytes) (n : ℕ) (h : H) :
    (createBlockchain env body).db.header n h =
      if n = 0 ∧ h = env.hash env.genesis then some env.genesis else none := by
  have hkey : asUintN64 env.genesis.number = 0 := by
    rw [env.isGenesis]
    rfl
  exact if_congr (by rw [← hkey]) rfl rfl

theorem headersMeet_createBlockchain {P : ℕ → Header H → Prop} (hgenesis : P 0 env.genesis)
    (body : Bytes) : HeadersMeet P (createBlockchain env body).db := by
  intro n h header hh
  rw [header_createBlockchain] at hh
  split at hh
  · obtain ⟨rfl, -⟩ := ‹_ ∧ _›
    cases hh
    exact hgenesis
  · cases hh

/-- The chain as created is the genesis block alone. -/
theorem coherent_createBlockchain (env : Env H) (body : Bytes) :
    Coherent env (createBlockchain env body) := by
  have hheader := header_createBlockchain env body
  have hnumber : (createBlockchain env body).db.numberToHash =
      Function.update (fun _ => none) 0 (some (env.hash env.genesis)) := rfl
  have hhash : (createBlockchain env body).db.hashToNumber =
      Function.update (fun _ => none) (env.hash env.genesis) (some 0) := rfl
  have hroot : (createBlockchain env body).db.numberToHash 0 = some (env.hash env.genesis) := by
    rw [hnumber, Function.update_self]
  refine ⟨⟨0, ⟨⟨fun n h header hh => ?_, fun h header hh => ?_, fun h n => ?_⟩,
    ⟨hroot, fun n => ?_, fun n p h _ hh => ?_⟩, env.genesis, ?_, env.isGenesis, rfl⟩,
    hroot, ⟨0, hroot⟩, nofun⟩, rfl, rfl, rfl⟩
  · rw [hheader] at hh
    split at hh
    · obtain ⟨rfl, rfl⟩ := ‹_ ∧ _›
      cases hh
      exact ⟨env.isGenesis, rfl, by decide⟩
    · cases hh
  · rw [hheader] at hh
    split at hh
    · exact ‹_ ∧ _›.2
    · cases hh
  · rw [hheader, hhash]
    by_cases hh : h = env.hash env.genesis
    · rw [hh, Function.update_self]
      by_cases hn : n = 0
      · simp [hn]
      · simp [hn, eq_comm]
    · rw [Function.update_of_ne hh]
      simp [hh]
  · rw [hnumber]
    by_cases hn : n = 0
    · simp [hn]
    · simp [hn]
  · rw [hnumber, Function.update_of_ne (Nat.succ_ne_zero n)] at hh
    cases hh
  · rw [hheader, if_pos ⟨rfl, rfl⟩]

/-- The safe calls that put headers of a set. -/
def Call.SafeIn (env : Env H) (S : Set (Header H)) (fuel : ℕ) (s : Blockchain H) (call : Call H) :
    Prop :=
  call.Safe env fuel s ∧ ∀ header ∈ call.headers, header ∈ S

/-- What runs keep: the chain stays coherent, and its headers stay in the set. -/
theorem Run.coherent {S : Set (Header H)} (hinj : Set.InjOn env.hash S)
    (hgenesis : env.genesis ∈ S) {body : Bytes} {s : Blockchain H}
    (hrun : Run env (Call.SafeIn env S) (createBlockchain env body) s) :
    Coherent env s ∧ HeadersMeet (fun _ header => header ∈ S) s.db := by
  induction hrun with
  | start => exact ⟨coherent_createBlockchain env body, headersMeet_createBlockchain hgenesis body⟩
  | @call t s' fuel call _ hallowed hcall ih =>
    obtain ⟨hcoherent, hstored⟩ := ih
    refine ⟨hcoherent.call hinj hstored hallowed.2 hallowed.1 _ _ hcall, ?_⟩
    have hkeeps := call.keeps (P := fun _ header => header ∈ S) env fuel hallowed.2 t
    rw [hcall] at hkeeps
    exact hkeeps hstored

/-- **Runs keep the chain coherent**, as long as the headers they put have hashes that differ from
each other's and from that of genesis. -/
theorem coherent_of_run {S : Set (Header H)} (hinj : Set.InjOn env.hash S)
    (hgenesis : env.genesis ∈ S) (body : Bytes) {s : Blockchain H}
    (hrun : Run env (Call.SafeIn env S) (createBlockchain env body) s) : Coherent env s :=
  (hrun.coherent hinj hgenesis).1

end Runs

/-! ### A sample chain -/

/-- A hash that shows the whole header. -/
def sampleHash (header : Header (List ℕ)) : List ℕ :=
  header.number :: header.difficulty :: header.timestamp :: header.rest.length ::
    (header.rest.map UInt8.toNat ++ header.parentHash)

private theorem sampleHash_injective : Function.Injective sampleHash := by
  rintro ⟨n, p, d, t, r⟩ ⟨n', p', d', t', r'⟩ h
  obtain ⟨rfl, rfl, rfl, hlength, happend⟩ : n = n' ∧ d = d' ∧ t = t' ∧ r.length = r'.length ∧
      r.map UInt8.toNat ++ p = r'.map UInt8.toNat ++ p' := by
    simpa [sampleHash] using h
  obtain ⟨hrest, rfl⟩ := List.append_inj happend (by simp [hlength])
  rw [(List.map_inj_right fun _ _ => UInt8.toNat_inj.1).1 hrest]

/-- Blocks ordered by number, and nothing turned away. -/
def sampleEnv : Env (List ℕ) where
  hash := sampleHash
  genesis := ⟨0, [], 0, 0, []⟩
  isGenesis := rfl
  hasConsensus := false
  isProofOfStake _ := false
  validate _ _ := .ok ()
  hardforkByHeadBlockNumber := false
  transition _ _ := .ok ()
  newBlock _ _ _ := .ok ()
  hasEmptyBody _ := true

theorem sampleEnv_isGenesis : sampleEnv.genesis.number = 0 := rfl

/-- The first block on genesis. -/
def sampleBlock : Header (List ℕ) := ⟨1, sampleHash sampleEnv.genesis, 0, 10, []⟩

/-- The chain after the first block was put. -/
def sampleChain : Blockchain (List ℕ) :=
  (((Call.putBlock sampleBlock []).run sampleEnv 5).run (createBlockchain sampleEnv [])).2

theorem injOn_sampleHash (S : Set (Header (List ℕ))) : Set.InjOn sampleEnv.hash S :=
  fun _ _ _ _ h => sampleHash_injective h

theorem run_sampleChain : Run sampleEnv (Call.SafeIn sampleEnv {sampleEnv.genesis, sampleBlock})
    (createBlockchain sampleEnv []) sampleChain := by
  refine .call 5 (.putBlock sampleBlock []) .start ⟨⟨by decide, nofun⟩, fun header hheader => ?_⟩
    (Prod.ext (by rfl) rfl)
  exact .inr (List.mem_singleton.1 hheader)

theorem coherent_sampleChain : Coherent sampleEnv sampleChain :=
  coherent_of_run (injOn_sampleHash _) (.inl rfl) [] run_sampleChain

/-- Deleting the canonical block moves the heads in memory only. -/
theorem not_coherent_delBlock : ¬ ∀ s,
    Run sampleEnv (fun _ _ _ => True) (createBlockchain sampleEnv []) s → Coherent sampleEnv s := by
  intro h
  have hrun : Run sampleEnv (fun _ _ _ => True) (createBlockchain sampleEnv [])
      (((Call.delBlock (sampleHash sampleBlock)).run sampleEnv 5).run sampleChain).2 :=
    .call 5 (.delBlock (sampleHash sampleBlock))
      (.call 5 (.putBlock sampleBlock []) .start trivial (Prod.ext (by rfl) rfl)) trivial
      (Prod.ext (by rfl) rfl)
  have hhead := (h _ hrun).2.headHeader
  exact absurd hhead (by decide)

end Blockchain

end Tvmjs
