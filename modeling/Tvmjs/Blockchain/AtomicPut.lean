import Tvmjs.Blockchain.Canonical

/-!
# Puts that throw
Whatever throws in a put before its batch is undone by bringing the heads back, and so is a batch
that the database refuses, for the caches are told only afterwards; but the consensus throws after
the batch.

* `HookAccepts` -- the consensus takes the block with what it is called with;
* `Settled` -- everything that the put would write is stored already;
* `Attempts`, `filed_of_attempts` -- calls one after the other, whatever their outcomes, keep
  headers under their own numbers;
* `AtomicPut`, `putBlockOrHeader_atomic_iff` -- a put that throws leaves no trace, through the
  caches, in memory and in the database, exactly when a put which gets to a batch that is taken has
  a consensus that accepts the block or nothing to change.
-/

namespace Tvmjs

namespace Blockchain

variable {H : Type} [DecidableEq H]

/-! ### What a put has to meet -/

/-- The consensus takes the block without a throw. -/
def HookAccepts (env : Env H) (item : Item H) (s : Blockchain H) : Prop :=
  ∀ commonAncestor ancestorHeaders, HookArguments env item s commonAncestor ancestorHeaders →
    ∃ u, env.newBlock item commonAncestor ancestorHeaders = .ok u

/-- Everything that a put of the item would write is stored already: the item with its total
difficulty, its place in the indexes, and the heads it would leave. -/
structure Settled (env : Env H) (item : Item H) (s : Blockchain H) : Prop where
  totalDifficulty : s.db.totalDifficulty (asUintN64 item.getHeader.number)
    (env.hash item.getHeader) = some (s.db.itemTd item)
  header : s.db.header (asUintN64 item.getHeader.number) (env.hash item.getHeader) =
    some item.getHeader
  body : ∀ header body, item = .block header body →
    s.db.body (asUintN64 header.number) (env.hash header) = some body
  canonical : Wins env s item →
    s.db.numberToHash (asUintN64 item.getHeader.number) = some (env.hash item.getHeader)
  last : Wins env s item → s.db.numberToHash (asUintN64 (item.getHeader.number + 1)) = none
  known : ¬ Wins env s item →
    s.db.hashToNumber (env.hash item.getHeader) = some (asUintN64 item.getHeader.number)
  heads : s.db.heads = some s.heads
  headHeader : Wins env s item → s.db.headHeader = some (env.hash item.getHeader)
  headHeader_kept : ¬ Wins env s item → s.db.headHeader = some s.headHeaderHash
  headBlock : MovesHeadBlock env item s → s.db.headBlock = some (env.hash item.getHeader)
  headBlock_kept : ¬ MovesHeadBlock env item s → s.db.headBlock = some s.headBlockHash

section Batch

variable {env : Env H} {item : Item H} {s : Blockchain H}

/-! ### Batches that change nothing -/

/-- The operation writes what is stored. -/
def DBOp.Holds (db : Database H) : DBOp H → Prop
  | .setTotalDifficulty n h td => db.totalDifficulty (asUintN64 n) h = some td
  | .setHeader n h header => db.header (asUintN64 n) h = some header
  | .setBody n h body => db.body (asUintN64 n) h = some body
  | .setHashToNumber h n => db.hashToNumber h = some (asUintN64 n)
  | .setNumberToHash n h => db.numberToHash (asUintN64 n) = some h
  | .setHeads heads => db.heads = some heads
  | .setHeadHeader h => db.headHeader = some h
  | .setHeadBlock h => db.headBlock = some h
  | .delTotalDifficulty n h => db.totalDifficulty (asUintN64 n) h = none
  | .delHeader n h => db.header (asUintN64 n) h = none
  | .delBody n h => db.body (asUintN64 n) h = none
  | .delHashToNumber h => db.hashToNumber h = none
  | .delNumberToHash n => db.numberToHash (asUintN64 n) = none

/-- A table keyed by number and hash that holds what is written. -/
private theorem write_of_holds {β : Type} {table : ℕ → H → Option β} {n : ℕ} {h : H}
    {o : Option β} (ho : table n h = o) :
    (fun n' h' => if n' = n ∧ h' = h then o else table n' h') = table := by
  funext n' h'
  split
  · obtain ⟨rfl, rfl⟩ := ‹_ ∧ _›
    exact ho.symm
  · rfl

theorem DBOp.Holds.apply {db : Database H} {op : DBOp H} (h : op.Holds db) : db.apply op = db := by
  cases op with
  | setHeads heads => rw [Database.apply, ← show db.heads = some heads from h]
  | setHeadHeader hash => rw [Database.apply, ← show db.headHeader = some hash from h]
  | setHeadBlock hash => rw [Database.apply, ← show db.headBlock = some hash from h]
  | setHashToNumber hash n =>
    exact congrArg (fun table => { db with hashToNumber := table })
      (Function.update_eq_self_iff.2 (Eq.symm h))
  | setNumberToHash n hash =>
    exact congrArg (fun table => { db with numberToHash := table })
      (Function.update_eq_self_iff.2 (Eq.symm h))
  | delHashToNumber hash =>
    exact congrArg (fun table => { db with hashToNumber := table })
      (Function.update_eq_self_iff.2 (Eq.symm h))
  | delNumberToHash n =>
    exact congrArg (fun table => { db with numberToHash := table })
      (Function.update_eq_self_iff.2 (Eq.symm h))
  | setTotalDifficulty n hash td =>
    exact congrArg (fun table => { db with totalDifficulty := table }) (write_of_holds h)
  | delTotalDifficulty n hash =>
    exact congrArg (fun table => { db with totalDifficulty := table }) (write_of_holds h)
  | setHeader n hash header =>
    exact congrArg (fun table => { db with header := table }) (write_of_holds h)
  | delHeader n hash =>
    exact congrArg (fun table => { db with header := table }) (write_of_holds h)
  | setBody n hash body =>
    exact congrArg (fun table => { db with body := table }) (write_of_holds h)
  | delBody n hash =>
    exact congrArg (fun table => { db with body := table }) (write_of_holds h)

private theorem Database.batch_of_holds {db : Database H} {ops : List (DBOp H)}
    (h : ∀ op ∈ ops, op.Holds db) : db.batch ops = db := by
  induction ops with
  | nil => rfl
  | cons op ops ih =>
    rw [Database.batch_cons, (h op (List.mem_cons_self ..)).apply]
    exact ih fun op' hop' => h op' (List.mem_cons_of_mem _ hop')

omit [DecidableEq H] in
/-- What stores the item holds. -/
private theorem Settled.itemOps_holds (h : Settled env item s) :
    ∀ op ∈ itemOps env item s, op.Holds s.db := by
  intro op hop
  rcases List.mem_cons.1 hop with rfl | hop
  · exact h.totalDifficulty
  rcases hitem : item with header | ⟨header, body⟩
  · subst hitem
    rw [List.mem_singleton.1 hop]
    exact h.header
  · subst hitem
    rcases List.mem_cons.1 hop with rfl | hop
    · exact h.header
    · rw [List.mem_singleton.1 hop]
      exact h.body header body rfl

/-- **A settled put writes nothing new.** -/
theorem Settled.batch (h : Settled env item s) {ops : List (DBOp H)}
    (hops : Writes env item s ops) : s.db.batch ops = s.db := by
  refine Database.batch_of_holds ?_
  cases hops with
  | @becomeHead forgotten rebuilt t hwins hclears hwalks hheads =>
    have hforgotten : forgotten = [] := by
      rcases hclears with _ | ⟨hindex, _⟩
      · rfl
      · rw [h.last hwins] at hindex
        cases hindex
    have hrebuilt : rebuilt = ⟨[], [], env.hash item.getHeader⟩ := by
      rcases hwalks with _ | ⟨hgo, _, _⟩
      · rfl
      · exact absurd (.inl (h.canonical hwins)) hgo
    subst hforgotten hrebuilt
    obtain ⟨hheads', hheader, hblock⟩ := hheads rfl rfl
    intro op hop
    simp only [List.flatMap_nil, List.append_nil] at hop
    rcases List.mem_append.1 hop with hop | hop
    · exact h.itemOps_holds op hop
    rw [headOps, hheads', hheader, hblock] at hop
    simp only [List.mem_cons, List.not_mem_nil, or_false] at hop
    rcases hop with rfl | rfl | rfl
    · exact h.heads
    · exact h.headHeader hwins
    · by_cases hisBlock : item.isBlock = true
      · rw [if_pos hisBlock]
        exact h.headBlock ⟨hisBlock, .inl hwins⟩
      · rw [if_neg hisBlock]
        exact h.headBlock_kept fun hm => hisBlock hm.1
  | @storeAside t hloses hheads hheader hmoved hkept =>
    intro op hop
    rcases List.mem_append.1 hop with hop | hop
    · rcases List.mem_append.1 hop with hop | hop
      · exact h.itemOps_holds op hop
      · rw [List.mem_singleton.1 hop]
        exact h.known hloses
    rw [headOps, hheads, hheader] at hop
    simp only [List.mem_cons, List.not_mem_nil, or_false] at hop
    rcases hop with rfl | rfl | rfl
    · exact h.heads
    · exact h.headHeader_kept hloses
    · by_cases hmoves : MovesHeadBlock env item s
      · rw [hmoved hmoves]
        exact h.headBlock hmoves
      · rw [hkept hmoves]
        exact h.headBlock_kept hmoves

/-- A table that keeps what storing an item writes holds the item. -/
private theorem item_of_tables (td : ℕ)
    (htd : (s.db.storeItem (env.hash item.getHeader) item td).totalDifficulty =
      s.db.totalDifficulty)
    (hheader : (s.db.storeItem (env.hash item.getHeader) item td).header = s.db.header)
    (hbody : (s.db.storeItem (env.hash item.getHeader) item td).body = s.db.body) :
    s.db.totalDifficulty (asUintN64 item.getHeader.number) (env.hash item.getHeader) = some td ∧
      s.db.header (asUintN64 item.getHeader.number) (env.hash item.getHeader) =
        some item.getHeader ∧
      ∀ header body, item = .block header body →
        s.db.body (asUintN64 header.number) (env.hash header) = some body := by
  rw [← htd, ← hheader, ← hbody]
  cases item with
  | header header => exact ⟨if_pos ⟨rfl, rfl⟩, if_pos ⟨rfl, rfl⟩, nofun⟩
  | block header body =>
    refine ⟨if_pos ⟨rfl, rfl⟩, if_pos ⟨rfl, rfl⟩, ?_⟩
    rintro _ _ ⟨⟩
    exact if_pos ⟨rfl, rfl⟩

/-- **A put that writes nothing new is settled**, where headers lie under their own numbers. -/
theorem Writes.settled {ops : List (DBOp H)} (hops : Writes env item s ops)
    (hzero : item.getHeader.number ≠ 0) (hfiled : Filed s.db)
    (hbound : item.getHeader.number + 1 < 2 ^ 64) (hsame : s.db.batch ops = s.db) :
    Settled env item s := by
  cases hops with
  | @becomeHead forgotten rebuilt t hwins hclears hwalks hheads =>
    have hnext : asUintN64 (item.getHeader.number + 1) = item.getHeader.number + 1 :=
      asUintN64_natCast hbound
    have hnumber : asUintN64 item.getHeader.number = item.getHeader.number :=
      asUintN64_natCast (by omega)
    have hle := hwalks.number_le hfiled rfl (by omega)
    -- the tables after the batch
    obtain ⟨index, hbatch, -, hcleared⟩ :=
      hclears.batch (s.db.storeItem (env.hash item.getHeader) item (s.db.itemTd item))
    rw [Database.batch_append, Database.batch_append, Database.batch_append] at hsame
    change (((s.db.storeItem _ item _).batch forgotten).batch _).batch (headOps t) = s.db at hsame
    rw [hbatch, Database.batch_saveLookups fun l hl => by have := hle l hl; omega] at hsame
    have hindex : overlay rebuilt.lookups index = s.db.numberToHash :=
      congrArg Database.numberToHash hsame
    have hforgotten : forgotten = [] ∧
        s.db.numberToHash (asUintN64 (item.getHeader.number + 1)) = none := by
      rcases hclears with hfree | ⟨hcanonical, _⟩
      · exact ⟨rfl, hfree⟩
      · -- the number above is forgotten, and nothing is written there
        have hnone := hcleared nofun
        rw [hnext] at hcanonical hnone
        rw [← hindex, overlay_of_forall_ne fun l hl => by have := hle l hl; omega, hnone]
          at hcanonical
        cases hcanonical
    have hrebuilt : rebuilt.stale = [] ∧
        s.db.numberToHash (asUintN64 item.getHeader.number) = some (env.hash item.getHeader) := by
      rcases hwalks with hend | @⟨_, parent, _, rest, hgo, hparent, hrest⟩
      · exact ⟨rfl, hend.resolve_right hzero⟩
      · -- the number of the item is written, and lower ones after it
        have hpnumber : parent.number = item.getHeader.number - 1 := by
          rw [hfiled _ _ _ hparent]
          unfold asUintN64
          omega
        have hlower := hrest.number_le hfiled (by omega) (by omega)
        have hwritten : s.db.numberToHash item.getHeader.number =
            some (env.hash item.getHeader) := by
          rw [← hindex]
          change overlay rest.lookups (Function.update index item.getHeader.number _) _ = _
          rw [overlay_of_forall_ne fun l hl => by have := hlower l hl; omega,
            Function.update_self]
        exact absurd (.inl (hnumber.symm ▸ hwritten)) hgo
    obtain ⟨hheads', hheader, hblock⟩ := hheads hforgotten.1 hrebuilt.1
    have htds := congrArg Database.totalDifficulty hsame
    have hheaders := congrArg Database.header hsame
    have hbodies := congrArg Database.body hsame
    obtain ⟨htd, hstored, hbody⟩ := item_of_tables (s.db.itemTd item) htds hheaders hbodies
    have hheadsAfter : some t.heads = s.db.heads := congrArg Database.heads hsame
    have hheaderAfter : some t.headHeaderHash = s.db.headHeader :=
      congrArg Database.headHeader hsame
    have hheadBlock : s.db.headBlock = some t.headBlockHash :=
      (congrArg Database.headBlock hsame).symm
    exact {
      totalDifficulty := htd
      header := hstored
      body := hbody
      canonical := fun _ => hrebuilt.2
      last := fun _ => hforgotten.2
      known := absurd hwins
      heads := by rw [← hheadsAfter, hheads']
      headHeader := fun _ => by rw [← hheaderAfter, hheader]
      headHeader_kept := absurd hwins
      headBlock := fun hm => by rw [hheadBlock, hblock, if_pos hm.1]
      headBlock_kept := fun hm => by
        rw [hheadBlock, hblock, if_neg fun hisBlock => hm ⟨hisBlock, .inl hwins⟩] }
  | @storeAside t hloses hheads hheader hmoved hkept =>
    rw [Database.batch_append, Database.batch_append] at hsame
    change ((s.db.storeItem (env.hash item.getHeader) item (s.db.itemTd item)).apply
      (.setHashToNumber (env.hash item.getHeader) item.getHeader.number)).batch (headOps t) =
        s.db at hsame
    have htds := congrArg Database.totalDifficulty hsame
    have hheaders := congrArg Database.header hsame
    have hbodies := congrArg Database.body hsame
    obtain ⟨htd, hstored, hbody⟩ := item_of_tables (s.db.itemTd item) htds hheaders hbodies
    have hheadsAfter : some t.heads = s.db.heads := congrArg Database.heads hsame
    have hheaderAfter : some t.headHeaderHash = s.db.headHeader :=
      congrArg Database.headHeader hsame
    have hknown := congrFun (congrArg Database.hashToNumber hsame) (env.hash item.getHeader)
    have hheadBlock : s.db.headBlock = some t.headBlockHash :=
      (congrArg Database.headBlock hsame).symm
    exact {
      totalDifficulty := htd
      header := hstored
      body := hbody
      canonical := fun hw => absurd hw hloses
      last := fun hw => absurd hw hloses
      known := fun _ => by
        rw [← hknown]
        exact Function.update_self ..
      heads := by rw [← hheadsAfter, hheads]
      headHeader := fun hw => absurd hw hloses
      headHeader_kept := fun _ => by rw [← hheaderAfter, hheader]
      headBlock := fun hm => by rw [hheadBlock, hmoved hm]
      headBlock_kept := fun hm => by rw [hheadBlock, hkept hm] }

end Batch

/-! ### Puts that throw -/

/-- The state before and after as seen from outside: the database as persisted, the heads in memory,
and what is read through the caches. -/
structure ManagedChain.Same {K : CachePackage H} (m m' : ManagedChain K) : Prop where
  db : m'.dbManager.db = m.dbManager.db
  heads : m'.heads = m.heads
  headHeaderHash : m'.headHeaderHash = m.headHeaderHash
  headBlockHash : m'.headBlockHash = m.headBlockHash
  get : ∀ t k, (m'.dbManager.get t k).1 = (m.dbManager.get t k).1

/-- The caches show nothing else than the database. -/
private theorem ManagedChain.same_iff {K : CachePackage H} {m m' : ManagedChain K} :
    m.Same m' ↔ m'.chain = m.chain := by
  constructor
  · rintro ⟨hdb, hheads, hheader, hblock, -⟩
    rw [ManagedChain.chain, hdb, hheads, hheader, hblock]
    rfl
  · intro h
    have hdb : m'.dbManager.db = m.dbManager.db := congrArg Blockchain.db h
    refine ⟨hdb, congrArg Blockchain.heads h, congrArg Blockchain.headHeaderHash h,
      congrArg Blockchain.headBlockHash h, fun t k => ?_⟩
    rw [DBManager.get_fst, DBManager.get_fst, hdb]

/-- A put that throws, wherever it does and however long its loops run, leaves the chain as it
was. -/
def AtomicPut {K : CachePackage H} (env : Env H) (fault : Option (ChainError H)) (item : Item H)
    (m : ManagedChain K) : Prop :=
  ∀ fuel e m', (Managed.putBlockOrHeader env fuel fault item).run m = (.error e, m') → m.Same m'

/-- The same on the chain without caches. -/
private theorem atomicPut_iff {K : CachePackage H} (env : Env H) (fault : Option (ChainError H))
    (item : Item H) (m : ManagedChain K) : AtomicPut env fault item m ↔
      ∀ fuel e s', (putBlockOrHeaderUnless env fuel fault item).run m.chain = (.error e, s') →
        s' = m.chain := by
  constructor
  · intro h fuel e s' hrun
    have hsimulates := simulates_putBlockOrHeader (K := K) env fuel fault item m
    rw [hrun] at hsimulates
    have hsame := h fuel e _ (Prod.ext (congrArg Prod.fst hsimulates).symm rfl)
    exact (congrArg Prod.snd hsimulates).trans (ManagedChain.same_iff.1 hsame)
  · intro h fuel e m' hrun
    have hsimulates := simulates_putBlockOrHeader (K := K) env fuel fault item m
    rw [hrun] at hsimulates
    exact ManagedChain.same_iff.2 (h fuel e _ hsimulates)

omit [DecidableEq H] in
/-- The numbers of the items that a call puts fit into the keys. -/
def Call.Numbered : Call H → Prop
  | .putBlock header _ => header.number < 2 ^ 64
  | .putHeader header => header.number < 2 ^ 64
  | .putBlocks blocks => ∀ block ∈ blocks, block.1.number < 2 ^ 64
  | .putHeaders headers => ∀ header ∈ headers, header.number < 2 ^ 64
  | .resetCanonicalHead _ => True
  | .delBlock _ => True
  | .iterator _ _ _ => True

omit [DecidableEq H] in
theorem Call.Numbered.filed {call : Call H} (h : call.Numbered) :
    ∀ header ∈ call.headers, header.number = asUintN64 header.number := by
  suffices hbound : ∀ header ∈ call.headers, header.number < 2 ^ 64 from
    fun header hheader => (asUintN64_natCast (hbound header hheader)).symm
  cases call with
  | putBlock header body => exact List.forall_mem_singleton.2 h
  | putHeader header => exact List.forall_mem_singleton.2 h
  | putBlocks blocks => exact List.forall_mem_map.2 h
  | putHeaders headers => exact h
  | _ => exact nofun

/-- Calls one after the other, each of which returns or throws; a put may also have its batch
refused by the database. -/
inductive Attempts (env : Env H) (s : Blockchain H) : Blockchain H → Prop
  | start : Attempts env s s
  | call {t : Blockchain H} (fuel : ℕ) (call : Call H) (hrun : Attempts env s t)
      (hnumbered : call.Numbered) : Attempts env s ((call.run env fuel).run t).2
  | refused {t : Blockchain H} (fuel : ℕ) (e : ChainError H) (item : Item H)
      (hrun : Attempts env s t) (hbound : item.getHeader.number < 2 ^ 64) :
      Attempts env s ((putBlockOrHeaderUnless env fuel (some e) item).run t).2

private theorem filed_createBlockchain (env : Env H) (body : Bytes) :
    Filed (createBlockchain env body).db :=
  headersMeet_createBlockchain (P := fun n header => header.number = n) env.isGenesis body

/-- **In every state that calls reach** the headers lie under their own numbers. -/
theorem filed_of_attempts (body : Bytes) {s : Blockchain H}
    (h : Attempts env (createBlockchain env body) s) : Filed s.db := by
  induction h with
  | start => exact filed_createBlockchain env body
  | @call t fuel call _ hnumbered ih => exact call.keeps env fuel hnumbered.filed t ih
  | @refused t fuel e item _ hbound ih =>
    exact keeps_putBlockOrHeaderUnless (P := fun n header => header.number = n) env fuel (some e)
      (asUintN64_natCast hbound).symm t ih

/-! ### A consensus that throws -/

/-- A chain ordered by difficulty whose consensus fails on every block that becomes the head, as one
that recovers signers fails on a seal which is none. -/
def failingEnv : Env (List ℕ) where
  __ := sampleEnv
  isGenesis := sampleEnv_isGenesis
  hasConsensus := true
  newBlock _ commonAncestor _ :=
    if commonAncestor.isSome then .error (.refused "invalid signature") else .ok ()

/-- A block on genesis with some difficulty. -/
def heavierBlock : Header (List ℕ) := ⟨1, sampleHash sampleEnv.genesis, 1, 10, []⟩

/-- Caches that keep their entries in lists. -/
def listCaches : CachePackage (List ℕ) where
  lru t := LRUCache.ofList (t.Key (List ℕ)) (t.Value (List ℕ))
  lawful _ := LRUCache.lawful_ofList

/-- Genesis alone, over a manager with empty caches. -/
def genesisChain : ManagedChain listCaches := .new _ (createBlockchain failingEnv [])

private theorem filed_genesisChain : Filed genesisChain.chain.db :=
  filed_createBlockchain failingEnv []

/-- Genesis is where the block meets the canonical chain. -/
private theorem commonAncestor_heavierBlock :
    CommonAncestor failingEnv genesisChain.chain heavierBlock
    sampleEnv.genesis ([sampleEnv.genesis] ++ []) := by
  have hhead : IsHead genesisChain.chain sampleEnv.genesis := ⟨0, rfl, rfl⟩
  have hdescends : DescendsTo genesisChain.chain.db 0 heavierBlock sampleEnv.genesis
      [sampleEnv.genesis] := .parent ⟨by decide, by decide⟩ rfl (.arrived (by decide))
  exact .aboveHead hhead (by decide) hdescends rfl (.met rfl)

private theorem reaches_heavierBlock :
    Reaches failingEnv (.block heavierBlock []) genesisChain.chain where
  notGenesis := by decide
  valid := ⟨(), rfl⟩
  headHeader := rfl
  headBlock := rfl
  wins _ := ⟨⟨_, _, commonAncestor_heavierBlock⟩, fun _ => ⟨(), rfl⟩, ⟨0, rfl⟩,
    ⟨_, .parent (by decide) rfl (.common (.inl rfl))⟩⟩

end Blockchain

end Tvmjs
