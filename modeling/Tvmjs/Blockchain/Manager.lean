import Tvmjs.Base.ReadThrough
import Tvmjs.Base.Simulation
import Tvmjs.Blockchain.Moves

/-!
# The database manager

The chain reaches its database through a manager, which keeps a cache in front of each table that is
read by key.  Reads go through the caches; a batch is handed to the database as a whole, which may
refuse it, and only after it was taken are the caches told.

* `CachedTarget`, `Database.table` -- the tables with a cache;
* `DBManager` -- database and caches, in agreement with each other;
* `DBManager.get_fst` -- a read shows the table;
* `ManagedChain` -- the chain over a manager, and `ManagedChain.chain`, what it is without caches;
* `Managed.putBlockOrHeader` -- a put as the code runs it;
* `simulates_putBlockOrHeader` -- **the caches are never seen**: whatever the manager does, a put
  over it is a put over the database alone.
-/

namespace Tvmjs

namespace Blockchain

variable {H : Type}

/-! ### Tables with a cache -/

/-- The targets with a cache, named by their `cacheString`. -/
inductive CachedTarget where
  | td
  | header
  | body
  | numberToHash
  | hashToNumber
deriving DecidableEq

namespace CachedTarget

/-- The keys of a target. -/
abbrev Key (H : Type) : CachedTarget → Type
  | .td => ℕ × H
  | .header => ℕ × H
  | .body => ℕ × H
  | .numberToHash => ℕ
  | .hashToNumber => H

/-- The values of a target. -/
abbrev Value (H : Type) : CachedTarget → Type
  | .td => ℕ
  | .header => Header H
  | .body => Bytes
  | .numberToHash => H
  | .hashToNumber => ℕ

instance instDecidableEqKey [DecidableEq H] : (t : CachedTarget) → DecidableEq (t.Key H)
  | .td => inferInstanceAs (DecidableEq (ℕ × H))
  | .header => inferInstanceAs (DecidableEq (ℕ × H))
  | .body => inferInstanceAs (DecidableEq (ℕ × H))
  | .numberToHash => inferInstanceAs (DecidableEq ℕ)
  | .hashToNumber => inferInstanceAs (DecidableEq H)

/-- How many entries the cache of a target may hold. -/
def max : CachedTarget → ℕ
  | .td => 1024
  | .header => 512
  | .body => 256
  | .numberToHash => 2048
  | .hashToNumber => 2048

end CachedTarget

/-- The table of a target. -/
def Database.table (db : Database H) : (t : CachedTarget) → t.Key H → Option (t.Value H)
  | .td, k => db.totalDifficulty k.1 k.2
  | .header, k => db.header k.1 k.2
  | .body, k => db.body k.1 k.2
  | .numberToHash, k => db.numberToHash k
  | .hashToNumber, k => db.hashToNumber k

/-- An entry that is written, or deleted where the value is `none`. -/
structure CacheWrite (H : Type) where
  target : CachedTarget
  key : target.Key H
  value : Option (target.Value H)

/-- What an operation writes to a table with a cache: its `cacheString`, key and value. -/
def DBOp.cacheWrite : DBOp H → Option (CacheWrite H)
  | .setTotalDifficulty n h td => some ⟨.td, (asUintN64 n, h), some td⟩
  | .setHeader n h header => some ⟨.header, (asUintN64 n, h), some header⟩
  | .setBody n h body => some ⟨.body, (asUintN64 n, h), some body⟩
  | .setHashToNumber h n => some ⟨.hashToNumber, h, some (asUintN64 n)⟩
  | .setNumberToHash n h => some ⟨.numberToHash, asUintN64 n, some h⟩
  | .setHeads _ => none
  | .setHeadHeader _ => none
  | .setHeadBlock _ => none
  | .delTotalDifficulty n h => some ⟨.td, (asUintN64 n, h), none⟩
  | .delHeader n h => some ⟨.header, (asUintN64 n, h), none⟩
  | .delBody n h => some ⟨.body, (asUintN64 n, h), none⟩
  | .delHashToNumber h => some ⟨.hashToNumber, h, none⟩
  | .delNumberToHash n => some ⟨.numberToHash, asUintN64 n, none⟩

/-- A key is its number and its hash. -/
private theorem key_eq_iff (k : ℕ × H) (n : ℕ) (h : H) : k = (n, h) ↔ k.1 = n ∧ k.2 = h :=
  Prod.ext_iff

variable [DecidableEq H]

/-- An operation without a cache leaves the tables that have one. -/
private theorem Database.table_apply_of_none (db : Database H) {op : DBOp H}
    (hop : op.cacheWrite = none)
    (t : CachedTarget) : (db.apply op).table t = db.table t := by
  cases op with
  | setHeads heads => cases t <;> rfl
  | setHeadHeader h => cases t <;> rfl
  | setHeadBlock h => cases t <;> rfl
  | _ => cases hop

/-- An operation changes the table of its target under its key, and no other entry. -/
private theorem Database.table_apply_of_some (db : Database H) {op : DBOp H} {w : CacheWrite H}
    (hop : op.cacheWrite = some w) :
    (∀ t, t ≠ w.target → (db.apply op).table t = db.table t) ∧
      ∀ k, (db.apply op).table w.target k = if k = w.key then w.value else db.table w.target k := by
  cases op with
  | setHeads heads => cases hop
  | setHeadHeader h => cases hop
  | setHeadBlock h => cases hop
  | setHashToNumber h n =>
    cases hop
    exact ⟨fun t ht => by cases t <;> first | rfl | exact absurd rfl ht,
      fun k => Function.update_apply ..⟩
  | setNumberToHash n h =>
    cases hop
    exact ⟨fun t ht => by cases t <;> first | rfl | exact absurd rfl ht,
      fun k => Function.update_apply ..⟩
  | delHashToNumber h =>
    cases hop
    exact ⟨fun t ht => by cases t <;> first | rfl | exact absurd rfl ht,
      fun k => Function.update_apply ..⟩
  | delNumberToHash n =>
    cases hop
    exact ⟨fun t ht => by cases t <;> first | rfl | exact absurd rfl ht,
      fun k => Function.update_apply ..⟩
  | _ =>
    -- the tables whose keys are a number and a hash
    cases hop
    exact ⟨fun t ht => by cases t <;> first | rfl | exact absurd rfl ht,
      fun k => if_congr (key_eq_iff k _ _).symm rfl rfl⟩

/-! ### The manager -/

variable (H) in
/-- The package of caches, with one kind of cache for each target. -/
structure CachePackage where
  lru : (t : CachedTarget) → LRUCache (t.Key H) (t.Value H)
  lawful : ∀ t, (lru t).Lawful

/-- `CacheMap` -/
abbrev CacheMap (K : CachePackage H) := (t : CachedTarget) → (K.lru t).Carrier

/-- `updateCache` -/
def DBOp.updateCache {K : CachePackage H} (op : DBOp H) (cache : CacheMap K) : CacheMap K :=
  match op.cacheWrite with
  | none => cache
  | some ⟨t, k, some v⟩ => Function.update cache t ((K.lru t).set (cache t) k v)
  | some ⟨t, k, none⟩ => Function.update cache t ((K.lru t).delete (cache t) k)

/-- Each cache holds nothing but what its table holds. -/
def CacheMap.Agrees {K : CachePackage H} (cache : CacheMap K) (db : Database H) : Prop :=
  ∀ t, (K.lru t).Agrees (cache t) (db.table t)

/-- A cache that is replaced by one which agrees. -/
theorem CacheMap.Agrees.update {K : CachePackage H} {cache : CacheMap K} {db db' : Database H}
    (h : cache.Agrees db) {t : CachedTarget} {c : (K.lru t).Carrier}
    (hother : ∀ t', t' ≠ t → db'.table t' = db.table t') (hc : (K.lru t).Agrees c (db'.table t)) :
    CacheMap.Agrees (K := K) (Function.update cache t c) db' := by
  intro t'
  by_cases ht : t' = t
  · subst ht
    rw [Function.update_self]
    exact hc
  · rw [Function.update_of_ne ht, hother t' ht]
    exact h t'

/-- An operation on the database and on the caches. -/
private theorem CacheMap.Agrees.updateCache {K : CachePackage H} {cache : CacheMap K}
    {db : Database H}
    (h : cache.Agrees db) (op : DBOp H) : (op.updateCache cache).Agrees (db.apply op) := by
  unfold DBOp.updateCache
  rcases hop : op.cacheWrite with _ | ⟨t, k, _ | v⟩
  · intro t
    rw [db.table_apply_of_none hop]
    exact h t
  · obtain ⟨hother, hkey⟩ := db.table_apply_of_some hop
    exact h.update hother ((K.lawful t).agrees_delete (h t) hkey)
  · obtain ⟨hother, hkey⟩ := db.table_apply_of_some hop
    exact h.update hother ((K.lawful t).agrees_set (h t) hkey)

/-- The operations of a batch, one after the other. -/
theorem CacheMap.Agrees.batch {K : CachePackage H} {cache : CacheMap K} {db : Database H}
    (h : cache.Agrees db) (ops : List (DBOp H)) :
    CacheMap.Agrees (ops.foldl (fun cache op => op.updateCache cache) cache) (db.batch ops) := by
  induction ops generalizing cache db with
  | nil => exact h
  | cons op ops ih => exact ih (h.updateCache op)

/-- `DBManager`: the database, and the caches in agreement with it. -/
structure DBManager (K : CachePackage H) where
  db : Database H
  cache : CacheMap K
  agrees : cache.Agrees db

namespace DBManager

variable {K : CachePackage H}

/-- A manager with empty caches. -/
def new (K : CachePackage H) (db : Database H) : DBManager K where
  db
  cache t := (K.lru t).new t.max
  agrees t := (K.lawful t).agrees_new _ _

/-- `get` of a target that has a cache. -/
def get (m : DBManager K) (t : CachedTarget) (k : t.Key H) : Option (t.Value H) × DBManager K :=
  let read := (K.lru t).readThrough (m.cache t) (m.db.table t) k
  (read.1, ⟨m.db, Function.update m.cache t read.2,
    m.agrees.update (fun _ _ => rfl) ((K.lawful t).agrees_readThrough (m.agrees t) k)⟩)

/-- A read shows what the table holds. -/
theorem get_fst (m : DBManager K) (t : CachedTarget) (k : t.Key H) :
    (m.get t k).1 = m.db.table t k := (K.lawful t).readThrough_fst (m.agrees t) k

/-- `batch`, when the database takes it: the caches are told afterwards. -/
def batch (m : DBManager K) (ops : List (DBOp H)) : DBManager K :=
  ⟨m.db.batch ops, ops.foldl (fun cache op => op.updateCache cache) m.cache, m.agrees.batch ops⟩

end DBManager

/-- The chain over a manager: the heads in memory. -/
structure ManagedChain (K : CachePackage H) where
  dbManager : DBManager K
  heads : String → Option H
  headHeaderHash : H
  headBlockHash : H

/-- The chain as it is without its caches. -/
def ManagedChain.chain {K : CachePackage H} (m : ManagedChain K) : Blockchain H where
  db := m.dbManager.db
  heads := m.heads
  headHeaderHash := m.headHeaderHash
  headBlockHash := m.headBlockHash

/-- A chain whose caches are empty. -/
def ManagedChain.new (K : CachePackage H) (s : Blockchain H) : ManagedChain K where
  dbManager := .new K s.db
  heads := s.heads
  headHeaderHash := s.headHeaderHash
  headBlockHash := s.headBlockHash

/-! ### Putting over a manager -/

namespace Managed

variable {K : CachePackage H}

/-- Programs of the chain over a manager. -/
abbrev ManagedM (K : CachePackage H) (α : Type) := Prog (ManagedChain K) (ChainError H) α

/-- `dbManager.get` -/
def get (t : CachedTarget) (k : t.Key H) : ManagedM K (Option (t.Value H)) := fun m =>
  (.ok (m.dbManager.get t k).1, { m with dbManager := (m.dbManager.get t k).2 })

/-- `dbManager.batch`, over a database that refuses the batch where there is a `fault`. -/
def batch (fault : Option (ChainError H)) (ops : List (DBOp H)) : ManagedM K Unit :=
  match fault with
  | some e => Prog.throw e
  | none => Prog.modify fun m => { m with dbManager := m.dbManager.batch ops }

/-- `safeNumberToHash` -/
def numberToHash (n : ℤ) : ManagedM K (Option H) := get .numberToHash (asUintN64 n)

/-- `hashToNumber`, which throws for an unknown hash. -/
def hashToNumber (hash : H) : ManagedM K ℕ := do
  match ← get .hashToNumber hash with
  | some n => pure n
  | none => Prog.throw (.notFound hash)

/-- `dbManager.getHeader` -/
def getHeader (hash : H) (n : ℤ) : ManagedM K (Header H) := do
  match ← get .header (asUintN64 n, hash) with
  | some header => pure header
  | none => Prog.throw .invalidHeader

/-- `_getHeader(hash)` -/
def getHeaderByHash (hash : H) : ManagedM K (Header H) := do
  let n ← hashToNumber hash
  getHeader hash n

/-- `getCanonicalHeader` -/
def getCanonicalHeader (n : ℤ) : ManagedM K (Header H) := do
  match ← numberToHash n with
  | some hash => getHeader hash n
  | none => Prog.throw (.notCanonical n)

/-- The total difficulty under a key; nothing stored decodes to zero. -/
def storedTotalDifficulty (hash : H) (n : ℤ) : ManagedM K ℕ := do
  let td ← get .td (asUintN64 n, hash)
  pure (td.getD 0)

/-- `getTotalDifficulty(hash)` -/
def getTotalDifficulty (hash : H) : ManagedM K ℕ := do
  let n ← hashToNumber hash
  storedTotalDifficulty hash n

/-- `_saveHeadOps` -/
def saveHeadOps : ManagedM K (List (DBOp H)) :=
  Prog.gets fun m =>
    [.setHeads m.heads, .setHeadHeader m.headHeaderHash, .setHeadBlock m.headBlockHash]

/-- Move every head that is `stale` to `fresh`. -/
def rewind (stale fresh : H) (m : ManagedChain K) : ManagedChain K :=
  { m with
    heads := fun name => (m.heads name).map fun h => if h = stale then fresh else h
    headHeaderHash := if m.headHeaderHash = stale then fresh else m.headHeaderHash
    headBlockHash := if m.headBlockHash = stale then fresh else m.headBlockHash }

/-- `_deleteCanonicalChainReferences` -/
def deleteCanonicalChainReferences (headHash : H) : ℕ → ℤ → ManagedM K (List (DBOp H))
  | 0, _ => Prog.throw .outOfFuel
  | fuel + 1, n => do
    match ← numberToHash n with
    | none => pure []
    | some hash => do
      Prog.modify (rewind hash headHash)
      let ops ← deleteCanonicalChainReferences headHash fuel (n + 1)
      pure (.delNumberToHash n :: ops)

/-- The loop of `_rebuildCanonical`. -/
def walkBack (env : Env H) : ℕ → Header H → ℤ → ManagedM K (Rebuilt H)
  | 0, _, _ => Prog.throw .outOfFuel
  | fuel + 1, header, n => do
    let staleHash ← numberToHash n
    let hash := env.hash header
    if staleHash = some hash ∨ header.number = 0 then
      pure ⟨[], [], hash⟩
    else do
      let parent ← getHeader header.parentHash (n - 1)
      let rest ← walkBack env fuel parent (n - 1)
      pure { rest with
        lookups := (hash, header.number) :: rest.lookups
        stale := staleHash.toList ++ rest.stale }

/-- `_rebuildCanonical` -/
def rebuildCanonical (env : Env H) (fuel : ℕ) (header : Header H) :
    ManagedM K (List (DBOp H)) := do
  let rebuilt ← walkBack env fuel header header.number
  Prog.modify fun m =>
    { m with
      heads := fun name => (m.heads name).map fun h =>
        if h ∈ rebuilt.stale then rebuilt.common else h
      headBlockHash :=
        if m.headBlockHash ∈ rebuilt.stale then rebuilt.common else m.headBlockHash }
  pure (rebuilt.lookups.flatMap fun lookup => saveLookups lookup.1 lookup.2)

/-- The first loop of `findCommonAncestor`: down to the number of the head header. -/
def descendTo (target : ℕ) : ℕ → Header H → List (Header H) →
    ManagedM K (Header H × List (Header H))
  | 0, _, _ => Prog.throw .outOfFuel
  | fuel + 1, header, ancestors =>
    if target ≠ header.number ∧ header.number > 0 then do
      let parent ← getHeader header.parentHash (header.number - 1)
      descendTo target fuel parent (ancestors ++ [parent])
    else pure (header, ancestors)

/-- The second loop of `findCommonAncestor`: both down until they meet. -/
def meet (env : Env H) : ℕ → Header H → Header H → List (Header H) →
    ManagedM K (Header H × Header H × List (Header H))
  | 0, _, _, _ => Prog.throw .outOfFuel
  | fuel + 1, header, newHeader, ancestors =>
    if env.hash header ≠ env.hash newHeader ∧ header.number > 0 then do
      let header ← getCanonicalHeader (header.number - 1)
      let parent ← getHeader newHeader.parentHash (newHeader.number - 1)
      meet env fuel header parent (ancestors ++ [header, parent])
    else pure (header, newHeader, ancestors)

/-- `findCommonAncestor` -/
def findCommonAncestor (env : Env H) (fuel : ℕ) (newHeader : Header H) :
    ManagedM K (Header H × List (Header H)) := do
  let header ← getHeaderByHash (← Prog.gets ManagedChain.headHeaderHash)
  let (header, newHeader, ancestors) ←
    if header.number > newHeader.number then do
      let header ← getCanonicalHeader newHeader.number
      pure (header, newHeader, [header])
    else do
      let (newHeader, ancestors) ← descendTo header.number fuel newHeader []
      pure (header, newHeader, ancestors)
  if header.number ≠ newHeader.number then Prog.throw .noAncientHeader
  else do
    let (header, newHeader, ancestors) ← meet env fuel header newHeader ancestors
    if env.hash header ≠ env.hash newHeader then Prog.throw .noAncientHeader
    else pure (header, ancestors)

/-- `extendsCanonicalHead` -/
def extendsCanonicalHead (env : Env H) (item : Item H) (td headerTd : ℕ) : ManagedM K Bool := do
  if !env.hasConsensus then do
    let headNumber ← hashToNumber (← Prog.gets ManagedChain.headHeaderHash)
    pure (decide (item.getHeader.number > headNumber))
  else pure (decide (td > headerTd) || env.isProofOfStake item)

/-- `advancesHeadBlock` -/
def advancesHeadBlock (env : Env H) (item : Item H) (td blockTd : ℕ) : ManagedM K Bool := do
  let header := item.getHeader
  if !env.hasConsensus then do
    let canonicalHash ← numberToHash header.number
    let headNumber ← hashToNumber (← Prog.gets ManagedChain.headBlockHash)
    pure (decide (canonicalHash = some (env.hash header)) && decide (header.number > headNumber))
  else pure (decide (td > blockTd))

/-- Make an item the head of the canonical chain. -/
def becomeHead (env : Env H) (fuel : ℕ) (item : Item H) :
    ManagedM K (List (DBOp H) × Header H × List (Header H)) := do
  let header := item.getHeader
  let hash := env.hash header
  let (commonAncestor, ancestorHeaders) ← findCommonAncestor env fuel header
  Prog.modify fun m =>
    { m with
      headHeaderHash := hash
      headBlockHash := if item.isBlock then hash else m.headBlockHash }
  if env.hardforkByHeadBlockNumber then
    Prog.ofExcept (env.transition header.number header.timestamp)
  else pure ()
  let forgotten ← deleteCanonicalChainReferences hash fuel (header.number + 1)
  let lookups ← rebuildCanonical env fuel header
  pure (forgotten ++ lookups, commonAncestor, ancestorHeaders)

/-- Store an item aside. -/
def storeAside (env : Env H) (item : Item H) (td blockTd : ℕ) : ManagedM K (List (DBOp H)) := do
  let header := item.getHeader
  let hash := env.hash header
  let advances ← advancesHeadBlock env item td blockTd
  if advances && item.isBlock then
    Prog.modify fun m => { m with headBlockHash := hash }
  else pure ()
  pure [.setHashToNumber hash header.number]

/-- The body of `_putBlockOrHeader` for an item that is no genesis block. -/
def put (env : Env H) (fuel : ℕ) (fault : Option (ChainError H)) (item : Item H) :
    ManagedM K Unit := do
  let header := item.getHeader
  let hash := env.hash header
  Prog.ofExcept (env.validate (← Prog.gets fun m => m.dbManager.db) item)
  let headerTd ← getTotalDifficulty (← Prog.gets ManagedChain.headHeaderHash)
  let blockTd ← getTotalDifficulty (← Prog.gets ManagedChain.headBlockHash)
  let parentTd ← storedTotalDifficulty header.parentHash (header.number - 1)
  let td := header.difficulty + parentTd
  let ops := .setTotalDifficulty header.number hash td :: setBlockOrHeader hash item
  if ← extendsCanonicalHead env item td headerTd then do
    let (moved, commonAncestor, ancestorHeaders) ← becomeHead env fuel item
    batch fault (ops ++ moved ++ (← saveHeadOps))
    Prog.ofExcept (env.newBlock item (some commonAncestor) ancestorHeaders)
  else do
    let stored ← storeAside env item td blockTd
    batch fault (ops ++ stored ++ (← saveHeadOps))
    Prog.ofExcept (env.newBlock item none [])

/-- `_putBlockOrHeader`: a throw brings the heads back. -/
def putBlockOrHeader (env : Env H) (fuel : ℕ) (fault : Option (ChainError H)) (item : Item H) :
    ManagedM K Unit := fun m =>
  let work : ManagedM K Unit :=
    if item.getHeader.number = 0 then
      if env.hash env.genesis = env.hash item.getHeader then pure ()
      else Prog.throw .differentGenesis
    else put env fuel fault item
  (work.finish id fun m' =>
    { m' with
      heads := m.heads
      headHeaderHash := m.headHeaderHash
      headBlockHash := m.headBlockHash }).run m

end Managed

/-! ### The same without caches -/

/-- `batch` over a database that refuses it where there is a `fault`. -/
def batchUnless (fault : Option (ChainError H)) (ops : List (DBOp H)) : ChainM H Unit :=
  match fault with
  | some e => Prog.throw e
  | none => batch ops

/-- `put` over a database that refuses the batch where there is a `fault`. -/
def putUnless (env : Env H) (fuel : ℕ) (fault : Option (ChainError H)) (item : Item H) :
    ChainM H Unit := do
  let header := item.getHeader
  let hash := env.hash header
  Prog.ofExcept (env.validate (← Prog.gets db) item)
  let headerTd ← getTotalDifficulty (← Prog.gets headHeaderHash)
  let blockTd ← getTotalDifficulty (← Prog.gets headBlockHash)
  let parentTd ← storedTotalDifficulty header.parentHash (header.number - 1)
  let td := header.difficulty + parentTd
  let ops := .setTotalDifficulty header.number hash td :: setBlockOrHeader hash item
  if ← extendsCanonicalHead env item td headerTd then do
    let (moved, commonAncestor, ancestorHeaders) ← becomeHead env fuel item
    batchUnless fault (ops ++ moved ++ (← saveHeadOps))
    Prog.ofExcept (env.newBlock item (some commonAncestor) ancestorHeaders)
  else do
    let stored ← storeAside env item td blockTd
    batchUnless fault (ops ++ stored ++ (← saveHeadOps))
    Prog.ofExcept (env.newBlock item none [])

/-- `putBlockOrHeader` over a database that refuses the batch where there is a `fault`. -/
def putBlockOrHeaderUnless (env : Env H) (fuel : ℕ) (fault : Option (ChainError H))
    (item : Item H) : ChainM H Unit := fun s =>
  let work : ChainM H Unit :=
    if item.getHeader.number = 0 then
      if env.hash env.genesis = env.hash item.getHeader then pure ()
      else Prog.throw .differentGenesis
    else putUnless env fuel fault item
  (work.finish id fun s' =>
    { s' with
      heads := s.heads
      headHeaderHash := s.headHeaderHash
      headBlockHash := s.headBlockHash }).run s

/-- Over a database that takes the batch it is the put of the chain. -/
theorem putBlockOrHeaderUnless_none (env : Env H) (fuel : ℕ) (item : Item H) :
    putBlockOrHeaderUnless env fuel none item = putBlockOrHeader env fuel item := rfl

/-! ### The caches are never seen -/

section Simulation

variable {K : CachePackage H} {α : Type}

/-- Over a manager, `y` does what `x` does on the chain without caches. -/
abbrev Simulates (y : Managed.ManagedM K α) (x : ChainM H α) : Prop :=
  Prog.Simulates ManagedChain.chain y x

/-- A read answers as the table does, and changes the caches only. -/
private theorem simulates_get (t : CachedTarget) (k : t.Key H) :
    Simulates (Managed.get t k : Managed.ManagedM K _) (Prog.gets fun s => s.db.table t k) := by
  intro m
  change (Except.ok (m.dbManager.db.table t k), m.chain) =
    (Except.ok (m.dbManager.get t k).1, m.chain)
  rw [DBManager.get_fst]

/-- A batch that fails changes neither side; one that does not publishes the caches with the
entries. -/
private theorem simulates_batch (fault : Option (ChainError H)) (ops : List (DBOp H)) :
    Simulates (Managed.batch fault ops : Managed.ManagedM K Unit) (batchUnless fault ops) := by
  cases fault with
  | some e => exact .throw e
  | none => exact .modify fun _ => rfl

private theorem simulates_numberToHash (n : ℤ) :
    Simulates (Managed.numberToHash n : Managed.ManagedM K _) (numberToHash n) :=
  simulates_get .numberToHash (asUintN64 n)

/-- The number is read through its cache. -/
private theorem simulates_hashToNumber (hash : H) :
    Simulates (Managed.hashToNumber hash : Managed.ManagedM K _) (hashToNumber hash) := by
  refine .bind (simulates_get .hashToNumber hash) fun n => ?_
  cases n with
  | some n => exact .pure n
  | none => exact .throw _

/-- The header is read through its cache. -/
private theorem simulates_getHeader (hash : H) (n : ℤ) :
    Simulates (Managed.getHeader hash n : Managed.ManagedM K _) (getHeader hash n) := by
  refine .bind (simulates_get .header (asUintN64 n, hash)) fun header => ?_
  cases header with
  | some header => exact .pure header
  | none => exact .throw _

private theorem simulates_getHeaderByHash (hash : H) :
    Simulates (Managed.getHeaderByHash hash : Managed.ManagedM K _) (getHeaderByHash hash) :=
  .bind (simulates_hashToNumber hash) fun n => simulates_getHeader hash n

/-- The canonical header is read through two caches. -/
private theorem simulates_getCanonicalHeader (n : ℤ) :
    Simulates (Managed.getCanonicalHeader n : Managed.ManagedM K _) (getCanonicalHeader n) := by
  refine .bind (simulates_numberToHash n) fun hash => ?_
  cases hash with
  | some hash => exact simulates_getHeader hash n
  | none => exact .throw _

/-- The total difficulty is read through its cache. -/
private theorem simulates_storedTotalDifficulty (hash : H) (n : ℤ) :
    Simulates (Managed.storedTotalDifficulty hash n : Managed.ManagedM K _)
      (storedTotalDifficulty hash n) := by
  intro m
  change (Except.ok ((m.dbManager.db.table .td (asUintN64 n, hash)).getD 0), m.chain) =
    (Except.ok ((m.dbManager.get .td (asUintN64 n, hash)).1.getD 0), m.chain)
  rw [DBManager.get_fst]

private theorem simulates_getTotalDifficulty (hash : H) :
    Simulates (Managed.getTotalDifficulty hash : Managed.ManagedM K _) (getTotalDifficulty hash) :=
  .bind (simulates_hashToNumber hash) fun n => simulates_storedTotalDifficulty hash n

private theorem simulates_saveHeadOps :
    Simulates (Managed.saveHeadOps : Managed.ManagedM K _) saveHeadOps := .gets fun _ => rfl

/-- The loop over the old chain reads the same hashes. -/
private theorem simulates_deleteCanonicalChainReferences (headHash : H) (fuel : ℕ) (n : ℤ) :
    Simulates (Managed.deleteCanonicalChainReferences headHash fuel n : Managed.ManagedM K _)
      (deleteCanonicalChainReferences headHash fuel n) := by
  induction fuel generalizing n with
  | zero => exact .throw _
  | succ fuel ih =>
    refine .bind (simulates_numberToHash n) fun hash => ?_
    cases hash with
    | none => exact .pure _
    | some hash =>
      refine .bind (.modify fun _ => rfl) fun _ => ?_
      exact .bind (ih (n + 1)) fun _ => .pure _

/-- The walk reads the same headers. -/
private theorem simulates_walkBack (env : Env H) (fuel : ℕ) (header : Header H) (n : ℤ) :
    Simulates (Managed.walkBack env fuel header n : Managed.ManagedM K _)
      (walkBack env fuel header n) := by
  induction fuel generalizing header n with
  | zero => exact .throw _
  | succ fuel ih =>
    refine .bind (simulates_numberToHash n) fun staleHash => ?_
    refine .ite (.pure _) ?_
    refine .bind (simulates_getHeader _ _) fun parent => ?_
    exact .bind (ih parent (n - 1)) fun _ => .pure _

/-- The rebuilt chain has the same operations. -/
private theorem simulates_rebuildCanonical (env : Env H) (fuel : ℕ) (header : Header H) :
    Simulates (Managed.rebuildCanonical env fuel header : Managed.ManagedM K _)
      (rebuildCanonical env fuel header) := by
  refine .bind (simulates_walkBack env fuel header _) fun rebuilt => ?_
  exact .bind (.modify fun _ => rfl) fun _ => .pure _

/-- The descent reads the same headers. -/
private theorem simulates_descendTo (target fuel : ℕ) (header : Header H)
    (ancestors : List (Header H)) :
    Simulates (Managed.descendTo target fuel header ancestors : Managed.ManagedM K _)
      (descendTo target fuel header ancestors) := by
  induction fuel generalizing header ancestors with
  | zero => exact .throw _
  | succ fuel ih =>
    refine .ite ?_ (.pure _)
    exact .bind (simulates_getHeader _ _) fun parent => ih parent _

/-- The two chains meet in the same header. -/
private theorem simulates_meet (env : Env H) (fuel : ℕ) (header newHeader : Header H)
    (ancestors : List (Header H)) :
    Simulates (Managed.meet env fuel header newHeader ancestors : Managed.ManagedM K _)
      (meet env fuel header newHeader ancestors) := by
  induction fuel generalizing header newHeader ancestors with
  | zero => exact .throw _
  | succ fuel ih =>
    refine .ite ?_ (.pure _)
    refine .bind (simulates_getCanonicalHeader _) fun header => ?_
    exact .bind (simulates_getHeader _ _) fun parent => ih header parent _

/-- So the common ancestor is the same. -/
private theorem simulates_findCommonAncestor (env : Env H) (fuel : ℕ) (newHeader : Header H) :
    Simulates (Managed.findCommonAncestor env fuel newHeader : Managed.ManagedM K _)
      (findCommonAncestor env fuel newHeader) := by
  refine .bind (.gets fun _ => rfl) fun hash => ?_
  refine .bind (simulates_getHeaderByHash hash) fun header => ?_
  -- both branches end in the second loop
  have hjoin (header newHeader : Header H) (ancestors : List (Header H)) :
      Simulates (K := K)
        (if header.number ≠ newHeader.number then Prog.throw .noAncientHeader
          else Managed.meet env fuel header newHeader ancestors >>= fun met =>
            if env.hash met.1 ≠ env.hash met.2.1 then Prog.throw .noAncientHeader
            else pure (met.1, met.2.2))
        (if header.number ≠ newHeader.number then Prog.throw .noAncientHeader
          else meet env fuel header newHeader ancestors >>= fun met =>
            if env.hash met.1 ≠ env.hash met.2.1 then Prog.throw .noAncientHeader
            else pure (met.1, met.2.2)) := by
    refine .ite (.throw _) (.bind (simulates_meet env fuel _ _ _) fun met => ?_)
    exact .ite (.throw _) (.pure _)
  refine .ite ?_ ?_
  · exact .bind (simulates_getCanonicalHeader _) fun header => hjoin _ _ _
  · refine .bind (simulates_descendTo _ fuel _ _) ?_
    rintro ⟨newHeader, ancestors⟩
    exact hjoin _ _ _

/-- The fork choice is the same. -/
private theorem simulates_extendsCanonicalHead (env : Env H) (item : Item H) (td headerTd : ℕ) :
    Simulates (Managed.extendsCanonicalHead env item td headerTd : Managed.ManagedM K _)
      (extendsCanonicalHead env item td headerTd) := by
  refine .ite ?_ (.pure _)
  refine .bind (.gets fun _ => rfl) fun hash => ?_
  exact .bind (simulates_hashToNumber hash) fun _ => .pure _

/-- So is the choice of the head block. -/
private theorem simulates_advancesHeadBlock (env : Env H) (item : Item H) (td blockTd : ℕ) :
    Simulates (Managed.advancesHeadBlock env item td blockTd : Managed.ManagedM K _)
      (advancesHeadBlock env item td blockTd) := by
  refine .ite ?_ (.pure _)
  refine .bind (simulates_numberToHash _) fun canonicalHash => ?_
  refine .bind (.gets fun _ => rfl) fun hash => ?_
  exact .bind (simulates_hashToNumber hash) fun _ => .pure _

/-- The item becomes the head on both sides. -/
private theorem simulates_becomeHead (env : Env H) (fuel : ℕ) (item : Item H) :
    Simulates (Managed.becomeHead env fuel item : Managed.ManagedM K _)
      (becomeHead env fuel item) := by
  refine .bind (simulates_findCommonAncestor env fuel _) ?_
  rintro ⟨commonAncestor, ancestorHeaders⟩
  refine .bind (.modify fun _ => rfl) fun _ => ?_
  -- what follows the hardfork
  have hjoin : Simulates (K := K)
      (do
        let forgotten ← Managed.deleteCanonicalChainReferences (env.hash item.getHeader) fuel
          (item.getHeader.number + 1)
        let lookups ← Managed.rebuildCanonical env fuel item.getHeader
        pure (forgotten ++ lookups, commonAncestor, ancestorHeaders))
      (do
        let forgotten ← deleteCanonicalChainReferences (env.hash item.getHeader) fuel
          (item.getHeader.number + 1)
        let lookups ← rebuildCanonical env fuel item.getHeader
        pure (forgotten ++ lookups, commonAncestor, ancestorHeaders)) := by
    refine .bind (simulates_deleteCanonicalChainReferences _ fuel _) fun forgotten => ?_
    exact .bind (simulates_rebuildCanonical env fuel _) fun _ => .pure _
  refine .ite ?_ hjoin
  exact .bind (.ofExcept _) fun _ => hjoin

/-- Or it is stored aside on both sides. -/
private theorem simulates_storeAside (env : Env H) (item : Item H) (td blockTd : ℕ) :
    Simulates (Managed.storeAside env item td blockTd : Managed.ManagedM K _)
      (storeAside env item td blockTd) := by
  refine .bind (simulates_advancesHeadBlock env item td blockTd) fun advances => ?_
  refine .ite ?_ (.pure _)
  exact .bind (.modify fun _ => rfl) fun _ => .pure _

/-- A put throws, or changes the chain, on both sides alike. -/
private theorem simulates_put (env : Env H) (fuel : ℕ) (fault : Option (ChainError H))
    (item : Item H) :
    Simulates (Managed.put env fuel fault item : Managed.ManagedM K _)
      (putUnless env fuel fault item) := by
  refine .bind (.gets fun _ => rfl) fun db => ?_
  refine .bind (.ofExcept _) fun _ => ?_
  refine .bind (.gets fun _ => rfl) fun headHeaderHash => ?_
  refine .bind (simulates_getTotalDifficulty _) fun headerTd => ?_
  refine .bind (.gets fun _ => rfl) fun headBlockHash => ?_
  refine .bind (simulates_getTotalDifficulty _) fun blockTd => ?_
  refine .bind (simulates_storedTotalDifficulty _ _) fun parentTd => ?_
  refine .bind (simulates_extendsCanonicalHead env item _ _) fun wins => ?_
  refine .ite ?_ ?_
  · refine .bind (simulates_becomeHead env fuel item) ?_
    rintro ⟨moved, commonAncestor, ancestorHeaders⟩
    refine .bind simulates_saveHeadOps fun headOps => ?_
    exact .bind (simulates_batch fault _) fun _ => .ofExcept _
  · refine .bind (simulates_storeAside env item _ _) fun stored => ?_
    refine .bind simulates_saveHeadOps fun headOps => ?_
    exact .bind (simulates_batch fault _) fun _ => .ofExcept _

/-- **The caches are never seen.**  Whatever is cached, a put over the manager is a put over the
database alone. -/
theorem simulates_putBlockOrHeader (env : Env H) (fuel : ℕ) (fault : Option (ChainError H))
    (item : Item H) :
    Simulates (Managed.putBlockOrHeader env fuel fault item : Managed.ManagedM K _)
      (putBlockOrHeaderUnless env fuel fault item) := by
  intro m
  refine Prog.Simulates.finish (.ite ?_ (simulates_put env fuel fault item)) (fun _ => rfl)
    (fun _ => rfl) m
  exact .ite (.pure ()) (.throw _)

end Simulation

end Blockchain

end Tvmjs
