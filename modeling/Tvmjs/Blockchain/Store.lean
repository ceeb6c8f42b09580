import Tvmjs.Base.LinkedChain
import Tvmjs.Base.Prog
import Tvmjs.Util.Account

/-!
# The canonical chain and its database

A `Blockchain` keeps headers and blocks in a database, with an index of the canonical chain by
number, and three kinds of heads in memory: the head header, the head block and one head for each
iterator.  The heads are written to the database as well.

* `Database`, `DBOp` -- the tables and the operations of a batch;
* `putBlockOrHeader`, `resetCanonicalHead`, `delBlock` -- the operations that move the chain;
* `iterator` -- running the canonical blocks above an iterator head.

Loops of the source run on fuel; a run that ends by running out of it is not one that returned.
The database caches are left out here.
-/

namespace Tvmjs

namespace Blockchain

/-! ### Headers and the database -/

/-- The fields of a header that the chain reads, and the rest of it. -/
structure Header (H : Type) where
  number : ℕ
  parentHash : H
  difficulty : ℕ
  timestamp : ℕ
  rest : Bytes
deriving DecidableEq

/-- What is put: a header, or a block with its body. -/
inductive Item (H : Type) where
  | header (header : Header H)
  | block (header : Header H) (body : Bytes)

/-- The header of an item. -/
def Item.getHeader {H : Type} : Item H → Header H
  | .header h => h
  | .block h _ => h

/-- `item instanceof Block` -/
def Item.isBlock {H : Type} : Item H → Bool
  | .header _ => false
  | .block _ _ => true

/-- `BigInt.asUintN(64, n)`: the part of a number that a key holds. -/
def asUintN64 (n : ℤ) : ℕ := (n % 2 ^ 64).toNat

/-- The tables of the database. -/
structure Database (H : Type) where
  header : ℕ → H → Option (Header H)
  body : ℕ → H → Option Bytes
  totalDifficulty : ℕ → H → Option ℕ
  hashToNumber : H → Option ℕ
  numberToHash : ℕ → Option H
  heads : Option (String → Option H)
  headHeader : Option H
  headBlock : Option H

/-- One operation of a batch. -/
inductive DBOp (H : Type) where
  | setTotalDifficulty (number : ℤ) (hash : H) (td : ℕ)
  | setHeader (number : ℤ) (hash : H) (header : Header H)
  | setBody (number : ℤ) (hash : H) (body : Bytes)
  | setHashToNumber (hash : H) (number : ℤ)
  | setNumberToHash (number : ℤ) (hash : H)
  | setHeads (heads : String → Option H)
  | setHeadHeader (hash : H)
  | setHeadBlock (hash : H)
  | delTotalDifficulty (number : ℤ) (hash : H)
  | delHeader (number : ℤ) (hash : H)
  | delBody (number : ℤ) (hash : H)
  | delHashToNumber (hash : H)
  | delNumberToHash (number : ℤ)

/-- What the chain throws. -/
inductive ChainError (H : Type) where
  /-- "Cannot put a different genesis block than current blockchain genesis" -/
  | differentGenesis
  /-- "value for … not found in DB" -/
  | notFound (hash : H)
  /-- "Block number … not found in DB" -/
  | blockNotFound (number : ℤ)
  /-- "no block for … found in DB" -/
  | noBlock (number : ℤ)
  /-- "header with number … not found in canonical chain" -/
  | notCanonical (number : ℤ)
  /-- A header that is not stored does not decode. -/
  | invalidHeader
  /-- A body is missing which is not empty. -/
  | missingBody
  /-- "Failed to find ancient header" -/
  | noAncientHeader
  /-- Validation, the consensus or a hardfork rule turned the item away. -/
  | refused (reason : String)
  /-- "If maxBlocks is provided, it has to be a non-negative number" -/
  | negativeMaxBlocks
  /-- The loop is still running. -/
  | outOfFuel
deriving DecidableEq

end Blockchain

/-- The chain: the database and the heads in memory. -/
structure Blockchain (H : Type) where
  db : Blockchain.Database H
  heads : String → Option H
  headHeaderHash : H
  headBlockHash : H

namespace Blockchain

variable {H : Type} [DecidableEq H]

/-- Programs of the chain. -/
abbrev ChainM (H α : Type) := Prog (Blockchain H) (ChainError H) α

/-- What the chain was created with, and the code outside it. -/
structure Env (H : Type) where
  hash : Header H → H
  genesis : Header H
  /-- Another block is turned away as a genesis block. -/
  isGenesis : genesis.number = 0
  /-- `common.hasConsensus()`; without it blocks are ordered by number. -/
  hasConsensus : Bool
  /-- The consensus of the item's own chain parameters is proof of stake. -/
  isProofOfStake : Item H → Bool
  /-- The chain id check, `validateBlock` and `validateConsensus`, as far as they are on. -/
  validate : Database H → Item H → Except (ChainError H) Unit
  hardforkByHeadBlockNumber : Bool
  /-- `checkAndTransitionHardForkByNumber` -/
  transition : ℤ → ℕ → Except (ChainError H) Unit
  /-- `consensus.newBlock` -/
  newBlock : Item H → Option (Header H) → List (Header H) → Except (ChainError H) Unit
  /-- The header's roots are those of an empty body, which need not be stored. -/
  hasEmptyBody : Header H → Bool

namespace Database

/-- One operation. -/
def apply (db : Database H) : DBOp H → Database H
  | .setTotalDifficulty n h td =>
    { db with totalDifficulty := fun n' h' =>
        if n' = asUintN64 n ∧ h' = h then some td else db.totalDifficulty n' h' }
  | .setHeader n h header =>
    { db with header := fun n' h' =>
        if n' = asUintN64 n ∧ h' = h then some header else db.header n' h' }
  | .setBody n h body =>
    { db with body := fun n' h' => if n' = asUintN64 n ∧ h' = h then some body else db.body n' h' }
  | .setHashToNumber h n =>
    { db with hashToNumber := Function.update db.hashToNumber h (some (asUintN64 n)) }
  | .setNumberToHash n h =>
    { db with numberToHash := Function.update db.numberToHash (asUintN64 n) (some h) }
  | .setHeads heads => { db with heads := some heads }
  | .setHeadHeader h => { db with headHeader := some h }
  | .setHeadBlock h => { db with headBlock := some h }
  | .delTotalDifficulty n h =>
    { db with totalDifficulty := fun n' h' =>
        if n' = asUintN64 n ∧ h' = h then none else db.totalDifficulty n' h' }
  | .delHeader n h =>
    { db with header := fun n' h' =>
        if n' = asUintN64 n ∧ h' = h then none else db.header n' h' }
  | .delBody n h =>
    { db with body := fun n' h' => if n' = asUintN64 n ∧ h' = h then none else db.body n' h' }
  | .delHashToNumber h => { db with hashToNumber := Function.update db.hashToNumber h none }
  | .delNumberToHash n =>
    { db with numberToHash := Function.update db.numberToHash (asUintN64 n) none }

/-- A batch, operation by operation. -/
def batch (db : Database H) (ops : List (DBOp H)) : Database H := ops.foldl apply db

end Database

/-! ### Reading -/

/-- `batch(ops)` -/
def batch (ops : List (DBOp H)) : ChainM H Unit :=
  Prog.modify fun s => { s with db := s.db.batch ops }

/-- `safeNumberToHash` -/
def numberToHash (n : ℤ) : ChainM H (Option H) :=
  Prog.gets fun s => s.db.numberToHash (asUintN64 n)

/-- `hashToNumber`, which throws for an unknown hash. -/
def hashToNumber (hash : H) : ChainM H ℕ := do
  match ← Prog.gets fun s : Blockchain H => s.db.hashToNumber hash with
  | some n => pure n
  | none => Prog.throw (.notFound hash)

/-- `dbManager.getHeader` -/
def getHeader (hash : H) (n : ℤ) : ChainM H (Header H) := do
  match ← Prog.gets fun s : Blockchain H => s.db.header (asUintN64 n) hash with
  | some header => pure header
  | none => Prog.throw .invalidHeader

/-- `_getHeader(hash)` -/
def getHeaderByHash (hash : H) : ChainM H (Header H) := do
  let n ← hashToNumber hash
  getHeader hash n

/-- `getCanonicalHeader` -/
def getCanonicalHeader (n : ℤ) : ChainM H (Header H) := do
  match ← numberToHash n with
  | some hash => getHeader hash n
  | none => Prog.throw (.notCanonical n)

/-- The total difficulty under a key; nothing stored decodes to zero. -/
def storedTotalDifficulty (hash : H) (n : ℤ) : ChainM H ℕ :=
  Prog.gets fun s => (s.db.totalDifficulty (asUintN64 n) hash).getD 0

/-- `getTotalDifficulty(hash)` -/
def getTotalDifficulty (hash : H) : ChainM H ℕ := do
  let n ← hashToNumber hash
  storedTotalDifficulty hash n

/-- `_saveHeadOps` -/
def saveHeadOps : ChainM H (List (DBOp H)) :=
  Prog.gets fun s =>
    [.setHeads s.heads, .setHeadHeader s.headHeaderHash, .setHeadBlock s.headBlockHash]

/-- `DBSaveLookups` -/
def saveLookups (hash : H) (n : ℕ) : List (DBOp H) :=
  [.setNumberToHash n hash, .setHashToNumber hash n]

/-- `DBSetBlockOrHeader` -/
def setBlockOrHeader (hash : H) : Item H → List (DBOp H)
  | .header header => [.setHeader header.number hash header]
  | .block header body => [.setHeader header.number hash header, .setBody header.number hash body]

/-! ### Moving the canonical chain -/

/-- Move every head that is `stale` to `fresh`. -/
def rewind (stale fresh : H) (s : Blockchain H) : Blockchain H :=
  { s with
    heads := fun name => (s.heads name).map fun h => if h = stale then fresh else h
    headHeaderHash := if s.headHeaderHash = stale then fresh else s.headHeaderHash
    headBlockHash := if s.headBlockHash = stale then fresh else s.headBlockHash }

/-- `_deleteCanonicalChainReferences`: the operations that forget the canonical chain from a number
on; heads on what is forgotten move to `headHash`. -/
def deleteCanonicalChainReferences (headHash : H) : ℕ → ℤ → ChainM H (List (DBOp H))
  | 0, _ => Prog.throw .outOfFuel
  | fuel + 1, n => do
    match ← numberToHash n with
    | none => pure []
    | some hash => do
      Prog.modify (rewind hash headHash)
      let ops ← deleteCanonicalChainReferences headHash fuel (n + 1)
      pure (.delNumberToHash n :: ops)

/-- What the walk of `_rebuildCanonical` collects. -/
structure Rebuilt (H : Type) where
  /-- The new canonical hashes with their numbers, from the top down. -/
  lookups : List (H × ℕ)
  /-- The hashes they replace. -/
  stale : List H
  /-- The canonical hash at which the walk ended. -/
  common : H

/-- The loop of `_rebuildCanonical`. -/
def walkBack (env : Env H) : ℕ → Header H → ℤ → ChainM H (Rebuilt H)
  | 0, _, _ => Prog.throw .outOfFuel
  | fuel + 1, header, n => do
    let staleHash ← numberToHash n
    let hash := env.hash header
    if staleHash = some hash ∨ header.number = 0 then
      pure ⟨[], [], hash⟩
    else do
      let parent ← getHeader header.parentHash (n - 1)
      let rest ← walkBack env fuel parent (n - 1)
      pure { rest with
        lookups := (hash, header.number) :: rest.lookups
        stale := staleHash.toList ++ rest.stale }

/-- `_rebuildCanonical`: iterator heads and the head block leave the hashes that are replaced. -/
def rebuildCanonical (env : Env H) (fuel : ℕ) (header : Header H) : ChainM H (List (DBOp H)) := do
  let rebuilt ← walkBack env fuel header header.number
  Prog.modify fun s =>
    { s with
      heads := fun name => (s.heads name).map fun h =>
        if h ∈ rebuilt.stale then rebuilt.common else h
      headBlockHash :=
        if s.headBlockHash ∈ rebuilt.stale then rebuilt.common else s.headBlockHash }
  pure (rebuilt.lookups.flatMap fun lookup => saveLookups lookup.1 lookup.2)

/-- Walk a header down to the number of another one. -/
def descendTo (target : ℕ) : ℕ → Header H → List (Header H) → ChainM H (Header H × List (Header H))
  | 0, _, _ => Prog.throw .outOfFuel
  | fuel + 1, header, ancestors =>
    if target ≠ header.number ∧ header.number > 0 then do
      let parent ← getHeader header.parentHash (header.number - 1)
      descendTo target fuel parent (ancestors ++ [parent])
    else pure (header, ancestors)

/-- Walk the canonical chain and another one down until they meet. -/
def meet (env : Env H) : ℕ → Header H → Header H → List (Header H) →
    ChainM H (Header H × Header H × List (Header H))
  | 0, _, _, _ => Prog.throw .outOfFuel
  | fuel + 1, header, newHeader, ancestors =>
    if env.hash header ≠ env.hash newHeader ∧ header.number > 0 then do
      let header ← getCanonicalHeader (header.number - 1)
      let parent ← getHeader newHeader.parentHash (newHeader.number - 1)
      meet env fuel header parent (ancestors ++ [header, parent])
    else pure (header, newHeader, ancestors)

/-- `findCommonAncestor` -/
def findCommonAncestor (env : Env H) (fuel : ℕ) (newHeader : Header H) :
    ChainM H (Header H × List (Header H)) := do
  let header ← getHeaderByHash (← Prog.gets headHeaderHash)
  let (header, newHeader, ancestors) ←
    if header.number > newHeader.number then do
      let header ← getCanonicalHeader newHeader.number
      pure (header, newHeader, [header])
    else do
      let (newHeader, ancestors) ← descendTo header.number fuel newHeader []
      pure (header, newHeader, ancestors)
  if header.number ≠ newHeader.number then Prog.throw .noAncientHeader
  else do
    let (header, newHeader, ancestors) ← meet env fuel header newHeader ancestors
    if env.hash header ≠ env.hash newHeader then Prog.throw .noAncientHeader
    else pure (header, ancestors)

/-! ### Creating -/

/-- A database without entries. -/
def Database.empty : Database H where
  header _ _ := none
  body _ _ := none
  totalDifficulty _ _ := none
  hashToNumber _ := none
  numberToHash _ := none
  heads := none
  headHeader := none
  headBlock := none

/-- `createBlockchain` over an empty database: the genesis block is stored, the heads are loaded. -/
def createBlockchain (env : Env H) (genesisBody : Bytes) : Blockchain H :=
  let hash := env.hash env.genesis
  let db := Database.empty.batch (.setTotalDifficulty 0 hash env.genesis.difficulty ::
    (setBlockOrHeader hash (.block env.genesis genesisBody) ++ saveLookups hash 0))
  { db
    heads := db.heads.getD fun _ => none
    headHeaderHash := db.headHeader.getD hash
    headBlockHash := db.headBlock.getD hash }

/-! ### Putting -/

/-- Whether an item becomes the head: a higher number without consensus metadata, a higher total
difficulty or proof of stake with it. -/
def extendsCanonicalHead (env : Env H) (item : Item H) (td headerTd : ℕ) : ChainM H Bool := do
  if !env.hasConsensus then do
    let headNumber ← hashToNumber (← Prog.gets headHeaderHash)
    pure (decide (item.getHeader.number > headNumber))
  else pure (decide (td > headerTd) || env.isProofOfStake item)

/-- Whether an item that is stored aside moves the head block. -/
def advancesHeadBlock (env : Env H) (item : Item H) (td blockTd : ℕ) : ChainM H Bool := do
  let header := item.getHeader
  if !env.hasConsensus then do
    let canonicalHash ← numberToHash header.number
    let headNumber ← hashToNumber (← Prog.gets headBlockHash)
    pure (decide (canonicalHash = some (env.hash header)) && decide (header.number > headNumber))
  else pure (decide (td > blockTd))

/-- Make an item the head of the canonical chain: the operations, and the common ancestor with the
headers that were walked. -/
def becomeHead (env : Env H) (fuel : ℕ) (item : Item H) :
    ChainM H (List (DBOp H) × Header H × List (Header H)) := do
  let header := item.getHeader
  let hash := env.hash header
  let (commonAncestor, ancestorHeaders) ← findCommonAncestor env fuel header
  Prog.modify fun s =>
    { s with
      headHeaderHash := hash
      headBlockHash := if item.isBlock then hash else s.headBlockHash }
  if env.hardforkByHeadBlockNumber then
    Prog.ofExcept (env.transition header.number header.timestamp)
  else pure ()
  let forgotten ← deleteCanonicalChainReferences hash fuel (header.number + 1)
  let lookups ← rebuildCanonical env fuel header
  pure (forgotten ++ lookups, commonAncestor, ancestorHeaders)

/-- Store an item aside: the operations. -/
def storeAside (env : Env H) (item : Item H) (td blockTd : ℕ) : ChainM H (List (DBOp H)) := do
  let header := item.getHeader
  let hash := env.hash header
  let advances ← advancesHeadBlock env item td blockTd
  if advances && item.isBlock then
    Prog.modify fun s => { s with headBlockHash := hash }
  else pure ()
  pure [.setHashToNumber hash header.number]

/-- The body of `_putBlockOrHeader` for an item that is no genesis block. -/
def put (env : Env H) (fuel : ℕ) (item : Item H) : ChainM H Unit := do
  let header := item.getHeader
  let hash := env.hash header
  Prog.ofExcept (env.validate (← Prog.gets db) item)
  let headerTd ← getTotalDifficulty (← Prog.gets headHeaderHash)
  let blockTd ← getTotalDifficulty (← Prog.gets headBlockHash)
  let parentTd ← storedTotalDifficulty header.parentHash (header.number - 1)
  let td := header.difficulty + parentTd
  let ops := .setTotalDifficulty header.number hash td :: setBlockOrHeader hash item
  if ← extendsCanonicalHead env item td headerTd then do
    let (moved, commonAncestor, ancestorHeaders) ← becomeHead env fuel item
    batch (ops ++ moved ++ (← saveHeadOps))
    Prog.ofExcept (env.newBlock item (some commonAncestor) ancestorHeaders)
  else do
    let stored ← storeAside env item td blockTd
    batch (ops ++ stored ++ (← saveHeadOps))
    Prog.ofExcept (env.newBlock item none [])

/-- `_putBlockOrHeader`: a throw brings the heads back. -/
def putBlockOrHeader (env : Env H) (fuel : ℕ) (item : Item H) : ChainM H Unit := fun s =>
  let work : ChainM H Unit :=
    if item.getHeader.number = 0 then
      if env.hash env.genesis = env.hash item.getHeader then pure ()
      else Prog.throw .differentGenesis
    else put env fuel item
  (work.finish id fun s' =>
    { s' with
      heads := s.heads
      headHeaderHash := s.headHeaderHash
      headBlockHash := s.headBlockHash }).run s

/-- `putBlocks`, `putHeaders` -/
def putAll (env : Env H) (fuel : ℕ) : List (Item H) → ChainM H Unit
  | [] => pure ()
  | item :: items => do
    putBlockOrHeader env fuel item
    putAll env fuel items

/-! ### Resetting and deleting -/

/-- `resetCanonicalHead` -/
def resetCanonicalHead (env : Env H) (fuel : ℕ) (canonicalHead : ℤ) : ChainM H Unit := do
  match ← numberToHash canonicalHead with
  | none => Prog.throw (.noBlock canonicalHead)
  | some hash => do
    let header ← getHeader hash canonicalHead
    let forgotten ← deleteCanonicalChainReferences hash fuel (canonicalHead + 1)
    batch (forgotten ++ (← saveHeadOps))
    Prog.ofExcept (env.transition canonicalHead header.timestamp)

/-- `_delChild`: the operations that delete a block and, when there is a head to fall back to, its
canonical children; head header and head block fall back with them. -/
def delChild (env : Env H) (headHash : Option H) : ℕ → H → ℤ → ChainM H (List (DBOp H))
  | 0, _, _ => Prog.throw .outOfFuel
  | fuel + 1, hash, n => do
    let ops : List (DBOp H) :=
      [.delHeader n hash, .delBody n hash, .delHashToNumber hash, .delTotalDifficulty n hash]
    match headHash with
    | none => pure ops
    | some fallback => do
      Prog.modify fun s =>
        { s with
          headHeaderHash := if s.headHeaderHash = hash then fallback else s.headHeaderHash
          headBlockHash := if s.headBlockHash = hash then fallback else s.headBlockHash }
      match ← numberToHash (n + 1) with
      | none => pure ops
      | some child => do
        let childHeader ← getHeader child (n + 1)
        let rest ← delChild env headHash fuel (env.hash childHeader) childHeader.number
        pure (ops ++ rest)

/-- `delBlock`.  The heads it moved are not written to the database. -/
def delBlock (env : Env H) (fuel : ℕ) (hash : H) : ChainM H Unit := do
  let header ← getHeaderByHash hash
  let canonicalHash ← numberToHash header.number
  if canonicalHash = some hash then do
    let deleted ← delChild env (some header.parentHash) fuel hash header.number
    let forgotten ← deleteCanonicalChainReferences header.parentHash fuel header.number
    batch (deleted ++ forgotten)
  else do
    let deleted ← delChild env none fuel hash header.number
    batch deleted

/-! ### Iterators -/

/-- `getBlock(n)`: the canonical block at a number, of which only the header matters here. -/
def getBlock (env : Env H) (n : ℤ) : ChainM H (Header H) := do
  match ← numberToHash n with
  | none => Prog.throw (.blockNotFound n)
  | some hash => do
    let header ← getHeader hash n
    let body ← Prog.gets fun s => s.db.body (asUintN64 n) hash
    if body.isSome || env.hasEmptyBody header then pure header
    else Prog.throw .missingBody

/-- The local variables of one iterator run. -/
structure Running (H : Type) where
  name : String
  maxBlocks : Option ℤ
  releaseLockOnCallback : Bool
  headHash : H
  nextBlockNumber : ℤ
  blocksRan : ℤ := 0
  lastBlock : Option (Header H) := none
deriving DecidableEq

/-- `this._heads[name] ?? this.genesisBlock.hash()` -/
def iteratorHead (env : Env H) (name : String) (s : Blockchain H) : H :=
  (s.heads name).getD (env.hash env.genesis)

/-- The beginning of a run. -/
def beginIterator (env : Env H) (name : String) (maxBlocks : Option ℤ)
    (releaseLockOnCallback : Bool) : ChainM H (Running H) := do
  let headHash ← Prog.gets (iteratorHead env name)
  if maxBlocks.any (· < 0) then Prog.throw .negativeMaxBlocks
  else do
    let headBlockNumber ← hashToNumber headHash
    pure
      { name, maxBlocks, releaseLockOnCallback, headHash
        nextBlockNumber := headBlockNumber + 1 }

/-- The error's message includes "not found in DB". -/
def ChainError.isNotFound : ChainError H → Bool
  | .notFound _ => true
  | .blockNotFound _ => true
  | _ => false

/-- Up to the next callback: the block it is given, and whether a reorg was noticed.  A block that
is not found ends the run. -/
def nextCallback (env : Env H) (r : Running H) : ChainM H (Option (Running H × Header H × Bool)) :=
  if r.maxBlocks = some r.blocksRan then pure none
  else Prog.tryCatch
    (do
      let nextBlock ← getBlock env r.nextBlockNumber
      if r.lastBlock.any fun last => env.hash last ≠ nextBlock.parentHash then do
        -- the heads must have been updated, so the counters are loaded again
        let headHash ← Prog.gets (iteratorHead env r.name)
        let headBlockNumber ← hashToNumber headHash
        let nextBlockNumber : ℤ := headBlockNumber + 1
        let nextBlock ← getBlock env nextBlockNumber
        pure (some ({ r with headHash, nextBlockNumber }, nextBlock, true))
      else pure (some (r, nextBlock, false)))
    fun e => if e.isNotFound then pure none else Prog.throw e

/-- Whether the block a callback was given has left the canonical chain meanwhile. -/
def reorgWhileOnBlock (env : Env H) (r : Running H) (nextBlock : Header H) : ChainM H Bool :=
  if r.releaseLockOnCallback then
    Prog.tryCatch
      (do
        let block ← getBlock env r.nextBlockNumber
        pure (decide (env.hash block ≠ env.hash nextBlock)))
      fun _ => pure true
  else pure false

/-- From the return of a callback on: without a reorg the head moves to the block. -/
def afterCallback (env : Env H) (r : Running H) (nextBlock : Header H) : ChainM H (Running H) := do
  if ← reorgWhileOnBlock env r nextBlock then pure { r with blocksRan := r.blocksRan + 1 }
  else do
    Prog.modify fun s =>
      { s with heads := Function.update s.heads r.name (some (env.hash nextBlock)) }
    pure
      { r with
        lastBlock := some nextBlock
        nextBlockNumber := r.nextBlockNumber + 1
        blocksRan := r.blocksRan + 1 }

/-- `_saveHeads` -/
def saveHeads : ChainM H Unit := do
  batch (← saveHeadOps)

/-- The loop of a run whose callbacks return and leave the chain alone. -/
def iterate (env : Env H) : ℕ → Running H → ChainM H ℤ
  | 0, _ => Prog.throw .outOfFuel
  | fuel + 1, r => do
    match ← nextCallback env r with
    | none => pure r.blocksRan
    | some (r, nextBlock, _) => do
      let r ← afterCallback env r nextBlock
      iterate env fuel r

/-- `iterator`, for callbacks that return and leave the chain alone; the heads are saved whether the
loop returns or throws. -/
def iterator (env : Env H) (fuel : ℕ) (name : String) (maxBlocks : Option ℤ)
    (releaseLockOnCallback : Bool) : ChainM H ℤ := do
  let r ← beginIterator env name maxBlocks releaseLockOnCallback
  Prog.tryCatch
    (do
      let ran ← iterate env fuel r
      saveHeads
      pure ran)
    fun e => do
      saveHeads
      Prog.throw e

end Blockchain

end Tvmjs
