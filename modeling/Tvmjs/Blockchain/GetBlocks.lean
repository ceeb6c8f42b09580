import Mathlib.Tactic.Ring
import Tvmjs.Blockchain.Canonical

/-!
# Looking up many blocks
A walk up or down the canonical chain from a block that is given by its number or its hash.  It
visits every block and keeps each `skip + 1`-th.

* `getBlocks` -- the walk;
* `nextBlock_spec` -- what it returns, in terms of the blocks it visits;
* `getBlocks_canonical` -- **the blocks it returns** on an indexed chain: the start and the
  canonical blocks at the multiples of the distance.  A walk down from above the canonical head ends
  at once.
-/

namespace Tvmjs

namespace Blockchain

/-! ### Reading blocks -/

/-- The id of a block. -/
inductive BlockId (H : Type) where
  | hash (hash : H)
  | number (number : ℤ)

/-- A block as it is read from the database.  One without a body is that of an empty block. -/
@[ext] structure StoredBlock (H : Type) where
  header : Header H
  body : Option Bytes
deriving DecidableEq

variable {H : Type}

/-- What is stored under a number and a hash. -/
def Database.blockAt (db : Database H) (n : ℕ) (hash : H) : Option (StoredBlock H) :=
  (db.header n hash).map fun header => ⟨header, db.body n hash⟩

/-- The body is there, or it is that of an empty block. -/
def StoredBlock.isWhole (env : Env H) (block : StoredBlock H) : Bool :=
  block.body.isSome || env.hasEmptyBody block.header

/-- The part of `dbManager.getBlock` after the lookups. -/
def readBlock (env : Env H) (hash : H) (n : ℤ) : ChainM H (StoredBlock H) := do
  let header ← getHeader hash n
  let body ← Prog.gets fun s => s.db.body (asUintN64 n) hash
  if body.isSome || env.hasEmptyBody header then pure ⟨header, body⟩
  else Prog.throw .missingBody

/-- `getBlock(blockId)` -/
def getBlockById (env : Env H) : BlockId H → ChainM H (StoredBlock H)
  | .hash hash => do
    let n ← hashToNumber hash
    readBlock env hash n
  | .number n => do
    match ← numberToHash n with
    | none => Prog.throw (.blockNotFound n)
    | some hash => readBlock env hash n

/-- `getBlock` in its `try`: nothing for a block that is not found in the database. -/
def findBlock (env : Env H) (id : BlockId H) : ChainM H (Option (StoredBlock H)) :=
  Prog.tryCatch
    (do
      let block ← getBlockById env id
      pure (some block))
    fun e => if e.isNotFound then pure none else Prog.throw e

/-- The number after one, up or down. -/
def nextNumber (reverse : Bool) (n : ℤ) : ℤ := n + if reverse then -1 else 1

/-- `nextBlock`; `i` is the counter once the block has been found. -/
def nextBlock (env : Env H) (maxBlocks skip : ℕ) (reverse : Bool) :
    ℕ → BlockId H → ℕ → List (StoredBlock H) → ChainM H (List (StoredBlock H))
  | 0, _, _, _ => Prog.throw .outOfFuel
  | fuel + 1, id, i, blocks => do
    match ← findBlock env id with
    | none => pure blocks
    | some block =>
      let next := .number (nextNumber reverse block.header.number)
      if i ≠ 0 ∧ skip ≠ 0 ∧ i % (skip + 1) ≠ 0 then
        nextBlock env maxBlocks skip reverse fuel next (i + 1) blocks
      else if (blocks ++ [block]).length < maxBlocks then
        nextBlock env maxBlocks skip reverse fuel next (i + 1) (blocks ++ [block])
      else pure (blocks ++ [block])

/-- `getBlocks` -/
def getBlocks (env : Env H) (fuel : ℕ) (id : BlockId H) (maxBlocks skip : ℕ) (reverse : Bool) :
    ChainM H (List (StoredBlock H)) :=
  nextBlock env maxBlocks skip reverse fuel id 0 []

/-! ### The walk -/

/-- The blocks that are kept of the first `i` visited ones. -/
def kept (visit : ℕ → StoredBlock H) (skip i : ℕ) : List (StoredBlock H) :=
  (List.range ((i + skip) / (skip + 1))).map fun k => visit (k * (skip + 1))

section Walk

variable {env : Env H} {s : Blockchain H} {maxBlocks skip : ℕ} {reverse : Bool}
  {visit : ℕ → StoredBlock H} {i : ℕ}

private theorem length_kept : (kept visit skip i).length = (i + skip) / (skip + 1) := by
  rw [kept, List.length_map, List.length_range]

/-- A block between two that are kept. -/
private theorem kept_succ_of_not_dvd (hi : i % (skip + 1) ≠ 0) :
    kept visit skip (i + 1) = kept visit skip i := by
  have hmod : i % (skip + 1) < skip + 1 := Nat.mod_lt i (Nat.succ_pos skip)
  have hdiv : (i + 1 + skip) / (skip + 1) = (i + skip) / (skip + 1) := by
    have h := Nat.div_add_mod i (skip + 1)
    rw [show i + 1 + skip = i + (skip + 1) by omega, Nat.add_div_right _ (Nat.succ_pos skip)]
    refine (Nat.div_eq_of_lt_le ?_ ?_).symm
    · calc
        (i / (skip + 1) + 1) * (skip + 1) = (skip + 1) * (i / (skip + 1)) + (skip + 1) := by ring
        _ ≤ i + skip := by omega
    · calc
        i + skip < (skip + 1) * (i / (skip + 1)) + (skip + 1) + (skip + 1) := by omega
        _ = (i / (skip + 1) + 1 + 1) * (skip + 1) := by ring
  rw [kept, kept, hdiv]

/-- A block that is kept. -/
private theorem kept_succ_of_dvd (hi : i % (skip + 1) = 0) :
    kept visit skip (i + 1) = kept visit skip i ++ [visit i] := by
  have h := Nat.div_add_mod i (skip + 1)
  have hdiv : (i + skip) / (skip + 1) = i / (skip + 1) := by
    refine Nat.div_eq_of_lt_le ?_ ?_
    · calc
        i / (skip + 1) * (skip + 1) = (skip + 1) * (i / (skip + 1)) := Nat.mul_comm _ _
        _ ≤ i + skip := by omega
    · calc
        i + skip < (skip + 1) * (i / (skip + 1)) + (skip + 1) := by omega
        _ = (i / (skip + 1) + 1) * (skip + 1) := by ring
  have hlast : i / (skip + 1) * (skip + 1) = i := by
    rw [Nat.mul_comm]
    omega
  rw [kept, kept, show i + 1 + skip = i + (skip + 1) by omega,
    Nat.add_div_right _ (Nat.succ_pos skip), hdiv, List.range_succ, List.map_append,
    List.map_singleton, hlast]

/-- What is looked up: the start, and then the number after each block that is visited. -/
def walkIds (id : BlockId H) (reverse : Bool) (visit : ℕ → StoredBlock H) : ℕ → BlockId H
  | 0 => id
  | j + 1 => .number (nextNumber reverse (visit j).header.number)

/-- **What the walk returns**: of the blocks that it visits before it stops each `skip + 1`-th, and
what it throws if it stops at one that cannot be read. -/
theorem nextBlock_spec {id : BlockId H} {e : ℕ} {stop : Except (ChainError H) Unit}
    (hmax : 1 ≤ maxBlocks)
    (hvisit : ∀ j < e, (findBlock env (walkIds id reverse visit j)).run s =
      (.ok (some (visit j)), s))
    (hstop : e ≤ (maxBlocks - 1) * (skip + 1) ∧
        (findBlock env (walkIds id reverse visit e)).run s = (stop.map fun _ => none, s) ∨
      e = (maxBlocks - 1) * (skip + 1) + 1 ∧ stop = .ok ())
    {fuel : ℕ} (hfuel : e < fuel + i) (hi : i ≤ e) (hlast : i ≤ (maxBlocks - 1) * (skip + 1)) :
    (nextBlock env maxBlocks skip reverse fuel (walkIds id reverse visit i) i
      (kept visit skip i)).run s = (stop.map fun _ => kept visit skip e, s) := by
  induction fuel generalizing i with
  | zero => omega
  | succ fuel ih =>
    rw [nextBlock]
    obtain rfl | hlt := Nat.eq_or_lt_of_le hi
    · -- the walk stops here
      obtain ⟨-, hfind⟩ | ⟨hend, -⟩ := hstop
      · cases stop with
        | error x => exact Prog.run_bind_of_error hfind
        | ok u => exact Prog.run_bind_of_ok hfind
      · omega
    · rw [Prog.run_bind_of_ok (hvisit i hlt)]
      dsimp only
      have hnext := @ih (i + 1) (by omega) hlt
      rw [walkIds] at hnext
      by_cases hkeep : i % (skip + 1) = 0
      · have hlength : (kept visit skip (i + 1)).length < maxBlocks ↔
            i < (maxBlocks - 1) * (skip + 1) := by
          rw [length_kept, show i + 1 + skip = i + (skip + 1) by omega,
            Nat.add_div_right _ (Nat.succ_pos skip), ← Nat.div_lt_iff_lt_mul (Nat.succ_pos skip)]
          omega
        rw [if_neg fun hskip => hskip.2.2 hkeep, ← kept_succ_of_dvd hkeep]
        by_cases hmore : i < (maxBlocks - 1) * (skip + 1)
        · rw [if_pos (hlength.2 hmore)]
          exact hnext hmore
        · -- the last block that was asked for
          rw [if_neg (mt hlength.1 hmore)]
          obtain ⟨hend, -⟩ | ⟨hend, rfl⟩ := hstop
          · omega
          · rw [show e = i + 1 by omega]
            rfl
      · have hskip : skip ≠ 0 := by
          rintro rfl
          exact hkeep (Nat.mod_one i)
        have hmore : i < (maxBlocks - 1) * (skip + 1) := by
          refine Nat.lt_of_le_of_ne hlast fun heq => hkeep ?_
          rw [heq]
          exact Nat.mul_mod_left _ _
        rw [if_pos ⟨fun h => hkeep (by rw [h, Nat.zero_mod]), hskip, hkeep⟩,
          ← kept_succ_of_not_dvd hkeep]
        exact hnext hmore

private theorem kept_zero : kept visit skip 0 = [] := by
  rw [kept, Nat.zero_add, Nat.div_eq_of_lt (Nat.lt_succ_self skip)]
  rfl

private theorem getBlocks_spec {id : BlockId H} {e : ℕ} {stop : Except (ChainError H) Unit}
    (hmax : 1 ≤ maxBlocks)
    (hvisit : ∀ j < e, (findBlock env (walkIds id reverse visit j)).run s =
      (.ok (some (visit j)), s))
    (hstop : e ≤ (maxBlocks - 1) * (skip + 1) ∧
        (findBlock env (walkIds id reverse visit e)).run s = (stop.map fun _ => none, s) ∨
      e = (maxBlocks - 1) * (skip + 1) + 1 ∧ stop = .ok ())
    {fuel : ℕ} (hfuel : e < fuel) :
    (getBlocks env fuel id maxBlocks skip reverse).run s =
      (stop.map fun _ => kept visit skip e, s) := by
  have hwalk :=
    @nextBlock_spec H env s maxBlocks skip reverse visit 0 id e stop hmax hvisit hstop fuel
    hfuel (Nat.zero_le e) (Nat.zero_le _)
  rwa [kept_zero] at hwalk

end Walk

/-! ### On an indexed chain -/

/-- The canonical block at a number; there is none below genesis. -/
def Database.canonicalBlock (db : Database H) : ℤ → Option (StoredBlock H)
  | .ofNat n => (db.numberToHash n).bind (db.blockAt n)
  | .negSucc _ => none

/-- Where a block is stored: a hash is looked up, and so is a number on the canonical chain. -/
def Database.resolve (db : Database H) : BlockId H → Option (ℕ × H)
  | .hash hash => (db.hashToNumber hash).map fun n => (n, hash)
  | .number n => (db.numberToHash (asUintN64 n)).map fun hash => (asUintN64 n, hash)

/-- The block with an id. -/
def Database.blockById (db : Database H) (id : BlockId H) : Option (StoredBlock H) :=
  (db.resolve id).bind fun e => db.blockAt e.1 e.2

section Indexed

variable {env : Env H} {s : Blockchain H} {top : ℕ}

private theorem run_readBlock {n : ℤ} {hash : H} {block : StoredBlock H}
    (h : s.db.blockAt (asUintN64 n) hash = some block) :
    (readBlock env hash n).run s =
      (if block.isWhole env then .ok block else .error .missingBody, s) := by
  obtain ⟨header, hheader, rfl⟩ := Option.map_eq_some_iff.1 h
  have hget : (getHeader hash n).run s = (.ok header, s) := by
    rw [getHeader, Prog.run_bind_of_ok (Prog.run_gets _ s), hheader]
    rfl
  rw [readBlock, Prog.run_bind_of_ok hget, Prog.run_bind_of_ok (Prog.run_gets _ s)]
  change (if _ then _ else _ : ChainM H _).run s = _
  rw [StoredBlock.isWhole]
  split
  · rfl
  · rfl

private theorem run_findBlock_of_read {id : BlockId H} {block : StoredBlock H}
    (h : (getBlockById env id).run s =
      (if block.isWhole env then .ok block else .error .missingBody, s)) :
    (findBlock env id).run s =
      (if block.isWhole env then .ok (some block) else .error .missingBody, s) := by
  rw [findBlock, Prog.run_tryCatch, Prog.run_bind, h]
  cases block.isWhole env with
  | true => rfl
  | false => rfl

/-- **A block that is looked up**: what is indexed is stored. -/
theorem run_findBlock (hi : Indexed env s.db top) (id : BlockId H) :
    (findBlock env id).run s =
      (match s.db.blockById id with
        | none => .ok none
        | some block => if block.isWhole env then .ok (some block) else .error .missingBody,
            s) := by
  -- Both readers look the header up by number and hash; they differ in which of the two they are
  -- given.
  cases id with
  | hash hash =>
    cases hn : s.db.hashToNumber hash with
    | none =>
      -- an unknown hash is an error, and `findBlock` turns it into no block
      have hget : (getBlockById env (.hash hash)).run s = (.error (.notFound hash), s) := by
        refine Prog.run_bind_of_error ?_
        rw [hashToNumber, Prog.run_bind_of_ok (Prog.run_gets _ s), hn]
        rfl
      rw [Database.blockById, Database.resolve, hn, findBlock, Prog.run_tryCatch,
        Prog.run_bind_of_error hget]
      rfl
    | some n =>
      obtain ⟨header, hheader⟩ := Option.isSome_iff_exists.1 ((hi.stored.hashToNumber_iff _ _).1 hn)
      obtain ⟨-, -, hbound⟩ := hi.stored.key _ _ _ hheader
      have hnumber : (hashToNumber hash).run s = (.ok n, s) := by
        rw [hashToNumber, Prog.run_bind_of_ok (Prog.run_gets _ s), hn]
        rfl
      have hblock : s.db.blockAt n hash = some ⟨header, s.db.body n hash⟩ := by
        rw [Database.blockAt, hheader]
        rfl
      have hread := @run_readBlock H env s n hash ⟨header, s.db.body n hash⟩
        (by rw [asUintN64_natCast (by omega), hblock])
      rw [run_findBlock_of_read ((Prog.run_bind_of_ok hnumber).trans hread), Database.blockById,
        Database.resolve, hn]
      simp only [Option.map_some, Option.bind_some, hblock]
  | number n =>
    have hlookup : (numberToHash n : ChainM H (Option H)).run s =
      (.ok (s.db.numberToHash (asUintN64 n)), s) := Prog.run_gets _ s
    cases hn : s.db.numberToHash (asUintN64 n) with
    | none =>
      rw [hn] at hlookup
      -- so is a number without a hash
      have hget : (getBlockById env (.number n)).run s = (.error (.blockNotFound n), s) :=
        Prog.run_bind_of_ok hlookup
      rw [Database.blockById, Database.resolve, hn, findBlock, Prog.run_tryCatch,
        Prog.run_bind_of_error hget]
      rfl
    | some hash =>
      rw [hn] at hlookup
      obtain ⟨header, hheader, -⟩ := hi.held hn
      have hblock : s.db.blockAt (asUintN64 n) hash =
        some ⟨header, s.db.body (asUintN64 n) hash⟩ := by
        rw [Database.blockAt, hheader]
        rfl
      rw [run_findBlock_of_read ((Prog.run_bind_of_ok hlookup).trans (run_readBlock hblock)),
        Database.blockById, Database.resolve, hn]
      simp only [Option.map_some, Option.bind_some, hblock]

/-- A block knows its number, which leaves room for the next one. -/
private theorem number_of_blockById (hi : Indexed env s.db top) {id : BlockId H}
    {block : StoredBlock H}
    (h : s.db.blockById id = some block) : block.header.number + 1 < 2 ^ 64 := by
  obtain ⟨⟨n, hash⟩, -, hblock⟩ := Option.bind_eq_some_iff.1 h
  obtain ⟨header, hheader, rfl⟩ := Option.map_eq_some_iff.1 hblock
  obtain ⟨hnumber, -, hbound⟩ := hi.stored.key _ _ _ hheader
  rwa [← hnumber] at hbound

/-- Up to the end of the keys the block with a number is the canonical one. -/
private theorem blockById_number (hi : Indexed env s.db top) {n : ℤ} (hlow : -1 ≤ n)
    (hhigh : n < 2 ^ 64) :
    s.db.blockById (.number n) = s.db.canonicalBlock n := by
  rw [Database.blockById, Database.resolve]
  cases n with
  | ofNat n =>
    have hn : asUintN64 (Int.ofNat n) = n := asUintN64_natCast (by simp at hhigh; omega)
    rw [hn, Database.canonicalBlock]
    cases s.db.numberToHash n with
    | none => rfl
    | some hash => rfl
  | negSucc n =>
    have hn : n = 0 := by omega
    have hnone : s.db.numberToHash (asUintN64 (Int.negSucc n)) = none := by
      refine hi.chain.eq_none_of_lt ?_
      have htop := hi.top_lt
      rw [hn, show asUintN64 (Int.negSucc 0) = 2 ^ 64 - 1 by decide]
      omega
    rw [hnone]
    rfl

/-- There is a canonical block at each number from genesis up to the head. -/
private theorem canonicalBlock_isSome_iff (hi : Indexed env s.db top) (n : ℤ) :
    (s.db.canonicalBlock n).isSome ↔ 0 ≤ n ∧ n ≤ top := by
  cases n with
  | ofNat n =>
    have hn : (s.db.canonicalBlock (Int.ofNat n)).isSome ↔ (s.db.numberToHash n).isSome := by
      rw [Database.canonicalBlock]
      cases hhash : s.db.numberToHash n with
      | none => exact Iff.rfl
      | some hash =>
        obtain ⟨header, hheader, -⟩ := hi.held hhash
        rw [Option.bind_some, Database.blockAt, hheader]
        exact iff_of_true rfl rfl
    rw [hn, hi.chain.isSome_iff]
    simp only [Int.ofNat_eq_natCast]
    omega
  | negSucc n => exact iff_of_false Bool.false_ne_true (by omega)

/-- A canonical block has its number. -/
private theorem number_of_canonicalBlock (hi : Indexed env s.db top) {n : ℤ} {block : StoredBlock H}
    (h : s.db.canonicalBlock n = some block) : (block.header.number : ℤ) = n := by
  cases n with
  | ofNat n =>
    obtain ⟨hash, -, hblock⟩ := Option.bind_eq_some_iff.1 h
    obtain ⟨header, hheader, rfl⟩ := Option.map_eq_some_iff.1 hblock
    exact congrArg _ (hi.stored.key _ _ _ hheader).1
  | negSucc n => exact absurd h nofun

/-! ### The blocks that are returned -/

/-- The number at a distance from one, up or down. -/
def numberAt (reverse : Bool) (n : ℤ) (j : ℕ) : ℤ := if reverse then n - j else n + j

/-- The block at a distance from the start: the start itself, then the canonical ones.  Above the
block over the head of the canonical chain there is no way down to it. -/
def onWalk (db : Database H) (top : ℕ) (start : StoredBlock H) (reverse : Bool) (j : ℕ) :
    Option (StoredBlock H) :=
  if j = 0 then some start
  else if reverse = true ∧ top + 1 < start.header.number then none
  else db.canonicalBlock (numberAt reverse start.header.number j)

/-- How many canonical blocks lie ahead. -/
def ahead (top : ℕ) (start : StoredBlock H) (reverse : Bool) : ℕ :=
  if reverse then if top + 1 < start.header.number then 0 else start.header.number
  else top - start.header.number

private theorem onWalk_isSome_iff (hi : Indexed env s.db top) (start : StoredBlock H)
    (reverse : Bool)
    (j : ℕ) : (onWalk s.db top start reverse j).isSome ↔ j ≤ ahead top start reverse := by
  rw [onWalk, ahead]
  by_cases hj : j = 0
  · rw [if_pos hj, hj]
    exact iff_of_true rfl (Nat.zero_le _)
  · rw [if_neg hj]
    cases reverse with
    | true =>
      simp only [true_and, if_true]
      split
      · exact iff_of_false Bool.false_ne_true (by omega)
      · rw [canonicalBlock_isSome_iff hi, numberAt, if_pos rfl]
        omega
    | false =>
      simp only [Bool.false_eq_true, false_and, if_false]
      rw [canonicalBlock_isSome_iff hi, numberAt, if_neg Bool.false_ne_true]
      omega

/-- The block after one on the walk is looked up by the number after its own. -/
private theorem nextNumber_onWalk (hi : Indexed env s.db top) {start block : StoredBlock H}
    {reverse : Bool}
    {j : ℕ} (h : onWalk s.db top start reverse j = some block) :
    nextNumber reverse block.header.number = numberAt reverse start.header.number (j + 1) := by
  have hnumber : (block.header.number : ℤ) = numberAt reverse start.header.number j := by
    rw [onWalk] at h
    split at h
    · rename_i hj
      rw [← Option.some.inj h, hj, numberAt]
      cases reverse with
      | true => exact (Int.sub_zero _).symm
      | false => exact (Int.add_zero _).symm
    · split at h
      · cases h
      · exact number_of_canonicalBlock hi h
  rw [hnumber, nextNumber, numberAt, numberAt]
  split
  · push_cast
    ring
  · push_cast
    ring

/-- One number further the lookup finds the next block of the walk, or none. -/
private theorem blockById_nextNumber (hi : Indexed env s.db top) {id : BlockId H}
    {start block : StoredBlock H}
    (hstart : s.db.blockById id = some start) {reverse : Bool} {j : ℕ}
    (h : onWalk s.db top start reverse j = some block) :
    s.db.blockById (.number (nextNumber reverse block.header.number)) =
      onWalk s.db top start reverse (j + 1) := by
  have hbound : block.header.number + 1 < 2 ^ 64 := by
    rw [onWalk] at h
    split at h
    · exact Option.some.inj h ▸ number_of_blockById hi hstart
    · split at h
      · cases h
      · have hnumber := number_of_canonicalBlock hi h
        have hle := ((canonicalBlock_isSome_iff hi _).1 (by rw [h]; rfl)).2
        have htop := hi.top_lt
        omega
  rw [blockById_number hi, nextNumber_onWalk hi h, onWalk, if_neg (Nat.succ_ne_zero j)]
  · split
    · -- from above there is a gap right below the start
      rename_i habove
      have hj : j = 0 := by
        by_contra hj
        rw [onWalk, if_neg hj, if_pos habove] at h
        cases h
      rw [← Option.not_isSome_iff_eq_none, canonicalBlock_isSome_iff hi, numberAt,
        if_pos habove.1, hj]
      omega
    · rfl
  · rw [nextNumber]
    split
    · omega
    · omega
  · rw [nextNumber]
    split
    · omega
    · omega

/-- The lookups of a walk find its blocks, and behind the last one none. -/
private theorem blockById_walkIds (hi : Indexed env s.db top) {id : BlockId H}
    {start : StoredBlock H}
    (hstart : s.db.blockById id = some start) (reverse : Bool) {j : ℕ}
    (hj : j ≤ ahead top start reverse + 1) :
    s.db.blockById (walkIds id reverse (fun j => (onWalk s.db top start reverse j).getD start) j) =
      onWalk s.db top start reverse j := by
  cases j with
  | zero => exact hstart
  | succ j =>
    obtain ⟨block, hblock⟩ := Option.isSome_iff_exists.1
      ((onWalk_isSome_iff hi start reverse j).2 (by omega))
    rw [walkIds, hblock, ← blockById_nextNumber hi hstart hblock]
    rfl

/-- **The blocks of a walk on an indexed chain**: the start and every `skip + 1`-th block from it
on, as many as were asked for and lie ahead; a block whose body is missing makes the walk throw. -/
theorem getBlocks_canonical (hi : Indexed env s.db top) (id : BlockId H) {maxBlocks : ℕ}
    (hmax : 1 ≤ maxBlocks) (skip : ℕ) (reverse : Bool) {fuel : ℕ}
    (hfuel : (maxBlocks - 1) * (skip + 1) + 2 ≤ fuel) :
    match s.db.blockById id with
    | none => (getBlocks env fuel id maxBlocks skip reverse).run s = (.ok [], s)
    | some start =>
      ((∃ j ≤ (maxBlocks - 1) * (skip + 1), ∃ block,
          onWalk s.db top start reverse j = some block ∧ block.isWhole env = false) →
        (getBlocks env fuel id maxBlocks skip reverse).run s = (.error .missingBody, s)) ∧
      ((∀ j ≤ (maxBlocks - 1) * (skip + 1), ∀ block,
          onWalk s.db top start reverse j = some block → block.isWhole env = true) →
        ∃ blocks, (getBlocks env fuel id maxBlocks skip reverse).run s = (.ok blocks, s) ∧
          ∀ k, blocks[k]? =
            if k < maxBlocks then onWalk s.db top start reverse (k * (skip + 1)) else none) := by
  cases hstart : s.db.blockById id with
  | none =>
    obtain ⟨fuel, rfl⟩ : ∃ fuel', fuel = fuel' + 1 := ⟨fuel - 1, by omega⟩
    have hfind := @run_findBlock H env s top hi id
    rw [hstart] at hfind
    exact Prog.run_bind_of_ok hfind
  | some start =>
    have hfind : ∀ j ≤ ahead top start reverse + 1, (findBlock env (walkIds id reverse
        (fun j => (onWalk s.db top start reverse j).getD start) j)).run s =
        (match onWalk s.db top start reverse j with
          | none => .ok none
          | some block => if block.isWhole env then .ok (some block) else .error .missingBody,
          s) := by
      intro j hj
      rw [run_findBlock hi, blockById_walkIds hi hstart reverse hj]
    have hvisit : ∀ j ≤ ahead top start reverse,
        (∀ block, onWalk s.db top start reverse j = some block → block.isWhole env = true) →
        (findBlock env (walkIds id reverse
          (fun j => (onWalk s.db top start reverse j).getD start) j)).run s =
          (.ok (some ((onWalk s.db top start reverse j).getD start)), s) := by
      intro j hj hwhole
      obtain ⟨block, hblock⟩ := Option.isSome_iff_exists.1
        ((onWalk_isSome_iff hi start reverse j).2 hj)
      rw [hfind j (by omega), hblock]
      simp only [hwhole block hblock, if_true, Option.getD_some]
    refine ⟨fun hhole => ?_, fun hwhole => ?_⟩
    · -- the walk throws at the first block without a body
      classical
      obtain ⟨hle, block, hblock, hmissing⟩ := Nat.find_spec hhole
      have hahead := (onWalk_isSome_iff hi start reverse _).1 (by rw [hblock]; rfl)
      refine @getBlocks_spec H env s maxBlocks skip reverse _ id _ (.error .missingBody) hmax
        (fun j hj => hvisit j (by omega) fun block hblock => ?_) (Or.inl ⟨hle, ?_⟩) fuel (by omega)
      · by_contra hnot
        exact Nat.find_min hhole hj ⟨by omega, block, hblock, Bool.not_eq_true _ ▸ hnot⟩
      · rw [hfind _ (by omega), hblock]
        simp only [hmissing, Bool.false_eq_true, if_false]
        rfl
    · obtain ⟨e, he, hstop⟩ : ∃ e, e = min ((maxBlocks - 1) * (skip + 1))
        (ahead top start reverse) + 1 ∧
          (e ≤ (maxBlocks - 1) * (skip + 1) ∧ (findBlock env (walkIds id reverse
              (fun j => (onWalk s.db top start reverse j).getD start) e)).run s = (.ok none, s) ∨
            e = (maxBlocks - 1) * (skip + 1) + 1) := by
        refine ⟨_, rfl, ?_⟩
        obtain hlt | hge := lt_or_ge (ahead top start reverse) ((maxBlocks - 1) * (skip + 1))
        · have hnone : onWalk s.db top start reverse (ahead top start reverse + 1) = none := by
            rw [← Option.not_isSome_iff_eq_none, onWalk_isSome_iff hi]
            omega
          rw [Nat.min_eq_right hlt.le, hfind _ le_rfl, hnone]
          exact Or.inl ⟨hlt, rfl⟩
        · rw [Nat.min_eq_left hge]
          exact Or.inr rfl
      refine ⟨kept (fun j => (onWalk s.db top start reverse j).getD start) skip e, ?_, fun k => ?_⟩
      · exact @getBlocks_spec H env s maxBlocks skip reverse _ id e (.ok ()) hmax
          (fun j hj => hvisit j (by omega) (hwhole j (by omega)))
          (hstop.imp (fun h => h) fun h => ⟨h, rfl⟩) fuel (by omega)
      · have hcount : k < (e + skip) / (skip + 1) ↔
            k < maxBlocks ∧ k * (skip + 1) ≤ ahead top start reverse := by
          rw [Nat.lt_iff_add_one_le, Nat.le_div_iff_mul_le (show 0 < skip + 1 by omega)]
          have hk : k < maxBlocks ↔ k * (skip + 1) ≤ (maxBlocks - 1) * (skip + 1) := by
            rw [Nat.mul_le_mul_right_iff (Nat.succ_pos skip)]
            omega
          have hmul : (k + 1) * (skip + 1) = k * (skip + 1) + (skip + 1) := by ring
          rw [hk]
          omega
        rw [kept, List.getElem?_map]
        by_cases hk : k < maxBlocks ∧ k * (skip + 1) ≤ ahead top start reverse
        · obtain ⟨block, hblock⟩ := Option.isSome_iff_exists.1
            ((onWalk_isSome_iff hi start reverse _).2 hk.2)
          rw [List.getElem?_range (hcount.2 hk), if_pos hk.1, hblock]
          simp only [Option.map_some, hblock, Option.getD_some]
        · rw [List.getElem?_eq_none (by rw [List.length_range]; exact not_lt.1 (mt hcount.1 hk))]
          split
          · rename_i hlt
            have hnone : onWalk s.db top start reverse (k * (skip + 1)) = none := by
              rw [← Option.not_isSome_iff_eq_none, onWalk_isSome_iff hi]
              exact fun hle => hk ⟨hlt, hle⟩
            rw [hnone]
            rfl
          · rfl

end Indexed

/-- The two blocks of a chain, and its end. -/
theorem getBlocks_sampleChain : ∃ top blocks,
    (getBlocks sampleEnv 4 (.number 0) 3 0 false).run sampleChain = (.ok blocks, sampleChain) ∧
      ∀ k, blocks[k]? = if k < 3 then
        onWalk sampleChain.db top ⟨sampleEnv.genesis, some []⟩ false (k * (0 + 1)) else none := by
  obtain ⟨⟨⟨top, hanchored⟩, -⟩, -⟩ := run_sampleChain.coherent (injOn_sampleHash _) (.inl rfl)
  have hblocks := getBlocks_canonical hanchored.indexed (.number 0) (show 1 ≤ 3 by decide) 0 false
    (show (3 - 1) * (0 + 1) + 2 ≤ 4 by decide)
  have hstart : sampleChain.db.blockById (.number 0) = some ⟨sampleEnv.genesis, some []⟩ := by
    decide
  rw [hstart] at hblocks
  exact ⟨top, hblocks.2 fun _ _ block _ => Bool.or_true _⟩

/-- Two more blocks. -/
def upperBlocks : List (Header (List ℕ) × Bytes) :=
  [(⟨2, sampleHash sampleBlock, 0, 20, []⟩, []),
    (⟨3, sampleHash ⟨2, sampleHash sampleBlock, 0, 20, []⟩, 0, 30, []⟩, [])]

/-- The chain whose head was taken back below them. -/
def shortenedChain : Blockchain (List ℕ) :=
  (((Call.resetCanonicalHead 1).run sampleEnv 5).run
    (((Call.putBlocks upperBlocks).run sampleEnv 5).run sampleChain).2).2

/-- Bodies have to be there. -/
def bodyEnv : Env (List ℕ) :=
  { sampleEnv with isGenesis := sampleEnv_isGenesis, hasEmptyBody := fun _ => false }

/-- **Two walks that miss canonical blocks**: one down from two blocks above the head returns the
start alone, though there is a canonical block at the distance; and one up to a header without its
body throws. -/
theorem getBlocks_fromAbove :
    (Coherent sampleEnv shortenedChain ∧
      ((getBlocks sampleEnv 9 (.hash (sampleHash (upperBlocks.get ⟨1, by decide⟩).1)) 2 1 true).run
        shortenedChain).1 = .ok [⟨(upperBlocks.get ⟨1, by decide⟩).1, some []⟩] ∧
      shortenedChain.db.canonicalBlock (3 - 2) = some ⟨sampleBlock, some []⟩) ∧
    Run bodyEnv (Call.Safe bodyEnv) (createBlockchain bodyEnv [])
      (((Call.putHeader sampleBlock).run bodyEnv 5).run (createBlockchain bodyEnv [])).2 ∧
    ((getBlocks bodyEnv 9 (.number 0) 2 0 false).run
      (((Call.putHeader sampleBlock).run bodyEnv 5).run (createBlockchain bodyEnv [])).2).1 =
        .error .missingBody := by
  have hupper : Run sampleEnv (Call.SafeIn sampleEnv Set.univ) (createBlockchain sampleEnv [])
      (((Call.putBlocks upperBlocks).run sampleEnv 5).run sampleChain).2 :=
    .call 5 (.putBlocks upperBlocks)
      (.call 5 (.putBlock sampleBlock []) .start ⟨⟨by decide, nofun⟩, fun _ _ => trivial⟩
        (Prod.ext (by rfl) rfl))
      ⟨⟨⟨by decide, nofun⟩, fun _ _ _ => ⟨⟨by decide, nofun⟩, fun _ _ _ => trivial⟩⟩,
        fun _ _ => trivial⟩
      (Prod.ext (by rfl) rfl)
  refine ⟨⟨?_, by rfl, by rfl⟩, ?_, by rfl⟩
  · have hrun : Run sampleEnv (Call.SafeIn sampleEnv Set.univ) (createBlockchain sampleEnv [])
        shortenedChain :=
      .call 5 (.resetCanonicalHead 1) hupper ⟨trivial, nofun⟩ (Prod.ext (by rfl) rfl)
    exact (hrun.coherent (injOn_sampleHash Set.univ) trivial).1
  · exact .call 5 (.putHeader sampleBlock) .start ⟨by decide, nofun⟩ (Prod.ext (by rfl) rfl)

end Blockchain

end Tvmjs
