import Tvmjs.Blockchain.Store

/-!
# The tables of the chain and their indexes

Headers are stored under their number and hash, with an index by hash over all of them and an index
by number over the canonical ones.  What is stored fits together when the index by number is a chain
of stored headers that starts at genesis.

* `Stored`, `Link`, `Indexed` -- how the tables fit together;
* `Indexed.prune`, `Indexed.graft`, `Indexed.storeAside`, `Indexed.delete` -- the changes that keep
  them so.
-/

namespace Tvmjs

namespace Blockchain

variable {H : Type}

theorem asUintN64_natCast {n : ℕ} (h : n < 2 ^ 64) : asUintN64 n = n := by
  unfold asUintN64
  omega

/-! ### What is stored -/

/-- Under a number and a hash, a header with that number and that hash is stored. -/
def Held (env : Env H) (db : Database H) (n : ℕ) (h : H) : Prop :=
  ∃ header, db.header n h = some header ∧ header.number = n ∧ env.hash header = h

/-- The header stored under `h` at the height `n + 1` stands on `p`. -/
def Link (env : Env H) (db : Database H) (n : ℕ) (p h : H) : Prop :=
  ∃ header, db.header (n + 1) h = some header ∧ header.number = n + 1 ∧ env.hash header = h ∧
    header.parentHash = p

/-- The headers are stored under their own numbers and hashes, the genesis header is the only one
with number zero, and the index by hash knows exactly the stored headers. -/
structure Stored (env : Env H) (db : Database H) : Prop where
  key : ∀ n h header, db.header n h = some header →
    header.number = n ∧ env.hash header = h ∧ n + 1 < 2 ^ 64
  genesis : ∀ h header, db.header 0 h = some header → h = env.hash env.genesis
  hashToNumber_iff : ∀ h n, db.hashToNumber h = some n ↔ (db.header n h).isSome

theorem Link.held {env : Env H} {db : Database H} {n : ℕ} {p h : H} (hl : Link env db n p h) :
    Held env db (n + 1) h := by
  obtain ⟨header, hheader, hnumber, hhash, -⟩ := hl
  exact ⟨header, hheader, hnumber, hhash⟩

/-- Headers that stay stored stay linked. -/
theorem Link.mono {env : Env H} {db db' : Database H} {n : ℕ} {p h : H} (hl : Link env db n p h)
    (hsub : ∀ header, db.header (n + 1) h = some header → db'.header (n + 1) h = some header) :
    Link env db' n p h := by
  obtain ⟨header, hheader, hrest⟩ := hl
  exact ⟨header, hsub header hheader, hrest⟩

/-- Under the hash of a header no other header is stored. -/
def NoCollision (env : Env H) (db : Database H) (header : Header H) : Prop :=
  ∀ n stored, db.header n (env.hash header) = some stored → stored = header

/-- A hash on the canonical chain. -/
def OnChain (db : Database H) (h : H) : Prop := ∃ n, db.numberToHash n = some h

/-- The indexes of the database fit the stored headers: `Stored`, and the index by number is a chain
of stored headers from genesis up to `top`. -/
structure Indexed (env : Env H) (db : Database H) (top : ℕ) : Prop where
  stored : Stored env db
  chain : IsChain (Link env db) db.numberToHash (env.hash env.genesis) top
  genesis : Held env db 0 (env.hash env.genesis)

namespace Indexed

variable {env : Env H} {db : Database H} {top : ℕ}

theorem held (hi : Indexed env db top) {n : ℕ} {h : H} (hn : db.numberToHash n = some h) :
    Held env db n h := by
  rcases n with _ | n
  · rw [hi.chain.root] at hn
    rw [← Option.some.inj hn]
    exact hi.genesis
  · have hle := hi.chain.le_top hn
    obtain ⟨p, hp⟩ := hi.chain.exists_of_le (n := n) (by omega)
    exact (hi.chain.linked n p h hp hn).held

theorem top_lt (hi : Indexed env db top) : top + 1 < 2 ^ 64 := by
  obtain ⟨h, hh⟩ := hi.chain.exists_of_le (Nat.le_refl top)
  obtain ⟨header, hheader, -⟩ := hi.held hh
  exact (hi.stored.key _ _ _ hheader).2.2

/-- The number of a canonical header is found by its hash. -/
theorem hashToNumber_eq (hi : Indexed env db top) {n : ℕ} {h : H}
    (hn : db.numberToHash n = some h) : db.hashToNumber h = some n := by
  obtain ⟨header, hheader, -⟩ := hi.held hn
  rw [hi.stored.hashToNumber_iff, hheader]
  rfl

/-- A hash is canonical at one number only. -/
theorem number_inj (hi : Indexed env db top) {n m : ℕ} {h : H}
    (hn : db.numberToHash n = some h) (hm : db.numberToHash m = some h) : n = m :=
  Option.some.inj ((hi.hashToNumber_eq hn).symm.trans (hi.hashToNumber_eq hm))

end Indexed

section Tables

variable {env : Env H} {db db' : Database H} {top : ℕ}

theorem Stored.congr (hstored : Stored env db) (hheader : db'.header = db.header)
    (hhash : db'.hashToNumber = db.hashToNumber) : Stored env db' := by
  obtain ⟨hkey, hgenesis, hiff⟩ := hstored
  constructor
  · rwa [hheader]
  · rwa [hheader]
  · rwa [hheader, hhash]

private theorem chain_congr {c : ℕ → Option H} {root : H} (hc : IsChain (Link env db) c root top)
    (hheader : db'.header = db.header) : IsChain (Link env db') c root top :=
  hc.mono fun _ _ _ _ _ hl => hl.mono fun _ hh => hheader ▸ hh

theorem Held.congr {n : ℕ} {h : H} (hheld : Held env db n h) (hheader : db'.header = db.header) :
    Held env db' n h := by
  obtain ⟨header, hh, hrest⟩ := hheld
  exact ⟨header, hheader ▸ hh, hrest⟩

/-- Another database with the same headers and indexes is indexed alike. -/
theorem Indexed.congr (hi : Indexed env db top) (hheader : db'.header = db.header)
    (hhash : db'.hashToNumber = db.hashToNumber) (hnumber : db'.numberToHash = db.numberToHash) :
    Indexed env db' top := by
  refine ⟨hi.stored.congr hheader hhash, ?_, hi.genesis.congr hheader⟩
  rw [hnumber]
  exact chain_congr hi.chain hheader

/-- The part of the index up to a canonical number. -/
theorem Indexed.prune (hi : Indexed env db top) {n : ℕ} (hn : n ≤ top)
    (hheader : db'.header = db.header) (hhash : db'.hashToNumber = db.hashToNumber)
    (hnumber : db'.numberToHash = Tvmjs.prune db.numberToHash n) : Indexed env db' n := by
  refine ⟨hi.stored.congr hheader hhash, ?_, hi.genesis.congr hheader⟩
  rw [hnumber]
  exact chain_congr (hi.chain.prune hn) hheader

end Tables

/-- What forgetting leaves of a chain. -/
theorem forget_eq_prune {Link : ℕ → H → H → Prop} {c : ℕ → Option H} {root : H} {top : ℕ}
    (hc : IsChain Link c root top) (n : ℕ) :
    (fun k => if n + 1 ≤ k ∧ k ≤ top then none else c k) = prune c n := by
  funext k
  unfold prune
  by_cases hk : k ≤ n
  · rw [if_neg (by omega), if_pos hk]
  · rw [if_neg hk]
    split
    · rfl
    · exact hc.eq_none_of_lt (by omega)

variable [DecidableEq H]

/-! ### Batches -/

namespace Database

variable {db : Database H}

private theorem batch_nil : db.batch [] = db := rfl

theorem batch_cons (op : DBOp H) (ops : List (DBOp H)) :
    db.batch (op :: ops) = (db.apply op).batch ops := rfl

theorem batch_append (ops ops' : List (DBOp H)) :
    db.batch (ops ++ ops') = (db.batch ops).batch ops' := List.foldl_append

/-- The tables after an item was stored with its total difficulty. -/
def storeItem (db : Database H) (hash : H) (item : Item H) (td : ℕ) : Database H :=
  db.batch (.setTotalDifficulty item.getHeader.number hash td :: setBlockOrHeader hash item)

variable (hash : H) (item : Item H) (td : ℕ)

@[simp] theorem storeItem_numberToHash :
    (db.storeItem hash item td).numberToHash = db.numberToHash := by
  rcases item with header | ⟨header, body⟩ <;> rfl

@[simp] theorem storeItem_hashToNumber :
    (db.storeItem hash item td).hashToNumber = db.hashToNumber := by
  rcases item with header | ⟨header, body⟩ <;> rfl

theorem storeItem_header (hn : item.getHeader.number < 2 ^ 64) (n : ℕ) (h : H) :
    (db.storeItem hash item td).header n h =
      if n = item.getHeader.number ∧ h = hash then some item.getHeader else db.header n h := by
  have hkey : n = asUintN64 item.getHeader.number ∧ h = hash ↔
      n = item.getHeader.number ∧ h = hash := by
    rw [asUintN64_natCast hn]
  rcases item with header | ⟨header, body⟩ <;> exact if_congr hkey rfl rfl

/-- Writing the numbers of a path into the index by hash. -/
def indexByHash : List (H × ℕ) → (H → Option ℕ) → H → Option ℕ
  | [], t => t
  | (x, n) :: path, t => indexByHash path (Function.update t x (some n))

/-- An index that has the numbers of the path, and agrees outside it, is the one written. -/
private theorem indexByHash_eq {path : List (H × ℕ)} {t t' : H → Option ℕ}
    (hpath : ∀ l ∈ path, t' l.1 = some l.2) (hout : ∀ h, (∀ l ∈ path, l.1 ≠ h) → t h = t' h) :
    indexByHash path t = t' := by
  induction path generalizing t with
  | nil => exact funext fun h => hout h nofun
  | cons l path ih =>
    rw [indexByHash]
    refine ih (fun l' hl' => hpath l' (List.mem_cons_of_mem _ hl')) fun h hh => ?_
    by_cases hl : h = l.1
    · rw [hl, Function.update_self, hpath l (List.mem_cons_self ..)]
    · rw [Function.update_of_ne hl]
      refine hout h fun l' hl' => ?_
      rcases List.mem_cons.1 hl' with rfl | hl'
      · exact fun heq => hl heq.symm
      · exact hh l' hl'

/-- The lookups of a path are written into the two indexes. -/
theorem batch_saveLookups {path : List (H × ℕ)} (hpath : ∀ l ∈ path, l.2 < 2 ^ 64) :
    db.batch (path.flatMap fun l => saveLookups l.1 l.2) =
      { db with
        numberToHash := overlay path db.numberToHash
        hashToNumber := indexByHash path db.hashToNumber } := by
  induction path generalizing db with
  | nil => rfl
  | cons l path ih =>
    have hkey := asUintN64_natCast (hpath l (List.mem_cons_self ..))
    rw [List.flatMap_cons, batch_append, ih fun l' hl' => hpath l' (List.mem_cons_of_mem _ hl')]
    simp only [saveLookups, batch_cons, batch_nil, apply, hkey]
    rfl

end Database

/-! ### Changes of the tables -/

section Store

variable {env : Env H} {db : Database H} {item : Item H}
  (hfree : NoCollision env db item.getHeader) (td : ℕ)

include hfree in
/-- An item that is put has its own key, so the headers that were stored are stored still. -/
theorem NoCollision.storeItem_header (hn : item.getHeader.number < 2 ^ 64) (td : ℕ) {n : ℕ} {h : H}
    {header : Header H} (hheader : db.header n h = some header) :
    (db.storeItem (env.hash item.getHeader) item td).header n h = some header := by
  rw [Database.storeItem_header _ _ _ hn]
  split
  · obtain ⟨rfl, rfl⟩ := ‹_ ∧ _›
    rw [hfree _ _ hheader]
  · exact hheader

/-- A stored item keeps headers under their keys. -/
private theorem Stored.storeItem_key (hstored : Stored env db)
    (hbound : item.getHeader.number + 1 < 2 ^ 64)
    (n : ℕ) (h : H) (header : Header H)
    (hheader : (db.storeItem (env.hash item.getHeader) item td).header n h = some header) :
    header.number = n ∧ env.hash header = h ∧ n + 1 < 2 ^ 64 := by
  rw [Database.storeItem_header _ _ _ (by omega)] at hheader
  split at hheader
  · obtain ⟨rfl, rfl⟩ := ‹_ ∧ _›
    cases hheader
    exact ⟨rfl, rfl, hbound⟩
  · exact hstored.key n h header hheader

include hfree in
/-- Links stay when an item is stored. -/
private theorem Indexed.storeItem_chain {top : ℕ} (hi : Indexed env db top)
    (hbound : item.getHeader.number + 1 < 2 ^ 64) :
    IsChain (Link env (db.storeItem (env.hash item.getHeader) item td)) db.numberToHash
      (env.hash env.genesis) top :=
  hi.chain.mono fun _ _ _ _ _ hl => hl.mono fun _ =>
    hfree.storeItem_header (by omega) td

include hfree in
private theorem Indexed.storeItem_genesis {top : ℕ} (hi : Indexed env db top)
    (hbound : item.getHeader.number + 1 < 2 ^ 64) :
    Held env (db.storeItem (env.hash item.getHeader) item td) 0 (env.hash env.genesis) := by
  obtain ⟨header, hheader, hrest⟩ := hi.genesis
  exact ⟨header, hfree.storeItem_header (by omega) td hheader, hrest⟩

include hfree in
/-- An index by hash that knows the new item beside what it knew fits the stored headers. -/
theorem Stored.storeItem (hstored : Stored env db) (hzero : item.getHeader.number ≠ 0)
    (hbound : item.getHeader.number + 1 < 2 ^ 64) {db' : Database H}
    (hheader : db'.header = (db.storeItem (env.hash item.getHeader) item td).header)
    (hhash : db'.hashToNumber = Function.update db.hashToNumber (env.hash item.getHeader)
      (some item.getHeader.number)) : Stored env db' := by
  constructor
  · rw [hheader]
    exact hstored.storeItem_key td hbound
  · intro h header hh
    rw [hheader, Database.storeItem_header _ _ _ (by omega), if_neg (by omega)] at hh
    exact hstored.genesis h header hh
  · intro h n
    rw [hheader, hhash, Database.storeItem_header _ _ _ (by omega)]
    by_cases hh : h = env.hash item.getHeader
    · rw [hh, Function.update_self, Option.some.injEq, eq_comm]
      by_cases hn : n = item.getHeader.number
      · simp [hn]
      · -- under another number the hash is not stored
        rw [if_neg fun hc => hn hc.1]
        refine iff_of_false hn fun hsome => ?_
        obtain ⟨header, hold⟩ := Option.isSome_iff_exists.1 hsome
        obtain ⟨hnumber, -⟩ := hstored.key _ _ _ hold
        exact hn (by rw [← hnumber, hfree _ _ hold])
    · rw [Function.update_of_ne hh, hstored.hashToNumber_iff, if_neg fun hc => hh hc.2]

include hfree in
/-- Storing an item aside leaves the canonical chain as it is. -/
theorem Indexed.storeAside {top : ℕ} (hi : Indexed env db top) (hzero : item.getHeader.number ≠ 0)
    (hbound : item.getHeader.number + 1 < 2 ^ 64) :
    let db' := (db.storeItem (env.hash item.getHeader) item td).apply
      (.setHashToNumber (env.hash item.getHeader) item.getHeader.number)
    db'.numberToHash = db.numberToHash ∧ Indexed env db' top := by
  have hnumber : ((db.storeItem (env.hash item.getHeader) item td).apply
      (.setHashToNumber (env.hash item.getHeader) item.getHeader.number)).numberToHash =
        db.numberToHash := by
    rw [Database.apply, Database.storeItem_numberToHash]
  refine ⟨hnumber, hi.stored.storeItem hfree td hzero hbound rfl ?_, ?_,
    (hi.storeItem_genesis hfree td hbound).congr rfl⟩
  · rw [Database.apply, Database.storeItem_hashToNumber, asUintN64_natCast (by omega)]
  · rw [hnumber]
    exact chain_congr (hi.storeItem_chain hfree td hbound) rfl

include hfree in
/-- Writing the path of a new head makes the index by hash know it. -/
private theorem Indexed.lookups_hashToNumber {top fork : ℕ} {path : List (H × ℕ)}
    (hi : Indexed env db top) (hbound : item.getHeader.number + 1 < 2 ^ 64)
    (hdesc : Descends (Link env (db.storeItem (env.hash item.getHeader) item td)) db.numberToHash
      fork item.getHeader.number (env.hash item.getHeader) path) :
    Database.indexByHash path db.hashToNumber =
      Function.update db.hashToNumber (env.hash item.getHeader) (some item.getHeader.number) := by
  refine Database.indexByHash_eq (fun l hl => ?_) fun h hh => ?_
  · -- what is on the path is the new item or was stored before
    obtain ⟨-, m, p, -, hm, header, hheader, hnumber, hhash, -⟩ := hdesc.exists_link hl
    rw [← hm] at hheader hnumber
    rw [Database.storeItem_header _ _ _ (by omega)] at hheader
    split at hheader
    · obtain ⟨hn, hl'⟩ := ‹_ ∧ _›
      rw [hl', Function.update_self, hn]
    · by_cases hne : l.1 = env.hash item.getHeader
      · rw [hne] at hheader
        rw [hne, Function.update_self, ← hnumber, hfree _ _ hheader]
      · rw [Function.update_of_ne hne, hi.stored.hashToNumber_iff, hheader]
        rfl
  · by_cases hne : h = env.hash item.getHeader
    · rcases hdesc.mem_or_eq with hmem | hcanonical
      · exact absurd hne.symm (hh _ hmem)
      · rw [hne, Function.update_self, hi.hashToNumber_eq hcanonical]
    · rw [Function.update_of_ne hne]

include hfree in
/-- The graft of a new head. -/
theorem Indexed.graft {top fork : ℕ} {common : H} {path : List (H × ℕ)}
    (hi : Indexed env db top) (hzero : item.getHeader.number ≠ 0)
    (hbound : item.getHeader.number + 1 < 2 ^ 64) (hcommon : db.numberToHash fork = some common)
    (hdesc : Descends (Link env (db.storeItem (env.hash item.getHeader) item td)) db.numberToHash
      fork item.getHeader.number (env.hash item.getHeader) path) {db' : Database H}
    (hheader : db'.header = (db.storeItem (env.hash item.getHeader) item td).header)
    (hhash : db'.hashToNumber =
      Database.indexByHash path db.hashToNumber)
    (hnumber : db'.numberToHash =
      overlay path (Tvmjs.prune db.numberToHash item.getHeader.number)) :
    Indexed env db' item.getHeader.number ∧
      db'.numberToHash item.getHeader.number = some (env.hash item.getHeader) := by
  obtain ⟨hchain, htop⟩ := hdesc.isChain (hi.storeItem_chain hfree td hbound)
    (hi.chain.le_top hcommon)
  rw [hi.lookups_hashToNumber hfree td hbound hdesc] at hhash
  refine ⟨⟨hi.stored.storeItem hfree td hzero hbound hheader hhash, ?_,
    (hi.storeItem_genesis hfree td hbound).congr hheader⟩, ?_⟩
  · rw [hnumber]
    exact chain_congr hchain hheader
  · rw [hnumber]
    exact htop

/-- Deleting a header that is not canonical. -/
theorem Indexed.delete {top : ℕ} (hi : Indexed env db top) {hash : H} {n : ℕ} {header : Header H}
    (hheader : db.header n hash = some header) (hside : db.numberToHash n ≠ some hash)
    {db' : Database H}
    (hheaders : ∀ m h, db'.header m h = if m = n ∧ h = hash then none else db.header m h)
    (hhash : db'.hashToNumber = Function.update db.hashToNumber hash none)
    (hnumber : db'.numberToHash = db.numberToHash) : Indexed env db' top := by
  obtain ⟨hkey, hgenesis, hiff⟩ := hi.stored
  have hsub : ∀ m h header', db'.header m h = some header' → db.header m h = some header' := by
    intro m h header' hh
    rw [hheaders] at hh
    split at hh
    · cases hh
    · exact hh
  -- canonical headers are stored as before
  have hkeep : ∀ m h header', db.numberToHash m = some h → db.header m h = some header' →
      db'.header m h = some header' := by
    intro m h header' hm hh
    rw [hheaders, if_neg, hh]
    rintro ⟨rfl, rfl⟩
    exact hside hm
  refine ⟨⟨fun m h header' hh => hkey m h header' (hsub m h header' hh),
    fun h header' hh => hgenesis h header' (hsub 0 h header' hh), fun h m => ?_⟩, ?_, ?_⟩
  · rw [hhash, hheaders]
    by_cases hh : h = hash
    · rw [hh, Function.update_self]
      refine iff_of_false nofun fun hsome => ?_
      -- the hash is stored under its own number only
      by_cases hmn : m = n
      · rw [if_pos ⟨hmn, rfl⟩] at hsome
        cases hsome
      · rw [if_neg fun hc => hmn hc.1] at hsome
        have hm := (hiff hash m).2 hsome
        rw [(hiff hash n).2 (by rw [hheader]; rfl)] at hm
        exact hmn (Option.some.inj hm).symm
    · rw [Function.update_of_ne hh, hiff, if_neg fun hc => hh hc.2]
  · rw [hnumber]
    exact hi.chain.mono fun m p h _ hh hl => hl.mono fun header' => hkeep (m + 1) h header' hh
  · obtain ⟨header', hh, hrest⟩ := hi.genesis
    exact ⟨header', hkeep 0 _ header' hi.chain.root hh, hrest⟩

end Store

end Blockchain

end Tvmjs
