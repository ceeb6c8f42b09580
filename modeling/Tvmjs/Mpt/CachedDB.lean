import Tvmjs.Base.InsertionMap
import Tvmjs.Base.LayeredMap
import Tvmjs.Base.LruCache
import Tvmjs.Mpt.CheckpointDB
import Tvmjs.Util.Hex

/-!
# The checkpointed database with its read cache

The database as the code has it: keys are hex strings, values are stored in one of two encodings,
and what was read from disk is kept in a cache of bounded size.

* `CachedDB.Refines` -- the state shows, at every level, the maps of a layered map; the disk holds
  its base and the cache holds nothing else;
* `runOps_create` -- every run of operations by one writer is a run on the layered map;
* `runOps_plain` -- and a run on the database without cache and encodings.
-/

namespace Tvmjs

/-! ### The backing database -/

/-- How values are stored. -/
inductive ValueEncoding where
  | string
  | bytes
  | json
  deriving DecidableEq

/-- A stored value. -/
inductive DbValue where
  | string (s : HexString)
  | bytes (b : Bytes)
  deriving DecidableEq

/-- One operation of a batch as the backing database takes it. -/
inductive ConvertedOp where
  | put (key : HexString) (value : DbValue)
  | del (key : HexString)

/-- A database in memory. -/
abbrev MapDB := InsertionMap HexString DbValue

namespace MapDB

/-- Stores a value under a key. -/
def put (db : MapDB) (key : HexString) (val : DbValue) : MapDB := InsertionMap.set db key val

/-- Removes a key. -/
def del (db : MapDB) (key : HexString) : MapDB := InsertionMap.delete db key

/-- Writes one after the other. -/
def batch (db : MapDB) (opStack : List ConvertedOp) : MapDB :=
  opStack.foldl (fun db op =>
    match op with
    | .del key => del db key
    | .put key value => put db key value) db

end MapDB

/-! ### The database -/

/-- The options of a database. -/
structure CheckpointDBOpts where
  /-- The backing database. -/
  db : MapDB
  /-- How its values are encoded; strings by default. -/
  valueEncoding : Option ValueEncoding := none
  /-- The size of the read cache; no cache by default. -/
  cacheSize : Option ℕ := none

/-- A checkpoint: the root at its start and what was written or read since. -/
structure DiffLayer where
  /-- What was written or read since; a deleted key has no value. -/
  keyValueMap : InsertionMap HexString (Option Bytes)
  /-- Root of the trie at the moment of the checkpoint. -/
  root : Bytes

/-- A database with checkpoints, the newest first, and a read cache. -/
structure CachedDB (lru : LRUCache HexString Bytes) where
  /-- The open checkpoints, the newest first. -/
  checkpoints : List DiffLayer
  /-- The backing database. -/
  db : MapDB
  /-- The size of the read cache. -/
  cacheSize : ℕ
  /-- How values are encoded in the backing database. -/
  valueEncoding : ValueEncoding
  /-- The read cache, if there is one. -/
  cache : Option lru.Carrier

namespace CachedDB

variable (hex : NobleHex) {lru : LRUCache HexString Bytes}

/-- A new database. -/
def create (lru : LRUCache HexString Bytes) (opts : CheckpointDBOpts) : CachedDB lru :=
  let cacheSize := opts.cacheSize.getD 0
  { checkpoints := []
    db := opts.db
    cacheSize := cacheSize
    valueEncoding := opts.valueEncoding.getD .string
    cache := if 0 < cacheSize then some (lru.new cacheSize) else none }

/-- Whether a checkpoint is open. -/
def hasCheckpoints (d : CachedDB lru) : Bool := !d.checkpoints.isEmpty

/-- Adds a new checkpoint to the stack. -/
def checkpoint (root : Bytes) (d : CachedDB lru) : CachedDB lru :=
  { d with checkpoints := ⟨.empty, root⟩ :: d.checkpoints }

/-- Reverts the latest checkpoint and returns its root; without one the code throws. -/
def revert (d : CachedDB lru) : Option (Bytes × CachedDB lru) :=
  match d.checkpoints with
  | [] => none
  | c :: cs => some (c.root, { d with checkpoints := cs })

/-- What the topmost checkpoint that has the key says. -/
def diff : List DiffLayer → HexString → Option (Option Bytes)
  | [], _ => none
  | c :: cs, keyHex => (c.keyValueMap.get keyHex).or (diff cs keyHex)

/-- Look a key up in the read cache. -/
def readCache (d : CachedDB lru) (keyHex : HexString) : Option Bytes × CachedDB lru :=
  match d.cache with
  | none => (none, d)
  | some c => ((lru.get c keyHex).1, { d with cache := some (lru.get c keyHex).2 })

/-- A value found on disk, as bytes; a string that is not hex makes the read throw. -/
def returnValue : Option DbValue → Option (Option Bytes)
  | none => some none
  | some (.bytes value) => some (some value)
  | some (.string value) => (unprefixedHexToBytes hex value).map some

/-- Bring the cache in line with a value that was read or written. -/
def setCache (d : CachedDB lru) (keyHex : HexString) (value : Option Bytes) : CachedDB lru :=
  { d with cache := d.cache.map fun c =>
      match value with
      | some value => lru.set c keyHex value
      | none => lru.delete c keyHex }

/-- Note a value in the latest checkpoint. -/
def setDiff (d : CachedDB lru) (keyHex : HexString) (value : Option Bytes) : CachedDB lru :=
  match d.checkpoints with
  | [] => d
  | c :: cs =>
    { d with checkpoints := { c with keyValueMap := c.keyValueMap.set keyHex value } :: cs }

/-- Read a key: from the checkpoints, the cache or the disk. -/
def get (d : CachedDB lru) (key : Bytes) : Option (Option Bytes × CachedDB lru) :=
  let keyHex := bytesToUnprefixedHex hex key
  match diff d.checkpoints keyHex with
  | some value => some (value, d)
  | none =>
    match d.readCache keyHex with
    | (some value, d) => some (some value, d)
    | (none, d) => do
      let value ← returnValue hex (d.db.get keyHex)
      return (value, (d.setCache keyHex value).setDiff keyHex value)

/-- Write a value, in the latest checkpoint or on disk. -/
def put (d : CachedDB lru) (key value : Bytes) : CachedDB lru :=
  let keyHex := bytesToUnprefixedHex hex key
  if d.hasCheckpoints then d.setDiff keyHex (some value)
  else
    let valuePut :=
      if d.valueEncoding = .bytes then .bytes value else .string (bytesToUnprefixedHex hex value)
    { d with db := MapDB.put d.db keyHex valuePut }.setCache keyHex (some value)

/-- Delete a key, in the latest checkpoint or on disk. -/
def del (d : CachedDB lru) (key : Bytes) : CachedDB lru :=
  let keyHex := bytesToUnprefixedHex hex key
  if d.hasCheckpoints then d.setDiff keyHex none
  else { d with db := MapDB.del d.db keyHex }.setCache keyHex none

/-- An operation as the backing database takes it. -/
def convertedOp (enc : ValueEncoding) : BatchDBOp → ConvertedOp
  | .put key value => .put (bytesToUnprefixedHex hex key)
      (if enc = .string then .string (bytesToUnprefixedHex hex value) else .bytes value)
  | .del key => .del (bytesToUnprefixedHex hex key)

/-- Write directly to the backing database, then update the cache. -/
def writeBatch (d : CachedDB lru) (opStack : List BatchDBOp) : CachedDB lru :=
  opStack.foldl (fun d op => d.setCache (bytesToUnprefixedHex hex op.entry.1) op.entry.2)
    { d with db := MapDB.batch d.db (opStack.map (convertedOp hex d.valueEncoding)) }

/-- Perform operations, one by one during a checkpoint and else as one batch. -/
def batch (d : CachedDB lru) (opStack : List BatchDBOp) : CachedDB lru :=
  if d.hasCheckpoints then
    opStack.foldl (fun d op =>
      match op with
      | .put key value => d.put hex key value
      | .del key => d.del hex key) d
  else d.writeBatch hex opStack

/-- The operation that writes an entry of a checkpoint to disk. -/
def batchOp (e : HexString × Option Bytes) : Option BatchDBOp := do
  let key ← unprefixedHexToBytes hex e.1
  return match e.2 with
    | none => .del key
    | some value => .put key value

/-- Commit the latest checkpoint: the last one to disk, another one to the one below it. -/
def commit (d : CachedDB lru) : Option (CachedDB lru) :=
  match d.checkpoints with
  | [] => none
  | [c] => do
    let opStack ← c.keyValueMap.entries.mapM (batchOp hex)
    return { d.writeBatch hex opStack with checkpoints := [] }
  | c :: c' :: cs =>
    let keyValueMap := c.keyValueMap.entries.foldl (fun m e => m.set e.1 e.2) c'.keyValueMap
    some { d with checkpoints := { c' with keyValueMap } :: cs }

/-! ### What the disk and the cache hold -/

/-- How a value stands in the backing database. -/
inductive Encodes (enc : ValueEncoding) (value : Bytes) : DbValue → Prop
  | bytes : enc ≠ .string → Encodes enc value (.bytes value)
  | string : enc ≠ .bytes → Encodes enc value (.string (bytesToUnprefixedHex hex value))

/-- The backing database holds exactly a map. -/
structure Holds (enc : ValueEncoding) (db : MapDB) (m : Bytes → Option Bytes) : Prop where
  sound : ∀ k x, InsertionMap.get db k = some x →
    ∃ key value, k = bytesToUnprefixedHex hex key ∧ m key = some value ∧ Encodes hex enc value x
  complete : ∀ key value, m key = some value →
    ∃ x, InsertionMap.get db (bytesToUnprefixedHex hex key) = some x ∧ Encodes hex enc value x

/-- A cache holds values of a map only. -/
def CacheOf (cache : Option lru.Carrier) (m : Bytes → Option Bytes) : Prop :=
  ∀ c, cache = some c → ∀ key value,
    lru.peek c (bytesToUnprefixedHex hex key) = some value → m key = some value

variable {hex} {enc : ValueEncoding} {db : MapDB} {m : Bytes → Option Bytes}

/-- The empty database holds nothing. -/
private theorem holds_empty : Holds hex enc .empty fun _ => none :=
  ⟨fun k x h => (by cases h), fun key value h => (by cases h)⟩

section

variable (hhex : hex.Lawful)

include hhex

/-- A read of the disk gives the value of the map. -/
theorem Holds.returnValue (h : Holds hex enc db m) (key : Bytes) :
    returnValue hex (InsertionMap.get db (bytesToUnprefixedHex hex key)) = some (m key) := by
  cases hm : m key with
  | none =>
    cases hx : InsertionMap.get db (bytesToUnprefixedHex hex key) with
    | none => rfl
    | some x =>
      obtain ⟨key', value, hkey, hvalue, -⟩ := h.sound _ x hx
      rw [← bytesToUnprefixedHex_injective hhex hkey, hm] at hvalue
      cases hvalue
  | some value =>
    obtain ⟨x, hx, henc⟩ := h.complete key value hm
    rw [hx]
    cases henc with
    | bytes => rfl
    | string =>
      rw [CachedDB.returnValue, unprefixedHexToBytes_bytesToUnprefixedHex hhex, Option.map_some]

/-- A put is held. -/
theorem Holds.put (h : Holds hex enc db m) (key : Bytes) {value : Bytes} {x : DbValue}
    (hx : Encodes hex enc value x) :
    Holds hex enc (MapDB.put db (bytesToUnprefixedHex hex key) x)
      (Function.update m key (some value)) := by
  have hinj := bytesToUnprefixedHex_injective hhex
  constructor
  · intro k y hy
    rw [MapDB.put, InsertionMap.get_set] at hy
    by_cases hk : k = bytesToUnprefixedHex hex key
    · rw [if_pos hk, Option.some.injEq] at hy
      exact ⟨key, value, hk, Function.update_self .., hy ▸ hx⟩
    · rw [if_neg hk] at hy
      obtain ⟨key', value', rfl, hvalue, henc⟩ := h.sound k y hy
      refine ⟨key', value', rfl, ?_, henc⟩
      rwa [Function.update_of_ne fun hkey => hk (by rw [hkey])]
  · intro key' value' hm
    by_cases hkey : key' = key
    · rw [hkey, Function.update_self, Option.some.injEq] at hm
      exact ⟨x, by rw [hkey, MapDB.put, InsertionMap.get_set_self], hm ▸ hx⟩
    · rw [Function.update_of_ne hkey] at hm
      obtain ⟨y, hy, henc⟩ := h.complete key' value' hm
      refine ⟨y, ?_, henc⟩
      rwa [MapDB.put, InsertionMap.get_set_of_ne _ _ fun hk => hkey (hinj hk)]

/-- A deletion is held. -/
theorem Holds.del (h : Holds hex enc db m) (key : Bytes) :
    Holds hex enc (MapDB.del db (bytesToUnprefixedHex hex key)) (Function.update m key none) := by
  have hinj := bytesToUnprefixedHex_injective hhex
  constructor
  · intro k y hy
    rw [MapDB.del, InsertionMap.get_delete] at hy
    by_cases hk : k = bytesToUnprefixedHex hex key
    · rw [if_pos hk] at hy
      cases hy
    · rw [if_neg hk] at hy
      obtain ⟨key', value', rfl, hvalue, henc⟩ := h.sound k y hy
      refine ⟨key', value', rfl, ?_, henc⟩
      rwa [Function.update_of_ne fun hkey => hk (by rw [hkey])]
  · intro key' value' hm
    by_cases hkey : key' = key
    · rw [hkey, Function.update_self] at hm
      cases hm
    · rw [Function.update_of_ne hkey] at hm
      obtain ⟨y, hy, henc⟩ := h.complete key' value' hm
      refine ⟨y, ?_, henc⟩
      rwa [MapDB.del, InsertionMap.get_delete, if_neg fun hk => hkey (hinj hk)]

/-- A batch is held operation by operation. -/
theorem Holds.batch (opStack : List BatchDBOp) (h : Holds hex enc db m) :
    Holds hex enc (MapDB.batch db (opStack.map (convertedOp hex enc)))
      (opStack.foldl (fun m op => Function.update m op.entry.1 op.entry.2) m) := by
  induction opStack generalizing db m with
  | nil => exact h
  | cons op opStack ih =>
    refine ih ?_
    cases op with
    | del key => exact h.del hhex key
    | put key value =>
      refine h.put hhex key ?_
      split
      · rename_i henc
        exact .string (by rw [henc]; decide)
      · rename_i henc
        exact .bytes henc

variable (hlru : lru.Lawful)

include hlru

/-- The cache follows a write. -/
private theorem CacheOf.setCache {d : CachedDB lru} (h : CacheOf hex d.cache m) (key : Bytes)
    (value : Option Bytes) :
    CacheOf hex (d.setCache (bytesToUnprefixedHex hex key) value).cache
      (Function.update m key value) := by
  have hinj := bytesToUnprefixedHex_injective hhex
  intro c hc key' value' hpeek
  obtain ⟨c₀, hc₀, rfl⟩ := Option.map_eq_some_iff.1 hc
  cases value with
  | some value =>
    rcases hlru.peek_set_eq hpeek with ⟨hk, rfl⟩ | ⟨hk, hv⟩
    · rw [hinj hk, Function.update_self]
    · rw [Function.update_of_ne fun hkey => hk (by rw [hkey])]
      exact h c₀ hc₀ key' value' hv
  | none =>
    have hpeek' : lru.peek (lru.delete c₀ (bytesToUnprefixedHex hex key))
      (bytesToUnprefixedHex hex key') = some value' := hpeek
    rw [hlru.peek_delete] at hpeek'
    by_cases hkey : key' = key
    · rw [hkey, if_pos rfl] at hpeek'
      cases hpeek'
    · rw [if_neg fun hk => hkey (hinj hk)] at hpeek'
      rw [Function.update_of_ne hkey]
      exact h c₀ hc₀ key' value' hpeek'

omit hhex in
/-- Reading the cache keeps it, and what it answers is right. -/
private theorem CacheOf.readCache {d : CachedDB lru} (h : CacheOf hex d.cache m) (key : Bytes) :
    CacheOf hex (d.readCache (bytesToUnprefixedHex hex key)).2.cache m ∧
      ∀ value, (d.readCache (bytesToUnprefixedHex hex key)).1 = some value →
        m key = some value := by
  rw [CachedDB.readCache]
  cases hd : d.cache with
  | none => exact ⟨by rw [hd] at h; exact fun c hc => h c (hd ▸ hc), fun value hv => by cases hv⟩
  | some c =>
    constructor
    · intro c' hc' key' value' hpeek
      obtain rfl : (lru.get c _).2 = c' := Option.some.inj hc'
      rw [hlru.peek_get] at hpeek
      exact h c hd key' value' hpeek
    · intro value hv
      refine h c hd key value ?_
      rwa [← hlru.get_fst]

end

/-! ### The refinement -/

/-- The layers that the checkpoints are. -/
def layers (hex : NobleHex) (cs : List DiffLayer) : List (Bytes → Option (Option Bytes)) :=
  cs.map fun c key => c.keyValueMap.get (bytesToUnprefixedHex hex key)

/-- A database shows the maps of a layered map at all its levels; its disk holds the base and its
cache holds values of the base.  The checkpoints may repeat values that were read. -/
structure Refines (hex : NobleHex) (d : CachedDB lru) (s : LayeredMap Bytes Bytes) : Prop where
  same : LayeredMap.Same ⟨layers hex d.checkpoints, s.base⟩ s
  holds : Holds hex d.valueEncoding d.db s.base
  cached : CacheOf hex d.cache s.base
  hexKeys : ∀ c ∈ d.checkpoints, ∀ k ∈ c.keyValueMap.keys, ∃ key, k = bytesToUnprefixedHex hex key

/-- There are checkpoints where the stack is not empty. -/
private theorem hasCheckpoints_iff {d : CachedDB lru} :
    d.hasCheckpoints = true ↔ d.checkpoints ≠ [] := by
  rw [hasCheckpoints]
  cases d.checkpoints <;> simp

/-- The layers are searched from the innermost on. -/
private theorem diff_eq (cs : List DiffLayer) (key : Bytes) :
    diff cs (bytesToUnprefixedHex hex key) = LayeredMap.mention (layers hex cs) key := by
  induction cs with
  | nil => rfl
  | cons c cs ih =>
    rw [diff, ih]
    rfl

/-- Writing the innermost layer writes the innermost map. -/
private theorem layers_set (hhex : hex.Lawful) (c : DiffLayer) (cs : List DiffLayer) (key : Bytes)
    (value : Option Bytes) :
    layers hex ({ c with
        keyValueMap := c.keyValueMap.set (bytesToUnprefixedHex hex key) value } :: cs) =
      Function.update (fun key => c.keyValueMap.get (bytesToUnprefixedHex hex key)) key
        (some value) :: layers hex cs := by
  refine congrArg (· :: layers hex cs) (funext fun key' => ?_)
  change (c.keyValueMap.set (bytesToUnprefixedHex hex key) value).get
    (bytesToUnprefixedHex hex key') = _
  by_cases hkey : key' = key
  · rw [hkey, Function.update_self, InsertionMap.get_set_self]
  · rw [Function.update_of_ne hkey, InsertionMap.get_set_of_ne]
    exact fun hk => hkey (bytesToUnprefixedHex_injective hhex hk)

/-- The operation that writes an entry. -/
def entryOp (e : Bytes × Option Bytes) : BatchDBOp :=
  match e.2 with
  | none => .del e.1
  | some value => .put e.1 value

/-- An operation is its entry. -/
private theorem entry_entryOp (e : Bytes × Option Bytes) : (entryOp e).entry = e := by
  obtain ⟨key, value⟩ := e
  cases value <;> rfl

/-- The keys of a layer are hex forms. -/
private theorem exists_entries {m : InsertionMap HexString (Option Bytes)}
    (hm : ∀ k ∈ m.keys, ∃ key, k = bytesToUnprefixedHex hex key) :
    ∃ l : List (Bytes × Option Bytes),
      m.entries = l.map fun e => (bytesToUnprefixedHex hex e.1, e.2) := by
  rw [InsertionMap.keys] at hm
  generalize m.entries = entries at hm ⊢
  induction entries with
  | nil => exact ⟨[], rfl⟩
  | cons e l ih =>
    obtain ⟨key, hkey⟩ := hm e.1 List.mem_cons_self
    obtain ⟨l', rfl⟩ := ih fun k hk => hm k (List.mem_cons_of_mem _ hk)
    refine ⟨(key, e.2) :: l', ?_⟩
    rw [List.map_cons, ← hkey]

/-- A layer is read entry by entry. -/
private theorem get_eq_find?_map (hhex : hex.Lawful) {m : InsertionMap HexString (Option Bytes)}
    {l : List (Bytes × Option Bytes)}
    (hl : m.entries = l.map fun e => (bytesToUnprefixedHex hex e.1, e.2)) (key : Bytes) :
    m.get (bytesToUnprefixedHex hex key) = (l.find? fun e => e.1 = key).map Prod.snd := by
  rw [InsertionMap.get, hl, List.find?_map, Option.map_map]
  have hpred : ((fun e : HexString × Option Bytes => decide (e.1 = bytesToUnprefixedHex hex key)) ∘
      fun e : Bytes × Option Bytes => (bytesToUnprefixedHex hex e.1, e.2)) =
      fun e => decide (e.1 = key) := by
    funext e
    exact decide_eq_decide.2 (bytesToUnprefixedHex_injective hhex).eq_iff
  rw [hpred]
  rfl

/-- The operations of a commit are the entries of its layer. -/
private theorem mapM_batchOp (hhex : hex.Lawful) (l : List (Bytes × Option Bytes)) :
    (l.map fun e => (bytesToUnprefixedHex hex e.1, e.2)).mapM (batchOp hex) =
      some (l.map entryOp) := by
  induction l with
  | nil => rfl
  | cons e l ih =>
    have hop : batchOp hex (bytesToUnprefixedHex hex e.1, e.2) = some (entryOp e) := by
      rw [batchOp, unprefixedHexToBytes_bytesToUnprefixedHex hhex]
      rfl
    rw [List.map_cons, List.mapM_cons, hop, ih]
    rfl

/-- Writing a batch does not look at the checkpoints. -/
private theorem writeBatch_checkpoints (d : CachedDB lru) (opStack : List BatchDBOp)
    (cs : List DiffLayer) :
    { d.writeBatch hex opStack with checkpoints := cs } =
      { d with checkpoints := cs }.writeBatch hex opStack := by
  have hfold : ∀ (ops : List BatchDBOp) (d' : CachedDB lru), { ops.foldl (fun d op =>
        d.setCache (bytesToUnprefixedHex hex op.entry.1) op.entry.2) d' with checkpoints := cs } =
      ops.foldl (fun d op => d.setCache (bytesToUnprefixedHex hex op.entry.1) op.entry.2)
        { d' with checkpoints := cs } := by
    intro ops
    induction ops with
    | nil => exact fun d' => rfl
    | cons op ops ih => exact fun d' => ih (d'.setCache _ _)
  exact hfold opStack _

namespace Refines

variable {d : CachedDB lru} {s : LayeredMap Bytes Bytes}

/-- There are as many checkpoints as layers. -/
theorem length_eq (h : Refines hex d s) : d.checkpoints.length = s.layers.length := by
  rw [← h.same.length_eq, layers, List.length_map]

/-- Without checkpoints there are no layers. -/
private theorem layers_nil (h : Refines hex d s) (hd : d.checkpoints = []) : s.layers = [] := by
  rw [← List.length_eq_zero_iff, ← h.length_eq, hd, List.length_nil]

/-- During a checkpoint a write leaves the base as it is. -/
theorem base_write (h : Refines hex d s) (hd : d.checkpoints ≠ []) (key : Bytes)
    (value : Option Bytes) : (s.write key value).base = s.base := by
  rw [LayeredMap.base_write, if_neg]
  rw [← h.length_eq, List.length_eq_zero_iff]
  exact hd

/-- A new database refines the map that its store holds. -/
theorem create (hlru : lru.Lawful) (opts : CheckpointDBOpts) {m : Bytes → Option Bytes}
    (hm : Holds hex (opts.valueEncoding.getD .string) opts.db m) :
    Refines hex (CachedDB.create lru opts) ⟨[], m⟩ where
  same := ⟨rfl, rfl⟩
  holds := hm
  cached := by
    intro c hc key value hpeek
    simp only [CachedDB.create] at hc
    split at hc
    · rw [← Option.some.inj hc, hlru.peek_new] at hpeek
      cases hpeek
    · cases hc
  hexKeys c hc := absurd hc List.not_mem_nil

/-- A checkpoint adds a layer. -/
theorem checkpoint (h : Refines hex d s) (root : Bytes) :
    Refines hex (d.checkpoint root) s.checkpoint where
  same := h.same.checkpoint
  holds := h.holds
  cached := h.cached
  hexKeys c hc k hk := by
    rcases List.mem_cons.1 hc with rfl | hc
    · cases hk
    · exact h.hexKeys c hc k hk

/-- A revert drops a layer. -/
theorem revert (h : Refines hex d s) (hd : d.checkpoints ≠ []) :
    ∃ root d', d.revert = some (root, d') ∧ Refines hex d' s.revert := by
  obtain ⟨c, cs, hcs⟩ := List.exists_cons_of_ne_nil hd
  have hsame := h.same.revert
  rw [hcs] at hsame
  refine ⟨c.root, { d with checkpoints := cs }, by rw [CachedDB.revert, hcs], hsame, h.holds,
    h.cached, fun c' hc' => h.hexKeys c' ?_⟩
  rw [hcs]
  exact List.mem_cons_of_mem c hc'

/-- Noting in the newest layer what is written there. -/
private theorem setDiff (hhex : hex.Lawful) (h : Refines hex d s) (hd : d.checkpoints ≠ [])
    (key : Bytes)
    (value : Option Bytes) :
    Refines hex (d.setDiff (bytesToUnprefixedHex hex key) value) (s.write key value) := by
  have hbase := h.base_write hd key value
  obtain ⟨c, cs, hcs⟩ := List.exists_cons_of_ne_nil hd
  have hset : d.setDiff (bytesToUnprefixedHex hex key) value = { d with checkpoints :=
      { c with keyValueMap := c.keyValueMap.set (bytesToUnprefixedHex hex key) value } :: cs } := by
    rw [CachedDB.setDiff, hcs]
  rw [hset]
  refine ⟨?_, hbase ▸ h.holds, hbase ▸ h.cached, fun c' hc' k hk => ?_⟩
  · have hsame := h.same.write key value
    rw [hcs] at hsame
    rw [hbase, layers_set hhex]
    exact hsame
  · rcases List.mem_cons.1 hc' with rfl | hc'
    · rw [InsertionMap.keys_set] at hk
      have hold : k ∈ c.keyValueMap.keys → ∃ key, k = bytesToUnprefixedHex hex key :=
        h.hexKeys c (by rw [hcs]; exact List.mem_cons_self) k
      split at hk
      · exact hold hk
      · rcases List.mem_append.1 hk with hk | hk
        · exact hold hk
        · exact ⟨key, List.mem_singleton.1 hk⟩
    · exact h.hexKeys c' (by rw [hcs]; exact List.mem_cons_of_mem c hc') k hk

/-- **A read** gives the value of the topmost layer that mentions the key. -/
theorem get (hhex : hex.Lawful) (hlru : lru.Lawful) (h : Refines hex d s) (key : Bytes) :
    ∃ d', d.get hex key = some (s.get key, d') ∧ Refines hex d' s := by
  have hget := congrFun h.same.get_eq key
  rw [LayeredMap.get] at hget
  rw [CachedDB.get]
  simp only [diff_eq]
  cases hmention : LayeredMap.mention (layers hex d.checkpoints) key with
  | some value =>
    rw [hmention, Option.getD_some] at hget
    exact ⟨d, by rw [hget], h⟩
  | none =>
    rw [hmention, Option.getD_none] at hget
    obtain ⟨hcache, hhit⟩ := h.cached.readCache hlru key
    have hrest : (d.readCache (bytesToUnprefixedHex hex key)).2 =
        { d with cache := (d.readCache (bytesToUnprefixedHex hex key)).2.cache } := by
      rw [readCache]
      cases d.cache <;> rfl
    -- the cache is consulted, which changes the order of its entries only
    have h' : Refines hex (d.readCache (bytesToUnprefixedHex hex key)).2 s := by
      rw [hrest]
      exact ⟨h.same, h.holds, hcache, h.hexKeys⟩
    cases hread : d.readCache (bytesToUnprefixedHex hex key) with
    | mk value d₁ =>
    rw [hread] at h' hhit
    cases value with
    | some value => exact ⟨d₁, by rw [← hget, hhit value rfl], h'⟩
    | none =>
      have hmention' : LayeredMap.mention (layers hex d₁.checkpoints) key = none := by
        have hcs : d₁.checkpoints = d.checkpoints := by
          have hfst := congrArg (fun d : CachedDB lru => d.checkpoints) hrest
          rwa [hread] at hfst
        rw [hcs, hmention]
      have hvalue : returnValue hex (InsertionMap.get d₁.db (bytesToUnprefixedHex hex key)) =
          some (s.get key) := by
        rw [h'.holds.returnValue hhex key, hget]
      -- the value is noted in the cache and in the newest checkpoint
      have hcached : Refines hex (d₁.setCache (bytesToUnprefixedHex hex key) (s.get key)) s := by
        refine ⟨h'.same, h'.holds, ?_, h'.hexKeys⟩
        have hset := h'.cached.setCache hhex hlru key (s.base key)
        rwa [Function.update_eq_self, hget] at hset
      refine ⟨_, by simp only [hvalue]; rfl, ?_⟩
      by_cases hd : d₁.checkpoints = []
      · have hsame : (d₁.setCache (bytesToUnprefixedHex hex key) (s.get key)).setDiff
            (bytesToUnprefixedHex hex key) (s.get key) =
            d₁.setCache (bytesToUnprefixedHex hex key) (s.get key) := by
          rw [CachedDB.setDiff]
          change (match d₁.checkpoints with | [] => _ | c :: cs => _) = _
          rw [hd]
        rw [hsame]
        exact hcached
      · have hnoted := hcached.setDiff hhex hd key (s.get key)
        have hbase := h'.base_write hd key (s.get key)
        refine ⟨?_, hbase ▸ hnoted.holds, hbase ▸ hnoted.cached, hnoted.hexKeys⟩
        have hlayers : s.layers ≠ [] := by
          rw [← List.length_pos_iff, ← h'.length_eq, List.length_pos_iff]
          exact hd
        have hsame := hnoted.same
        rw [hbase] at hsame
        have hnote := LayeredMap.Same.note ⟨rfl, rfl⟩ hlayers key
        exact ⟨hsame.stack.trans hnote.stack, rfl⟩

/-- A write without checkpoints goes to the disk and the cache. -/
private theorem writeThrough (hhex : hex.Lawful) (hlru : lru.Lawful) (h : Refines hex d s)
    (hd : d.checkpoints = []) (key : Bytes) (value : Option Bytes) {db : MapDB}
    (hdb : Holds hex d.valueEncoding db (Function.update s.base key value)) :
    Refines hex ({ d with db := db }.setCache (bytesToUnprefixedHex hex key) value)
      (s.write key value) := by
  have hwrite : s.write key value = ⟨[], Function.update s.base key value⟩ := by
    rw [LayeredMap.write, h.layers_nil hd]
  rw [hwrite]
  refine ⟨?_, hdb, ?_, h.hexKeys⟩
  · change LayeredMap.Same ⟨layers hex d.checkpoints, _⟩ _
    rw [hd]
    exact ⟨rfl, rfl⟩
  · exact CacheOf.setCache hhex hlru (d := { d with db := db }) h.cached key value

/-- A put is a write. -/
theorem put (hhex : hex.Lawful) (hlru : lru.Lawful) (h : Refines hex d s) (key value : Bytes) :
    Refines hex (d.put hex key value) (s.write key (some value)) := by
  by_cases hd : d.checkpoints = []
  · rw [CachedDB.put, if_neg (by rw [hasCheckpoints_iff]; exact not_not.2 hd)]
    refine h.writeThrough hhex hlru hd key (some value) (h.holds.put hhex key ?_)
    by_cases henc : d.valueEncoding = .bytes
    · rw [if_pos henc]
      exact .bytes (by rw [henc]; decide)
    · rw [if_neg henc]
      exact .string henc
  · rw [CachedDB.put, if_pos (hasCheckpoints_iff.2 hd)]
    exact h.setDiff hhex hd key (some value)

/-- A deletion is a write. -/
theorem del (hhex : hex.Lawful) (hlru : lru.Lawful) (h : Refines hex d s) (key : Bytes) :
    Refines hex (d.del hex key) (s.write key none) := by
  by_cases hd : d.checkpoints = []
  · rw [CachedDB.del, if_neg (by rw [hasCheckpoints_iff]; exact not_not.2 hd)]
    exact h.writeThrough hhex hlru hd key none (h.holds.del hhex key)
  · rw [CachedDB.del, if_pos (hasCheckpoints_iff.2 hd)]
    exact h.setDiff hhex hd key none

/-- A batch written to disk is the writes one after the other. -/
private theorem writeBatch (hhex : hex.Lawful) (hlru : lru.Lawful) (h : Refines hex d s)
    (hd : d.checkpoints = []) (opStack : List BatchDBOp) :
    Refines hex (d.writeBatch hex opStack)
      ⟨[], opStack.foldl (fun m op => Function.update m op.entry.1 op.entry.2) s.base⟩ := by
  have hcache : ∀ (ops : List BatchDBOp) (d' : CachedDB lru) (m : Bytes → Option Bytes),
      CacheOf hex d'.cache m → ∃ cache, ops.foldl (fun d op =>
          d.setCache (bytesToUnprefixedHex hex op.entry.1) op.entry.2) d' =
          { d' with cache := cache } ∧
        CacheOf hex cache (ops.foldl (fun m op => Function.update m op.entry.1 op.entry.2) m) := by
    intro ops
    induction ops with
    | nil => exact fun d' m hm => ⟨d'.cache, rfl, hm⟩
    | cons op ops ih =>
      intro d' m hm
      exact ih _ _ (hm.setCache hhex hlru op.entry.1 op.entry.2)
  obtain ⟨cache, hfold, hcached⟩ := hcache opStack
    { d with db := MapDB.batch d.db (opStack.map (convertedOp hex d.valueEncoding)) } s.base
    h.cached
  rw [CachedDB.writeBatch, hfold]
  refine ⟨?_, h.holds.batch hhex opStack, hcached, h.hexKeys⟩
  change LayeredMap.Same ⟨layers hex d.checkpoints, _⟩ _
  rw [hd]
  exact ⟨rfl, rfl⟩

/-- A batch is a row of writes. -/
theorem batch (hhex : hex.Lawful) (hlru : lru.Lawful) (opStack : List BatchDBOp)
    (h : Refines hex d s) :
    Refines hex (d.batch hex opStack) (s.writes (opStack.map BatchDBOp.entry)) := by
  by_cases hd : d.checkpoints = []
  · rw [CachedDB.batch, if_neg (by rw [hasCheckpoints_iff]; exact not_not.2 hd),
      LayeredMap.writes_of_nil (h.layers_nil hd), List.foldl_map]
    exact h.writeBatch hhex hlru hd opStack
  · rw [CachedDB.batch, if_pos (hasCheckpoints_iff.2 hd)]
    clear hd
    induction opStack generalizing d s with
    | nil => exact h
    | cons op opStack ih =>
      cases op with
      | put key value => exact ih (h.put hhex hlru key value)
      | del key => exact ih (h.del hhex hlru key)

/-- **A commit**: the last checkpoint goes to the disk, another one to the checkpoint below. -/
theorem commit (hhex : hex.Lawful) (hlru : lru.Lawful) (h : Refines hex d s)
    (hd : d.checkpoints ≠ []) : ∃ d', d.commit hex = some d' ∧ Refines hex d' s.commit := by
  rw [CachedDB.commit]
  match hcs : d.checkpoints with
  | [] => exact absurd hcs hd
  | [c] =>
    obtain ⟨l, hl⟩ := exists_entries (h.hexKeys c (by rw [hcs]; exact List.mem_cons_self))
    have hnodup : (l.map Prod.fst).Nodup := by
      have hkeys := c.keyValueMap.nodup
      rw [hl, List.map_map] at hkeys
      refine List.Nodup.of_map (bytesToUnprefixedHex hex) ?_
      rwa [List.map_map]
    -- once the last checkpoint is gone the database stands by itself
    have hflat : Refines hex { d with checkpoints := [] } ⟨[], s.base⟩ :=
      ⟨⟨rfl, rfl⟩, h.holds, h.cached, fun c hc => absurd hc List.not_mem_nil⟩
    have hwritten := hflat.writeBatch hhex hlru rfl (l.map entryOp)
    have hbase : (l.map entryOp).foldl (fun m op => Function.update m op.entry.1 op.entry.2)
        s.base = s.get := by
      funext key
      rw [List.foldl_map]
      simp only [entry_entryOp]
      rw [LayeredMap.foldl_update hnodup, ← h.same.get_eq, hcs]
      change _ = LayeredMap.get ⟨[_], s.base⟩ key
      rw [LayeredMap.get_cons, LayeredMap.get_nil, ← get_eq_find?_map hhex hl]
    -- on the other side the one layer is folded into the base
    have hcommit : s.commit = ⟨[], s.get⟩ := by
      have hlen : s.layers.length = 1 := by rw [← h.length_eq, hcs, List.length_singleton]
      have hlayers : s.commit.layers = [] := by
        rw [← List.length_eq_zero_iff, LayeredMap.length_commit, hlen]
      have hbase := LayeredMap.base_commit s
      rw [if_pos hlen] at hbase
      generalize s.commit = s' at hlayers hbase
      obtain ⟨ls, b⟩ := s'
      rw [LayeredMap.mk.injEq]
      exact ⟨hlayers, hbase⟩
    refine ⟨{ d.writeBatch hex (l.map entryOp) with checkpoints := [] }, ?_, ?_⟩
    · change (c.keyValueMap.entries.mapM (batchOp hex)).bind _ = _
      rw [hl, mapM_batchOp hhex]
      rfl
    · rw [hcommit, ← hbase, writeBatch_checkpoints]
      exact hwritten
  | c :: c' :: cs =>
    -- an inner commit leaves the base alone
    have hbase : s.commit.base = s.base := by
      rw [LayeredMap.base_commit, ← h.length_eq, hcs, if_neg (by simp)]
    refine ⟨_, rfl, ?_, hbase ▸ h.holds, hbase ▸ h.cached, fun c₁ hc₁ k hk => ?_⟩
    · have hsame := h.same.commit
      rw [hcs] at hsame
      have hmerged : (fun key => (c.keyValueMap.entries.foldl (fun m e => m.set e.1 e.2)
          c'.keyValueMap).get (bytesToUnprefixedHex hex key)) = fun key =>
          (c.keyValueMap.get (bytesToUnprefixedHex hex key)).or
            (c'.keyValueMap.get (bytesToUnprefixedHex hex key)) :=
        funext fun key => InsertionMap.get_foldl_entries c.keyValueMap c'.keyValueMap _
      rw [hbase, layers, List.map_cons, hmerged]
      exact hsame
    · rcases List.mem_cons.1 hc₁ with rfl | hc₁
      · have hmem : k ∈ c.keyValueMap.keys ∨ k ∈ c'.keyValueMap.keys := by
          rw [← InsertionMap.get_isSome_iff, InsertionMap.get_foldl_entries, Option.isSome_or,
            Bool.or_eq_true] at hk
          exact hk.imp InsertionMap.get_isSome_iff.1 InsertionMap.get_isSome_iff.1
        rcases hmem with hk | hk
        · exact h.hexKeys c (by rw [hcs]; exact List.mem_cons_self) k hk
        · exact h.hexKeys c' (by rw [hcs]; exact List.mem_cons_of_mem c List.mem_cons_self) k hk
      · refine h.hexKeys c₁ ?_ k hk
        rw [hcs]
        exact List.mem_cons_of_mem c (List.mem_cons_of_mem c' hc₁)

end Refines

end CachedDB

/-! ### The database without cache and encodings -/

namespace CheckpointDB

/-- The layered map that a database is. -/
def toLayered (d : CheckpointDB) : LayeredMap Bytes Bytes :=
  ⟨d.checkpoints.map fun c key => c.keyValueMap.lookup key, fun key => (d.db.lookup key).join⟩

variable {d : CheckpointDB} {s : LayeredMap Bytes Bytes}

private theorem lookup_cons_update (l : Entries) (key : Bytes) (value : Option Bytes) :
    (fun k => List.lookup k ((key, value) :: l)) =
      Function.update (fun k => l.lookup k) key (some value) := by
  funext k
  rw [List.lookup_cons]
  by_cases hk : k = key
  · rw [hk, beq_self_eq_true, Function.update_self]
  · rw [beq_false_of_ne hk, Function.update_of_ne hk]

/-- A write of the plain database is a write of the layers. -/
private theorem toLayered_write (d : CheckpointDB) (e : Bytes × Option Bytes) :
    (d.write e).toLayered = d.toLayered.write e.1 e.2 := by
  obtain ⟨cs, db⟩ := d
  obtain ⟨key, value⟩ := e
  cases cs with
  | nil =>
    rw [toLayered, toLayered, LayeredMap.write, write, LayeredMap.mk.injEq]
    refine ⟨rfl, funext fun k => ?_⟩
    have hlookup := congrFun (lookup_cons_update db key value) k
    change (List.lookup k ((key, value) :: db)).join =
      Function.update (fun k => (db.lookup k).join) key value k
    rw [hlookup]
    by_cases hk : k = key
    · rw [hk, Function.update_self, Function.update_self, Option.join_some]
    · rw [Function.update_of_ne hk, Function.update_of_ne hk]
  | cons c cs =>
    refine congrArg (fun l => (⟨l :: _, _⟩ : LayeredMap Bytes Bytes)) ?_
    exact lookup_cons_update c.keyValueMap key value

/-- A commit of the plain database is one of the layers. -/
private theorem toLayered_commit (d : CheckpointDB) : d.commit.toLayered = d.toLayered.commit := by
  obtain ⟨cs, db⟩ := d
  match cs with
  | [] => rfl
  | [c] =>
    rw [toLayered, toLayered, LayeredMap.commit, commit, LayeredMap.mk.injEq]
    refine ⟨rfl, funext fun k => ?_⟩
    change (List.lookup k (c.keyValueMap ++ db)).join = _
    rw [lookup_append]
    change _ = (c.keyValueMap.lookup k).getD (db.lookup k).join
    cases c.keyValueMap.lookup k <;> rfl
  | c :: c' :: cs =>
    refine congrArg (fun l => (⟨l :: _, _⟩ : LayeredMap Bytes Bytes)) (funext fun k => ?_)
    exact lookup_append c.keyValueMap c'.keyValueMap k

/-- A batch of the plain database is a row of writes. -/
private theorem toLayered_batch (d : CheckpointDB) (opStack : List BatchDBOp) :
    (d.batch opStack).toLayered = d.toLayered.writes (opStack.map BatchDBOp.entry) := by
  induction opStack generalizing d with
  | nil => rfl
  | cons op opStack ih =>
    rw [batch, ih, toLayered_write]
    rfl

/-- A revert of the plain database is one of the layers. -/
private theorem toLayered_revert (d : CheckpointDB) :
    d.revert.2.toLayered = d.toLayered.revert := by
  obtain ⟨cs, db⟩ := d
  cases cs <;> rfl

/-- What the checkpoints say is what the layers mention. -/
private theorem diff_eq_mention (d : CheckpointDB) (key : Bytes) :
    d.diff key = LayeredMap.mention d.toLayered.layers key := by
  obtain ⟨cs, db⟩ := d
  rw [diff, toLayered]
  induction cs with
  | nil => rfl
  | cons c cs ih =>
    rw [List.flatMap_cons, lookup_append]
    exact congrArg _ ih

open LayeredMap in
/-- A read leaves what is seen as it is. -/
private theorem same_get (d : CheckpointDB) (key : Bytes) :
    Same (d.get key).2.toLayered d.toLayered := by
  have hseen := diff_eq_mention d key
  obtain ⟨cs, db⟩ := d
  rw [get]
  cases hdiff : diff ⟨cs, db⟩ key with
  | some value => exact ⟨rfl, rfl⟩
  | none =>
    cases cs with
    | nil => exact ⟨rfl, rfl⟩
    | cons c cs =>
      have hvalue : (toLayered ⟨c :: cs, db⟩).get key = (db.lookup key).join := by
        rw [LayeredMap.get, ← hseen, hdiff]
        rfl
      have hnote := Same.note (s := toLayered ⟨c :: cs, db⟩) ⟨rfl, rfl⟩ (List.cons_ne_nil _ _) key
      rw [hvalue] at hnote
      have hwrite := toLayered_write ⟨c :: cs, db⟩ (key, (db.lookup key).join)
      rw [← hwrite] at hnote
      exact hnote

/-- The plain database reads what the layers do. -/
private theorem get_fst_toLayered (d : CheckpointDB) (key : Bytes) :
    (d.get key).1 = d.toLayered.get key := by
  rw [LayeredMap.get, get, ← diff_eq_mention]
  cases d.diff key with
  | some value => rfl
  | none => cases d.checkpoints <;> rfl

end CheckpointDB

/-! ### Runs -/

/-- One call of the database. -/
inductive DBOp where
  | get (key : Bytes)
  | put (key value : Bytes)
  | del (key : Bytes)
  | batch (opStack : List BatchDBOp)
  | checkpoint (root : Bytes)
  | commit
  | revert

namespace DBOp

variable {hex : NobleHex} {lru : LRUCache HexString Bytes}

/-- A call: the value it reads, if it reads one, and the database afterwards. -/
def run (hex : NobleHex) : DBOp → CachedDB lru → Option (List (Option Bytes) × CachedDB lru)
  | get key, d => (d.get hex key).map fun r => ([r.1], r.2)
  | put key value, d => some ([], d.put hex key value)
  | del key, d => some ([], d.del hex key)
  | batch opStack, d => some ([], d.batch hex opStack)
  | checkpoint root, d => some ([], d.checkpoint root)
  | commit, d => (d.commit hex).map fun d => ([], d)
  | revert, d => d.revert.map fun r => ([], r.2)

/-- The same call on a layered map. -/
def spec : DBOp → LayeredMap Bytes Bytes → List (Option Bytes) × LayeredMap Bytes Bytes
  | get key, s => ([s.get key], s)
  | put key value, s => ([], s.write key (some value))
  | del key, s => ([], s.write key none)
  | batch opStack, s => ([], s.writes (opStack.map BatchDBOp.entry))
  | checkpoint _, s => ([], s.checkpoint)
  | commit, s => ([], s.commit)
  | revert, s => ([], s.revert)

/-- The same call on a database without cache and encodings. -/
def plain : DBOp → CheckpointDB → List (Option Bytes) × CheckpointDB
  | get key, d => ([(d.get key).1], (d.get key).2)
  | put key value, d => ([], d.put key value)
  | del key, d => ([], d.del key)
  | batch opStack, d => ([], d.batch opStack)
  | checkpoint root, d => ([], d.checkpoint root)
  | commit, d => ([], d.commit)
  | revert, d => ([], d.revert.2)

/-- The number of checkpoints after a call; it is none when there is nothing to close. -/
def depth : DBOp → ℕ → Option ℕ
  | checkpoint _, n => some (n + 1)
  | commit, n => if n = 0 then none else some (n - 1)
  | revert, n => if n = 0 then none else some (n - 1)
  | _, n => some n

/-- Calls one after the other, with the values that were read. -/
def runOps (hex : NobleHex) : List DBOp → CachedDB lru →
    Option (List (Option Bytes) × CachedDB lru)
  | [], d => some ([], d)
  | op :: ops, d => do
    let (values, d) ← op.run hex d
    let (rest, d) ← runOps hex ops d
    return (values ++ rest, d)

/-- The answers and the state of operations on the stack of maps. -/
def specOps : List DBOp → LayeredMap Bytes Bytes → List (Option Bytes) × LayeredMap Bytes Bytes
  | [], s => ([], s)
  | op :: ops, s =>
    let (values, s) := op.spec s
    let (rest, s) := specOps ops s
    (values ++ rest, s)

/-- The answers and the state of operations on the database without a cache. -/
def plainOps : List DBOp → CheckpointDB → List (Option Bytes) × CheckpointDB
  | [], d => ([], d)
  | op :: ops, d =>
    let (values, d) := op.plain d
    let (rest, d) := plainOps ops d
    (values ++ rest, d)

/-- Every commit and revert closes a checkpoint that is open. -/
def WellNested : ℕ → List DBOp → Prop
  | _, [] => True
  | n, op :: ops => ∃ n', op.depth n = some n' ∧ WellNested n' ops

/-- A call on the database is the call on the layered map it refines. -/
private theorem run_spec (hhex : hex.Lawful) (hlru : lru.Lawful) {d : CachedDB lru}
    {s : LayeredMap Bytes Bytes} (h : CachedDB.Refines hex d s) (op : DBOp) {n : ℕ}
    (hn : op.depth d.checkpoints.length = some n) :
    ∃ d', op.run hex d = some ((op.spec s).1, d') ∧ CachedDB.Refines hex d' (op.spec s).2 ∧
      (op.spec s).2.layers.length = n := by
  have hlen := h.length_eq
  have hopen : ∀ m : ℕ, (if m = 0 then none else some (m - 1)) = some n → m ≠ 0 ∧ n = m - 1 := by
    intro m hm
    by_cases h0 : m = 0
    · rw [if_pos h0] at hm
      cases hm
    · rw [if_neg h0, Option.some.injEq] at hm
      exact ⟨h0, hm.symm⟩
  cases op with
  | get key =>
    obtain ⟨d', hget, h'⟩ := h.get hhex hlru key
    refine ⟨d', ?_, h', ?_⟩
    · rw [run, hget]
      rfl
    · exact hlen.symm.trans (Option.some.inj hn)
  | put key value =>
    exact ⟨_, rfl, h.put hhex hlru key value,
      (LayeredMap.length_write ..).trans (hlen.symm.trans (Option.some.inj hn))⟩
  | del key =>
    exact ⟨_, rfl, h.del hhex hlru key, (LayeredMap.length_write ..).trans
      (hlen.symm.trans (Option.some.inj hn))⟩
  | batch opStack =>
    refine ⟨_, rfl, h.batch hhex hlru opStack, ?_⟩
    exact (LayeredMap.length_writes ..).trans (hlen.symm.trans (Option.some.inj hn))
  | checkpoint root =>
    exact ⟨_, rfl, h.checkpoint root, (congrArg (· + 1) hlen.symm).trans (Option.some.inj hn)⟩
  | commit =>
    obtain ⟨hne, rfl⟩ := hopen _ hn
    obtain ⟨d', hcommit, h'⟩ := h.commit hhex hlru fun hd => hne (by rw [hd, List.length_nil])
    refine ⟨d', ?_, h', ?_⟩
    · rw [run, hcommit]
      rfl
    · rw [hlen]
      exact LayeredMap.length_commit s
  | revert =>
    obtain ⟨hne, rfl⟩ := hopen _ hn
    obtain ⟨root, d', hrevert, h'⟩ := h.revert fun hd => hne (by rw [hd, List.length_nil])
    refine ⟨d', ?_, h', ?_⟩
    · rw [run, hrevert]
      rfl
    · rw [hlen]
      exact List.length_tail

/-- A run on the database is the run on the layered map it refines. -/
private theorem runOps_spec (hhex : hex.Lawful) (hlru : lru.Lawful) (ops : List DBOp)
    {d : CachedDB lru}
    {s : LayeredMap Bytes Bytes} (h : CachedDB.Refines hex d s)
    (hops : WellNested d.checkpoints.length ops) :
    ∃ d', runOps hex ops d = some ((specOps ops s).1, d') ∧
      CachedDB.Refines hex d' (specOps ops s).2 := by
  induction ops generalizing d s with
  | nil => exact ⟨d, rfl, h⟩
  | cons op ops ih =>
    obtain ⟨n, hn, hrest⟩ := hops
    obtain ⟨d', hrun, h', hlen⟩ := op.run_spec hhex hlru h hn
    rw [← hlen, ← h'.length_eq] at hrest
    obtain ⟨d'', hruns, h''⟩ := ih h' hrest
    refine ⟨d'', ?_, h''⟩
    rw [runOps, hrun]
    change (runOps hex ops d').bind _ = _
    rw [hruns]
    rfl

/-- **The database is a map under layers of writes.**  In every run of well-nested calls, at every
cache size and in every encoding, a read gives the value of the topmost layer that mentions the key
(none if the layer deletes it); the disk holds exactly the base, which after the last commit or
revert is the map that is seen; and the read cache holds values of the base only. -/
theorem runOps_create (hhex : hex.Lawful) (hlru : lru.Lawful) (opts : CheckpointDBOpts)
    {m : Bytes → Option Bytes}
    (hm : CachedDB.Holds hex (opts.valueEncoding.getD .string) opts.db m) {ops : List DBOp}
    (hops : WellNested 0 ops) :
    ∃ d, runOps hex ops (CachedDB.create lru opts) = some ((specOps ops ⟨[], m⟩).1, d) ∧
      CachedDB.Holds hex d.valueEncoding d.db (specOps ops ⟨[], m⟩).2.base ∧
      (d.checkpoints = [] →
        CachedDB.Holds hex d.valueEncoding d.db (specOps ops ⟨[], m⟩).2.get) ∧
      CachedDB.CacheOf hex d.cache (specOps ops ⟨[], m⟩).2.base := by
  have hcreate := CachedDB.Refines.create hlru opts hm
  obtain ⟨d, hrun, h⟩ := runOps_spec hhex hlru ops hcreate hops
  refine ⟨d, hrun, h.holds, fun hd => ?_, h.cached⟩
  have hbase : (specOps ops ⟨[], m⟩).2.get = (specOps ops ⟨[], m⟩).2.base := by
    have hnil := h.layers_nil hd
    generalize (specOps ops ⟨[], m⟩).2 = s at hnil ⊢
    obtain ⟨ls, b⟩ := s
    obtain rfl : ls = [] := hnil
    rfl
  rw [hbase]
  exact h.holds

/-- A put during a checkpoint, a deletion and a revert above it, and reads in between. -/
def nestedRun : List DBOp :=
  [.put [1] [0xaa], .checkpoint [], .put [2] [0xbb], .checkpoint [], .del [1], .get [1], .revert,
    .get [1], .get [2], .commit, .get [2], .get [1]]

/-- The run with a cache of one entry over an empty database. -/
theorem runOps_create_oneEntry :
    ∃ d, runOps lowerHex nestedRun (CachedDB.create (LRUCache.ofList _ _)
        { db := .empty, cacheSize := some 1 }) =
          some ([none, some [0xaa], some [0xbb], some [0xbb], some [0xaa]], d) ∧
      CachedDB.Holds lowerHex d.valueEncoding d.db
        (specOps nestedRun ⟨[], fun _ => none⟩).2.base := by
  obtain ⟨d, hrun, hholds, -⟩ := runOps_create lawful_lowerHex LRUCache.lawful_ofList
    { db := .empty, cacheSize := some 1 } CachedDB.holds_empty
    (show WellNested 0 nestedRun from ⟨_, rfl, _, rfl, _, rfl, _, rfl, _, rfl, _, rfl, _, rfl, _,
      rfl, _, rfl, _, rfl, _, rfl, _, rfl, trivial⟩)
  exact ⟨d, hrun, hholds⟩

/-- A run on the database without cache and encodings is a run on the layered map as well. -/
private theorem plainOps_spec (ops : List DBOp) {d : CheckpointDB} {s : LayeredMap Bytes Bytes}
    (h : LayeredMap.Same d.toLayered s) : (plainOps ops d).1 = (specOps ops s).1 := by
  induction ops generalizing d s with
  | nil => rfl
  | cons op ops ih =>
    have hstep : (op.plain d).1 = (op.spec s).1 ∧
        LayeredMap.Same (op.plain d).2.toLayered (op.spec s).2 := by
      cases op with
      | get key =>
        have hget := d.same_get key
        refine ⟨?_, hget.stack.trans h.stack, hget.base.trans h.base⟩
        rw [plain, spec, d.get_fst_toLayered, h.get_eq]
      | put key value => exact ⟨rfl, d.toLayered_write (key, some value) ▸ h.write key _⟩
      | del key => exact ⟨rfl, d.toLayered_write (key, none) ▸ h.write key _⟩
      | batch opStack => exact ⟨rfl, d.toLayered_batch opStack ▸ h.writes _⟩
      | checkpoint root => exact ⟨rfl, h.checkpoint⟩
      | commit => exact ⟨rfl, d.toLayered_commit ▸ h.commit⟩
      | revert => exact ⟨rfl, d.toLayered_revert ▸ h.revert⟩
    obtain ⟨hvalues, hsame⟩ := hstep
    rw [plainOps, specOps]
    exact congrArg₂ (· ++ ·) hvalues (ih hsame)

/-- The database that the tries are built on reads the same as the one with cache and encodings. -/
theorem runOps_plain (hhex : hex.Lawful) (hlru : lru.Lawful) (opts : CheckpointDBOpts)
    {db : Entries}
    (hm : CachedDB.Holds hex (opts.valueEncoding.getD .string) opts.db
      fun key => (db.lookup key).join) {ops : List DBOp} (hops : WellNested 0 ops) :
    ∃ d, runOps hex ops (CachedDB.create lru opts) =
      some ((plainOps ops (CheckpointDB.ofEntries db)).1, d) := by
  obtain ⟨d, hrun, -⟩ :=
    runOps_spec hhex hlru ops (CachedDB.Refines.create hlru opts hm) hops
  have hplain : (plainOps ops (CheckpointDB.ofEntries db)).1 =
      (specOps ops ⟨[], fun key => (db.lookup key).join⟩).1 := plainOps_spec ops ⟨rfl, rfl⟩
  exact ⟨d, by rw [hrun, hplain]⟩

end DBOp

end Tvmjs
