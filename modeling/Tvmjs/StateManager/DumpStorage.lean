import Mathlib.Data.Nat.Digits.Defs
import Mathlib.Tactic.Ring
import Tvmjs.Mpt.ValueMap
import Tvmjs.Util.AccountRlp

/-!
# Dumping the storage of an account page by page

`dumpStorageRange` returns at most `limit` slots of an account and the key to go on from.  Once the
limit is reached, every further leaf of the walk overwrites that key.

* `page_spec` -- a page, and the key it names;
* `dumpsEverySlot_iff` -- **following the keys visits every slot once exactly if** the walk of the
  storage trie passes over nothing and there is at most one slot more than the limit.
-/

namespace Tvmjs

open PathTrie MerklePatriciaTrie

/-- What the state manager's dumps throw. -/
inductive DumpError where
  | limit
  | noAccount
  | mpt (e : MPTError)
  deriving DecidableEq

/-- The texts of the errors. -/
def DumpError.message : DumpError → String
  | limit => "Limit is not a proper uint."
  | noAccount => "Account does not exist."
  | mpt e => e.message

/-- A slot of a dump; its key cannot be told from its hash. -/
structure StorageRangeEntry where
  key : Option PrefixedHexString
  value : PrefixedHexString
  deriving DecidableEq

/-- A page of a dump. -/
structure StorageRange where
  storage : InsertionMap PrefixedHexString StorageRangeEntry
  nextKey : Option PrefixedHexString

/-- A method of a trie within the state manager. -/
def ofTrie {α : Type} (x : TrieM α) : Prog MerklePatriciaTrie DumpError α := fun s =>
  match x.run s with
  | (.ok a, s') => (.ok a, s')
  | (.error e, s') => (.error (.mpt e), s')

private theorem run_ofTrie_of_ok {α : Type} {x : TrieM α} {s s' : MerklePatriciaTrie} {a : α}
    (h : x.run s = (.ok a, s')) : (ofTrie x).run s = (.ok a, s') := by
  rw [Prog.run, ofTrie, h]

/-- The entries of a page under their hashed keys. -/
def dumpOf (values : InsertionMap PrefixedHexString PrefixedHexString) :
    InsertionMap PrefixedHexString StorageRangeEntry :=
  ⟨values.entries.map fun e => (e.1, { key := none, value := e.2 }), by
    rw [List.map_map]
    exact values.nodup⟩

/-- Some slots of an account from `startKey` on, read from its storage trie; all writes of the
caches have been flushed to the trie. -/
def dumpStorageRange (opts : MPTOpts) (fuel : ℕ) (account : Option Account) (startKey limit : ℤ) :
    Prog MerklePatriciaTrie DumpError StorageRange :=
  if MAX_SAFE_INTEGER < |limit| ∨ limit < 0 then Prog.throw .limit
  else
    match account with
    | none => Prog.throw .noAccount
    | some _ => do
      let value ← ofTrie (getValueMap opts fuel startKey (some limit.toNat))
      pure { storage := dumpOf value.values, nextKey := value.nextKey }

/-- `BigInt` of a hex string with `0x`. -/
def bigIntOfHex (s : PrefixedHexString) : ℤ := ((readHex (s.drop 2)).map BigEndian.value).getD 0

/-- The pages from `startKey` on, each beginning at the key the one before it names; nothing if
there are more than `pages` of them. -/
def followNextKey (opts : MPTOpts) (fuel : ℕ) (account : Option Account) (limit : ℤ) :
    ℕ → ℤ → Prog MerklePatriciaTrie DumpError (Option (List StorageRange))
  | 0, _ => pure none
  | pages + 1, startKey => do
    let range ← dumpStorageRange opts fuel account startKey limit
    match range.nextKey with
    | none => pure (some [range])
    | some nextKey => do
      let rest ← followNextKey opts fuel account limit pages (bigIntOfHex nextKey)
      pure (rest.map (range :: ·))

private theorem bigIntOfHex_bytesToHex (b : Bytes) :
    bigIntOfHex (bytesToHex b) = BigEndian.value b := by
  have hread : readHex (lowerHex.bytesToHex b) = some b := lawful_lowerHex.hexToBytes_bytesToHex b
  rw [bigIntOfHex, bytesToHex, List.drop_succ_cons, List.drop_succ_cons, List.drop_zero, hread]
  rfl

/-! ### One page -/

/-- The key of a pair as a number. -/
def keyValue (p : Nibbles × Bytes) : ℤ := BigEndian.value (nibblesTypeToPackedBytes p.1)

/-- Leaves before the range. -/
private theorem foldl_onLeaf_before {startKey : ℤ} {limit : Option ℕ} (l : List (Nibbles × Bytes))
    {state : ValueMapState} (hrange : state.inRange = false)
    (hbefore : ∀ p ∈ l, keyValue p < startKey) :
    l.foldl (fun state p => onLeaf startKey limit state p.1 p.2) state = state := by
  induction l with
  | nil => rfl
  | cons p l ih =>
    have hp : ¬ startKey ≤ BigEndian.value (nibblesTypeToPackedBytes p.1) :=
      not_le.2 (hbefore p List.mem_cons_self)
    rw [List.foldl_cons, onLeaf, if_pos (by simp [hrange, hp])]
    exact ih fun q hq => hbefore q (List.mem_cons_of_mem p hq)

/-- A leaf after the limit has been reached names itself as the next key. -/
private theorem onLeaf_of_full {startKey : ℤ} {n : ℕ} {state : ValueMapState}
    (hrange : state.inRange = true) (hcount : state.valueCount = n) (p : Nibbles × Bytes) :
    onLeaf startKey (some n) state p.1 p.2 =
      { state with inRange := true, nextKey := some (hexKey p) } := by
  subst hcount
  have hfull : ¬ (some state.valueCount).all (state.valueCount < ·) = true := by simp
  rw [onLeaf, if_neg (by simp [hrange])]
  simp only [if_neg hfull, if_true]
  rfl

/-- Leaves beyond the limit: **the last one** gives the next key. -/
theorem foldl_onLeaf_beyond {startKey : ℤ} {n : ℕ} (l : List (Nibbles × Bytes))
    {state : ValueMapState} (hrange : state.inRange = true) (hcount : state.valueCount = n) :
    l.foldl (fun state p => onLeaf startKey (some n) state p.1 p.2) state =
      { state with nextKey := (l.getLast?.map hexKey).or state.nextKey } := by
  induction l using List.reverseRecOn with
  | nil => rfl
  | append_singleton l p ih =>
    have hlast := @onLeaf_of_full startKey n
      { state with nextKey := (l.getLast?.map hexKey).or state.nextKey } hrange hcount p
    rw [List.foldl_append, ih, List.foldl_cons, List.foldl_nil, hlast,
      List.getLast?_concat, ← hrange]
    rfl

/-- The first leaf of the range. -/
private theorem onLeaf_of_le {startKey : ℤ} {limit : Option ℕ} {state : ValueMapState}
    {p : Nibbles × Bytes} (hp : startKey ≤ keyValue p) :
    onLeaf startKey limit state p.1 p.2 =
      onLeaf startKey limit { state with inRange := true } p.1 p.2 := by
  have hin : ¬ ¬ (state.inRange ∨ startKey ≤ BigEndian.value (nibblesTypeToPackedBytes p.1)) :=
    not_not.2 (Or.inr hp)
  have hin' : ¬ ¬ (True ∨ startKey ≤ BigEndian.value (nibblesTypeToPackedBytes p.1)) :=
    not_not.2 (Or.inl trivial)
  unfold onLeaf
  simp only [if_neg hin, if_neg hin']

/-- **A page**: as many leaves from the start key on as the limit allows, and the key of the very
last leaf as the next key if some are left over. -/
theorem page_spec {startKey : ℤ} {n : ℕ} {before rest : List (Nibbles × Bytes)}
    (hbefore : ∀ p ∈ before, keyValue p < startKey) (hrest : ∀ p ∈ rest, startKey ≤ keyValue p)
    (hkeys : (rest.map hexKey).Nodup) :
    ∃ state, (before ++ rest).foldl (fun state p => onLeaf startKey (some n) state p.1 p.2)
        (startState (some n)) = state ∧
      state.values.entries = (rest.take n).map hexPair ∧
      state.nextKey = (rest.drop n).getLast?.map hexKey := by
  rw [List.foldl_append, foldl_onLeaf_before before rfl hbefore]
  cases rest with
  | nil => exact ⟨_, rfl, by simp [startState, InsertionMap.empty], by simp [startState]⟩
  | cons p rest =>
    -- from its first leaf on the range is entered
    have hrange : (p :: rest).foldl (fun state p => onLeaf startKey (some n) state p.1 p.2)
        (startState (some n)) =
        (p :: rest).foldl (fun state p => onLeaf startKey (some n) state p.1 p.2)
          { startState (some n) with inRange := true } := by
      rw [List.foldl_cons, List.foldl_cons, onLeaf_of_le (hrest p List.mem_cons_self)]
    rw [hrange]
    generalize p :: rest = l at hkeys
    have hnodup : ((startState (some n)).values.keys ++ (l.take n).map hexKey).Nodup :=
      hkeys.sublist ((List.take_sublist n l).map hexKey)
    obtain ⟨state, hfold, hentries, hnext, hin, hcount⟩ := @foldl_onLeaf_of_taken startKey (some n)
      (l.take n) { startState (some n) with inRange := true } rfl (by simp [startState])
      hnodup
    have hbeyond : (l.drop n).foldl (fun state p => onLeaf startKey (some n) state p.1 p.2) state =
        { state with nextKey := ((l.drop n).getLast?.map hexKey).or state.nextKey } := by
      by_cases hlong : n ≤ l.length
      · have hfull : state.valueCount = n := by
          rw [hcount, List.length_take, min_eq_left hlong]
          exact Nat.zero_add n
        exact foldl_onLeaf_beyond (l.drop n) hin hfull
      · rw [List.drop_of_length_le (not_le.1 hlong).le]
        rfl
    refine ⟨_, rfl, ?_, ?_⟩
    · rw [← List.take_append_drop n l, List.foldl_append, List.take_append_drop, hfold, hbeyond]
      exact hentries
    · rw [← List.take_append_drop n l, List.foldl_append, List.take_append_drop, hfold, hbeyond]
      rw [hnext]
      exact Option.or_none

/-! ### Keys in order -/

/-- The number nibbles stand for. -/
def nibbleValue (w : Nibbles) : ℕ := Nat.ofDigits 16 (w.reverse.map Fin.val)

private theorem nibbleValue_cons (a : Nibble) (w : Nibbles) :
    nibbleValue (a :: w) = nibbleValue w + 16 ^ w.length * a.val := by
  rw [nibbleValue, List.reverse_cons, List.map_append, Nat.ofDigits_append, List.length_map,
    List.length_reverse]
  simp [nibbleValue]

private theorem nibbleValue_lt (w : Nibbles) : nibbleValue w < 16 ^ w.length := by
  have h := Nat.ofDigits_lt_base_pow_length (b := 16) (l := w.reverse.map Fin.val) (by decide)
    fun x hx => by
      obtain ⟨d, -, rfl⟩ := List.mem_map.1 hx
      exact d.isLt
  rwa [List.length_map, List.length_reverse] at h

/-- Words of one length stand in the order of their numbers. -/
private theorem nibbleValue_lt_of_lt : ∀ {w w' : Nibbles}, w.length = w'.length → w < w' →
    nibbleValue w < nibbleValue w'
  | [], [], _, h => absurd h (lt_irrefl _)
  | a :: w, b :: w', hlength, h => by
    have hlength' : w.length = w'.length := Nat.succ.inj hlength
    rw [nibbleValue_cons, nibbleValue_cons, hlength']
    obtain hab | ⟨rfl, hw⟩ := List.cons_lt_cons_iff.1 h
    · have hbound := nibbleValue_lt w
      rw [hlength'] at hbound
      have hstep : 16 ^ w'.length * a.val + 16 ^ w'.length ≤ 16 ^ w'.length * b.val := by
        rw [← Nat.mul_succ]
        exact Nat.mul_le_mul_left _ hab
      omega
    · exact Nat.add_lt_add_right (nibbleValue_lt_of_lt hlength' hw) _

private theorem value_eq_nibbleValue (b : Bytes) :
    BigEndian.value b = nibbleValue (bytesToNibbles b) := by
  induction b with
  | nil => rfl
  | cons x b ih =>
    have hpow : 16 ^ (2 * b.length) = 256 ^ b.length := by
      rw [pow_mul]
      norm_num
    have hsum : x.toNat / 16 * 16 + x.toNat % 16 = x.toNat := Nat.div_add_mod' _ _
    have hnibbles : bytesToNibbles (x :: b) = ⟨x.toNat / 16, by have := x.toNat_lt; omega⟩ ::
        ⟨x.toNat % 16, Nat.mod_lt _ (by decide)⟩ :: bytesToNibbles b := rfl
    rw [BigEndian.value_cons, ih, hnibbles, nibbleValue_cons, nibbleValue_cons, List.length_cons,
      length_bytesToNibbles, pow_succ, hpow]
    calc x.toNat * 256 ^ b.length + nibbleValue (bytesToNibbles b)
        = (x.toNat / 16 * 16 + x.toNat % 16) * 256 ^ b.length +
            nibbleValue (bytesToNibbles b) := by rw [hsum]
      _ = nibbleValue (bytesToNibbles b) + 256 ^ b.length * (x.toNat % 16) +
            256 ^ b.length * 16 * (x.toNat / 16) := by ring

/-! ### The storage of an account -/

section Storage

variable {opts : MPTOpts} {S : Set Bytes} {s : MerklePatriciaTrie} {m : Bytes → Option Bytes}
  {t : Tree} (hlen : ∀ v, (opts.hash v).length = 32) (hS : Set.InjOn opts.hash S)
  (hempty : RLP_EMPTY_STRING ∈ S) (hclosed : Closed S)

/-- The storage trie of an account: slots of 32 bytes, hashed, and the values `m` gives them.  Its
nodes stand behind at most seven bytes of the address. -/
structure StorageTrie (opts : MPTOpts) (S : Set Bytes) (s : MerklePatriciaTrie)
    (m : Bytes → Option Bytes) (t : Tree) : Prop where
  hashing : opts.useKeyHashing = true
  keyPrefix : opts.keyPrefix.length ≤ 7
  reflects : Reflects opts S (keysOf opts S 32) (AtLeast 2) s m t

theorem StorageTrie.appliedKey (h : StorageTrie opts S s m t) (key : Bytes) :
    opts.appliedKey key = opts.hash key := if_pos h.hashing

include hlen in
private theorem StorageTrie.keyTrie (h : StorageTrie opts S s m t) : KeyTrie opts S s t where
  trie := ⟨h.reflects.roots, h.reflects.complete,
    h.reflects.packed.imp_right fun hp => hp.mono fun _ _ => Nat.zero_le _⟩
  live := h.reflects.packed.imp_right Packed.live
  words w hw := by
    obtain ⟨k, -, hk⟩ := h.reflects.words w hw
    exact ⟨_, hk⟩
  vacant := h.reflects.roots.stores.vacant hlen (h.keyPrefix.trans_lt (by decide))

include hlen in
/-- Hashed slots have one length. -/
theorem StorageTrie.words (h : StorageTrie opts S s m t) : Words 64 t := by
  intro w hw
  obtain ⟨k, -, rfl⟩ := h.reflects.words w hw
  rw [length_bytesToNibbles, h.appliedKey, hlen]

include hlen in
/-- No branch of a storage trie holds a value. -/
private theorem StorageTrie.valueless (h : StorageTrie opts S s m t) : t.Valueless := by
  intro w c v hmem
  obtain ⟨-, fs, hplug, -⟩ := exists_plug_of_mem_places hmem
  have hp : Canonical t := h.reflects.packed.resolve_left fun hnil => by
    rw [hnil] at hmem
    cases hmem
  have hbranch : Canonical (PathTrie.branch c v) := Packed.of_plug fs (hplug ▸ hp) nofun
  obtain ⟨i, hi⟩ := exists_child_of_canonical hbranch
  exact (Words.branch (hplug ▸ h.words hlen) hi).1

/-- The pairs of a storage trie are its slots. -/
private theorem StorageTrie.mem_pairs (h : StorageTrie opts S s m t) {p : Nibbles × Bytes} :
    p ∈ pairsOf t.entries ↔ ∃ slot ∈ keysOf opts S 32, ∃ v, m slot = some v ∧
      p = (bytesToNibbles (opts.hash slot), v) := by
  obtain ⟨w, v⟩ := p
  rw [(listsAll_entries t).mem]
  constructor
  · intro hget
    have hsome : (t.get w).isSome := by
      rw [← Option.isSome_map, hget]
      rfl
    obtain ⟨slot, hslot, rfl⟩ := h.reflects.words w hsome
    refine ⟨slot, hslot, v, ?_, by rw [h.appliedKey]⟩
    rw [← h.reflects.get slot hslot, hget]
  · rintro ⟨slot, hslot, v', hm, heq⟩
    obtain ⟨rfl, rfl⟩ := Prod.mk.inj heq
    rw [← hm, ← h.reflects.get slot hslot, h.appliedKey]

include hlen in
/-- The keys of a storage trie ascend as numbers. -/
theorem StorageTrie.ascending (h : StorageTrie opts S s m t) :
    (pairsOf t.entries).Pairwise fun p q => keyValue p < keyValue q := by
  refine (List.Pairwise.imp_of_mem ?_ (listsAll_entries t).ascending)
  intro p q hp hq hlt
  obtain ⟨slot, -, v, -, rfl⟩ := h.mem_pairs.1 hp
  obtain ⟨slot', -, v', -, rfl⟩ := h.mem_pairs.1 hq
  rw [keyValue, keyValue, nibblesTypeToPackedBytes_bytesToNibbles,
    nibblesTypeToPackedBytes_bytesToNibbles, value_eq_nibbleValue, value_eq_nibbleValue]
  refine Int.ofNat_lt.2 (nibbleValue_lt_of_lt ?_ hlt)
  rw [length_bytesToNibbles, length_bytesToNibbles, hlen, hlen]

/-- A leaf as a page shows it. -/
def dumpPair (p : Nibbles × Bytes) : PrefixedHexString × StorageRangeEntry :=
  (hexKey p, { key := none, value := bytesToHex p.2 })

include hlen hS hempty hclosed in
/-- **A page of the dump.** -/
theorem StorageTrie.run_dumpStorageRange (h : StorageTrie opts S s m t) (account : Account)
    {limit : ℤ} (hlimit : 0 ≤ limit) (hsafe : limit ≤ MAX_SAFE_INTEGER) :
    ∃ N, ∀ fuel ≥ N, ∀ before rest startKey s₁, s.Reads s₁ →
      foundLeaves opts s.db t = before ++ rest → (∀ p ∈ before, keyValue p < startKey) →
      (∀ p ∈ rest, startKey ≤ keyValue p) → ∃ range s', s.Reads s' ∧
        (dumpStorageRange opts fuel (some account) startKey limit).run s₁ = (.ok range, s') ∧
        range.storage.entries = (rest.take limit.toNat).map dumpPair ∧
        range.nextKey = (rest.drop limit.toNat).getLast?.map hexKey := by
  obtain ⟨N, hN⟩ := (h.keyTrie hlen).run_getValueMap hlen hS hempty hclosed
  refine ⟨N, fun fuel hfuel before rest startKey s₁ hs₁ hsplit hbefore hrest => ?_⟩
  obtain ⟨s', hs', hrun⟩ := hN fuel hfuel startKey (some limit.toNat) s₁ hs₁
  have hkeys : (rest.map hexKey).Nodup := by
    have hsub : rest.Sublist (foundLeaves opts s.db t) := by
      rw [hsplit]
      exact List.sublist_append_right before rest
    exact (nodup_hexKey (h.keyTrie hlen).words).sublist
      ((hsub.trans (foundLeaves_sublist s.db t)).map hexKey)
  obtain ⟨state, hfold, hentries, hnext⟩ := page_spec (n := limit.toNat) hbefore hrest hkeys
  rw [hsplit, hfold] at hrun
  refine ⟨{ storage := dumpOf state.values, nextKey := state.nextKey }, s', hs', ?_, ?_, hnext⟩
  · rw [dumpStorageRange, if_neg (by rw [abs_of_nonneg hlimit]; omega)]
    exact Prog.run_bind_of_ok (run_ofTrie_of_ok hrun)
  · change state.values.entries.map _ = _
    rw [hentries, List.map_map]
    rfl

/-- The leaves that following the keys of the pages comes by. -/
def visitedLeaves (limit : ℤ) (l : List (Nibbles × Bytes)) : List (Nibbles × Bytes) :=
  l.take limit.toNat ++ (l.drop limit.toNat).getLast?.toList

/-- The slots of some pages. -/
def slotsOf (ranges : List StorageRange) : List (PrefixedHexString × StorageRangeEntry) :=
  ranges.flatMap fun range => range.storage.entries

include hlen hS hempty hclosed in
/-- **Following the keys**: the first page, and the page of the very last leaf. -/
theorem StorageTrie.run_followNextKey (h : StorageTrie opts S s m t) (account : Account)
    {limit : ℤ} (hlimit : 1 ≤ limit) (hsafe : limit ≤ MAX_SAFE_INTEGER) :
    ∃ N, ∀ fuel ≥ N, ∀ pages, ∃ out s',
      (followNextKey opts fuel (some account) limit pages 0).run s = (.ok out, s') ∧
      (∀ ranges ∈ out, slotsOf ranges =
        (visitedLeaves limit (foundLeaves opts s.db t)).map dumpPair) ∧
      (2 ≤ pages → out.isSome) := by
  obtain ⟨N, hN⟩ := h.run_dumpStorageRange hlen hS hempty hclosed account (by omega) hsafe
  refine ⟨N, fun fuel hfuel pages => ?_⟩
  obtain _ | pages := pages
  · exact ⟨none, s, rfl, nofun, fun h2 => absurd h2 (by omega)⟩
  obtain ⟨range, s₁, hs₁, hrun, hentries, hnext⟩ := hN fuel hfuel [] (foundLeaves opts s.db t) 0 s
    (.refl s) rfl nofun fun p _ => Int.natCast_nonneg _
  rw [followNextKey, Prog.run_bind_of_ok hrun, hnext]
  cases hlast : ((foundLeaves opts s.db t).drop limit.toNat).getLast? with
  | none =>
    refine ⟨some [range], s₁, rfl, ?_, fun _ => rfl⟩
    rintro ranges ⟨⟩
    rw [slotsOf, List.flatMap_singleton, hentries, visitedLeaves, hlast]
    simp
  | some last =>
    obtain _ | pages := pages
    · refine ⟨none, s₁, ?_, nofun, fun h2 => absurd h2 (by omega)⟩
      rfl
    -- the second page begins at the last leaf
    have hmem : last ∈ (foundLeaves opts s.db t).getLast? := by
      rw [List.getLast?_drop] at hlast
      split at hlast
      · cases hlast
      · exact hlast
    have hsplit : foundLeaves opts s.db t = (foundLeaves opts s.db t).dropLast ++ [last] :=
      (List.dropLast_append_getLast? last hmem).symm
    have hbefore : ∀ p ∈ (foundLeaves opts s.db t).dropLast, keyValue p < keyValue last := by
      have hascending : (foundLeaves opts s.db t).Pairwise fun p q => keyValue p < keyValue q :=
        (h.ascending hlen).sublist (foundLeaves_sublist s.db t)
      rw [hsplit, List.pairwise_append] at hascending
      exact fun p hp => hascending.2.2 p hp last List.mem_cons_self
    have hstart : bigIntOfHex (hexKey last) = keyValue last := bigIntOfHex_bytesToHex _
    obtain ⟨range', s₂, hs₂, hrun', hentries', hnext'⟩ := hN fuel hfuel _ [last]
      (bigIntOfHex (hexKey last)) s₁ hs₁ hsplit (by rwa [hstart])
      (fun p hp => by rw [List.mem_singleton.1 hp, hstart])
    obtain ⟨n, hn⟩ : ∃ n, limit.toNat = n + 1 := ⟨limit.toNat - 1, by omega⟩
    rw [hn, List.take_succ_cons, List.take_nil] at hentries'
    rw [hn, List.drop_succ_cons, List.drop_nil] at hnext'
    have hrest : (followNextKey opts fuel (some account) limit (pages + 1)
        (bigIntOfHex (hexKey last))).run s₁ = (.ok (some [range']), s₂) := by
      rw [followNextKey, Prog.run_bind_of_ok hrun', hnext']
      rfl
    refine ⟨some [range, range'], s₂, ?_, ?_, fun _ => rfl⟩
    · rw [Option.map_some]
      exact Prog.run_bind_of_ok hrest
    · rintro ranges ⟨⟩
      have hslots : slotsOf [range, range'] = range.storage.entries ++ range'.storage.entries := by
        simp [slotsOf]
      rw [hslots, hentries, hentries', visitedLeaves, hlast, List.map_append]
      rfl

/-- **A paged dump is complete**: following the keys from zero on ends, and shows every slot that
holds a value once. -/
def DumpsEverySlot (opts : MPTOpts) (S : Set Bytes) (s : MerklePatriciaTrie)
    (m : Bytes → Option Bytes) (account : Account) (limit : ℤ) : Prop :=
  ∃ N, ∀ fuel ≥ N, ∃ pages ranges s',
    (followNextKey opts fuel (some account) limit pages 0).run s = (.ok (some ranges), s') ∧
    ((slotsOf ranges).map Prod.fst).Nodup ∧
    ∀ e, e ∈ slotsOf ranges ↔ ∃ slot ∈ keysOf opts S 32, ∃ v, m slot = some v ∧
      e = (bytesToHex (opts.hash slot), { key := none, value := bytesToHex v })

/-- The slots of a storage trie as a dump shows them. -/
private theorem StorageTrie.mem_dump (h : StorageTrie opts S s m t)
    {e : PrefixedHexString × StorageRangeEntry} :
    e ∈ (pairsOf t.entries).map dumpPair ↔ ∃ slot ∈ keysOf opts S 32, ∃ v, m slot = some v ∧
      e = (bytesToHex (opts.hash slot), { key := none, value := bytesToHex v }) := by
  rw [List.mem_map]
  constructor
  · rintro ⟨p, hp, rfl⟩
    obtain ⟨slot, hslot, v, hm, rfl⟩ := h.mem_pairs.1 hp
    refine ⟨slot, hslot, v, hm, ?_⟩
    rw [dumpPair, hexKey, nibblesTypeToPackedBytes_bytesToNibbles]
  · rintro ⟨slot, hslot, v, hm, rfl⟩
    refine ⟨_, h.mem_pairs.2 ⟨slot, hslot, v, hm, rfl⟩, ?_⟩
    rw [dumpPair, hexKey, nibblesTypeToPackedBytes_bytesToNibbles]

private theorem visitedLeaves_sublist (limit : ℤ) (l : List (Nibbles × Bytes)) :
    (visitedLeaves limit l).Sublist l := by
  have hlast : ((l.drop limit.toNat).getLast?.toList).Sublist (l.drop limit.toNat) := by
    cases h : (l.drop limit.toNat).getLast? with
    | none => exact List.nil_sublist _
    | some p => exact List.singleton_sublist.2 (List.mem_of_getLast? h)
  have happend := (List.Sublist.refl (l.take limit.toNat)).append hlast
  rwa [List.take_append_drop] at happend

/-- The leaves visited are all pairs exactly if the walk finds all, and all but the first ones that
the limit allows are one. -/
private theorem visitedLeaves_eq_iff {limit : ℤ} (hlimit : 1 ≤ limit)
    {l all : List (Nibbles × Bytes)}
    (hsub : l.Sublist all) :
    visitedLeaves limit l = all ↔ l = all ∧ (all.length : ℤ) ≤ limit + 1 := by
  have hvisited := visitedLeaves_sublist limit l
  constructor
  · intro h
    have hl : l = all := by
      refine hsub.eq_of_length (le_antisymm hsub.length_le ?_)
      rw [← h]
      exact hvisited.length_le
    refine ⟨hl, ?_⟩
    have hlength := congrArg List.length h
    rw [visitedLeaves, List.length_append, List.length_take] at hlength
    have hone : (l.drop limit.toNat).getLast?.toList.length ≤ 1 := by
      cases (l.drop limit.toNat).getLast? with
      | none => exact Nat.zero_le 1
      | some p => exact le_rfl
    omega
  · rintro ⟨rfl, hlength⟩
    refine hvisited.eq_of_length ?_
    rw [visitedLeaves, List.length_append, List.length_take]
    by_cases hshort : l.length ≤ limit.toNat
    · rw [List.drop_of_length_le hshort, min_eq_right hshort]
      rfl
    · obtain ⟨p, hp⟩ : ∃ p, l.drop limit.toNat = [p] := by
        rw [← List.length_eq_one_iff, List.length_drop]
        omega
      have hone : (l.drop limit.toNat).length = 1 := by
        rw [hp]
        rfl
      rw [List.length_drop] at hone
      rw [hp, min_eq_left (not_le.1 hshort).le]
      change limit.toNat + 1 = l.length
      omega

include hlen hS hempty hclosed in
/-- A paged dump is complete exactly if the leaves it comes by are all. -/
private theorem StorageTrie.dumpsEverySlot_iff_visited (h : StorageTrie opts S s m t)
    (account : Account)
    {limit : ℤ} (hlimit : 1 ≤ limit) (hsafe : limit ≤ MAX_SAFE_INTEGER) :
    DumpsEverySlot opts S s m account limit ↔
      visitedLeaves limit (foundLeaves opts s.db t) = pairsOf t.entries := by
  have hnodup := nodup_hexKey (h.keyTrie hlen).words
  obtain ⟨N, hN⟩ := h.run_followNextKey hlen hS hempty hclosed account hlimit hsafe
  constructor
  · rintro ⟨N', hN'⟩
    obtain ⟨pages, ranges, s', hrun, -, hmem⟩ := hN' (max N N') (le_max_right N N')
    obtain ⟨out, s'', hrun', hslots, -⟩ := hN (max N N') (le_max_left N N') pages
    obtain ⟨heq, -⟩ := Prod.mk.inj (hrun.symm.trans hrun')
    obtain rfl := Except.ok.inj heq
    have hsub : (visitedLeaves limit (foundLeaves opts s.db t)).Sublist (pairsOf t.entries) :=
      (visitedLeaves_sublist limit _).trans (foundLeaves_sublist s.db t)
    refine hsub.eq_of_length (le_antisymm hsub.length_le ?_)
    refine ((hnodup.of_map _).subperm fun p hp => ?_).length_le
    have hshown := (hmem _).2 (h.mem_dump.1 (List.mem_map_of_mem hp))
    rw [hslots ranges rfl] at hshown
    obtain ⟨q, hq, hpq⟩ := List.mem_map.1 hshown
    rwa [← List.inj_on_of_nodup_map hnodup (hsub.subset hq) hp (Prod.mk.inj hpq).1]
  · intro hall
    refine ⟨N, fun fuel hfuel => ?_⟩
    obtain ⟨out, s', hrun, hslots, hsome⟩ := hN fuel hfuel 2
    obtain ⟨ranges, rfl⟩ := Option.isSome_iff_exists.1 (hsome le_rfl)
    have hshown := hslots ranges rfl
    rw [hall] at hshown
    refine ⟨2, ranges, s', hrun, ?_, fun e => ?_⟩
    · rw [hshown, List.map_map]
      exact hnodup
    · rw [hshown]
      exact h.mem_dump

include hlen hS hempty hclosed in
/-- **Following the keys shows every slot once exactly if** no two places of the storage trie hold
the same subtrie, every node embedded in a branch stands in the database as well, and there is at
most one slot more than the limit: the first page names the key of the last slot. -/
theorem dumpsEverySlot_iff (h : StorageTrie opts S s m t) (account : Account) {limit : ℤ}
    (hlimit : 1 ≤ limit) (hsafe : limit ≤ MAX_SAFE_INTEGER) :
    DumpsEverySlot opts S s m account limit ↔
      Unrepeated t ∧ t.Reaching (Stands opts s.db) ∧ (t.entries.length : ℤ) ≤ limit + 1 := by
  have hkey := h.keyTrie hlen
  have hwalk : foundLeaves opts s.db t = pairsOf t.entries ↔
      Unrepeated t ∧ t.Reaching (Stands opts s.db) := by
    rw [foundLeaves, pairsOf_injective.eq_iff, rootWalk, leavesOf_walk_iff hkey.live,
      hkey.fresh_iff hlen hS hclosed, and_iff_left (h.valueless hlen)]
  have hlength : (pairsOf t.entries).length = t.entries.length := List.length_map _
  rw [h.dumpsEverySlot_iff_visited hlen hS hempty hclosed account hlimit hsafe,
    visitedLeaves_eq_iff hlimit (foundLeaves_sublist s.db t), hwalk, hlength, and_assoc]

end Storage

/-! ### Three slots -/

/-- A storage trie with a hash of all the bytes of a string. -/
def storageOpts : MPTOpts := { useKeyHashingFunction := polyHash, useKeyHashing := true }

private theorem length_hash_storageOpts (v : Bytes) : (storageOpts.hash v).length = 32 :=
  length_polyHash v

/-- The slot with a number below 256. -/
def smallSlot (b : UInt8) : Uint8Array := ⟨List.replicate 31 0 ++ [b], by simp⟩

/-- The strings that some writes hash. -/
def hashedStrings (ops : List TrieOp) : List Bytes :=
  RLP_EMPTY_STRING :: ops.map (fun op => op.key.1) ++
    (trieOf storageOpts ops).db.entries.filterMap Prod.snd

private theorem injOn_hashedStrings {ops : List TrieOp}
    (hinj : ((hashedStrings ops).map polyHash).Nodup) :
    Set.InjOn storageOpts.hash {e | e ∈ hashedStrings ops} :=
  fun _ he _ he' heq => List.inj_on_of_nodup_map hinj he he' heq

/-- Writes of slots on a new storage trie. -/
private theorem storageTrie_trieOf {ops : List TrieOp} (hkeys : ∀ op ∈ ops, op.key.1.length = 32)
    (hinj : ((hashedStrings ops).map polyHash).Nodup) :
    StorageTrie storageOpts {e | e ∈ hashedStrings ops} (trieOf storageOpts ops) (mapOf ops)
      (treeOf storageOpts ops .nil) := by
  have hS := injOn_hashedStrings hinj
  have hempty : RLP_EMPTY_STRING ∈ {e | e ∈ hashedStrings ops} := List.mem_cons_self
  have hin : (trieOf storageOpts ops).db.contents ⊆ {e | e ∈ hashedStrings ops} := by
    rintro e ⟨key, he⟩
    exact List.mem_append_right _ (List.mem_filterMap.2 ⟨_, he, rfl⟩)
  obtain ⟨s', hrun, hreflects⟩ := reflects_runOps (n := 32) length_hash_storageOpts hS hempty nofun
    (reflects_create _ _ (AtLeast 2)) ops
    (fun op hop => ⟨hkeys op hop, by rw [hkeys op hop]; decide,
      fun _ => List.mem_append_left _ (List.mem_cons_of_mem _ (List.mem_map_of_mem hop))⟩)
    nofun hin
  have hstate : trieOf storageOpts ops = s' := congrArg Prod.snd hrun
  rw [hstate]
  exact ⟨rfl, by decide, hreflects⟩

/-- Slots 1 and 2 hold 1 and 2. -/
def twoSlots : List TrieOp := [.put (smallSlot 1) (oneByte 1), .put (smallSlot 2) (oneByte 2)]

/-- Two slots, dumped on two pages. -/
theorem dumpsEverySlot_twoSlots :
    DumpsEverySlot storageOpts {e | e ∈ hashedStrings twoSlots} (trieOf storageOpts twoSlots)
      (mapOf twoSlots) {} 1 := by
  have hinj : ((hashedStrings twoSlots).map polyHash).Nodup := by decide +kernel
  -- the nodes differ already as they are written
  have hfresh : Unrepeated (treeOf storageOpts twoSlots .nil) :=
    List.Nodup.of_map (fun u => (treeNode storageOpts u).serialize) (by decide +kernel)
  exact (dumpsEverySlot_iff length_hash_storageOpts (injOn_hashedStrings hinj) List.mem_cons_self
    (closed_of_isFlat (by decide +kernel)) (storageTrie_trieOf (by decide) hinj) {} le_rfl
    (by decide)).2 ⟨hfresh, by decide +kernel, by decide +kernel⟩

/-- Slots 1, 2 and 3 hold 1, 2 and 3. -/
def threeSlots : List TrieOp :=
  [.put (smallSlot 1) (oneByte 1), .put (smallSlot 2) (oneByte 2),
    .put (smallSlot 3) (oneByte 3)]

/-- **A page of one slot names the last slot of three**: following it, the slot between is never
shown. -/
theorem middleSlot_skipped :
    StorageTrie storageOpts {e | e ∈ hashedStrings threeSlots} (trieOf storageOpts threeSlots)
        (mapOf threeSlots) (treeOf storageOpts threeSlots .nil) ∧
      ((followNextKey storageOpts 3 (some {}) 1 3 0).run (trieOf storageOpts threeSlots)).1.map
        (Option.map fun ranges => ranges.map fun range => range.storage.entries.map fun e =>
          e.2.value) = .ok (some [["0x01".toList], ["0x03".toList]]) ∧
      ¬ DumpsEverySlot storageOpts {e | e ∈ hashedStrings threeSlots}
        (trieOf storageOpts threeSlots) (mapOf threeSlots) {} 1 := by
  have hinj : ((hashedStrings threeSlots).map polyHash).Nodup := by decide +kernel
  have h := @storageTrie_trieOf threeSlots (by decide) hinj
  refine ⟨h, by decide +kernel, ?_⟩
  rw [h.dumpsEverySlot_iff_visited length_hash_storageOpts (injOn_hashedStrings hinj)
    List.mem_cons_self (closed_of_isFlat (by decide +kernel)) {} le_rfl (by decide),
    visitedLeaves_eq_iff le_rfl (foundLeaves_sublist _ _)]
  rintro ⟨-, hlength⟩
  -- each of the slots has a pair, and the pairs differ
  have hslots : ∀ b ∈ ([1, 2, 3] : List UInt8), (smallSlot b).1 ∈ hashedStrings threeSlots ∧
      mapOf threeSlots (smallSlot b).1 = some [b] := by
    decide +kernel
  have hsub : ([1, 2, 3] : List UInt8).map
      (fun b => (bytesToNibbles (storageOpts.hash (smallSlot b).1), [b])) ⊆
      pairsOf (treeOf storageOpts threeSlots .nil).entries := by
    intro p hp
    obtain ⟨b, hb, rfl⟩ := List.mem_map.1 hp
    obtain ⟨hstring, hmap⟩ := hslots b hb
    have hlength : (smallSlot b).1.length < 2 ^ 53 := by
      rw [smallSlot, List.length_append, List.length_replicate, List.length_singleton]
      decide
    exact h.mem_pairs.2 ⟨_, ⟨rfl, hlength, fun _ => hstring⟩, _, hmap, rfl⟩
  have hnodup : (([1, 2, 3] : List UInt8).map
      (fun b => (bytesToNibbles (storageOpts.hash (smallSlot b).1), [b]))).Nodup := by
    decide
  have hthree := (hnodup.subperm hsub).length_le
  have hlong : ((pairsOf (treeOf storageOpts threeSlots .nil).entries).length : ℤ) ≤ 2 := hlength
  rw [List.length_map] at hthree
  change 3 ≤ _ at hthree
  omega

end Tvmjs
