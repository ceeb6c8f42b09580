import Tvmjs.Mpt.Prune

/-!
# Sequences of writes

A trie from its creation through any sequence of `put` and `del`.

* `Primitive` -- what the writes of a database keep every method keeps; `Grows`: no string is
  forgotten, `Flat`: no checkpoint is opened;
* `Reflects` -- the state of a trie stands for a map, every method of it being a `Prog`;
* `Reflects.put`, `Reflects.del` -- the step of every write;
* `Built.runOps` -- whatever is written, the state is a trie.
-/

namespace Tvmjs

open RLP (Input)

open PathTrie MerklePatriciaTrie

variable {opts : MPTOpts}

/-- A byte string as the engine has them. -/
abbrev Uint8Array := {b : Bytes // b.length < 2 ^ 53}

/-- A write to a trie. -/
inductive TrieOp where
  | put (key value : Uint8Array)
  | del (key : Uint8Array)

namespace TrieOp

/-- The key written. -/
def key : TrieOp → Uint8Array
  | put key _ => key
  | del key => key

/-- The method called. -/
def run (opts : MPTOpts) : TrieOp → TrieM Unit
  | put key value => MerklePatriciaTrie.put opts key.1 value.1
  | del key => MerklePatriciaTrie.del opts key.1

/-- The write on the map a trie stands for: an empty value deletes. -/
def apply : TrieOp → (Bytes → Option Bytes) → Bytes → Option Bytes
  | put key value, m => Function.update m key.1 (if value.1 = [] then none else some value.1)
  | del key, m => Function.update m key.1 none

end TrieOp

section Tree

variable (opts : MPTOpts)

/-- Bytes that are there are a value. -/
theorem isValue_of_ne {value : Uint8Array} (h : value.1 ≠ []) :
    value.1 ≠ [] ∧ value.1.length < 2 ^ 53 :=
  ⟨h, value.2⟩

/-- The write on the trie itself. -/
def TrieOp.tree : TrieOp → Tree → Tree
  | put key value, t =>
    if h : value.1 = [] then erase t (bytesToNibbles (opts.appliedKey key.1))
    else t.insert (bytesToNibbles (opts.appliedKey key.1)) ⟨value.1, isValue_of_ne h⟩
  | del key, t => erase t (bytesToNibbles (opts.appliedKey key.1))

/-- Where nodes are pruned, the write deletes nothing that stands beside the path of its key. -/
def TrieOp.Apart : TrieOp → Tree → Prop
  | put key value, t =>
    if h : value.1 = [] then DelApart opts t (bytesToNibbles (opts.appliedKey key.1))
    else PutApart opts t (bytesToNibbles (opts.appliedKey key.1)) ⟨value.1, isValue_of_ne h⟩
  | del key, t => DelApart opts t (bytesToNibbles (opts.appliedKey key.1))

/-- For a put it is enough to look at the strings beside its path. -/
theorem TrieOp.apart_put {key value : Uint8Array} {t : Tree} (hv : value.1 ≠ [])
    (h : PutApart opts t (bytesToNibbles (opts.appliedKey key.1)) ⟨value.1, isValue_of_ne hv⟩) :
    (TrieOp.put key value).Apart opts t := by
  rwa [TrieOp.Apart, dif_neg hv]

/-- All of some writes do so. -/
def ApartRun : List TrieOp → Tree → Prop
  | [], _ => True
  | op :: ops, t => op.Apart opts t ∧ ApartRun ops (op.tree opts t)

end Tree

/-- The writes one after the other. -/
def runOps (opts : MPTOpts) : List TrieOp → TrieM Unit
  | [] => pure ()
  | op :: ops => do
    op.run opts
    runOps opts ops

/-- The map after some writes. -/
def applyOps : List TrieOp → (Bytes → Option Bytes) → Bytes → Option Bytes
  | [], m => m
  | op :: ops, m => applyOps ops (op.apply m)

/-! ### What every method preserves -/

section Rel

variable {R : MerklePatriciaTrie → MerklePatriciaTrie → Prop} [Std.Refl R]
  [IsTrans MerklePatriciaTrie R]

/-- A relation which the methods that change a trie or its database keep. -/
structure Primitive (opts : MPTOpts) (R : MerklePatriciaTrie → MerklePatriciaTrie → Prop) :
    Prop where
  root : ∀ value, Prog.Rel R (setRoot opts value)
  get : ∀ key, Prog.Rel R (dbGet key)
  batch : ∀ opStack, Prog.Rel R (dbBatch opStack)

variable (h : Primitive opts R)

omit [IsTrans MerklePatriciaTrie R] in
private theorem rel_ofExcept {α : Type} (x : Except MPTError α) :
    Prog.Rel R (Prog.ofExcept x : TrieM α) := fun s => refl s

include h

/-- Looking up a node reads the database. -/
private theorem rel_lookupNode (node : Input) : Prog.Rel R (lookupNode opts node) := by
  cases node with
  | list raw => exact rel_ofExcept _
  | bytes hash =>
    refine (h.get _).bind fun value => ?_
    cases value with
    | none => exact .throw _
    | some value => exact rel_ofExcept _

private theorem rel_walkLookup (throwIfMissing : Bool) (node : Input) :
    Prog.Rel R (walkLookup opts throwIfMissing node) := by
  refine .tryCatch (.bind (rel_lookupNode h node) fun _ => .pure _) fun e => ?_
  exact .ite (.pure _) (.throw _)

/-- A walk follows what its lookups do. -/
private theorem rel_walkFrom (throwIfMissing : Bool) (fuel : ℕ) (nodeRef : Input) (rest : Nibbles)
    (stack : List MPTNode) :
    Prog.Rel R (walkFrom opts throwIfMissing fuel nodeRef rest stack) := by
  induction fuel generalizing nodeRef rest stack with
  | zero => exact .throw _
  | succ fuel ih =>
    refine (rel_walkLookup h throwIfMissing nodeRef).bind fun n => ?_
    rcases n with _ | _ | _ | _
    · exact .pure _
    · cases rest with
      | nil => exact .pure _
      | cons i rest =>
        dsimp only
        split
        · exact .pure _
        · exact ih _ _ _
    · exact .ite (ih _ _ _) (.pure _)
    · exact .ite (.pure _) (.pure _)

private theorem rel_findPath (key : Bytes) (throwIfMissing : Bool) :
    Prog.Rel R (findPath opts key throwIfMissing) :=
  .bind (.gets _) fun _ => rel_walkFrom h _ _ _ _ _

private theorem rel_get (key : Bytes) (throwIfMissing : Bool) :
    Prog.Rel R (get opts key throwIfMissing) := by
  refine .bind (rel_findPath h _ _) fun path => ?_
  split
  · exact .pure _
  · exact .pure _

/-- Saving the stack builds operations and writes nothing yet. -/
private theorem rel_saveStack (pathNibbles : Nibbles) (stack : List MPTNode)
    (opStack : List BatchDBOp) : Prog.Rel R (saveStack opts pathNibbles stack opStack) := by
  rw [saveStack]
  dsimp only
  split
  · exact .bind (h.root _) fun _ => h.batch _
  · exact .bind (.throw _) fun _ => h.batch _
  · exact h.batch _

/-- So does a leaf that is split. -/
private theorem rel_divergeFrom (fullKeyNibbles : Nibbles) (value : Bytes) (keyRemainder : Nibbles)
    (lastNode : MPTNode) (stack : List MPTNode) :
    Prog.Rel R (divergeFrom opts fullKeyNibbles value keyRemainder lastNode stack) := by
  rw [divergeFrom]
  dsimp only
  split
  · exact rel_saveStack h _ _ _
  · exact rel_saveStack h _ _ _

/-- An update saves its stack at the end. -/
private theorem rel_updateNode (keyBytes value : Bytes) (keyRemainder : Nibbles)
    (stack : List MPTNode) :
    Prog.Rel R (updateNode opts keyBytes value keyRemainder stack) := by
  cases stack with
  | nil => exact .throw _
  | cons lastNode stack =>
    refine .ite (rel_saveStack h _ _ _) ?_
    cases lastNode with
    | branch branches v =>
      cases keyRemainder with
      | nil => exact rel_saveStack h _ _ _
      | cons i keyRemainder => exact rel_saveStack h _ _ _
    | extension nibbles v => exact rel_divergeFrom h _ _ _ _ _
    | leaf nibbles v => exact rel_divergeFrom h _ _ _ _ _

private theorem rel_saveBranch (pathNibbles : Nibbles) (branches : Nibble → Input) (value : Bytes)
    (parentNode : Option MPTNode) (stack : List MPTNode) (opStack : List BatchDBOp) :
    Prog.Rel R (saveBranch opts pathNibbles branches value parentNode stack opStack) := by
  rw [saveBranch]
  split
  · refine .bind (rel_lookupNode h _) fun _ => .bind (rel_ofExcept _) fun _ => ?_
    exact rel_saveStack h _ _ _
  · exact rel_saveStack h _ _ _

/-- A deletion saves its stack at the end. -/
private theorem rel_deleteNode (keyBytes : Bytes) (stack : List MPTNode) :
    Prog.Rel R (deleteNode opts keyBytes stack) := by
  rcases stack with _ | ⟨lastNode, _ | ⟨parentNode, stack⟩⟩
  · exact .throw _
  · exact h.root _
  · cases lastNode with
    | branch branches value => exact rel_saveBranch h _ _ _ _ _ _
    | extension nibbles value =>
      cases parentNode with
      | branch branches v => exact rel_saveBranch h _ _ _ _ _ _
      | extension => exact .throw _
      | leaf => exact .throw _
    | leaf nibbles value =>
      cases parentNode with
      | branch branches v => exact rel_saveBranch h _ _ _ _ _ _
      | extension => exact .throw _
      | leaf => exact .throw _

private theorem rel_del (key : Bytes) : Prog.Rel R (del opts key) := by
  refine .bind (rel_findPath h _ _) fun path => ?_
  split
  · exact .bind (rel_deleteNode h _ _) fun _ => .ite (h.batch _) (.pure _)
  · exact .ite (h.batch _) (.pure _)

/-- A put walks, updates and sets the root. -/
private theorem rel_put (key value : Bytes) : Prog.Rel R (put opts key value) := by
  refine .ite (rel_del h _) (.bind (.gets _) fun root => .ite ?_ ?_)
  · exact .bind (h.root _) fun _ => h.batch _
  · refine .bind (rel_findPath h _ _) fun path => .ite ?_ (rel_updateNode h _ _ _ _)
    refine .bind (.bind (rel_get h _ _) fun _ => .pure _) fun _ => ?_
    exact .bind (rel_updateNode h _ _ _ _) fun _ => h.batch _

/-- An operation follows what its primitives do. -/
private theorem rel_run (op : TrieOp) : Prog.Rel R (op.run opts) := by
  cases op with
  | put key value => exact rel_put h _ _
  | del key => exact rel_del h _

/-- So does a run of operations. -/
private theorem rel_runOps (ops : List TrieOp) : Prog.Rel R (runOps opts ops) := by
  induction ops with
  | nil => exact .pure _
  | cons op ops ih => exact .bind (rel_run h op) fun _ => ih

end Rel

/-- Every string that was in the database is in it still. -/
def Grows (s s' : MerklePatriciaTrie) : Prop := s.db.contents ⊆ s'.db.contents

instance : Std.Refl Grows := ⟨fun _ => subset_rfl⟩

instance : IsTrans MerklePatriciaTrie Grows := ⟨fun _ _ _ h h' => h.trans h'⟩

/-- The database never forgets what was written. -/
private theorem primitive_grows : Primitive opts Grows where
  root _ := .ite (.throw _) (.modify fun _ => subset_rfl)
  get key _ := (CheckpointDB.Reads.contents (.get .refl key)).symm.subset
  batch _ := .modify fun _ _ hv =>
    hv.imp fun _ hkey => CheckpointDB.mem_entries_batch.2 (.inr hkey)

/-- What was written in a run stays among the contents. -/
theorem grows_runOps (ops : List TrieOp) : Prog.Rel Grows (runOps opts ops) :=
  rel_runOps primitive_grows ops

/-- No checkpoint is opened. -/
def Flat (s s' : MerklePatriciaTrie) : Prop := s.db.checkpoints = [] → s'.db.checkpoints = []

instance : Std.Refl Flat := ⟨fun _ h => h⟩

instance : IsTrans MerklePatriciaTrie Flat := ⟨fun _ _ _ h h' hs => h' (h hs)⟩

/-- Without checkpoints a batch reaches the disk. -/
private theorem checkpoints_batch {d : CheckpointDB} (h : d.checkpoints = [])
    (opStack : List BatchDBOp) :
    (d.batch opStack).checkpoints = [] := by
  induction opStack generalizing d with
  | nil => exact h
  | cons op opStack ih =>
    refine ih ?_
    rw [CheckpointDB.write, h]

/-- Reading opens no checkpoint. -/
private theorem checkpoints_get {d : CheckpointDB} (h : d.checkpoints = []) (key : Bytes) :
    (d.get key).2.checkpoints = [] := by
  rw [CheckpointDB.get]
  split
  · exact h
  · split
    · exact h
    · rename_i hcs
      exact absurd (h.symm.trans hcs) (by simp)

/-- No operation opens a checkpoint. -/
private theorem primitive_flat : Primitive opts Flat where
  root _ := .ite (.throw _) (.modify fun _ h => h)
  get key _ h := checkpoints_get h key
  batch opStack := .modify fun _ h => checkpoints_batch h opStack

/-- A run without checkpoints stays without. -/
theorem flat_runOps (ops : List TrieOp) : Prog.Rel Flat (runOps opts ops) :=
  rel_runOps primitive_flat ops

/-! ### States that stand for a map -/

/-- The state stands for the trie `t`, whose entries are those of the map `m` at the keys of
`K`. -/
structure Reflects (opts : MPTOpts) (S K : Set Bytes) (P : Finset (Option Nibble) → Prop)
    (s : MerklePatriciaTrie) (m : Bytes → Option Bytes) (t : Tree) : Prop where
  roots : Roots opts S s t
  complete : Complete opts s.db t
  packed : t = .nil ∨ Packed P t
  exact : opts.useNodePruning = true → Exact opts s.db t
  words : ∀ w, (t.get w).isSome → ∃ k ∈ K, w = bytesToNibbles (opts.appliedKey k)
  get : ∀ k ∈ K, (t.get (bytesToNibbles (opts.appliedKey k))).map Subtype.val = m k

/-- A new trie over an empty database is empty. -/
theorem reflects_create (S K : Set Bytes) (P : Finset (Option Nibble) → Prop) :
    Reflects opts S K P (create opts (CheckpointDB.ofEntries [])) (fun _ => none) .nil where
  roots := ⟨⟨fun _ _ h => (List.not_mem_nil h).elim, fun _ ⟨_, h⟩ => (List.not_mem_nil h).elim⟩,
    rfl, Set.empty_subset S, fun h => absurd rfl h, trivial⟩
  complete := ⟨fun e he => absurd he (Set.notMem_empty e), fun h => absurd rfl h, rfl⟩
  packed := .inl rfl
  exact _ := exact_ofEntries
  words w hw := by cases hw
  get k _ := rfl

section Reflects

variable {S K : Set Bytes} {P : Finset (Option Nibble) → Prop} {s : MerklePatriciaTrie}
  {m : Bytes → Option Bytes} {t : Tree}

/-- Reading keeps what a trie reflects. -/
theorem Reflects.reads {s' : MerklePatriciaTrie} (h : Reflects opts S K P s m t)
    (hr : s.Reads s') : Reflects opts S K P s' m t :=
  ⟨h.roots.reads hr, h.complete.reads hr.db, h.packed, fun hp => (h.exact hp).reads hr.db, h.words,
    h.get⟩

/-- Two states with one map have one trie. -/
theorem Reflects.tree_eq {s' : MerklePatriciaTrie} {t' : Tree}
    (h : Reflects opts S K (AtLeast 2) s m t) (h' : Reflects opts S K (AtLeast 2) s' m t') :
    t = t' := by
  have hget : ∀ w, t.get w = t'.get w := by
    have hone : ∀ {s₁ s₂ : MerklePatriciaTrie} {t₁ t₂ : Tree},
        Reflects opts S K (AtLeast 2) s₁ m t₁ → Reflects opts S K (AtLeast 2) s₂ m t₂ →
        ∀ w v, t₁.get w = some v → t₂.get w = some v := by
      intro s₁ s₂ t₁ t₂ h₁ h₂ w v hv
      obtain ⟨k, hk, rfl⟩ := h₁.words w (by rw [hv]; rfl)
      have hm := h₁.get k hk
      rw [hv, ← h₂.get k hk] at hm
      obtain ⟨v', hv', hval⟩ := Option.map_eq_some_iff.1 hm.symm
      rw [hv', Subtype.ext hval]
    intro w
    rcases hv : t.get w with _ | v
    · rcases hv' : t'.get w with _ | v'
      · rfl
      · have := hone h' h w v' hv'
        rw [hv] at this
        cases this
    · exact (hone h h' w v hv).symm
  have hnil : ∀ {t : Tree}, Canonical t → ¬ ∀ w, t.get w = none := fun ht hn => by
    obtain ⟨w, v, hv⟩ := ht.live.exists_get
    rw [hn] at hv
    cases hv
  rcases h.packed with rfl | hp
  · rcases h'.packed with rfl | hp'
    · rfl
    · exact absurd (fun w => (hget w).symm) (hnil hp')
  · rcases h'.packed with rfl | hp'
    · exact absurd hget (hnil hp)
    · exact hp.ext_get hp' hget

variable (hlen : ∀ v, (opts.hash v).length = 32) (hS : Set.InjOn opts.hash S)
  (hempty : RLP_EMPTY_STRING ∈ S) (hclosed : opts.useNodePruning = true → Closed S)

include hlen in
/-- The words of short keys are short. -/
private theorem length_word_le {k : Bytes} (hk : k.length < 2 ^ 53) :
    (bytesToNibbles (opts.appliedKey k)).length ≤ 2 ^ 60 := by
  have hle : (opts.appliedKey k).length ≤ 2 ^ 53 := by
    rw [MPTOpts.appliedKey]
    split
    · rw [hlen]
      norm_num
    · exact hk.le
  rw [length_bytesToNibbles]
  omega

include hlen hS in
/-- **A lookup is one in the map.** -/
theorem Reflects.run_get (h : Reflects opts S K P s m t) {key : Bytes} (hkey : key ∈ K) :
    ∃ s', s.Reads s' ∧ (MerklePatriciaTrie.get opts key false).run s = (.ok (m key), s') := by
  obtain ⟨s', hr, hrun⟩ := Tvmjs.run_get hlen hS h.roots h.complete h.packed key
  exact ⟨s', hr, by rw [hrun, h.get key hkey]⟩

/-- The map of a trie into which a value was put. -/
private theorem Reflects.map_update (h : Reflects opts S K P s m t)
    (hK : Set.InjOn opts.appliedKey K) {key : Bytes} (hkey : key ∈ K) {o : Option Value}
    {t' : Tree} (ht' : ∀ w, t'.get w =
      if w = bytesToNibbles (opts.appliedKey key) then o else t.get w) :
    (∀ w, (t'.get w).isSome → ∃ k ∈ K, w = bytesToNibbles (opts.appliedKey k)) ∧
      ∀ k ∈ K, (t'.get (bytesToNibbles (opts.appliedKey k))).map Subtype.val =
        Function.update m key (o.map Subtype.val) k := by
  constructor
  · intro w hw
    rw [ht'] at hw
    split at hw
    · rename_i heq
      exact ⟨key, hkey, heq⟩
    · exact h.words w hw
  · intro k hk
    rw [ht', Function.update_apply]
    by_cases hkk : k = key
    · rw [if_pos hkk, if_pos (by rw [hkk])]
    · have hne : ¬ bytesToNibbles (opts.appliedKey k) = bytesToNibbles (opts.appliedKey key) :=
        fun heq => hkk (hK hk hkey (bytesToNibbles_injective heq))
      rw [if_neg hkk, if_neg hne, h.get k hk]

include hlen hS hempty hclosed in
/-- **A value that is put is in the map.** -/
theorem Reflects.put [SlotCondition P] (h : Reflects opts S K P s m t)
    (hK : Set.InjOn opts.appliedKey K) {key : Bytes} (hkey : key ∈ K) (hshort : key.length < 2 ^ 53)
    (v : Value) (hsafe : opts.useNodePruning = true → t ≠ .nil →
      Committed opts S (t.insert (bytesToNibbles (opts.appliedKey key)) v) →
      PutSafe opts t (bytesToNibbles (opts.appliedKey key)) v) :
    ∃ s', (MerklePatriciaTrie.put opts key v.1).run s = (.ok (), s') ∧
      (s'.db.contents ⊆ S → Reflects opts S K P s' (Function.update m key (some v.1))
        (t.insert (bytesToNibbles (opts.appliedKey key)) v)) := by
  obtain ⟨hwords, hget⟩ := h.map_update hK hkey
    (get_insert t (bytesToNibbles (opts.appliedKey key)) v)
  have hpacked : t.insert (bytesToNibbles (opts.appliedKey key)) v = .nil ∨
      Packed P (t.insert (bytesToNibbles (opts.appliedKey key)) v) := by
    rcases h.packed with rfl | hp
    · exact .inr (.leaf _ v)
    · exact .inr (hp.insert _ v)
  by_cases hprune : opts.useNodePruning = true
  · obtain ⟨s', hrun, hdone⟩ := run_put_pruned hlen hS hempty hprune (hclosed hprune) h.packed
      h.roots (h.exact hprune) (length_word_le hlen hshort) v (hsafe hprune)
    refine ⟨s', hrun, fun hin => ?_⟩
    obtain ⟨hroots, hexact⟩ := hdone hin
    exact ⟨hroots, hexact.complete hlen hS hempty hroots.committed, hpacked, fun _ => hexact,
      hwords,
      hget⟩
  · have hprune' : opts.useNodePruning = false := Bool.eq_false_iff.2 hprune
    obtain ⟨s', ⟨hrun, hsaved⟩ | ⟨hno, -⟩⟩ := run_put hlen hS hempty hprune' h.packed h.roots
      (length_word_le hlen hshort) v
    · exact ⟨s', hrun, fun hin => ⟨hsaved.roots hin h.roots,
        hsaved.complete hin h.roots h.complete, hpacked, fun h => absurd h hprune, hwords, hget⟩⟩
    · exact absurd h.complete hno

include hlen hS hempty hclosed in
/-- **A key that is deleted safely is no longer in the map.** -/
theorem Reflects.del (hlive : ∀ o, P o → AtLeast 1 o) (h : Reflects opts S K P s m t)
    (hK : Set.InjOn opts.appliedKey K) (hKlen : ∀ k ∈ K, k.length < 2 ^ 53) {key : Bytes}
    (hkey : key ∈ K) (herase : EraseSafe t (bytesToNibbles (opts.appliedKey key)))
    (hpacked : erase t (bytesToNibbles (opts.appliedKey key)) = .nil ∨
      Packed P (erase t (bytesToNibbles (opts.appliedKey key))))
    (hsafe : opts.useNodePruning = true →
      Committed opts S (erase t (bytesToNibbles (opts.appliedKey key))) →
      DelSafe opts t (bytesToNibbles (opts.appliedKey key))) :
    ∃ s', (MerklePatriciaTrie.del opts key).run s = (.ok (), s') ∧
      (s'.db.contents ⊆ S → Reflects opts S K P s' (Function.update m key none)
        (erase t (bytesToNibbles (opts.appliedKey key)))) := by
  have hget : ∀ w, (erase t (bytesToNibbles (opts.appliedKey key))).get w =
      if w = bytesToNibbles (opts.appliedKey key) then none else t.get w := by
    rcases h.packed with rfl | hp
    · intro w
      change none = _
      split <;> rfl
    · exact get_erase herase hp
  obtain ⟨hwords, hmap⟩ := h.map_update hK hkey hget
  have hshort : (erase t (bytesToNibbles (opts.appliedKey key))).Short (2 ^ 60) := by
    rcases hpacked with hnil | hp
    · rw [hnil]
      trivial
    · refine (hp.mono hlive).short fun w hw => ?_
      obtain ⟨k, hk, rfl⟩ := hwords w hw
      exact length_word_le hlen (hKlen k hk)
  by_cases hprune : opts.useNodePruning = true
  · obtain ⟨s', hrun, hdone⟩ := run_del_pruned hlen hS hempty hprune (hclosed hprune) h.packed
      h.roots (h.exact hprune) key hshort herase (hsafe hprune)
    refine ⟨s', hrun, fun hin => ?_⟩
    obtain ⟨hroots, hexact⟩ := hdone hin
    exact ⟨hroots, hexact.complete hlen hS hempty hroots.committed, hpacked, fun _ => hexact,
      hwords,
      hmap⟩
  · have hprune' : opts.useNodePruning = false := Bool.eq_false_iff.2 hprune
    obtain ⟨s', hrun, hsaved⟩ := run_del hlen hS hempty hprune' h.packed h.roots h.complete key
      hshort
    exact ⟨s', hrun, fun hin => ⟨hsaved.roots hin h.roots,
      hsaved.complete hin h.roots h.complete, hpacked, fun h => absurd h hprune, hwords, hmap⟩⟩

end Reflects

/-! ### Any writes at all -/

/-- The state is a trie whose branches hold values or forks; its words are not too long. -/
structure Built (opts : MPTOpts) (S : Set Bytes) (s : MerklePatriciaTrie) (t : Tree) : Prop where
  roots : Roots opts S s t
  complete : Complete opts s.db t
  packed : t = .nil ∨ Packed ValuedOrTwo t
  words : ∀ w, (t.get w).isSome → w.length ≤ 2 ^ 60

section Built

variable {S : Set Bytes} {s : MerklePatriciaTrie} {t : Tree}

/-- A new trie is built from nothing. -/
theorem built_create (S : Set Bytes) :
    Built opts S (create opts (CheckpointDB.ofEntries [])) .nil :=
  have h : Reflects opts S ∅ ValuedOrTwo _ _ .nil := reflects_create S ∅ ValuedOrTwo
  ⟨h.roots, h.complete, h.packed, fun w hw => by cases hw⟩

variable (hlen : ∀ v, (opts.hash v).length = 32) (hS : Set.InjOn opts.hash S)
  (hempty : RLP_EMPTY_STRING ∈ S) (hprune : opts.useNodePruning = false)

include hlen hS hempty hprune in
/-- A deletion builds the trie without the key. -/
theorem Built.del (h : Built opts S s t) (key : Bytes) :
    ∃ s', (MerklePatriciaTrie.del opts key).run s = (.ok (), s') ∧ (s'.db.contents ⊆ S →
      Built opts S s' (erase t (bytesToNibbles (opts.appliedKey key)))) := by
  have hpacked : erase t (bytesToNibbles (opts.appliedKey key)) = .nil ∨
      Packed ValuedOrTwo (erase t (bytesToNibbles (opts.appliedKey key))) := by
    rcases h.packed with rfl | hp
    · exact .inl rfl
    · exact packed_erase_valuedOrTwo hp _
  have hwords : ∀ w, ((erase t (bytesToNibbles (opts.appliedKey key))).get w).isSome →
      w.length ≤ 2 ^ 60 := by
    intro w hw
    rcases h.packed with rfl | hp
    · cases hw
    · obtain ⟨v, hv⟩ := Option.isSome_iff_exists.1 hw
      exact h.words w (by rw [subMap_erase hp _ w v hv]; rfl)
  have hshort : (erase t (bytesToNibbles (opts.appliedKey key))).Short (2 ^ 60) := by
    rcases hpacked with hnil | hp
    · rw [hnil]
      trivial
    · exact (live_of_valuedOrTwo hp).short hwords
  obtain ⟨s', hrun, hsaved⟩ := run_del hlen hS hempty hprune h.packed h.roots h.complete key hshort
  exact ⟨s', hrun, fun hin => ⟨hsaved.roots hin h.roots, hsaved.complete hin h.roots h.complete,
    hpacked, hwords⟩⟩

include hlen hS hempty hprune in
/-- A put builds the trie with the key. -/
theorem Built.put (h : Built opts S s t) {key : Bytes} (hshort : key.length < 2 ^ 53) (v : Value) :
    ∃ s', (MerklePatriciaTrie.put opts key v.1).run s = (.ok (), s') ∧ (s'.db.contents ⊆ S →
      Built opts S s' (t.insert (bytesToNibbles (opts.appliedKey key)) v)) := by
  obtain ⟨s', ⟨hrun, hsaved⟩ | ⟨hno, -⟩⟩ := run_put hlen hS hempty hprune h.packed h.roots
    (length_word_le hlen hshort) v
  · refine ⟨s', hrun, fun hin => ⟨hsaved.roots hin h.roots,
      hsaved.complete hin h.roots h.complete, .inr ?_, fun w hw => ?_⟩⟩
    · rcases h.packed with rfl | hp
      · exact .leaf _ v
      · exact hp.insert _ v
    · rw [get_insert] at hw
      split at hw
      · rename_i heq
        exact heq ▸ length_word_le hlen hshort
      · exact h.words w hw
  · exact absurd h.complete hno

include hlen hS hempty hprune in
/-- One write, whichever it is. -/
theorem Built.run (h : Built opts S s t) (op : TrieOp) :
    ∃ s', (op.run opts).run s = (.ok (), s') ∧
      (s'.db.contents ⊆ S → Built opts S s' (op.tree opts t)) := by
  cases op with
  | del key => exact h.del hlen hS hempty hprune key.1
  | put key value =>
    by_cases hv : value.1 = []
    · obtain ⟨s', hrun, h'⟩ := h.del hlen hS hempty hprune key.1
      rw [TrieOp.tree, dif_pos hv]
      refine ⟨s', ?_, h'⟩
      rw [← hrun, TrieOp.run, MerklePatriciaTrie.put, hv]
      rfl
    · rw [TrieOp.tree, dif_neg hv]
      exact h.put hlen hS hempty hprune key.2 ⟨value.1, hv, value.2⟩

/-- The trie after some writes. -/
def treeOf (opts : MPTOpts) (ops : List TrieOp) (t : Tree) : Tree :=
  ops.foldl (fun t op => op.tree opts t) t

include hlen hS hempty hprune in
/-- **Any sequence of writes**, whatever their keys, succeeds and leaves a trie. -/
theorem Built.runOps (h : Built opts S s t) (ops : List TrieOp)
    (hin : ((runOps opts ops).run s).2.db.contents ⊆ S) :
    ∃ s', (Tvmjs.runOps opts ops).run s = (.ok (), s') ∧
      Built opts S s' (treeOf opts ops t) := by
  induction ops generalizing s t with
  | nil => exact ⟨s, rfl, h⟩
  | cons op ops ih =>
    obtain ⟨s₁, hrun, hbuilt⟩ := h.run hlen hS hempty hprune op
    have hcons : (Tvmjs.runOps opts (op :: ops)).run s = (Tvmjs.runOps opts ops).run s₁ :=
      Prog.run_bind_of_ok hrun
    rw [hcons] at hin ⊢
    exact ih (hbuilt ((grows_runOps ops s₁).trans hin)) hin

end Built

/-! ### A hash for small tries -/

/-- Pads or cuts a string to 32 bytes. -/
def padHash (b : Bytes) : Bytes := (b ++ 1 :: List.replicate 32 0).take 32

/-- A trie with that hash. -/
def padOpts : MPTOpts := { useKeyHashingFunction := padHash }

/-- The padded hash has 32 bytes. -/
theorem length_padHash (b : Bytes) : (padOpts.hash b).length = 32 := by
  change (padHash b).length = 32
  simp [padHash]

/-- The strings that are padded are kept apart. -/
theorem injOn_padHash : Set.InjOn padOpts.hash {b | b.length < 32} := by
  have hpad : ∀ {b : Bytes}, b.length < 32 →
      padHash b = b ++ 1 :: List.replicate (31 - b.length) 0 := by
    intro b hb
    rw [padHash, List.take_append, List.take_of_length_le hb.le]
    obtain ⟨n, hn⟩ : ∃ n, 32 - b.length = n + 1 := ⟨31 - b.length, by omega⟩
    rw [hn, List.take_succ_cons, List.take_replicate]
    congr 3
    omega
  intro b hb b' hb' h
  change padHash b = padHash b' at h
  rw [hpad hb, hpad hb'] at h
  -- the last byte that is not zero ends the string
  have hrev := congrArg (fun l => (l.reverse.dropWhile (· = 0)).reverse) h
  have hdrop : ∀ (l : Bytes) (n : ℕ),
      ((l ++ 1 :: List.replicate n 0).reverse.dropWhile (· = 0)).reverse = l ++ [1] := by
    intro l n
    rw [List.reverse_append, List.reverse_cons, List.reverse_replicate, List.append_assoc,
      List.dropWhile_append_of_pos (by simp [List.mem_replicate])]
    simp
  simp only [hdrop] at hrev
  exact List.append_cancel_right hrev

/-- What is embedded in a short node is shorter. -/
theorem closed_short : Closed {b | b.length < 32} := by
  intro l m hl hm
  obtain ⟨l₁, l₂, rfl⟩ := List.append_of_mem hm
  have hlength : (RLP.encode (.list m)).length ≤
      (RLP.encode (.list (l₁ ++ .list m :: l₂))).length := by
    rw [RLP.encode.eq_def (.list (l₁ ++ .list m :: l₂))]
    simp only [RLP.encodeAll_append, RLP.encodeAll, List.length_append]
    omega
  exact hlength.trans_lt hl

/-- Nothing is embedded in the node of a string. -/
def isFlat (e : Bytes) : Bool :=
  match RLP.decode e with
  | .ok (.list l) => l.all fun
    | .bytes _ => true
    | .list _ => false
  | _ => true

/-- Strings that hold no node that is embedded are closed. -/
theorem closed_of_isFlat {L : List Bytes} (hflat : ∀ e ∈ L, isFlat e ∧ e.length < 2 ^ 64) :
    Closed {e | e ∈ L} := by
  intro l x hl hx
  obtain ⟨hflat, h64⟩ := hflat _ hl
  rw [isFlat, RLP.decode_encode h64] at hflat
  have hbytes := List.all_eq_true.1 hflat _ hx
  cases hbytes

/-- A hash of all the bytes of a string, for tries with longer nodes. -/
def polyHash (b : Bytes) : Bytes :=
  let h := b.foldl (fun h x => (h * 257 + x.toNat + 1) % 2 ^ 256) 7
  (List.range 32).map fun i => UInt8.ofNat (h / 256 ^ i)

/-- The polynomial hash has 32 bytes. -/
theorem length_polyHash (b : Bytes) : (polyHash b).length = 32 := by
  rw [polyHash, List.length_map, List.length_range]

/-- A trie with that hash. -/
def polyOpts : MPTOpts := { useKeyHashingFunction := polyHash }

/-- The same with pruning. -/
def pruneOpts : MPTOpts := { useKeyHashingFunction := polyHash, useNodePruning := true }

theorem length_oneByte (b : UInt8) : [b].length < 2 ^ 53 := by
  rw [List.length_singleton]
  decide

/-- The string of a byte. -/
def oneByte (b : UInt8) : Uint8Array := ⟨[b], length_oneByte b⟩

@[simp]
theorem coe_oneByte (b : UInt8) : (oneByte b).1 = [b] := rfl

/-- Two keys whose leaves stand in the branch at the root. -/
def twoLeaves : List TrieOp :=
  [.put (oneByte 0x10) (oneByte 1), .put (oneByte 0x20) (oneByte 2)]

/-- A value that makes a node long. -/
def longValue : Uint8Array := ⟨List.replicate 32 1, by decide⟩

/-- Three keys with long values, of which two share their first nibble. -/
def threeKeys : List TrieOp :=
  [.put (oneByte 0x12) longValue, .put (oneByte 0x13) ⟨List.replicate 32 2, by decide⟩,
    .put (oneByte 0x45) ⟨List.replicate 32 3, by decide⟩]

/-- Three keys with one value, of which the first is given another one: their leaves are the same
node. -/
def sharedLeaf : List TrieOp :=
  [.put (oneByte 0x10) longValue, .put (oneByte 0x20) longValue,
    .put (oneByte 0x30) longValue, .put (oneByte 0x10) (oneByte 2)]

/-- No two strings of a list collide. -/
theorem injOn_contents {hash : Bytes → Bytes} {d : CheckpointDB}
    (h : ∀ e ∈ d.entries, ∀ e' ∈ d.entries, ∀ v ∈ e.2, ∀ v' ∈ e'.2, hash v = hash v' → v = v') :
    Set.InjOn hash d.contents := by
  rintro v ⟨key, hv⟩ v' ⟨key', hv'⟩ heq
  exact h _ hv _ hv' v rfl v' rfl heq

end Tvmjs
