import Tvmjs.Blockchain.PreparePut

/-!
# What is stored as a header
Only a put stores a header, and it stores its own under the number it has.  So what holds of all
headers that are put, and of the genesis header, holds of all stored headers, whether the calls
return or throw.

* `HeadersMeet` -- a condition on the stored headers and the numbers they lie under;
* `DBOp.Meets`, `HeadersMeet.batch` -- batches that keep it;
* `Writes.meets`, `keeps_putBlockOrHeaderUnless` -- the batch of a put keeps it where the item meets
  it, and so does the put;
* `keeps_resetCanonicalHead`, `keeps_delBlock`, `keeps_iterator` -- the other calls keep it.
-/

namespace Tvmjs

namespace Blockchain

variable {H : Type} {env : Env H} {P : ℕ → Header H → Prop}

/-! ### Batches -/

/-- The stored headers meet a condition together with the numbers they lie under. -/
def HeadersMeet (P : ℕ → Header H → Prop) (db : Database H) : Prop :=
  ∀ n h header, db.header n h = some header → P n header

/-- A header that the operation stores meets the condition. -/
def DBOp.Meets (P : ℕ → Header H → Prop) : DBOp H → Prop
  | .setHeader n _ header => P (asUintN64 n) header
  | _ => True

variable [DecidableEq H]

theorem HeadersMeet.apply {db : Database H} (h : HeadersMeet P db) {op : DBOp H}
    (hop : op.Meets P) : HeadersMeet P (db.apply op) := by
  cases op with
  | setHeader n hash header =>
    intro n' h' header' hstored
    replace hstored : (if n' = asUintN64 n ∧ h' = hash then some header else db.header n' h') =
      some header' := hstored
    split at hstored
    · obtain ⟨rfl, -⟩ := ‹_ ∧ _›
      cases hstored
      exact hop
    · exact h n' h' header' hstored
  | delHeader n hash =>
    intro n' h' header' hstored
    replace hstored : (if n' = asUintN64 n ∧ h' = hash then none else db.header n' h') =
      some header' := hstored
    split at hstored
    · cases hstored
    · exact h n' h' header' hstored
  | _ => exact h

theorem HeadersMeet.batch {db : Database H} (h : HeadersMeet P db) {ops : List (DBOp H)}
    (hops : ∀ op ∈ ops, op.Meets P) : HeadersMeet P (db.batch ops) := by
  induction ops generalizing db with
  | nil => exact h
  | cons op ops ih =>
    rw [Database.batch_cons]
    exact ih (h.apply (hops op (List.mem_cons_self ..))) fun op' hop' =>
      hops op' (List.mem_cons_of_mem _ hop')

omit [DecidableEq H] in
private theorem meets_headOps (t : Blockchain H) : ∀ op ∈ headOps t, op.Meets P := by
  intro op hop
  simp only [headOps, List.mem_cons, List.not_mem_nil, or_false] at hop
  rcases hop with rfl | rfl | rfl
  · trivial
  · trivial
  · trivial

omit [DecidableEq H] in
theorem Clears.meets {db : Database H} {n : ℤ} {ops : List (DBOp H)} (h : Clears db n ops) :
    ∀ op ∈ ops, op.Meets P := by
  induction h with
  | done => exact nofun
  | next _ _ ih =>
    intro op hop
    rcases List.mem_cons.1 hop with rfl | hop
    · trivial
    · exact ih op hop

omit [DecidableEq H] in
/-- What stores an item stores its header. -/
private theorem meets_itemOps {item : Item H} (s : Blockchain H)
    (hitem : P (asUintN64 item.getHeader.number) item.getHeader) :
    ∀ op ∈ itemOps env item s, op.Meets P := by
  intro op hop
  rcases List.mem_cons.1 hop with rfl | hop
  · trivial
  rcases item with header | ⟨header, body⟩
  · rw [List.mem_singleton.1 hop]
    exact hitem
  · rcases List.mem_cons.1 hop with rfl | hop
    · exact hitem
    · rw [List.mem_singleton.1 hop]
      trivial

omit [DecidableEq H] in
/-- **The batch of a put** stores the header of its item, and no other. -/
theorem Writes.meets {item : Item H} {s : Blockchain H} {ops : List (DBOp H)}
    (h : Writes env item s ops) (hitem : P (asUintN64 item.getHeader.number) item.getHeader) :
    ∀ op ∈ ops, op.Meets P := by
  cases h with
  | @becomeHead forgotten rebuilt t _ hclears _ _ =>
    intro op hop
    rcases List.mem_append.1 hop with hop | hop
    · rcases List.mem_append.1 hop with hop | hop
      · exact meets_itemOps s hitem op hop
      rcases List.mem_append.1 hop with hop | hop
      · exact hclears.meets op hop
      · obtain ⟨lookup, -, hlookup⟩ := List.mem_flatMap.1 hop
        simp only [saveLookups, List.mem_cons, List.not_mem_nil, or_false] at hlookup
        rcases hlookup with rfl | rfl
        · trivial
        · trivial
    · exact meets_headOps t op hop
  | @storeAside t =>
    intro op hop
    rcases List.mem_append.1 hop with hop | hop
    · rcases List.mem_append.1 hop with hop | hop
      · exact meets_itemOps s hitem op hop
      · rw [List.mem_singleton.1 hop]
        trivial
    · exact meets_headOps t op hop

/-! ### Calls -/

omit [DecidableEq H] in
/-- Where the stored headers meet the condition, they still do. -/
def Keeps (P : ℕ → Header H → Prop) (s s' : Blockchain H) : Prop :=
  HeadersMeet P s.db → HeadersMeet P s'.db

instance : Std.Refl (Keeps P) := ⟨fun _ h => h⟩

instance : IsTrans (Blockchain H) (Keeps P) := ⟨fun _ _ _ h h' hmeet => h' (h hmeet)⟩

omit [DecidableEq H] in
private theorem keeps_of_sameDatabase {α : Type} {x : ChainM H α} (h : Prog.Rel SameDatabase x) :
    Prog.Rel (Keeps P) x := h.mono fun _ _ hsame hmeet => hsame ▸ hmeet

omit [DecidableEq H] in
private theorem keeps_of_eq {α : Type} {x : ChainM H α} (h : Prog.Rel Eq x) :
    Prog.Rel (Keeps P) x := keeps_of_sameDatabase (sameDatabase_of_eq h)

private theorem keeps_batch {ops : List (DBOp H)} (hops : ∀ op ∈ ops, op.Meets P) :
    Prog.Rel (Keeps P) (Blockchain.batch ops) := fun _ hmeet => hmeet.batch hops

private theorem keeps_batchUnless (fault : Option (ChainError H)) {ops : List (DBOp H)}
    (hops : ∀ op ∈ ops, op.Meets P) : Prog.Rel (Keeps P) (batchUnless fault ops) := by
  cases fault with
  | some e => exact .throw e
  | none => exact keeps_batch hops

private theorem keeps_putUnless (env : Env H) (fuel : ℕ) (fault : Option (ChainError H))
    {item : Item H} (hzero : item.getHeader.number ≠ 0)
    (hitem : P (asUintN64 item.getHeader.number) item.getHeader) :
    Prog.Rel (Keeps P) (putUnless env fuel fault item) := by
  rw [putUnless_eq]
  refine .bind_of_ensures (P := fun r => ∀ op ∈ r.1, op.Meets P)
    (keeps_of_sameDatabase (sameDatabase_preparePut env fuel item)) (fun s => ?_) ?_
  · exact (ensures_preparePut fuel hzero).mono fun _ _ h => h.2.2.2.meets hitem
  · rintro ⟨ops, commonAncestor, ancestorHeaders⟩ hops
    exact .bind (keeps_batchUnless fault hops) fun _ =>
      keeps_of_sameDatabase (sameDatabase_ofExcept _)

/-- **A put** keeps it, whatever the outcome and whether or not the database takes the batch. -/
theorem keeps_putBlockOrHeaderUnless (env : Env H) (fuel : ℕ) (fault : Option (ChainError H))
    {item : Item H} (hitem : P (asUintN64 item.getHeader.number) item.getHeader) :
    Prog.Rel (Keeps P) (putBlockOrHeaderUnless env fuel fault item) := by
  have hwork : Prog.Rel (Keeps P) (if item.getHeader.number = 0 then
      if env.hash env.genesis = env.hash item.getHeader then pure ()
      else Prog.throw .differentGenesis
    else putUnless env fuel fault item : ChainM H Unit) := by
    split
    · exact .ite (.pure _) (.throw _)
    · exact keeps_putUnless env fuel fault ‹_› hitem
  intro s
  have hfinish : Prog.Rel (Keeps P) (Prog.finish id (restoreHeads s) _) :=
    hwork.finish (fun _ => id) fun _ => id
  exact hfinish s

theorem keeps_putBlockOrHeader (env : Env H) (fuel : ℕ) {item : Item H}
    (hitem : P (asUintN64 item.getHeader.number) item.getHeader) :
    Prog.Rel (Keeps P) (putBlockOrHeader env fuel item) :=
  putBlockOrHeaderUnless_none env fuel item ▸ keeps_putBlockOrHeaderUnless env fuel none hitem

theorem keeps_putAll (env : Env H) (fuel : ℕ) {items : List (Item H)}
    (hitems : ∀ item ∈ items, P (asUintN64 item.getHeader.number) item.getHeader) :
    Prog.Rel (Keeps P) (putAll env fuel items) := by
  induction items with
  | nil => exact .pure _
  | cons item items ih =>
    refine .bind ?_ fun _ => ih fun item' hitem => hitems item' (List.mem_cons_of_mem _ hitem)
    exact keeps_putBlockOrHeader env fuel (hitems item (List.mem_cons_self ..))

private theorem keeps_saveHeads : Prog.Rel (Keeps P) (saveHeads : ChainM H Unit) :=
  .bind_of_ensures (P := fun ops => ∀ op ∈ ops, op.Meets P) (.gets _)
    (fun s => .gets (meets_headOps s)) fun _ hops => keeps_batch hops

theorem keeps_resetCanonicalHead (env : Env H) (fuel : ℕ) (canonicalHead : ℤ) :
    Prog.Rel (Keeps P) (resetCanonicalHead env fuel canonicalHead) := by
  refine .bind (keeps_of_eq (rel_numberToHash _)) fun hash => ?_
  rcases hash with _ | hash
  · exact .throw _
  refine .bind (keeps_of_eq (rel_getHeader hash _)) fun header => ?_
  refine .bind_of_ensures (P := fun ops => ∀ op ∈ ops, op.Meets P)
    (keeps_of_sameDatabase (sameDatabase_deleteCanonicalChainReferences hash fuel _))
    (fun s => (ensures_deleteCanonicalChainReferences hash fuel _).mono fun _ _ h => h.2.1.meets)
    fun forgotten hforgotten => ?_
  refine .bind_of_ensures (P := fun ops => ∀ op ∈ ops, op.Meets P) (.gets _)
    (fun s => .gets (meets_headOps s)) fun heads hheads => ?_
  refine .bind (keeps_batch fun op hop => ?_) fun _ =>
    keeps_of_sameDatabase (sameDatabase_ofExcept _)
  exact (List.mem_append.1 hop).elim (hforgotten op) (hheads op)

/-- Deleting reads, and moves heads in memory. -/
private theorem sameDatabase_delChild (env : Env H) (headHash : Option H) (fuel : ℕ) (hash : H)
    (n : ℤ) :
    Prog.Rel SameDatabase (delChild env headHash fuel hash n) := by
  induction fuel generalizing hash n with
  | zero => exact .throw _
  | succ fuel ih =>
    rcases headHash with _ | fallback
    · exact .pure _
    refine .bind (.modify fun _ => rfl) fun _ => ?_
    refine .bind (sameDatabase_of_eq (rel_numberToHash _)) fun child => ?_
    rcases child with _ | child
    · exact .pure _
    · exact .bind (sameDatabase_of_eq (rel_getHeader child _)) fun _ => .bind (ih _ _)
        fun _ => .pure _

omit [DecidableEq H] in
/-- What deletes one block. -/
private theorem meets_deletion (hash : H) (n : ℤ) : ∀ op ∈ ([.delHeader n hash, .delBody n hash,
    .delHashToNumber hash, .delTotalDifficulty n hash] : List (DBOp H)), op.Meets P := by
  intro op hop
  simp only [List.mem_cons, List.not_mem_nil, or_false] at hop
  rcases hop with rfl | rfl | rfl | rfl
  · trivial
  · trivial
  · trivial
  · trivial

/-- What deletes a block and its children stores nothing. -/
private theorem ensures_delChild_meets (env : Env H) (headHash : Option H) (fuel : ℕ) (hash : H)
    (n : ℤ)
    (s : Blockchain H) :
    (delChild env headHash fuel hash n).Ensures (fun ops _ => ∀ op ∈ ops, op.Meets P) s := by
  induction fuel generalizing hash n s with
  | zero => exact .throw
  | succ fuel ih =>
    rcases headHash with _ | fallback
    · exact .pure (meets_deletion hash n)
    refine .bind (.modify (.bind (.gets ?_)))
    split
    · exact .pure (meets_deletion hash n)
    refine .bind (ensures_getHeader fun childHeader _ => .bind ((ih _ _ _).mono ?_))
    intro rest t hrest
    refine .pure fun op hop => ?_
    exact (List.mem_append.1 hop).elim (meets_deletion hash n op) (hrest op)

theorem keeps_delBlock (env : Env H) (fuel : ℕ) (hash : H) :
    Prog.Rel (Keeps P) (delBlock env fuel hash) := by
  refine .bind (keeps_of_eq ?_) fun header => ?_
  · exact .bind (rel_hashToNumber hash) fun n => rel_getHeader hash n
  refine .bind (keeps_of_eq (rel_numberToHash _)) fun canonicalHash => .ite ?_ ?_
  · refine .bind_of_ensures (P := fun ops => ∀ op ∈ ops, op.Meets P)
      (keeps_of_sameDatabase (sameDatabase_delChild env _ fuel hash _))
      (ensures_delChild_meets env _ fuel hash _) fun deleted hdeleted => ?_
    refine .bind_of_ensures (P := fun ops => ∀ op ∈ ops, op.Meets P)
      (keeps_of_sameDatabase (sameDatabase_deleteCanonicalChainReferences _ fuel _))
      (fun s => (ensures_deleteCanonicalChainReferences _ fuel _).mono fun _ _ h => h.2.1.meets)
      fun forgotten hforgotten => ?_
    refine keeps_batch fun op hop => ?_
    exact (List.mem_append.1 hop).elim (hdeleted op) (hforgotten op)
  · exact .bind_of_ensures (P := fun ops => ∀ op ∈ ops, op.Meets P)
      (keeps_of_sameDatabase (sameDatabase_delChild env _ fuel hash _))
      (ensures_delChild_meets env _ fuel hash _) fun _ hdeleted => keeps_batch hdeleted

private theorem sameDatabase_iterate (env : Env H) (fuel : ℕ) (r : Running H) :
    Prog.Rel SameDatabase (iterate env fuel r) := by
  induction fuel generalizing r with
  | zero => exact .throw _
  | succ fuel ih =>
    refine .bind (sameDatabase_of_eq (rel_nextCallback r)) fun next => ?_
    rcases next with _ | ⟨r', nextBlock, reorg⟩
    · exact .pure _
    refine .bind (.bind (sameDatabase_of_eq (rel_reorgWhileOnBlock r' nextBlock)) fun _ => ?_) ih
    exact .ite (.pure _) (.bind (.modify fun _ => rfl) fun _ => .pure _)

theorem keeps_iterator (env : Env H) (fuel : ℕ) (name : String) (maxBlocks : Option ℤ)
    (releaseLockOnCallback : Bool) :
    Prog.Rel (Keeps P) (iterator env fuel name maxBlocks releaseLockOnCallback) := by
  have hbegin : Prog.Rel Eq (beginIterator env name maxBlocks releaseLockOnCallback) :=
    .bind (.gets _) fun hash => .ite (.throw _) (.bind (rel_hashToNumber hash) fun _ => .pure _)
  refine .bind (keeps_of_eq hbegin) fun r => .tryCatch ?_ fun e => ?_
  · exact .bind (keeps_of_sameDatabase (sameDatabase_iterate env fuel r)) fun _ =>
      .bind keeps_saveHeads fun _ => .pure _
  · exact .bind keeps_saveHeads fun _ => .throw e

end Blockchain

end Tvmjs
