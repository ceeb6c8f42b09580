import Tvmjs.Blockchain.Ancestry
import Tvmjs.Blockchain.Manager

/-!
# A put up to its batch
`put` reads, moves heads in memory, writes one batch and then calls the consensus.  Here is what
comes before the batch, with all that it throws for and all that it decides.

* `preparePut`, `putUnless_eq` -- a put up to its batch, which leaves the database alone;
* `Reaches` -- what the state has to hold for a put to get as far as its batch;
* `HookArguments` -- what the consensus is then called with;
* `Writes` -- the batch;
* `ensures_preparePut`, `yields_preparePut` -- a put that is prepared finds all this, and finding it
  is enough;
* `putBlockOrHeaderUnless_error` -- a put that throws was not prepared, or not taken by the
  database, and left no trace; or the consensus turned it away behind the batch.
-/

namespace Tvmjs

namespace Blockchain

variable {H : Type}

/-! ### Programs that leave the database alone -/

/-- The same database. -/
def SameDatabase (s s' : Blockchain H) : Prop := s.db = s'.db

instance : Std.Refl (SameDatabase (H := H)) := ⟨fun _ => rfl⟩

instance : IsTrans (Blockchain H) SameDatabase := ⟨fun _ _ _ => Eq.trans⟩

theorem sameDatabase_of_eq {α : Type} {x : ChainM H α} (h : Prog.Rel Eq x) :
    Prog.Rel SameDatabase x := h.mono fun _ _ heq => congrArg db heq

theorem sameDatabase_ofExcept {α : Type} (x : Except (ChainError H) α) :
    Prog.Rel SameDatabase (Prog.ofExcept x : ChainM H α) := fun _ => rfl

private theorem rel_getTotalDifficulty (hash : H) : Prog.Rel Eq (getTotalDifficulty hash) :=
  .bind (rel_hashToNumber hash) fun _ => .gets _

private theorem rel_extendsCanonicalHead (env : Env H) (item : Item H) (td headerTd : ℕ) :
    Prog.Rel Eq (extendsCanonicalHead env item td headerTd) :=
  .ite (.bind (.gets _) fun hash => .bind (rel_hashToNumber hash) fun _ => .pure _) (.pure _)

variable [DecidableEq H]

theorem sameDatabase_deleteCanonicalChainReferences (headHash : H) (fuel : ℕ) (n : ℤ) :
    Prog.Rel SameDatabase (deleteCanonicalChainReferences headHash fuel n) := by
  induction fuel generalizing n with
  | zero => exact .throw _
  | succ fuel ih =>
    refine .bind (sameDatabase_of_eq (rel_numberToHash n)) fun hash => ?_
    rcases hash with _ | hash
    · exact .pure _
    · exact .bind (.modify fun _ => rfl) fun _ => .bind (ih _) fun _ => .pure _

private theorem rel_walkBack (env : Env H) (fuel : ℕ) (header : Header H) (n : ℤ) :
    Prog.Rel Eq (walkBack env fuel header n) := by
  induction fuel generalizing header n with
  | zero => exact .throw _
  | succ fuel ih =>
    refine .bind (rel_numberToHash n) fun stale => .ite (.pure _) ?_
    exact .bind (rel_getHeader _ _) fun parent => .bind (ih parent _) fun _ => .pure _

private theorem sameDatabase_rebuildCanonical (env : Env H) (fuel : ℕ) (header : Header H) :
    Prog.Rel SameDatabase (rebuildCanonical env fuel header) :=
  .bind (sameDatabase_of_eq (rel_walkBack env fuel header _)) fun _ =>
    .bind (.modify fun _ => rfl) fun _ => .pure _

private theorem sameDatabase_becomeHead (env : Env H) (fuel : ℕ) (item : Item H) :
    Prog.Rel SameDatabase (becomeHead env fuel item) := by
  refine .bind (sameDatabase_of_eq (rel_findCommonAncestor env fuel _)) ?_
  rintro ⟨commonAncestor, ancestorHeaders⟩
  refine .bind (.modify fun _ => rfl) fun _ => ?_
  -- what follows the hardfork
  have hjoin : Prog.Rel SameDatabase (do
      let forgotten ← deleteCanonicalChainReferences (env.hash item.getHeader) fuel
        (item.getHeader.number + 1)
      let lookups ← rebuildCanonical env fuel item.getHeader
      pure (forgotten ++ lookups, commonAncestor, ancestorHeaders)) :=
    .bind (sameDatabase_deleteCanonicalChainReferences _ _ _) fun _ =>
      .bind (sameDatabase_rebuildCanonical env fuel _) fun _ => .pure _
  exact .ite (.bind (sameDatabase_ofExcept _) fun _ => hjoin) hjoin

private theorem sameDatabase_storeAside (env : Env H) (item : Item H) (td blockTd : ℕ) :
    Prog.Rel SameDatabase (storeAside env item td blockTd) := by
  have hadvances : Prog.Rel Eq (advancesHeadBlock env item td blockTd) :=
    .ite (.bind (rel_numberToHash _) fun _ => .bind (.gets _) fun hash =>
      .bind (rel_hashToNumber hash) fun _ => .pure _) (.pure _)
  refine .bind (sameDatabase_of_eq hadvances) fun advances => ?_
  exact .ite (.bind (.modify fun _ => rfl) fun _ => .pure _) (.pure _)

/-! ### A put up to its batch -/

/-- `put` up to its batch: the operations, and what the consensus is called with. -/
def preparePut (env : Env H) (fuel : ℕ) (item : Item H) :
    ChainM H (List (DBOp H) × Option (Header H) × List (Header H)) := do
  let header := item.getHeader
  let hash := env.hash header
  Prog.ofExcept (env.validate (← Prog.gets db) item)
  let headerTd ← getTotalDifficulty (← Prog.gets headHeaderHash)
  let blockTd ← getTotalDifficulty (← Prog.gets headBlockHash)
  let parentTd ← storedTotalDifficulty header.parentHash (header.number - 1)
  let td := header.difficulty + parentTd
  let ops := .setTotalDifficulty header.number hash td :: setBlockOrHeader hash item
  if ← extendsCanonicalHead env item td headerTd then do
    let (moved, commonAncestor, ancestorHeaders) ← becomeHead env fuel item
    pure (ops ++ moved ++ (← saveHeadOps), some commonAncestor, ancestorHeaders)
  else do
    let stored ← storeAside env item td blockTd
    pure (ops ++ stored ++ (← saveHeadOps), none, [])

/-- A put writes one batch, and calls the consensus after it. -/
theorem putUnless_eq (env : Env H) (fuel : ℕ) (fault : Option (ChainError H)) (item : Item H) :
    putUnless env fuel fault item = (do
      let (ops, commonAncestor, ancestorHeaders) ← preparePut env fuel item
      batchUnless fault ops
      Prog.ofExcept (env.newBlock item commonAncestor ancestorHeaders)) := by
  simp only [putUnless, preparePut, bind_assoc]
  -- the reads in front of the fork choice are the same
  refine bind_congr fun _ => bind_congr fun _ => bind_congr fun _ => bind_congr fun _ =>
    bind_congr fun _ => bind_congr fun _ => bind_congr fun _ => bind_congr fun wins => ?_
  rcases wins with _ | _
  · simp only [Bool.false_eq_true, if_false, bind_assoc, pure_bind]
  · simp only [if_true, bind_assoc, pure_bind]

theorem sameDatabase_preparePut (env : Env H) (fuel : ℕ) (item : Item H) :
    Prog.Rel SameDatabase (preparePut env fuel item) := by
  refine .bind (.gets _) fun _ => .bind (sameDatabase_ofExcept _) fun _ => ?_
  refine .bind (.gets _) fun _ => .bind (sameDatabase_of_eq (rel_getTotalDifficulty _)) fun _ => ?_
  refine .bind (.gets _) fun _ => .bind (sameDatabase_of_eq (rel_getTotalDifficulty _)) fun _ => ?_
  refine .bind (.gets _) fun _ =>
    .bind (sameDatabase_of_eq (rel_extendsCanonicalHead env item _ _)) fun _ => ?_
  refine .ite (.bind (sameDatabase_becomeHead env fuel item) ?_)
    (.bind (sameDatabase_storeAside env item _ _) fun _ => .bind (.gets _) fun _ => .pure _)
  rintro ⟨moved, commonAncestor, ancestorHeaders⟩
  exact .bind (.gets _) fun _ => .pure _

/-! ### Reaching the batch -/

/-- What an item that becomes the head needs: a common ancestor, a hardfork rule that takes it, an
end of the canonical numbers above it, and stored ancestors down to the canonical chain. -/
structure CanBecomeHead (env : Env H) (item : Item H) (s : Blockchain H) : Prop where
  ancestor : ∃ ancestor walked, CommonAncestor env s item.getHeader ancestor walked
  transition : env.hardforkByHeadBlockNumber = true → ∃ u,
    env.transition item.getHeader.number item.getHeader.timestamp = .ok u
  ends : ∃ k : ℕ, s.db.numberToHash (asUintN64 (item.getHeader.number + 1 + k)) = none
  rooted : ∃ rebuilt, WalksBack env s.db item.getHeader item.getHeader.number rebuilt

/-- What the state has to hold for a put to get as far as its batch: the item is no genesis block
and is valid, both heads are known, and a head that would win the fork choice can become one. -/
structure Reaches (env : Env H) (item : Item H) (s : Blockchain H) : Prop where
  notGenesis : item.getHeader.number ≠ 0
  valid : ∃ u, env.validate s.db item = .ok u
  headHeader : (s.db.hashToNumber s.headHeaderHash).isSome
  headBlock : (s.db.hashToNumber s.headBlockHash).isSome
  wins : Wins env s item → CanBecomeHead env item s

/-- An item that is stored aside takes the head block: by its total difficulty, or where blocks are
ordered by number, when it is canonical above the head block. -/
def TakesHeadBlock (env : Env H) (item : Item H) (s : Blockchain H) : Prop :=
  if env.hasConsensus then s.db.td s.headBlockHash < s.db.itemTd item
  else s.db.numberToHash (asUintN64 item.getHeader.number) = some (env.hash item.getHeader) ∧
    ∃ n, s.db.hashToNumber s.headBlockHash = some n ∧ n < item.getHeader.number

/-- The item moves the head block to itself. -/
def MovesHeadBlock (env : Env H) (item : Item H) (s : Blockchain H) : Prop :=
  item.isBlock = true ∧ (Wins env s item ∨ TakesHeadBlock env item s)

/-- The arguments of `consensus.newBlock`: the common ancestor of an item which becomes the head
with the headers that were walked, and nothing for an item which is stored aside. -/
def HookArguments (env : Env H) (item : Item H) (s : Blockchain H)
    (commonAncestor : Option (Header H)) (ancestorHeaders : List (Header H)) : Prop :=
  (Wins env s item ∧ ∃ ancestor, CommonAncestor env s item.getHeader ancestor ancestorHeaders ∧
      commonAncestor = some ancestor) ∨
    (¬ Wins env s item ∧ commonAncestor = none ∧ ancestorHeaders = [])

/-! ### The batch -/

/-- The operations that store the item itself. -/
def itemOps (env : Env H) (item : Item H) (s : Blockchain H) : List (DBOp H) :=
  .setTotalDifficulty item.getHeader.number (env.hash item.getHeader) (s.db.itemTd item) ::
    setBlockOrHeader (env.hash item.getHeader) item

/-- The operations that store the heads of `t`. -/
def headOps (t : Blockchain H) : List (DBOp H) :=
  [.setHeads t.heads, .setHeadHeader t.headHeaderHash, .setHeadBlock t.headBlockHash]

/-- The batch of a put from `s`, whose heads are then those of `t`. -/
inductive Writes (env : Env H) (item : Item H) (s : Blockchain H) : List (DBOp H) → Prop
  | becomeHead {forgotten : List (DBOp H)} {rebuilt : Rebuilt H} {t : Blockchain H}
      (hwins : Wins env s item) (hclears : Clears s.db (item.getHeader.number + 1) forgotten)
      (hwalks : WalksBack env s.db item.getHeader item.getHeader.number rebuilt)
      (hheads : forgotten = [] → rebuilt.stale = [] →
        t.heads = s.heads ∧ t.headHeaderHash = env.hash item.getHeader ∧
          t.headBlockHash =
            if item.isBlock then env.hash item.getHeader else s.headBlockHash) :
      Writes env item s (itemOps env item s ++ (forgotten ++ rebuilt.lookups.flatMap fun lookup =>
        saveLookups lookup.1 lookup.2) ++ headOps t)
  | storeAside {t : Blockchain H} (hloses : ¬ Wins env s item) (hheads : t.heads = s.heads)
      (hheader : t.headHeaderHash = s.headHeaderHash)
      (hmoved : MovesHeadBlock env item s → t.headBlockHash = env.hash item.getHeader)
      (hkept : ¬ MovesHeadBlock env item s → t.headBlockHash = s.headBlockHash) :
      Writes env item s (itemOps env item s ++
        [.setHashToNumber (env.hash item.getHeader) item.getHeader.number] ++ headOps t)

section Batch

variable {env : Env H} {item : Item H} {s : Blockchain H}

omit [DecidableEq H] in
private theorem ensures_knownTotalDifficulty {hash : H} {Q : ℕ → Blockchain H → Prop}
    (h : (s.db.hashToNumber hash).isSome → Q (s.db.td hash) s) :
    (getTotalDifficulty hash).Ensures Q s := by
  refine .bind (ensures_hashToNumber fun n hn => .gets ?_)
  rw [Database.td, hn] at h
  exact h rfl

private theorem ensures_takesHeadBlock {Q : Bool → Blockchain H → Prop}
    (h : ∀ b : Bool, (b = true ↔ TakesHeadBlock env item s) → Q b s) :
    (advancesHeadBlock env item (s.db.itemTd item) (s.db.td s.headBlockHash)).Ensures Q s := by
  unfold advancesHeadBlock
  refine .ite (fun hc => ?_) fun hc => ?_
  · have hcons : env.hasConsensus = false := by simpa using hc
    refine .bind (.gets (.bind (.gets (.bind (ensures_hashToNumber fun n hn => .pure (h _ ?_))))))
    simp [TakesHeadBlock, hcons, hn]
  · have hcons : env.hasConsensus = true := by simpa using hc
    refine .pure (h _ ?_)
    simp [TakesHeadBlock, hcons]

/-- A rebuild with nothing stale moves no head. -/
private theorem ensures_rebuildCanonical (fuel : ℕ) (header : Header H) :
    (rebuildCanonical env fuel header).Ensures (fun ops t => t.db = s.db ∧ ∃ rebuilt,
      WalksBack env s.db header header.number rebuilt ∧
      ops = (rebuilt.lookups.flatMap fun lookup => saveLookups lookup.1 lookup.2) ∧
      (rebuilt.stale = [] → t = s)) s := by
  refine .bind ((ensures_walkBack fuel header _).mono ?_)
  rintro rebuilt t ⟨rfl, hwalks⟩
  refine .bind (.modify (.pure ⟨rfl, rebuilt, hwalks, rfl, fun hstale => ?_⟩))
  simp only [hstale, List.not_mem_nil, if_false, Option.map_id']

/-- What becoming the head finds, returns and leaves: with nothing to forget and nothing stale the
iterator heads stay. -/
def BecomesHead (env : Env H) (item : Item H) (s : Blockchain H)
    (r : List (DBOp H) × Header H × List (Header H)) (t : Blockchain H) : Prop :=
  t.db = s.db ∧ CanBecomeHead env item s ∧
    CommonAncestor env s item.getHeader r.2.1 r.2.2 ∧ ∃ forgotten rebuilt,
      Clears s.db (item.getHeader.number + 1) forgotten ∧
      WalksBack env s.db item.getHeader item.getHeader.number rebuilt ∧
      r.1 = forgotten ++ rebuilt.lookups.flatMap (fun lookup => saveLookups lookup.1 lookup.2) ∧
      (forgotten = [] → rebuilt.stale = [] →
        t.heads = s.heads ∧ t.headHeaderHash = env.hash item.getHeader ∧
          t.headBlockHash =
            if item.isBlock then env.hash item.getHeader else s.headBlockHash)

private theorem ensures_becomeHead (fuel : ℕ) (item : Item H) :
    (becomeHead env fuel item).Ensures (BecomesHead env item s) s := by
  refine .bind ((ensures_findCommonAncestor fuel _).mono ?_)
  rintro ⟨ancestor, walked⟩ s' ⟨rfl, hancestor⟩
  refine .bind (.modify ?_)
  -- what follows the hardfork
  have hjoin (htransition : env.hardforkByHeadBlockNumber = true → ∃ u,
      env.transition item.getHeader.number item.getHeader.timestamp = .ok u) :
      Prog.Ensures (do
        let forgotten ← deleteCanonicalChainReferences (env.hash item.getHeader) fuel
          (item.getHeader.number + 1)
        let lookups ← rebuildCanonical env fuel item.getHeader
        pure (forgotten ++ lookups, ancestor, walked)) (BecomesHead env item s')
        { s' with
          headHeaderHash := env.hash item.getHeader
          headBlockHash := if item.isBlock then env.hash item.getHeader
            else s'.headBlockHash } := by
    refine .bind ((ensures_deleteCanonicalChainReferences _ fuel _).mono ?_)
    rintro forgotten t ⟨hdb, hclears, hstay⟩
    replace hdb : t.db = s'.db := hdb
    refine .bind ((ensures_rebuildCanonical fuel _).mono ?_)
    rintro ops t' ⟨hdb', rebuilt, hwalks, rfl, hstay'⟩
    rw [hdb] at hdb' hwalks
    refine .pure ⟨hdb', ⟨⟨ancestor, walked, hancestor⟩, htransition, hclears.exists_free,
      ⟨rebuilt, hwalks⟩⟩, hancestor, forgotten, rebuilt, hclears, hwalks, rfl, ?_⟩
    intro hforgotten hstale
    rw [hstay' hstale, hstay hforgotten]
    exact ⟨rfl, rfl, rfl⟩
  refine .ite (fun _ => ?_) fun hoff => ?_
  · exact .bind (.ofExcept fun u hu => hjoin fun _ => ⟨u, hu⟩)
  · exact hjoin fun hon => absurd hon hoff

private theorem ensures_storeAside (item : Item H) :
    (storeAside env item (s.db.itemTd item) (s.db.td s.headBlockHash)).Ensures
      (fun ops t => ops = [.setHashToNumber (env.hash item.getHeader) item.getHeader.number] ∧
        t.db = s.db ∧ t.heads = s.heads ∧ t.headHeaderHash = s.headHeaderHash ∧
        (item.isBlock = true ∧ TakesHeadBlock env item s →
          t.headBlockHash = env.hash item.getHeader) ∧
        (¬ (item.isBlock = true ∧ TakesHeadBlock env item s) →
          t.headBlockHash = s.headBlockHash)) s := by
  refine .bind (ensures_takesHeadBlock fun b hb => .ite (fun hc => ?_) fun hc => ?_)
  · have hmoves : item.isBlock = true ∧ TakesHeadBlock env item s := by
      rw [Bool.and_eq_true, hb] at hc
      exact hc.symm
    exact .bind (.modify (.pure ⟨rfl, rfl, rfl, rfl, fun _ => rfl, fun hn => absurd hmoves hn⟩))
  · have hkeeps : ¬ (item.isBlock = true ∧ TakesHeadBlock env item s) := by
      rw [Bool.and_eq_true, hb] at hc
      exact fun h => hc h.symm
    exact .pure ⟨rfl, rfl, rfl, rfl, fun h => absurd h hkeeps, fun _ => rfl⟩

/-- What a put that is prepared has found and will write. -/
theorem ensures_preparePut (fuel : ℕ) (hzero : item.getHeader.number ≠ 0) :
    (preparePut env fuel item).Ensures (fun r t => t.db = s.db ∧ Reaches env item s ∧
      HookArguments env item s r.2.1 r.2.2 ∧ Writes env item s r.1) s := by
  refine .bind (.gets (.bind (.ofExcept fun u hvalid => ?_)))
  refine .bind (.gets (.bind (ensures_knownTotalDifficulty fun hheader => ?_)))
  refine .bind (.gets (.bind (ensures_knownTotalDifficulty fun hblock => .bind (.gets ?_))))
  refine .bind (ensures_extendsCanonicalHead fun b hb => .ite (fun hc => ?_) fun hc => ?_)
  · have hwins := hb.1 hc
    refine .bind ((ensures_becomeHead fuel item).mono ?_)
    rintro ⟨moved, ancestor, walked⟩ t ⟨hdb, hcan, hancestor, forgotten, rebuilt, hclears, hwalks,
      rfl, hheads⟩
    refine .bind (.gets (.pure ⟨hdb, ⟨hzero, ⟨u, hvalid⟩, hheader, hblock, fun _ => hcan⟩,
      .inl ⟨hwins, ancestor, hancestor, rfl⟩, ?_⟩))
    exact .becomeHead hwins hclears hwalks hheads
  · have hloses : ¬ Wins env s item := fun hw => hc (hb.2 hw)
    refine .bind ((ensures_storeAside item).mono ?_)
    rintro ops t ⟨rfl, hdb, hheads, hheaderHash, hmoved, hkept⟩
    refine .bind (.gets (.pure ⟨hdb, ⟨hzero, ⟨u, hvalid⟩, hheader, hblock,
      fun hw => absurd hw hloses⟩, .inr ⟨hloses, rfl, rfl⟩, ?_⟩))
    refine .storeAside hloses hheads hheaderHash (fun h => hmoved ⟨h.1, ?_⟩) fun h => hkept ?_
    · exact h.2.resolve_left hloses
    · exact fun hm => h ⟨hm.1, .inr hm.2⟩

/-! ### Puts that are prepared -/

omit [DecidableEq H] in
private theorem yields_extendsCanonicalHead (h : (s.db.hashToNumber s.headHeaderHash).isSome) :
    ∃ b : Bool, (b = true ↔ Wins env s item) ∧
      (extendsCanonicalHead env item (s.db.itemTd item)
        (s.db.td s.headHeaderHash)).Yields s b s := by
  obtain ⟨n, hn⟩ := Option.isSome_iff_exists.1 h
  by_cases hcons : env.hasConsensus = true
  · refine ⟨_, ?_, .ite_neg (by simp [hcons]) (.pure _ s)⟩
    simp [Wins, hcons]
  · refine ⟨_, ?_, .ite_pos (by simp [hcons]) (.bind (.gets _ s)
      (.bind (yields_hashToNumber hn) (.pure _ s)))⟩
    simp [Wins, hcons, hn]

private theorem yields_advancesHeadBlock (h : (s.db.hashToNumber s.headBlockHash).isSome)
    (td blockTd : ℕ) :
    ∃ b, (advancesHeadBlock env item td blockTd).Yields s b s := by
  obtain ⟨n, hn⟩ := Option.isSome_iff_exists.1 h
  by_cases hcons : env.hasConsensus = true
  · exact ⟨_, .ite_neg (by simp [hcons]) (.pure _ s)⟩
  · exact ⟨_, .ite_pos (by simp [hcons]) (.bind (.gets _ s) (.bind (.gets _ s)
      (.bind (yields_hashToNumber hn) (.pure _ s))))⟩

private theorem yields_becomeHead (h : CanBecomeHead env item s) : ∃ least, ∀ fuel, least ≤ fuel →
    ∃ r t, (becomeHead env fuel item).Yields s r t := by
  obtain ⟨⟨ancestor, walked, hancestor⟩, htransition, ⟨k, hfree⟩, rebuilt, hwalks⟩ := h
  obtain ⟨forgotten, hclears⟩ := exists_clears hfree
  obtain ⟨least₁, hfind⟩ := yields_findCommonAncestor hancestor
  obtain ⟨least₂, hforget⟩ :=
    yields_deleteCanonicalChainReferences hclears (env.hash item.getHeader)
  obtain ⟨least₃, hwalk⟩ := yields_walkBack hwalks
  refine ⟨least₁ + least₂ + least₃, fun fuel hfuel => ?_⟩
  obtain ⟨t, hdelete, ht⟩ := hforget fuel (by omega)
    { s with
      headHeaderHash := env.hash item.getHeader
      headBlockHash := if item.isBlock then env.hash item.getHeader else s.headBlockHash } rfl
  have hrebuild := hwalk fuel (by omega) t ht
  -- what follows the hardfork
  obtain ⟨r, t', hjoin⟩ : ∃ r t', Prog.Yields (do
      let forgotten ← deleteCanonicalChainReferences (env.hash item.getHeader) fuel
        (item.getHeader.number + 1)
      let lookups ← rebuildCanonical env fuel item.getHeader
      pure (forgotten ++ lookups, ancestor, walked))
      { s with
        headHeaderHash := env.hash item.getHeader
        headBlockHash := if item.isBlock then env.hash item.getHeader else s.headBlockHash } r t' :=
    ⟨_, _, .bind hdelete (.bind (.bind hrebuild (.bind (.modify _ t) (.pure _ _))) (.pure _ _))⟩
  refine ⟨r, t', .bind (hfind fuel (by omega)) (.bind (.modify _ s) ?_)⟩
  by_cases hon : env.hardforkByHeadBlockNumber = true
  · obtain ⟨u, hu⟩ := htransition hon
    exact .ite_pos hon (.bind (.ofExcept hu _) hjoin)
  · exact .ite_neg hon hjoin

/-- What the state has to hold is enough. -/
theorem yields_preparePut (h : Reaches env item s) : ∃ fuel r t,
    (preparePut env fuel item).Yields s r t := by
  obtain ⟨u, hvalid⟩ := h.valid
  obtain ⟨n, hn⟩ := Option.isSome_iff_exists.1 h.headHeader
  obtain ⟨m, hm⟩ := Option.isSome_iff_exists.1 h.headBlock
  obtain ⟨b, hb, hextends⟩ : ∃ b : Bool, (b = true ↔ Wins env s item) ∧
      (extendsCanonicalHead env item (s.db.itemTd item) (s.db.td s.headHeaderHash)).Yields s b s :=
    yields_extendsCanonicalHead h.headHeader
  -- the reads in front of the fork choice
  have hreads {fuel : ℕ} {r : List (DBOp H) × Option (Header H) × List (Header H)}
      {t : Blockchain H} (hrest : Prog.Yields (if b = true then do
          let (moved, commonAncestor, ancestorHeaders) ← becomeHead env fuel item
          pure (itemOps env item s ++ moved ++ (← saveHeadOps), some commonAncestor,
            ancestorHeaders)
        else do
          let stored ← storeAside env item (s.db.itemTd item) (s.db.td s.headBlockHash)
          pure (itemOps env item s ++ stored ++ (← saveHeadOps), none, [])) s r t) :
      (preparePut env fuel item).Yields s r t :=
    .bind (.gets _ s) (.bind (.ofExcept hvalid s) (.bind (.gets _ s)
      (.bind (yields_getTotalDifficulty hn) (.bind (.gets _ s)
        (.bind (yields_getTotalDifficulty hm) (.bind (.gets _ s) (.bind hextends hrest)))))))
  cases b with
  | true =>
    obtain ⟨least, hhead⟩ := yields_becomeHead (h.wins (hb.1 rfl))
    obtain ⟨⟨moved, ancestor, walked⟩, t, hyields⟩ := hhead least (Nat.le_refl _)
    exact ⟨least, _, t, hreads (.ite_pos rfl (.bind hyields (.bind (.gets _ t) (.pure _ t))))⟩
  | false =>
    obtain ⟨b', hadvances⟩ : ∃ b', (advancesHeadBlock env item (s.db.itemTd item)
        (s.db.td s.headBlockHash)).Yields s b' s := yields_advancesHeadBlock h.headBlock _ _
    obtain ⟨ops, t, haside⟩ : ∃ ops t, (storeAside env item (s.db.itemTd item)
        (s.db.td s.headBlockHash)).Yields s ops t := by
      by_cases hmoves : (b' && item.isBlock) = true
      · exact ⟨_, _, .bind hadvances (.ite_pos hmoves (.bind (.modify _ s) (.pure _ _)))⟩
      · exact ⟨_, _, .bind hadvances (.ite_neg hmoves (.pure _ _))⟩
    exact ⟨0, _, t, hreads (.ite_neg nofun (.bind haside (.bind (.gets _ t) (.pure _ t))))⟩

end Batch

/-! ### Puts that throw -/

/-- Bring the heads of `s` back. -/
def restoreHeads (s s' : Blockchain H) : Blockchain H :=
  { s' with heads := s.heads, headHeaderHash := s.headHeaderHash, headBlockHash := s.headBlockHash }

/-- The catch block puts the old heads over what the body left. -/
private theorem run_putBlockOrHeaderUnless (env : Env H) (fuel : ℕ) (fault : Option (ChainError H))
    {item : Item H} (hzero : item.getHeader.number ≠ 0) (s : Blockchain H) :
    (putBlockOrHeaderUnless env fuel fault item).run s =
      ((putUnless env fuel fault item).finish id (restoreHeads s)).run s := by
  change ((if item.getHeader.number = 0 then
      if env.hash env.genesis = env.hash item.getHeader then pure ()
      else Prog.throw .differentGenesis
    else putUnless env fuel fault item : ChainM H Unit).finish id (restoreHeads s)).run s = _
  rw [if_neg hzero]

/-- A genesis block is put again, or turned away; nothing moves. -/
theorem putBlockOrHeaderUnless_zero (env : Env H) (fuel : ℕ) (fault : Option (ChainError H))
    {item : Item H} (hzero : item.getHeader.number = 0) (s : Blockchain H) :
    ((putBlockOrHeaderUnless env fuel fault item).run s).2 = s := by
  change (((if item.getHeader.number = 0 then
      if env.hash env.genesis = env.hash item.getHeader then pure ()
      else Prog.throw .differentGenesis
    else putUnless env fuel fault item : ChainM H Unit).finish id (restoreHeads s)).run s).2 = _
  rw [if_pos hzero]
  split
  · rfl
  · rfl

/-- **A put that throws** was not prepared, or had its batch refused, and left the chain as it was;
or it wrote its batch and was turned away by the consensus. -/
theorem putBlockOrHeaderUnless_error (env : Env H) (fuel : ℕ) (fault : Option (ChainError H))
    {item : Item H} (hzero : item.getHeader.number ≠ 0) {s s' : Blockchain H} {e : ChainError H}
    (hrun : (putBlockOrHeaderUnless env fuel fault item).run s = (.error e, s')) :
    s' = s ∨ fault = none ∧ ∃ r t, (preparePut env fuel item).Yields s r t ∧
      env.newBlock item r.2.1 r.2.2 = .error e ∧ s' = { s with db := s.db.batch r.1 } := by
  have hsame := sameDatabase_preparePut env fuel item s
  rw [run_putBlockOrHeaderUnless env fuel fault hzero, Prog.run_finish, putUnless_eq] at hrun
  rcases hprep : (preparePut env fuel item).run s with ⟨e' | r, t⟩
  · rw [hprep] at hsame
    rw [Prog.run_bind_of_error hprep] at hrun
    cases hrun
    exact .inl (congrArg (fun db => { s with db }) (Eq.symm hsame))
  · rw [hprep] at hsame
    rw [Prog.run_bind_of_ok hprep] at hrun
    cases fault with
    | some e' =>
      -- the batch is refused
      cases hrun
      exact .inl (congrArg (fun db => { s with db }) (Eq.symm hsame))
    | none =>
      refine .inr ⟨rfl, r, t, hprep, ?_⟩
      have hafter : (batchUnless none r.1 >>= fun _ => Prog.ofExcept
          (env.newBlock item r.2.1 r.2.2) : ChainM H Unit).run t =
          (env.newBlock item r.2.1 r.2.2, { t with db := t.db.batch r.1 }) := rfl
      rw [hafter] at hrun
      rcases hhook : env.newBlock item r.2.1 r.2.2 with e' | u
      · rw [hhook] at hrun
        cases hrun
        exact ⟨rfl, congrArg (fun db => { s with db := Database.batch db r.1 }) (Eq.symm hsame)⟩
      · rw [hhook] at hrun
        cases hrun

/-- A put that is prepared and taken by the database, and turned away by the consensus. -/
theorem putBlockOrHeaderUnless_of_yields (env : Env H) (fuel : ℕ) {item : Item H}
    (hzero : item.getHeader.number ≠ 0) {s t : Blockchain H}
    {r : List (DBOp H) × Option (Header H) × List (Header H)}
    (hprep : (preparePut env fuel item).Yields s r t) {e : ChainError H}
    (hhook : env.newBlock item r.2.1 r.2.2 = .error e) :
    (putBlockOrHeaderUnless env fuel none item).run s =
      (.error e, { s with db := s.db.batch r.1 }) := by
  have hsame := sameDatabase_preparePut env fuel item s
  replace hprep : (preparePut env fuel item).run s = (.ok r, t) := hprep
  rw [hprep] at hsame
  replace hsame : s.db = t.db := hsame
  rw [run_putBlockOrHeaderUnless env fuel none hzero, Prog.run_finish, putUnless_eq,
    Prog.run_bind_of_ok hprep]
  have hafter : (batchUnless none r.1 >>= fun _ => Prog.ofExcept
      (env.newBlock item r.2.1 r.2.2) : ChainM H Unit).run t =
      (.error e, { t with db := t.db.batch r.1 }) := by
    rw [hhook]
    rfl
  rw [hafter, hsame]
  rfl

/-- What the consensus is called with is determined by the state. -/
theorem HookArguments.unique {env : Env H} {item : Item H} {s : Blockchain H}
    {c c' : Option (Header H)} {a a' : List (Header H)} (h : HookArguments env item s c a)
    (h' : HookArguments env item s c' a') : c = c' ∧ a = a' := by
  rcases h with ⟨hw, x, hx, rfl⟩ | ⟨hw, rfl, rfl⟩
  · rcases h' with ⟨_, x', hx', rfl⟩ | ⟨hw', _⟩
    · obtain ⟨rfl, rfl⟩ := hx.unique hx'
      exact ⟨rfl, rfl⟩
    · exact absurd hw hw'
  · rcases h' with ⟨hw', _⟩ | ⟨_, rfl, rfl⟩
    · exact absurd hw' hw
    · exact ⟨rfl, rfl⟩

end Blockchain

end Tvmjs
