import Tvmjs.Blockchain.Index

/-!
# What the operations on the chain do

One specification for each function of the chain that moves it: forgetting the upper part of the
canonical chain prunes it, rebuilding it descends from the new head, and an item that is put either
becomes the head or is stored aside.

* `deleteCanonicalChainReferences_spec`, `walkBack_spec` -- the two loops;
* `becomeHead_spec`, `storeAside_spec`, `put_spec` -- putting an item.
-/

namespace Tvmjs

namespace Blockchain

variable {H : Type}

/-! ### Moving heads -/

/-- Move every head. -/
def relocate (f : H → H) (s : Blockchain H) : Blockchain H :=
  { s with
    heads := fun name => (s.heads name).map f
    headHeaderHash := f s.headHeaderHash
    headBlockHash := f s.headBlockHash }

private theorem relocate_id (s : Blockchain H) : relocate id s = s := by
  simp [relocate]

/-- Moving the heads twice is moving them once. -/
private theorem relocate_relocate (f g : H → H) (s : Blockchain H) :
    relocate g (relocate f s) = relocate (g ∘ f) s := by
  simp [relocate]

/-- `f` sends what `c` holds from a number on to `fresh`, and keeps the rest. -/
structure Forgets (c : ℕ → Option H) (n : ℕ) (fresh : H) (f : H → H) : Prop where
  forgotten : ∀ k h, n ≤ k → c k = some h → f h = fresh
  kept : ∀ h, (∀ k, n ≤ k → c k ≠ some h) → f h = h

/-- Writing the heads to the database. -/
def persist (s : Blockchain H) : Blockchain H :=
  { s with
    db := { s.db with
      heads := some s.heads
      headHeader := some s.headHeaderHash
      headBlock := some s.headBlockHash } }

/-- How heads move when the chain `c` is rebuilt from the height `fork` on, to end in `fresh` at the
height `n`: from above to the new head, from what is replaced to the common hash. -/
structure Regrafts (c : ℕ → Option H) (fork n : ℕ) (common fresh : H) (f : H → H) : Prop where
  above : ∀ k h, n < k → c k = some h → f h = fresh
  replaced : ∀ k h, fork < k → k ≤ n → c k = some h → f h = common
  kept : ∀ h, (∀ k, fork < k → c k ≠ some h) → f h = h

/-- First the forgotten heads move, then the replaced ones. -/
theorem Regrafts.comp {c : ℕ → Option H} {fork n : ℕ} {common fresh : H} {f g : H → H}
    (hdist : ∀ k k' h, c k = some h → c k' = some h → k = k') (hfork : fork ≤ n)
    (hfresh : ∀ k, fork < k → c k ≠ some fresh) (hf : Forgets c (n + 1) fresh f)
    (hreplaced : ∀ k h, fork < k → k ≤ n → c k = some h → g h = common)
    (hkept : ∀ h, (∀ k, fork < k → k ≤ n → c k ≠ some h) → g h = h) :
    Regrafts c fork n common fresh (g ∘ f) where
  above k h hk hck := by
    rw [Function.comp, hf.forgotten k h hk hck]
    exact hkept fresh fun k hlow _ => hfresh k hlow
  replaced k h hlow hhigh hck := by
    have hsame : f h = h := hf.kept h fun k' hk' hck' => by
      have := hdist k k' h hck hck'
      omega
    rw [Function.comp, hsame]
    exact hreplaced k h hlow hhigh hck
  kept h hh := by
    rw [Function.comp, hf.kept h fun k hk => hh k (by omega)]
    exact hkept h fun k hlow _ => hh k hlow

/-- After a graft, heads that were on the old chain are on the new one. -/
theorem Regrafts.onChain {c : ℕ → Option H} {Link : ℕ → H → H → Prop} {fork n : ℕ}
    {common fresh : H} {f : H → H} {path : List (H × ℕ)} (hf : Regrafts c fork n common fresh f)
    (hdist : ∀ k k' h, c k = some h → c k' = some h → k = k')
    (hdesc : Descends Link c fork n fresh path) (hcommon : c fork = some common)
    (htop : overlay path (prune c n) n = some fresh) {k : ℕ} {h : H} (hk : c k = some h) :
    ∃ k', overlay path (prune c n) k' = some (f h) := by
  have hle := hdesc.fork_le
  have hlow : ∀ j, j ≤ fork → overlay path (prune c n) j = c j := fun j hj => by
    rw [hdesc.overlay_of_not_mem _ (.inl hj), prune_of_le (by omega)]
  by_cases habove : n < k
  · exact ⟨n, by rw [hf.above k h habove hk, htop]⟩
  · by_cases hfork : k ≤ fork
    · have hsame : f h = h := hf.kept h fun k' hk' hck' => by
        have := hdist k k' h hk hck'
        omega
      exact ⟨k, by rw [hlow k hfork, hsame, hk]⟩
    · refine ⟨fork, ?_⟩
      rw [hlow fork (Nat.le_refl _), hf.replaced k h (by omega) (by omega) hk, hcommon]

/-! ### Reading -/

/-- The hash at a number is read. -/
theorem ensures_numberToHash {n : ℤ} {Q : Option H → Blockchain H → Prop} {s : Blockchain H}
    (h : Q (s.db.numberToHash (asUintN64 n)) s) : (numberToHash n).Ensures Q s :=
  Prog.Ensures.gets h

/-- The header is read; a missing one throws. -/
theorem ensures_getHeader {hash : H} {n : ℤ} {Q : Header H → Blockchain H → Prop}
    {s : Blockchain H} (h : ∀ header, s.db.header (asUintN64 n) hash = some header → Q header s) :
    (getHeader hash n).Ensures Q s := by
  refine .bind (.gets ?_)
  rcases hheader : s.db.header (asUintN64 n) hash with _ | header
  · exact .throw
  · exact .pure (h header hheader)

/-- The number of a hash is read; a missing one throws. -/
theorem ensures_hashToNumber {hash : H} {Q : ℕ → Blockchain H → Prop} {s : Blockchain H}
    (h : ∀ n, s.db.hashToNumber hash = some n → Q n s) : (hashToNumber hash).Ensures Q s := by
  refine .bind (.gets ?_)
  rcases hn : s.db.hashToNumber hash with _ | n
  · exact .throw
  · exact .pure (h n hn)

theorem rel_numberToHash (n : ℤ) : Prog.Rel Eq (numberToHash n : ChainM H (Option H)) := .gets _

theorem rel_getHeader (hash : H) (n : ℤ) : Prog.Rel Eq (getHeader hash n) := by
  refine .bind (.gets _) fun header => ?_
  rcases header with _ | header
  · exact .throw _
  · exact .pure _

theorem rel_hashToNumber (hash : H) : Prog.Rel Eq (hashToNumber hash) := by
  refine .bind (.gets _) fun n => ?_
  rcases n with _ | n
  · exact .throw _
  · exact .pure _

/-- Reading the canonical header changes nothing. -/
private theorem rel_getCanonicalHeader (n : ℤ) :
    Prog.Rel Eq (getCanonicalHeader n : ChainM H (Header H)) := by
  refine .bind (rel_numberToHash n) fun hash => ?_
  rcases hash with _ | hash
  · exact .throw _
  · exact rel_getHeader hash n

/-- Nor does walking down. -/
private theorem rel_descendTo (target fuel : ℕ) (header : Header H) (ancestors : List (Header H)) :
    Prog.Rel Eq (descendTo target fuel header ancestors) := by
  induction fuel generalizing header ancestors with
  | zero => exact .throw _
  | succ fuel ih => exact .ite (.bind (rel_getHeader _ _) fun _ => ih _ _) (.pure _)

variable {env : Env H} {s : Blockchain H}

/-- A canonical block that was read is on the chain under its hash. -/
private theorem ensures_getBlock (hstored : Stored env s.db) {n : ℤ}
    {Q : Header H → Blockchain H → Prop}
    (h : ∀ header, s.db.numberToHash (asUintN64 n) = some (env.hash header) →
      s.db.header (asUintN64 n) (env.hash header) = some header → Q header s) :
    (getBlock env n).Ensures Q s := by
  refine .bind (ensures_numberToHash ?_)
  rcases hhash : s.db.numberToHash (asUintN64 n) with _ | hash
  · exact .throw
  refine .bind (ensures_getHeader fun header hheader => .bind (.gets (.ite (fun _ => .pure ?_)
    fun _ => .throw)))
  obtain ⟨-, rfl, -⟩ := hstored.key _ _ _ hheader
  exact h header hhash hheader

/-- Nor does reading a block. -/
private theorem rel_getBlock (n : ℤ) : Prog.Rel Eq (getBlock env n) := by
  refine .bind (rel_numberToHash n) fun hash => ?_
  rcases hash with _ | hash
  · exact .throw _
  · exact .bind (rel_getHeader hash n) fun _ => .bind (.gets _) fun _ => .ite (.pure _) (.throw _)

/-! ### The fork choice -/

/-- The total difficulty of a hash the index knows. -/
def Database.td (db : Database H) (hash : H) : ℕ :=
  (db.hashToNumber hash).elim 0 fun n => (db.totalDifficulty (asUintN64 n) hash).getD 0

/-- The total difficulty an item would be stored with. -/
def Database.itemTd (db : Database H) (item : Item H) : ℕ :=
  let header := item.getHeader
  header.difficulty + (db.totalDifficulty (asUintN64 (header.number - 1)) header.parentHash).getD 0

/-- The fork choice: whether an item becomes the head. -/
def Wins (env : Env H) (s : Blockchain H) (item : Item H) : Prop :=
  if env.hasConsensus then
    s.db.td s.headHeaderHash < s.db.itemTd item ∨ env.isProofOfStake item
  else ∃ n, s.db.hashToNumber s.headHeaderHash = some n ∧ n < item.getHeader.number

/-- The total difficulty is read. -/
private theorem ensures_getTotalDifficulty {hash : H} {Q : ℕ → Blockchain H → Prop}
    (h : Q (s.db.td hash) s) : (getTotalDifficulty hash).Ensures Q s := by
  refine .bind (ensures_hashToNumber fun n hn => .gets ?_)
  rwa [Database.td, hn] at h

/-- The fork choice says whether the item wins. -/
theorem ensures_extendsCanonicalHead {item : Item H} {Q : Bool → Blockchain H → Prop}
    (h : ∀ b : Bool, (b = true ↔ Wins env s item) → Q b s) :
    (extendsCanonicalHead env item (s.db.itemTd item) (s.db.td s.headHeaderHash)).Ensures Q s := by
  unfold extendsCanonicalHead
  refine .ite (fun hc => ?_) fun hc => ?_
  · refine .bind (.gets (.bind (ensures_hashToNumber fun n hn => .pure (h _ ?_))))
    have hcons : env.hasConsensus = false := by simpa using hc
    simp [Wins, hcons, hn]
  · refine .pure (h _ ?_)
    have hcons : env.hasConsensus = true := by simpa using hc
    simp [Wins, hcons]

variable [DecidableEq H]

/-- Rewinding moves the heads that are stale. -/
private theorem rewind_eq_relocate (stale fresh : H) :
    rewind stale fresh = relocate fun h => if h = stale then fresh else h := rfl

/-- The head operations write the heads. -/
theorem batch_saveHeadOps (db : Database H) :
    db.batch [.setHeads s.heads, .setHeadHeader s.headHeaderHash, .setHeadBlock s.headBlockHash] =
      { db with
        heads := some s.heads
        headHeader := some s.headHeaderHash
        headBlock := some s.headBlockHash } := rfl

/-! ### Forgetting the upper part -/

/-- Forgetting the canonical chain from a number on: heads on it move to `headHash`, and the
operations remove it from the index by number. -/
theorem deleteCanonicalChainReferences_spec {c : ℕ → Option H} {Link : ℕ → H → H → Prop}
    {root headHash : H} {top : ℕ} (hc : IsChain Link c root top) (htop : top + 1 < 2 ^ 64)
    (fuel : ℕ) {number : ℤ} {n : ℕ} (hn : asUintN64 number = n)
    (hfresh : ∀ k, n ≤ k → c k ≠ some headHash) {s : Blockchain H} (hs : s.db.numberToHash = c) :
    (deleteCanonicalChainReferences headHash fuel number).Ensures
      (fun ops s' => (∃ f, Forgets c n headHash f ∧ s' = relocate f s) ∧
        ∀ db : Database H, db.batch ops =
          { db with
            numberToHash := fun k => if n ≤ k ∧ k ≤ top then none else db.numberToHash k }) s := by
  induction fuel generalizing number n s with
  | zero => exact .throw
  | succ fuel ih =>
    refine .bind (ensures_numberToHash ?_)
    rw [hn, hs]
    rcases hcn : c n with _ | hash
    · -- nothing is canonical from here on
      have hlt : top < n := by
        by_contra hle
        obtain ⟨x, hx⟩ := hc.exists_of_le (n := n) (by omega)
        rw [hcn] at hx
        cases hx
      refine .pure ⟨⟨id, ⟨fun k h hk hck => ?_, fun _ _ => rfl⟩, (relocate_id s).symm⟩,
        fun db => ?_⟩
      · have := hc.le_top hck
        omega
      · have hnone : ∀ k, ¬ (n ≤ k ∧ k ≤ top) := fun k => by omega
        simp only [if_neg (hnone _)]
        rfl
    · have hle := hc.le_top hcn
      have hnext : asUintN64 (number + 1) = n + 1 := by
        unfold asUintN64 at hn ⊢
        omega
      refine .bind (.modify (.bind ((ih (s := rewind hash headHash s) hnext
        (fun k hk => hfresh k (by omega)) hs).mono ?_)))
      rintro ops s' ⟨⟨f, hf, hs'⟩, hops⟩
      refine .pure ⟨⟨f ∘ fun h => if h = hash then headHash else h, ⟨fun k h hk hck => ?_,
        fun h hkeep => ?_⟩, ?_⟩, fun db => ?_⟩
      · -- a head that was moved here stays, for `headHash` is not on what is forgotten later
        by_cases hh : h = hash
        · simp only [Function.comp, if_pos hh]
          exact hf.kept headHash fun k hk => hfresh k (by omega)
        · have hne : k ≠ n := by
            rintro rfl
            exact hh (Option.some.inj (hck.symm.trans hcn))
          simp only [Function.comp, if_neg hh]
          exact hf.forgotten k h (by omega) hck
      · have hh : h ≠ hash := by
          rintro rfl
          exact hkeep n (Nat.le_refl n) hcn
        simp only [Function.comp, if_neg hh]
        exact hf.kept h fun k hk => hkeep k (by omega)
      · rw [hs', rewind_eq_relocate, relocate_relocate]
      · rw [Database.batch_cons, hops]
        simp only [Database.apply, hn]
        congr 1
        funext k
        by_cases hk : k = n
        · rw [if_neg (by omega), if_pos (by omega), hk, Function.update_self]
        · rw [Function.update_of_ne hk]
          exact if_congr (by omega) rfl rfl

/-! ### Rebuilding the canonical chain -/

/-- The walk of a rebuild is a descent to the canonical chain, and collects what it replaces. -/
theorem walkBack_spec (env : Env H) {db' : Database H} {s : Blockchain H}
    (hstored : Stored env s.db) (hroot : s.db.numberToHash 0 = some (env.hash env.genesis))
    (hsub : ∀ k h header, s.db.header k h = some header → db'.header k h = some header)
    (fuel : ℕ) {header : Header H} {n : ℕ} (hn : n < 2 ^ 64) (hnumber : header.number = n)
    (hheld : db'.header n (env.hash header) = some header)
    (hzero : n = 0 → env.hash header = env.hash env.genesis) :
    (walkBack env fuel header n).Ensures
      (fun rebuilt s' => s' = s ∧ ∃ fork,
        Descends (Link env db') s.db.numberToHash fork n (env.hash header) rebuilt.lookups ∧
        s.db.numberToHash fork = some rebuilt.common ∧
        ∀ h, h ∈ rebuilt.stale ↔ ∃ k, fork < k ∧ k ≤ n ∧ s.db.numberToHash k = some h) s := by
  -- On the fuel; the walk ends where the hash is canonical, at the latest at genesis.
  induction fuel generalizing header n with
  | zero => exact .throw
  | succ fuel ih =>
    refine .bind (ensures_numberToHash ?_)
    rw [asUintN64_natCast hn]
    refine .ite (fun hend => ?_) fun hgo => ?_
    · have hcanonical : s.db.numberToHash n = some (env.hash header) := by
        rcases hend with hend | hend
        · exact hend
        · have h0 : n = 0 := hnumber.symm.trans hend
          rw [h0, hroot, hzero h0]
      refine .pure ⟨rfl, n, .common hcanonical, hcanonical, fun h => ?_⟩
      simp only [List.not_mem_nil, false_iff]
      rintro ⟨k, hlow, hhigh, -⟩
      omega
    · simp only [not_or] at hgo
      obtain ⟨m, rfl⟩ : ∃ m, n = m + 1 := Nat.exists_eq_succ_of_ne_zero (hnumber ▸ hgo.2)
      have hm : ((m + 1 : ℕ) : ℤ) - 1 = (m : ℕ) := by omega
      rw [hm]
      refine .bind (ensures_getHeader fun parent hparent => ?_)
      rw [asUintN64_natCast (by omega)] at hparent
      obtain ⟨hpnumber, hphash, -⟩ := hstored.key m _ parent hparent
      have hzero' : m = 0 → env.hash parent = env.hash env.genesis := by
        rintro rfl
        rw [hphash, hstored.genesis _ _ hparent]
      refine .bind ((ih (by omega) hpnumber (hphash ▸ hsub _ _ _ hparent) hzero').mono ?_)
      rintro rebuilt s' ⟨rfl, fork, hdesc, hcommon, hstale⟩
      -- the header links to the parent the walk goes on from
      have hlink : Link env db' m (env.hash parent) (env.hash header) :=
        ⟨header, hheld, hnumber, rfl, hphash.symm⟩
      refine .pure ⟨rfl, fork, hnumber ▸ hdesc.step hlink hgo.1, hcommon, fun h => ?_⟩
      have hle := hdesc.fork_le
      rw [List.mem_append, hstale, Option.mem_toList]
      constructor
      · rintro (hh | ⟨k, hlow, hhigh, hk⟩)
        · exact ⟨m + 1, by omega, Nat.le_refl _, hh⟩
        · exact ⟨k, hlow, by omega, hk⟩
      · rintro ⟨k, hlow, hhigh, hk⟩
        by_cases hkm : k = m + 1
        · exact .inl (hkm ▸ hk)
        · exact .inr ⟨k, hlow, by omega, hk⟩

/-! ### Finding the common ancestor changes nothing -/

/-- Meeting the canonical chain changes nothing. -/
private theorem rel_meet (env : Env H) (fuel : ℕ) (header newHeader : Header H)
    (ancestors : List (Header H)) : Prog.Rel Eq (meet env fuel header newHeader ancestors) := by
  induction fuel generalizing header newHeader ancestors with
  | zero => exact .throw _
  | succ fuel ih =>
    exact .ite (.bind (rel_getCanonicalHeader _) fun _ => .bind (rel_getHeader _ _) fun _ =>
      ih _ _ _) (.pure _)

/-- Nor does finding the common ancestor. -/
theorem rel_findCommonAncestor (env : Env H) (fuel : ℕ) (newHeader : Header H) :
    Prog.Rel Eq (findCommonAncestor env fuel newHeader) := by
  refine .bind (.gets _) fun hash => .bind (.bind (rel_hashToNumber hash) fun n =>
    rel_getHeader hash n) fun header => ?_
  -- what follows once both headers have one number
  have hjoin : ∀ (header newHeader : Header H) (ancestors : List (Header H)), Prog.Rel Eq
      (if header.number ≠ newHeader.number then Prog.throw .noAncientHeader
        else meet env fuel header newHeader ancestors >>= fun met =>
          if env.hash met.1 ≠ env.hash met.2.1 then Prog.throw .noAncientHeader
          else pure (met.1, met.2.2) : ChainM H (Header H × List (Header H))) := by
    intro header newHeader ancestors
    refine .ite (.throw _) (.bind (rel_meet _ _ _ _ _) ?_)
    rintro ⟨header, newHeader, ancestors⟩
    exact .ite (.throw _) (.pure _)
  refine .ite (.bind (rel_getCanonicalHeader _) fun _ => hjoin _ _ _)
    (.bind (rel_descendTo _ _ _ _) ?_)
  rintro ⟨newHeader, ancestors⟩
  exact hjoin _ _ _

/-! ### Becoming the head -/

/-- The iterator heads and the head block leave what the walk replaced. -/
private theorem rebuildCanonical_spec (env : Env H) {db db' : Database H} {s : Blockchain H}
    (hstored : Stored env db) (hroot : db.numberToHash 0 = some (env.hash env.genesis))
    (hsub : ∀ k h header, db.header k h = some header → db'.header k h = some header)
    (fuel : ℕ) {header : Header H} (hn : header.number < 2 ^ 64) (hzero : header.number ≠ 0)
    (hheld : db'.header header.number (env.hash header) = some header) (hs : s.db = db) :
    (rebuildCanonical env fuel header).Ensures
      (fun ops s' => ∃ fork common path g,
        Descends (Link env db') db.numberToHash fork header.number (env.hash header) path ∧
        db.numberToHash fork = some common ∧
        (∀ k h, fork < k → k ≤ header.number → db.numberToHash k = some h → g h = common) ∧
        (∀ h, (∀ k, fork < k → k ≤ header.number → db.numberToHash k ≠ some h) → g h = h) ∧
        s' = { relocate g s with headHeaderHash := s.headHeaderHash } ∧
        ops = path.flatMap fun l => saveLookups l.1 l.2) s := by
  subst hs
  refine .bind ((walkBack_spec env hstored hroot hsub fuel hn rfl hheld
    fun h => absurd h hzero).mono ?_)
  rintro rebuilt s' ⟨rfl, fork, hdesc, hcommon, hstale⟩
  refine .bind (.modify (.pure ⟨fork, rebuilt.common, rebuilt.lookups,
    fun h => if h ∈ rebuilt.stale then rebuilt.common else h, hdesc, hcommon,
    fun k h hlow hhigh hk => if_pos ((hstale h).2 ⟨k, hlow, hhigh, hk⟩), fun h hkeep => ?_,
    rfl, rfl⟩))
  refine if_neg fun hmem => ?_
  obtain ⟨k, hlow, hhigh, hk⟩ := (hstale h).1 hmem
  exact hkeep k hlow hhigh hk

/-- An item became the head of the canonical chain: the path from the common hash up to it, where
the other heads moved, and the operations that write the path. -/
def BecameHead (env : Env H) (item : Item H) (td top : ℕ) (s : Blockchain H) (ops : List (DBOp H))
    (s' : Blockchain H) : Prop :=
  let header := item.getHeader
  let hash := env.hash header
  ∃ fork common path f,
    Descends (Link env (s.db.storeItem hash item td)) s.db.numberToHash fork header.number hash
      path ∧
    s.db.numberToHash fork = some common ∧
    Regrafts s.db.numberToHash fork header.number common hash f ∧
    s' = { relocate f s with
      headHeaderHash := hash
      headBlockHash := if item.isBlock then hash else f s.headBlockHash } ∧
    ∀ db : Database H, db.batch ops =
      { db with
        numberToHash := overlay path fun k =>
          if header.number + 1 ≤ k ∧ k ≤ top then none else db.numberToHash k
        hashToNumber := Database.indexByHash path db.hashToNumber }

/-- What happens where an item becomes the head. -/
theorem becomeHead_spec (env : Env H) (fuel : ℕ) {item : Item H} (td : ℕ) {top : ℕ}
    {s : Blockchain H} (hfree : NoCollision env s.db item.getHeader) (hi : Indexed env s.db top)
    (hzero : item.getHeader.number ≠ 0) (hbound : item.getHeader.number + 1 < 2 ^ 64) :
    (becomeHead env fuel item).Ensures (fun r => BecameHead env item td top s r.1) s := by
  have hn : item.getHeader.number < 2 ^ 64 := by omega
  -- a canonical hash that is the new one is at the new number
  have hfresh : ∀ k, s.db.numberToHash k = some (env.hash item.getHeader) →
      k = item.getHeader.number := by
    intro k hk
    obtain ⟨header, hheader, hnumber, -⟩ := hi.held hk
    rw [← hnumber, hfree _ _ hheader]
  refine .bind ((rel_findCommonAncestor env fuel item.getHeader).ensures.mono ?_)
  rintro ⟨commonAncestor, ancestorHeaders⟩ s₁ rfl
  refine .bind (.modify ?_)
  -- whether or not the hardfork is checked, the two loops follow
  have hjoin : Prog.Ensures
      (do
        let forgotten ← deleteCanonicalChainReferences (env.hash item.getHeader) fuel
          (item.getHeader.number + 1)
        let lookups ← rebuildCanonical env fuel item.getHeader
        pure (forgotten ++ lookups, commonAncestor, ancestorHeaders))
      (fun r => BecameHead env item td top s r.1)
      { s with
        headHeaderHash := env.hash item.getHeader
        headBlockHash := if item.isBlock then env.hash item.getHeader else s.headBlockHash } := by
    refine .bind ((deleteCanonicalChainReferences_spec (n := item.getHeader.number + 1)
      hi.chain hi.top_lt fuel (asUintN64_natCast hbound) (fun k hk hck => ?_) (by rfl)).mono ?_)
    · have := hfresh k hck
      omega
    rintro forgotten s₂ ⟨⟨f, hf, rfl⟩, hforgotten⟩
    refine .bind ((rebuildCanonical_spec env hi.stored hi.chain.root
      (fun k h header => hfree.storeItem_header hn td) fuel hn hzero ?_
      (by rfl)).mono ?_)
    · rw [Database.storeItem_header _ _ _ hn, if_pos ⟨rfl, rfl⟩]
    rintro lookups s₃ ⟨fork, common, path, g, hdesc, hcommon, hreplaced, hkept, rfl, rfl⟩
    have hnew : ∀ k, fork < k → s.db.numberToHash k ≠ some (env.hash item.getHeader) := by
      intro k hk hck
      have hkn := hfresh k hck
      exact hdesc.ne_of_lt (hkn ▸ hk) (hkn ▸ hck)
    have hmoves := Regrafts.comp (fun k k' h => hi.number_inj) hdesc.fork_le hnew hf hreplaced
      hkept
    have hf_new : f (env.hash item.getHeader) = env.hash item.getHeader :=
      hf.kept _ fun k hk => hnew k (by have := hdesc.fork_le; omega)
    have hg_new : g (env.hash item.getHeader) = env.hash item.getHeader := by
      have := hmoves.kept _ hnew
      rwa [Function.comp, hf_new] at this
    refine .pure ⟨fork, common, path, g ∘ f, hdesc, hcommon, hmoves, ?_, fun db => ?_⟩
    · simp only [relocate, Option.map_map, hf_new]
      split
      · rw [hf_new, hg_new]
      · rfl
    · rw [Database.batch_append, hforgotten, Database.batch_saveLookups]
      intro l hl
      have := (hdesc.exists_link hl).1
      omega
  refine .ite (fun _ => .bind (.ofExcept fun _ _ => hjoin)) fun _ => hjoin

/-- The chain that ends in the new head, written to the tables. -/
theorem BecameHead.graft {env : Env H} {item : Item H} {td top : ℕ} {s t : Blockchain H}
    {ops : List (DBOp H)} (h : BecameHead env item td top s ops t)
    (hfree : NoCollision env s.db item.getHeader) (hi : Indexed env s.db top)
    (hzero : item.getHeader.number ≠ 0)
    (hbound : item.getHeader.number + 1 < 2 ^ 64) :
    let db' := (s.db.storeItem (env.hash item.getHeader) item td).batch ops
    Indexed env db' item.getHeader.number ∧
      db'.numberToHash item.getHeader.number = some (env.hash item.getHeader) ∧
      ∃ fork common path f,
        Descends (Link env (s.db.storeItem (env.hash item.getHeader) item td)) s.db.numberToHash
          fork item.getHeader.number (env.hash item.getHeader) path ∧
        s.db.numberToHash fork = some common ∧
        Regrafts s.db.numberToHash fork item.getHeader.number common (env.hash item.getHeader) f ∧
        t = { relocate f s with
          headHeaderHash := env.hash item.getHeader
          headBlockHash := if item.isBlock then env.hash item.getHeader else f s.headBlockHash } ∧
        db'.numberToHash = overlay path (prune s.db.numberToHash item.getHeader.number) := by
  obtain ⟨fork, common, path, f, hdesc, hcommon, hf, ht, hops⟩ := h
  have hnumber : ((s.db.storeItem (env.hash item.getHeader) item td).batch ops).numberToHash =
      overlay path (prune s.db.numberToHash item.getHeader.number) := by
    rw [hops, ← forget_eq_prune hi.chain, Database.storeItem_numberToHash]
  obtain ⟨hindexed, htop⟩ := hi.graft hfree td hzero hbound hcommon hdesc (by rw [hops])
    (by rw [hops, Database.storeItem_hashToNumber]) hnumber
  exact ⟨hindexed, htop, fork, common, path, f, hdesc, hcommon, hf, ht, hnumber⟩

/-! ### Putting -/

/-- Where an item that is stored aside may take the head block: where blocks are ordered by number
it has to be canonical for that, else its total difficulty decides. -/
def Advances (env : Env H) (s : Blockchain H) (item : Item H) (td blockTd : ℕ) : Prop :=
  if env.hasConsensus then blockTd < td
  else s.db.numberToHash (asUintN64 item.getHeader.number) = some (env.hash item.getHeader)

/-- A block that does not win may still become the head block. -/
private theorem ensures_advancesHeadBlock {item : Item H} {td blockTd : ℕ}
    {Q : Bool → Blockchain H → Prop}
    (h : ∀ b : Bool, (b = true → Advances env s item td blockTd) → Q b s) :
    (advancesHeadBlock env item td blockTd).Ensures Q s := by
  unfold advancesHeadBlock
  refine .ite (fun hc => ?_) fun hc => ?_
  · refine .bind (.gets (.bind (.gets (.bind (ensures_hashToNumber fun n _ => .pure (h _ ?_))))))
    have hcons : env.hasConsensus = false := by simpa using hc
    intro hb
    rw [Advances, hcons]
    exact (by simpa using hb : _ ∧ _).1
  · refine .pure (h _ ?_)
    have hcons : env.hasConsensus = true := by simpa using hc
    simp [Advances, hcons]

/-- An item that is stored aside moves the head block to itself or not at all. -/
theorem storeAside_spec (item : Item H) (td blockTd : ℕ) :
    (storeAside env item td blockTd).Ensures
      (fun ops s' => ops = [.setHashToNumber (env.hash item.getHeader) item.getHeader.number] ∧
        (s' = s ∨ item.isBlock = true ∧ Advances env s item td blockTd ∧
          s' = { s with headBlockHash := env.hash item.getHeader })) s := by
  refine .bind (ensures_advancesHeadBlock fun b hb => .ite (fun hc => ?_) fun _ => ?_)
  · obtain ⟨hadvances, hblock⟩ : b = true ∧ item.isBlock = true := by simpa using hc
    exact .bind (.modify (.pure ⟨rfl, .inr ⟨hblock, hb hadvances, rfl⟩⟩))
  · exact .pure ⟨rfl, .inl rfl⟩

/-- An item that was put became the head, or is stored aside. -/
inductive WasPut (env : Env H) (item : Item H) (top : ℕ) (s : Blockchain H) : Blockchain H → Prop
  | becameHead {ops : List (DBOp H)} {t : Blockchain H} (hwins : Wins env s item)
      (hhead : BecameHead env item (s.db.itemTd item) top s ops t) :
      WasPut env item top s (persist
        { t with
          db := (s.db.storeItem (env.hash item.getHeader) item (s.db.itemTd item)).batch ops })
  | storedAside {b : H} (hloses : ¬ Wins env s item)
      (hblock : b = s.headBlockHash ∨ item.isBlock = true ∧
        Advances env s item (s.db.itemTd item) (s.db.td s.headBlockHash) ∧
        b = env.hash item.getHeader) :
      WasPut env item top s (persist
        { s with
          db := (s.db.storeItem (env.hash item.getHeader) item (s.db.itemTd item)).apply
            (.setHashToNumber (env.hash item.getHeader) item.getHeader.number)
          headBlockHash := b })

/-- What a put does to the heads and to the database. -/
theorem put_spec (fuel : ℕ) {item : Item H} {top : ℕ}
    (hfree : NoCollision env s.db item.getHeader) (hi : Indexed env s.db top)
    (hzero : item.getHeader.number ≠ 0)
    (hbound : item.getHeader.number + 1 < 2 ^ 64) :
    (put env fuel item).Ensures (fun _ => WasPut env item top s) s := by
  unfold put
  refine .bind (.gets (.bind (.ofExcept fun _ _ => ?_)))
  refine .bind (.gets (.bind (ensures_getTotalDifficulty ?_)))
  refine .bind (.gets (.bind (ensures_getTotalDifficulty (.bind (.gets ?_)))))
  refine .bind (ensures_extendsCanonicalHead fun b hb => .ite (fun hc => ?_) fun hc => ?_)
  · refine .bind ((becomeHead_spec env fuel (s.db.itemTd item) hfree hi hzero hbound).mono ?_)
    rintro ⟨moved, commonAncestor, ancestorHeaders⟩ t hhead
    have ht : t.db = s.db := by
      obtain ⟨_, _, _, _, _, _, _, rfl, _⟩ := hhead
      rfl
    refine .bind (.gets (.bind (.modify (.ofExcept fun _ _ => ?_))))
    rw [Database.batch_append, Database.batch_append, batch_saveHeadOps, ht]
    exact .becameHead (hb.1 hc) hhead
  · refine .bind ((storeAside_spec item _ _).mono ?_)
    rintro ops t ⟨rfl, ht⟩
    refine .bind (.gets (.bind (.modify (.ofExcept fun _ _ => ?_))))
    rw [Database.batch_append, Database.batch_append, batch_saveHeadOps]
    have hloses : ¬ Wins env s item := fun hw => hc (hb.2 hw)
    rcases ht with rfl | ⟨hblock, hadvances, rfl⟩
    · exact .storedAside hloses (.inl rfl)
    · exact .storedAside hloses (.inr ⟨hblock, hadvances, rfl⟩)

/-- Putting the genesis block again does nothing. -/
theorem putBlockOrHeader_spec (fuel : ℕ) {item : Item H} {top : ℕ}
    (hfree : NoCollision env s.db item.getHeader) (hi : Indexed env s.db top)
    (hbound : item.getHeader.number + 1 < 2 ^ 64) :
    (putBlockOrHeader env fuel item).Ensures
      (fun _ s' => s' = s ∨ item.getHeader.number ≠ 0 ∧ WasPut env item top s s') s := by
  have hwork : Prog.Ensures
      (if item.getHeader.number = 0 then
        if env.hash env.genesis = env.hash item.getHeader then pure ()
        else Prog.throw .differentGenesis
      else put env fuel item)
      (fun _ s' => s' = s ∨ item.getHeader.number ≠ 0 ∧ WasPut env item top s s') s :=
    .ite (fun _ => .ite (fun _ => .pure (.inl rfl)) fun _ => .throw) fun hzero =>
      (put_spec fuel hfree hi hzero hbound).mono fun _ _ hput => .inr ⟨hzero, hput⟩
  exact Prog.Ensures.finish hwork

/-! ### Iterating -/

theorem rel_nextCallback (r : Running H) : Prog.Rel Eq (nextCallback env r) := by
  refine .ite (.pure _) (.tryCatch (.bind (rel_getBlock _) fun block => .ite ?_ (.pure _)) fun e =>
    .ite (.pure _) (.throw _))
  exact .bind (.gets _) fun hash => .bind (rel_hashToNumber hash) fun n =>
    .bind (rel_getBlock _) fun _ => .pure _

theorem rel_reorgWhileOnBlock (r : Running H) (nextBlock : Header H) :
    Prog.Rel Eq (reorgWhileOnBlock env r nextBlock) :=
  .ite (.tryCatch (.bind (rel_getBlock _) fun _ => .pure _) fun _ => .pure _) (.pure _)

/-- The block a callback is given: the canonical one at the next number, on the last block if there
was one, or after a reorg the one above the head. -/
inductive Passes (env : Env H) (s : Blockchain H) (r : Running H) : Running H → Header H → Prop
  | straight {nextBlock : Header H} (hmax : r.maxBlocks ≠ some r.blocksRan)
      (hblock : s.db.numberToHash (asUintN64 r.nextBlockNumber) = some (env.hash nextBlock))
      (hstored : s.db.header (asUintN64 r.nextBlockNumber) (env.hash nextBlock) = some nextBlock)
      (hlast : ∀ last, r.lastBlock = some last → env.hash last = nextBlock.parentHash) :
      Passes env s r r nextBlock
  | reloaded {nextBlock : Header H} {n : ℕ} (hlast : r.lastBlock.isSome)
      (hhead : s.db.hashToNumber (iteratorHead env r.name s) = some n)
      (hblock : s.db.numberToHash (asUintN64 (n + 1)) = some (env.hash nextBlock))
      (hstored : s.db.header (asUintN64 (n + 1)) (env.hash nextBlock) = some nextBlock) :
      Passes env s r { r with headHash := iteratorHead env r.name s, nextBlockNumber := n + 1 }
        nextBlock

theorem nextCallback_spec (hstored : Stored env s.db) (r : Running H) :
    (nextCallback env r).Ensures
      (fun next _ => ∀ r' nextBlock reorg, next = some (r', nextBlock, reorg) →
        Passes env s r r' nextBlock) s := by
  refine .ite (fun _ => .pure nofun) fun hmax => .tryCatch ?_ fun e s' _ =>
    .ite (fun _ => .pure nofun) fun _ => .throw
  refine .bind (ensures_getBlock hstored fun block hblock hheader => .ite (fun hreorg => ?_)
    fun hreorg => ?_)
  · refine .bind (.gets (.bind (ensures_hashToNumber fun n hn => .bind
      (ensures_getBlock hstored fun block' hblock' hheader' => .pure ?_))))
    rintro _ _ _ ⟨⟩
    refine .reloaded ?_ hn hblock' hheader'
    rcases hlast : r.lastBlock with _ | last
    · rw [hlast] at hreorg
      cases hreorg
    · rfl
  · refine .pure ?_
    rintro _ _ _ ⟨⟩
    refine .straight hmax hblock hheader fun last hlast => ?_
    rw [hlast] at hreorg
    simpa using hreorg

/-- Where the lock was not released the chain is the same; else the block is looked up again. -/
theorem reorgWhileOnBlock_spec (hstored : Stored env s.db) (r : Running H) (nextBlock : Header H) :
    (reorgWhileOnBlock env r nextBlock).Ensures
      (fun reorged _ => reorged = false → r.releaseLockOnCallback = true →
        s.db.numberToHash (asUintN64 r.nextBlockNumber) = some (env.hash nextBlock)) s := by
  refine .ite (fun _ => .tryCatch ?_ fun _ _ _ => .pure nofun) fun hlock => ?_
  · refine .bind (ensures_getBlock hstored fun block hblock _ => .pure fun hsame _ => ?_)
    have heq : env.hash block = env.hash nextBlock := by simpa using hsame
    rwa [heq] at hblock
  · exact .pure fun _ h => absurd h hlock

end Blockchain

end Tvmjs
