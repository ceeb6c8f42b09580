import Tvmjs.Blockchain.CliqueSnapshots

/-!
# Clique consensus along a chain

* `Follows.run_forM_grow` -- blocks which cast no votes and are no checkpoints, one after the other;
* `feed` -- a fresh consensus object which is given the blocks of a chain in order;
* `Restores` -- the reorganizations after which the lists are those of the new chain.
Cutting back keeps the entries of the first replaced block, and what was trimmed before is not
brought back.  So the list of the latest signers is right again only after as many blocks as it
holds.
-/

namespace Tvmjs

namespace Clique

open RLP

variable {epoch : ℕ} {recover : Header → Except CliqueError Address}

/-! ### Blocks which do not vote -/

private theorem lastEpochBlockNumber_succ {n : ℕ} {header : Header}
    (hnumber : header.number = n + 1)
    (h : cliqueIsEpochTransition epoch header = false) :
    lastEpochBlockNumber epoch (n + 1) = lastEpochBlockNumber epoch n := by
  have hdvd : ¬ epoch ∣ n + 1 := by
    rw [cliqueIsEpochTransition, hnumber, decide_eq_false_iff_not] at h
    exact fun hdvd => h (Nat.mod_eq_zero_of_dvd hdvd)
  have hdiv : (n + 1) / epoch = n / epoch := by rw [Nat.succ_div, if_neg hdvd, Nat.add_zero]
  have hn := Nat.div_add_mod n epoch
  have hn' := Nat.div_add_mod (n + 1) epoch
  rw [hdiv] at hn'
  rw [lastEpochBlockNumber, lastEpochBlockNumber]
  omega

private theorem voteBound_succ {n : ℕ} {header : Header} (hnumber : header.number = n + 1)
    (h : Quiet epoch header) : voteBound epoch (n + 1) = voteBound epoch n := by
  rw [voteBound, voteBound, lastEpochBlockNumber_succ hnumber h.2]

/-- Blocks which are no checkpoints stay in the epoch. -/
private theorem voteBound_of_quiet {n : ℕ} {blocks : List Header}
    (hnumbered : Numbered (n + 1) blocks)
    (hquiet : ∀ h ∈ blocks, Quiet epoch h) :
    voteBound epoch (n + blocks.length) = voteBound epoch n := by
  induction blocks generalizing n with
  | nil => rfl
  | cons header blocks ih =>
    obtain ⟨hq, hqs⟩ := List.forall_mem_cons.1 hquiet
    rw [List.length_cons, Nat.add_comm blocks.length, ← Nat.add_assoc, ih hnumbered.2 hqs,
      voteBound_succ hnumbered.1 hq]

private theorem voteBound_mono {m n : ℕ} (h : m ≤ n) : voteBound epoch m ≤ voteBound epoch n := by
  have hmono := lastEpochBlockNumber_mono epoch h
  rw [voteBound, voteBound]
  omega

private theorem Quiet.not_reachesMajority {header : Header} (h : Quiet epoch header)
    (s : Consensus) :
    ¬ ReachesMajority recover epoch s header := by
  rintro ⟨-, hvote, -⟩
  rw [h.1] at hvote
  cases hvote

/-- Putting blocks which do not vote on a chain trims the signer states and the votes, and puts the
signers of the blocks. -/
theorem Follows.run_forM_grow {blocks : List Header} (hne : blocks ≠ []) {n : ℕ} {s : Consensus}
    (h : Follows n s) (hnumbered : Numbered (n + 1) blocks)
    (hquiet : ∀ h ∈ blocks, Quiet epoch h) (hsealed : ∀ h ∈ blocks, Sealed recover h)
    {log : List SignerState} {last : SignerState} (hlast : s.latestSignerStates = log ++ [last]) :
    ∃ t, Prog.run (forM blocks (Clique.grow recover epoch)) s = (.ok (), t) ∧
      SignersSaved t ∧ VotesSaved t ∧
      t.latestSignerStates = NumberedLog.trimKeeping (stateBound (n + blocks.length - 1))
        s.latestSignerStates ∧
      t.latestVotes = s.latestVotes.filter (fun vote => voteBound epoch n ≤ vote.1) ∧
      t.latestBlockSigners =
        (s.latestBlockSigners ++ blocks.map (entry recover)).rtake (last.2.length / 2 + 1) := by
  induction blocks generalizing n s log with
  | nil => exact absurd rfl hne
  | cons header blocks ih =>
    obtain ⟨hq, hqs⟩ := List.forall_mem_cons.1 hquiet
    obtain ⟨hseal, hseals⟩ := List.forall_mem_cons.1 hsealed
    obtain ⟨t₁, hrun, hstates, hvotes, hsigners⟩ :=
      h.run_grow_of_quiet hnumbered.1 hq hseal hlast
    obtain ⟨hfollows, hsaved, hvotesSaved⟩ := h.grow hnumbered.1 hrun
    rw [List.forM_cons, Prog.run_bind_of_ok hrun]
    obtain rfl | hne' := eq_or_ne blocks []
    · exact ⟨t₁, rfl, hsaved, hvotesSaved (hq.not_reachesMajority s), hstates, hvotes, hsigners⟩
    · -- the last signer state stays where it is
      have hlast₁ : ∃ log₁, t₁.latestSignerStates = log₁ ++ [last] := by
        rw [hstates, hlast, NumberedLog.trimKeeping_append (hlast ▸ h.ascending)]
        exact ⟨_, rfl⟩
      obtain ⟨log₁, hlast₁⟩ := hlast₁
      obtain ⟨t, hrun', hsaved', hvotesSaved', hstates', hvotes', hsigners'⟩ :=
        ih hne' hfollows hnumbered.2 hqs hseals hlast₁
      have hpos := List.length_pos_of_ne_nil hne'
      refine ⟨t, hrun', hsaved', hvotesSaved', ?_, ?_, ?_⟩
      · rw [hstates', hstates, NumberedLog.trimKeeping_trimKeeping h.ascending]
        · congr 2
          rw [List.length_cons]
          omega
        · rw [stateBound, stateBound]
          omega
      · rw [hvotes', hvotes, List.filter_filter, voteBound_succ hnumbered.1 hq]
        refine List.filter_congr fun vote _ => ?_
        rw [Bool.and_self]
      · rw [hsigners', hsigners, NumberedLog.pushRecent, NumberedLog.rtake_rtake_append,
          List.append_assoc, List.singleton_append, List.map_cons]

/-- Building up blocks which do not vote puts their signers, where no vote is left to trim. -/
private theorem run_forM_build {blocks : List Header} {n : ℕ} {s t : Consensus}
    (hnumbered : Numbered (n + 1) blocks) (hquiet : ∀ h ∈ blocks, Quiet epoch h)
    {log : List SignerState} {last : SignerState} (hlast : s.latestSignerStates = log ++ [last])
    (hle : last.1 ≤ n) (hhead : s.head ≤ n + 1)
    (hvotes : ∀ v ∈ s.latestVotes, voteBound epoch (n + blocks.length) ≤ v.1)
    (hrun : Prog.run (forM blocks (cliqueBuildSnapshots recover epoch)) s = (.ok (), t)) :
    (∀ h ∈ blocks, Sealed recover h) ∧ t.latestSignerStates = s.latestSignerStates ∧
      t.latestVotes = s.latestVotes ∧
      t.latestBlockSigners = (blocks.map (entry recover)).foldl
        (NumberedLog.pushRecent (last.2.length / 2 + 1)) s.latestBlockSigners ∧
      (SignersSaved s → SignersSaved t) ∧ (VotesSaved s → VotesSaved t) := by
  induction blocks generalizing n s with
  | nil =>
    cases hrun
    exact ⟨nofun, rfl, rfl, rfl, id, id⟩
  | cons header blocks ih =>
    obtain ⟨hq, hqs⟩ := List.forall_mem_cons.1 hquiet
    obtain ⟨hnumber, hnumbered'⟩ := hnumbered
    have hne : header.number ≠ 0 := by omega
    rw [List.forM_cons] at hrun
    obtain ⟨_, t₁, hbuild, hrun⟩ := Prog.run_bind_ok.1 hrun
    have hlimit := Consensus.cliqueSignerLimit_eq hlast (by omega : last.1 < header.number)
    have hsealed : Sealed recover header := by
      rw [cliqueBuildSnapshots_of_quiet hq] at hbuild
      obtain ⟨_, t₂, -, hput⟩ := Prog.run_bind_ok.1 hbuild
      exact (sealed_of_run hne hput).1
    rw [run_cliqueBuildSnapshots hq hsealed hne hlimit] at hbuild
    cases hbuild
    -- the lists after the block
    have hstates₁ : (s.quietBuild epoch (last.2.length / 2 + 1)
        (entry recover header)).latestSignerStates = s.latestSignerStates :=
      trimVotes_latestSignerStates s
    have hvotes₁ : (s.quietBuild epoch (last.2.length / 2 + 1)
        (entry recover header)).latestVotes = s.latestVotes := by
      refine (Consensus.trimVotes_latestVotes s).trans (List.filter_eq_self.2 fun v hv => ?_)
      have hmono : voteBound epoch s.head ≤ voteBound epoch (n + (header :: blocks).length) :=
        voteBound_mono (by rw [List.length_cons]; omega)
      exact decide_eq_true (hmono.trans (hvotes v hv))
    have hhead₁ : (s.quietBuild epoch (last.2.length / 2 + 1) (entry recover header)).head =
        n + 1 :=
      (Consensus.head_eq (pushRecent_eq (Nat.succ_pos _) _ _)).trans hnumber
    obtain ⟨hseals, hstates, hvotes', hsigners, hsaved, hvotesSaved⟩ := ih hnumbered' hqs
      (hstates₁.trans hlast) (hle.trans (Nat.le_succ n)) (hhead₁.le.trans (Nat.le_succ _))
      (by
        rw [hvotes₁, Nat.add_assoc, Nat.add_comm 1]
        exact hvotes) hrun
    refine ⟨List.forall_mem_cons.2 ⟨hsealed, hseals⟩, hstates.trans hstates₁, hvotes'.trans hvotes₁,
      hsigners, fun h => hsaved ?_, fun h => hvotesSaved ?_⟩
    · refine ⟨?_, by simp [Consensus.quietBuild, Consensus.saveBlockSigners]⟩
      rw [hstates₁, ← h.1]
      simp [Consensus.quietBuild, Consensus.saveBlockSigners, Consensus.saveVotes]
    · simp [VotesSaved, Consensus.quietBuild, Consensus.saveBlockSigners, Consensus.saveVotes]

/-! ### Chains -/

theorem Numbered.number_eq {n : ℕ} {blocks : List Header} (h : Numbered n blocks) {i : ℕ}
    (hi : i < blocks.length) : blocks[i].number = n + i := by
  induction blocks generalizing n i with
  | nil => exact absurd hi (Nat.not_lt_zero i)
  | cons header blocks ih =>
    obtain _ | i := i
    · exact h.1
    · rw [List.getElem_cons_succ, ih h.2]
      omega

/-- The last block of a chain from the genesis block has the length as its number. -/
theorem Numbered.getLast_number {blocks : List Header} {genesis last : Header}
    (hgenesis : genesis.number = 0) (h : Numbered 1 blocks)
    (hlast : (genesis :: blocks).getLast? = some last) : last.number = blocks.length := by
  rw [List.getLast?_eq_getElem?, List.length_cons, Nat.add_sub_cancel] at hlast
  obtain ⟨hlt, rfl⟩ := List.getElem?_eq_some_iff.1 hlast
  have hnumbered : Numbered 0 (genesis :: blocks) := ⟨hgenesis, h⟩
  rw [hnumbered.number_eq hlt, Nat.zero_add]

/-- A loop over numbers which does the same as one over blocks. -/
private theorem forM_range'_eq {blocks : List Header} {start : ℕ} {f : ℕ → CliqueM Unit}
    {g : Header → CliqueM Unit} (h : ∀ i (hi : i < blocks.length), f (start + i) = g blocks[i]) :
    forM (List.range' start blocks.length) f = forM blocks g := by
  induction blocks generalizing start with
  | nil => rfl
  | cons header blocks ih =>
    rw [List.length_cons, List.range'_succ, List.forM_cons, List.forM_cons, ih]
    · have hfirst := h 0 (Nat.succ_pos _)
      rw [Nat.add_zero] at hfirst
      rw [hfirst]
      rfl
    · intro i hi
      have hnext := h (i + 1) (Nat.succ_lt_succ hi)
      rw [Nat.add_right_comm, Nat.add_assoc]
      exact hnext

private theorem bind_getCanonicalHeader {canonical : List Header} {number : ℕ} {header : Header}
    (h : canonical[number]? = some header) (f : Header → CliqueM Unit) :
    (Prog.ofExcept (getCanonicalHeader canonical number) >>= f) = f header := by
  rw [getCanonicalHeader, h]
  rfl

/-- What a new block does above a common ancestor. -/
private theorem newBlock_eq {genesis ancestor header : Header} {common blocks : List Header}
    (hancestor : ancestor.number = common.length)
    (hheader : header.number = common.length + blocks.length) :
    newBlock recover epoch (genesis :: (common ++ blocks)) header (some ancestor) = (do
      cliqueDeleteSnapshots recover epoch (common.length + 1)
      forM blocks (cliqueBuildSnapshots recover epoch)) := by
  rw [newBlock, hancestor, hheader, Nat.add_sub_cancel_left, List.forM_eq_forM]
  congr 1
  funext _
  refine forM_range'_eq fun i hi => bind_getCanonicalHeader ?_ _
  rw [Nat.add_right_comm, List.getElem?_cons_succ,
    List.getElem?_append_right (Nat.le_add_right _ _),
    Nat.add_sub_cancel_left, List.getElem?_eq_getElem hi]

/-- A block on the head is put. -/
theorem newBlock_eq_grow {genesis parent header : Header} {blocks : List Header}
    (hparent : parent.number = blocks.length) (hheader : header.number = blocks.length + 1) :
    newBlock recover epoch (genesis :: (blocks ++ [header])) header (some parent) =
      grow recover epoch header := by
  rw [newBlock_eq hparent hheader, grow, hheader, List.forM_cons, List.forM_nil]
  congr 1
  funext _
  exact bind_pure _

/-- A fresh consensus object is given the blocks of a chain in order. -/
def feed (recover : Header → Except CliqueError Address) (epoch : ℕ) (genesis : Header)
    (blocks : List Header) : CliqueM Unit := do
  genesisInit recover epoch genesis
  forM (List.range blocks.length) fun i => do
    let parent ← Prog.ofExcept (getCanonicalHeader (genesis :: blocks) i)
    let header ← Prog.ofExcept (getCanonicalHeader (genesis :: blocks) (i + 1))
    newBlock recover epoch (genesis :: blocks) header (some parent)

theorem feed_eq {genesis : Header} {blocks : List Header} (hgenesis : genesis.number = 0)
    (h : Numbered 1 blocks) :
    feed recover epoch genesis blocks = (do
      genesisInit recover epoch genesis
      forM blocks (grow recover epoch)) := by
  have hnumbered : Numbered 0 (genesis :: blocks) := ⟨hgenesis, h⟩
  rw [feed, List.range_eq_range']
  congr 1
  funext _
  refine forM_range'_eq fun i hi => ?_
  have hi' : i < (genesis :: blocks).length := Nat.lt_succ_of_lt hi
  rw [Nat.zero_add, bind_getCanonicalHeader (List.getElem?_eq_getElem hi'),
    bind_getCanonicalHeader ((List.getElem?_cons_succ ..).trans (List.getElem?_eq_getElem hi))]
  have hparent : ((genesis :: blocks)[i]).number = i := by
    rw [hnumbered.number_eq hi', Nat.zero_add]
  have hheader : blocks[i].number = i + 1 := by rw [h.number_eq hi, Nat.add_comm]
  rw [newBlock, hparent, hheader, Nat.add_sub_cancel_left, List.range'_one, List.forM_eq_forM,
    List.forM_cons, List.forM_nil, grow, hheader]
  congr 1
  funext _
  rw [bind_getCanonicalHeader
    ((List.getElem?_cons_succ ..).trans (List.getElem?_eq_getElem hi))]
  exact bind_pure _

/-- Feeding a chain is feeding a part from the genesis block on, and then the rest. -/
theorem run_feed_append {genesis : Header} {xs ys : List Header} (hgenesis : genesis.number = 0)
    (h : Numbered 1 (xs ++ ys)) {s t : Consensus} :
    (feed recover epoch genesis (xs ++ ys)).run s = (.ok (), t) ↔
      ∃ s', (feed recover epoch genesis xs).run s = (.ok (), s') ∧
        Prog.run (forM ys (grow recover epoch)) s' = (.ok (), t) := by
  rw [feed_eq hgenesis h, feed_eq hgenesis (Numbered.append.1 h).1, List.forM_append, ← bind_assoc]
  exact Prog.run_bind_ok.trans ⟨fun ⟨_, s', hx, hy⟩ => ⟨s', hx, hy⟩, fun ⟨s', hx, hy⟩ =>
    ⟨(), s', hx, hy⟩⟩

/-! ### What feeding a chain leads to -/

private theorem run_genesisInit {genesis : Header} {s : Consensus}
    (h : (genesisInit recover epoch genesis).run {} = (.ok (), s)) :
    Follows 0 s ∧ s.latestBlockSigners = [] ∧ s.db .blockSigners = none ∧
      s.db .signers = some (encode (formatSignerStates s.latestSignerStates)) ∧ VotesSaved s := by
  obtain ⟨signers, s₀, hread, h⟩ := Prog.run_bind_ok.1 h
  obtain rfl : ({} : Consensus) = s₀ := congrArg Prod.snd hread
  cases h
  refine ⟨⟨List.cons_ne_nil _ _, List.pairwise_singleton _ _, ?_, nofun, nofun, rfl⟩, rfl, rfl,
    ?_, ?_⟩
  · intro e he
    rw [List.mem_singleton.1 he]
  · simp [Consensus.saveVotes, Consensus.trimVotes, Consensus.lastBlockNumber,
      Consensus.saveSignerStates, Consensus.trimSignerStates, Consensus.pushSignerState]
  · simp [VotesSaved, Consensus.saveVotes]

/-- A chain of the genesis block alone. -/
theorem feed_nil (genesis : Header) :
    feed recover epoch genesis [] = genesisInit recover epoch genesis := bind_pure_unit

/-- The last block of a chain reaches a majority. -/
def LastReachesMajority (recover : Header → Except CliqueError Address) (epoch : ℕ)
    (genesis : Header) (blocks : List Header) : Prop :=
  ∃ init header before, blocks = init ++ [header] ∧
    (feed recover epoch genesis init).run {} = (.ok (), before) ∧
    ReachesMajority recover epoch before header

/-- **Feeding a chain** leads to lists which follow it.  The signers are saved, and so are the votes
unless the last block reaches a majority. -/
theorem follows_of_feed {genesis : Header} {blocks : List Header} (hgenesis : genesis.number = 0)
    (hnumbered : Numbered 1 blocks) {s : Consensus}
    (h : (feed recover epoch genesis blocks).run {} = (.ok (), s)) :
    Follows blocks.length s ∧
      s.db .signers = some (encode (formatSignerStates s.latestSignerStates)) ∧
      (s.db .blockSigners = some (encode (formatBlockSigners s.latestBlockSigners)) ∨
        s.db .blockSigners = none ∧ s.latestBlockSigners = []) ∧
      (¬ LastReachesMajority recover epoch genesis blocks → VotesSaved s) := by
  induction blocks using List.reverseRecOn generalizing s with
  | nil =>
    rw [feed_nil] at h
    obtain ⟨hfollows, hempty, hnone, hsaved, hvotes⟩ := run_genesisInit h
    exact ⟨hfollows, hsaved, Or.inr ⟨hnone, hempty⟩, fun _ => hvotes⟩
  | append_singleton blocks header ih =>
    obtain ⟨before, hbefore, hgrow⟩ := (run_feed_append hgenesis hnumbered).1 h
    obtain ⟨hnumbered', hnumber⟩ := Numbered.append.1 hnumbered
    rw [List.forM_cons, List.forM_nil, bind_pure_unit] at hgrow
    obtain ⟨hfollows, hsaved, hvotes⟩ := (ih hnumbered' hbefore).1.grow
      (hnumber.1.trans (Nat.add_comm 1 _)) hgrow
    rw [List.length_append]
    exact ⟨hfollows, hsaved.1, Or.inl hsaved.2,
      fun hnot => hvotes fun hmajority => hnot ⟨blocks, header, before, rfl, hbefore, hmajority⟩⟩

/-! ### Reorganizations -/

theorem sealed_of_grow {s t : Consensus} {header : Header} (hne : header.number ≠ 0)
    (h : (grow recover epoch header).run s = (.ok (), t)) : Sealed recover header := by
  obtain ⟨_, s₁, -, hbuild⟩ := Prog.run_bind_ok.1 h
  rw [cliqueBuildSnapshots] at hbuild
  cases hepoch : cliqueIsEpochTransition epoch header with
  | true =>
    rw [hepoch, if_pos rfl] at hbuild
    exact (sealed_of_run hne hbuild).1
  | false =>
    rw [hepoch, if_neg Bool.false_ne_true] at hbuild
    obtain ⟨_, s₂, -, hput⟩ := Prog.run_bind_ok.1 hbuild
    exact (sealed_of_run hne hput).1

private theorem sealed_of_forM_grow {blocks : List Header} {n : ℕ}
    (hnumbered : Numbered (n + 1) blocks)
    {s t : Consensus} (h : Prog.run (forM blocks (grow recover epoch)) s = (.ok (), t)) :
    ∀ h ∈ blocks, Sealed recover h := by
  induction blocks generalizing n s with
  | nil => exact nofun
  | cons header blocks ih =>
    rw [List.forM_cons] at h
    obtain ⟨_, s₁, hgrow, h⟩ := Prog.run_bind_ok.1 h
    have hnumber := hnumbered.1
    exact List.forall_mem_cons.2 ⟨sealed_of_grow (by omega) hgrow, ih hnumbered.2 h⟩

private theorem Consensus.head_le {s : Consensus} {n : ℕ}
    (h : ∀ e ∈ s.latestBlockSigners, e.1 ≤ n) :
    s.head ≤ n := by
  obtain hnil | ⟨log, last, hlog⟩ := NumberedLog.eq_nil_or_append s.latestBlockSigners
  · rw [head, lastBlockNumber, hnil]
    exact Nat.zero_le n
  · rw [head_eq hlog]
    exact h last (by simp [hlog])

/-- Saved lists determine what is saved. -/
private theorem eq_of_saved {s t : Consensus} (hs : SignersSaved s ∧ VotesSaved s)
    (ht : SignersSaved t ∧ VotesSaved t) (hstates : s.latestSignerStates = t.latestSignerStates)
    (hvotes : s.latestVotes = t.latestVotes)
    (hsigners : s.latestBlockSigners = t.latestBlockSigners) : s = t := by
  have hdb : s.db = t.db := by
    funext key
    cases key with
    | signers => rw [hs.1.1, ht.1.1, hstates]
    | votes => exact hs.2.trans ((congrArg (fun v => some (encode (formatVotes v))) hvotes).trans
        ht.2.symm)
    | blockSigners => rw [hs.1.2, ht.1.2, hsigners]
  obtain ⟨_, _, _, _⟩ := s
  obtain ⟨_, _, _, _⟩ := t
  obtain rfl : _ = _ := hstates
  obtain rfl : _ = _ := hvotes
  obtain rfl : _ = _ := hsigners
  obtain rfl : _ = _ := hdb
  rfl

/-- A reorganization above `common` after which the lists are right again: there are as many new
blocks as the list of the latest signers holds (or all blocks are new, and the list does not go back
to block 1); and the old head and the block below the new one trim the same signer states. -/
def Restores (recover : Header → Except CliqueError Address) (epoch : ℕ) (genesis : Header)
    (common replaced replacing : List Header) (s : Consensus) : Prop :=
  (∀ limit, s.cliqueSignerLimit (common.length + 1) = .ok limit →
    limit ≤ replacing.length ∨ common = [] ∧ ∀ e ∈ s.latestBlockSigners, 1 < e.1) ∧
  ∀ before, (feed recover epoch genesis common).run {} = (.ok (), before) →
    ∀ state ∈ before.latestSignerStates.dropLast,
      stateBound (common.length + replaced.length) ≤ (state.1 : ℤ) ↔
        stateBound (common.length + replacing.length - 1) ≤ (state.1 : ℤ)

/-- The lists of latest signers after a reorganization. -/
private theorem rtake_filter_append {limit n : ℕ} {log replaced replacing : List (ℕ × Address)}
    (h : limit ≤ replacing.length ∨
      log = [] ∧ ∀ e ∈ (log ++ replaced).rtake limit, n < e.1) :
    (((log ++ replaced).rtake limit).filter (fun e => e.1 ≤ n) ++ replacing).rtake limit =
      (log ++ replacing).rtake limit := by
  obtain hle | ⟨rfl, habove⟩ := h
  · rw [NumberedLog.rtake_append_of_le _ hle, NumberedLog.rtake_append_of_le _ hle]
  · rw [List.filter_eq_nil_iff.2]
    intro e he
    rw [decide_eq_true_eq]
    exact not_le.2 (habove e he)

/-- **A reorganization restores the lists.** -/
theorem run_newBlock_of_restores {genesis ancestor header : Header}
    {common replaced replacing : List Header} (hgenesis : genesis.number = 0)
    (hreplaced : replaced ≠ []) (hreplacing : replacing ≠ [])
    (hold : Numbered 1 (common ++ replaced)) (hnew : Numbered 1 (common ++ replacing))
    (hquiet : ∀ h ∈ replaced, Quiet epoch h) (hquiet' : ∀ h ∈ replacing, Quiet epoch h)
    (hancestor : ancestor.number = common.length)
    (hheader : header.number = common.length + replacing.length) {s t : Consensus}
    (hs : (feed recover epoch genesis (common ++ replaced)).run {} = (.ok (), s))
    (hrestores : Restores recover epoch genesis common replaced replacing s)
    (hrun : (newBlock recover epoch (genesis :: (common ++ replacing)) header
      (some ancestor)).run s = (.ok (), t)) :
    (feed recover epoch genesis (common ++ replacing)).run {} = (.ok (), t) := by
  obtain ⟨before, hbefore, hgrown⟩ := (run_feed_append hgenesis hold).1 hs
  obtain ⟨hcommon, hold'⟩ := Numbered.append.1 hold
  have hnew' := (Numbered.append.1 hnew).2
  rw [Nat.add_comm 1] at hold' hnew'
  have hfollows := (follows_of_feed hgenesis hcommon hbefore).1
  have hfollowsOld := (follows_of_feed hgenesis hold hs).1
  rw [List.length_append] at hfollowsOld
  obtain ⟨log, last, hlast, hle⟩ := hfollows.exists_last
  -- the old chain
  obtain ⟨s', hs', -, -, hstates, hvotes, hsigners⟩ := hfollows.run_forM_grow hreplaced hold' hquiet
    (sealed_of_forM_grow hold' hgrown) hlast
  obtain rfl : s' = s := congrArg Prod.snd (hs'.symm.trans hgrown)
  have hlastOld : ∃ log', s'.latestSignerStates = log' ++ [last] := by
    rw [hstates, hlast, NumberedLog.trimKeeping_append (hlast ▸ hfollows.ascending)]
    exact ⟨_, rfl⟩
  obtain ⟨logOld, hlastOld⟩ := hlastOld
  -- cutting back
  rw [newBlock_eq hancestor hheader] at hrun
  have hdelete : (cliqueDeleteSnapshots recover epoch (common.length + 1)).run s' =
      (.ok (), s'.cutBack epoch (common.length + 1)) := by
    refine run_cliqueDeleteSnapshots hfollowsOld.ne_nil (fun e he => ?_) (fun v hv => ?_)
    · rw [hstates] at he
      exact (hfollows.states_le e ((NumberedLog.trimKeeping_sublist _ _).subset he)).trans
        (Nat.le_succ _)
    · rw [hvotes] at hv
      exact (hfollows.votes_le v (List.mem_of_mem_filter hv)).trans (Nat.le_succ _)
  rw [Prog.run_bind_of_ok hdelete] at hrun
  obtain ⟨logCut, hlastCut⟩ := hfollowsOld.cutBack_last epoch (common.length + 1) hlastOld
  -- building up
  have hbound := voteBound_of_quiet hnew' hquiet'
  obtain ⟨hsealed, htstates, htvotes, htsigners, htsaved, htvotesSaved⟩ :=
    run_forM_build hnew' hquiet' hlastCut hle
      (Consensus.head_le fun e he => of_decide_eq_true (List.mem_filter.1 he).2)
      (fun v hv => by
        rw [cutBack_latestVotes, hvotes] at hv
        rw [hbound]
        exact of_decide_eq_true (List.mem_filter.1 (List.mem_filter.1 hv).1).2) hrun
  -- the new chain
  obtain ⟨t', ht', hsaved', hvotesSaved', hstates', hvotes', hsigners'⟩ :=
    hfollows.run_forM_grow hreplacing hnew' hquiet' hsealed hlast
  have heq : t = t' := by
    refine eq_of_saved ⟨htsaved (signersSaved_cutBack _ _), htvotesSaved (votesSaved_cutBack _ _)⟩
      ⟨hsaved', hvotesSaved'⟩ ?_ ?_ ?_
    · rw [htstates, cutBack_latestSignerStates, hfollowsOld.head, hstates, hstates',
        NumberedLog.trimKeeping_trimKeeping hfollows.ascending]
      · exact NumberedLog.trimKeeping_congr hfollows.ascending (hrestores.2 before hbefore)
      · rw [stateBound, stateBound]
        omega
    · have hboundOld := voteBound_of_quiet hold' hquiet
      rw [htvotes, cutBack_latestVotes, hfollowsOld.head, hboundOld, hvotes, hvotes',
        List.filter_filter]
      refine List.filter_congr fun vote _ => ?_
      rw [Bool.and_self]
    · have hcut : (s'.cutBack epoch (common.length + 1)).latestBlockSigners =
          s'.latestBlockSigners.filter fun e => e.1 ≤ common.length + 1 := rfl
      have hne : replacing.map (entry recover) ≠ [] := by simpa using hreplacing
      rw [htsigners, hcut, NumberedLog.foldl_pushRecent _ _ hne, hsigners, hsigners']
      refine rtake_filter_append ?_
      rw [List.length_map]
      obtain hlimit | ⟨rfl, habove⟩ := hrestores.1 _
        (Consensus.cliqueSignerLimit_eq hlastOld (Nat.lt_succ_of_le hle))
      · exact Or.inl hlimit
      · rw [feed_nil] at hbefore
        rw [hsigners] at habove
        exact Or.inr ⟨(run_genesisInit hbefore).2.1, habove⟩
  rw [heq]
  exact (run_feed_append hgenesis hnew).2 ⟨before, hbefore, ht'⟩

end Clique

end Tvmjs
