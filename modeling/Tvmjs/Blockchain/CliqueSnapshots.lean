import Tvmjs.Blockchain.Clique

/-!
# What the lists of Clique consensus hold

* `Follows` -- the lists of a consensus object which follows a chain up to a block; cutting back to
  the next block only trims and saves them;
* `Follows.grow` -- **a block that is put on the chain leads to lists which follow it**;
* `Follows.run_grow_of_quiet` -- a block which casts no vote and is no checkpoint trims the signer
  states and the votes, and puts its signer;
* `SignersSaved`, `VotesSaved` -- the database holds the lists.
-/

namespace Tvmjs

namespace Clique

open RLP

variable {epoch : ℕ} {recover : Header → Except CliqueError Address}

/-! ### Trimming, and the head -/

/-- The number of the last block that the lists know of, 0 for the genesis block. -/
def Consensus.head (s : Consensus) : ℕ := s.lastBlockNumber.getD 0

/-- The last block is the head. -/
private theorem Consensus.lastBlockNumber_eq_some {s : Consensus} {n : ℕ}
    (h : s.lastBlockNumber = some n) :
    s.head = n := by
  rw [head, h]
  rfl

/-- The bound of a trim of the signer states. -/
def stateBound (n : ℕ) : ℤ := (n : ℤ) - CLIQUE_SIGNER_HISTORY_BLOCK_LIMIT

/-- The bound of a trim of the votes. -/
def voteBound (epoch n : ℕ) : ℤ :=
  (lastEpochBlockNumber epoch n : ℤ) - CLIQUE_SIGNER_HISTORY_BLOCK_LIMIT

/-- Below the limit of the history nothing is dropped. -/
private theorem bound_zero_le (e : ℕ) : (0 : ℤ) - CLIQUE_SIGNER_HISTORY_BLOCK_LIMIT ≤ e := by
  rw [CLIQUE_SIGNER_HISTORY_BLOCK_LIMIT]
  omega

/-- Without a head the trim keeps everything, as one at the genesis block does. -/
private theorem Consensus.trimSignerStates_latestSignerStates (s : Consensus) :
    s.trimSignerStates.latestSignerStates =
      NumberedLog.trimKeeping (stateBound s.head) s.latestSignerStates := by
  rw [trimSignerStates]
  split
  · rename_i hnone
    have hhead : s.head = 0 := by rw [head, hnone]; rfl
    rw [hhead, NumberedLog.trimKeeping_eq_self]
    exact fun e _ => bound_zero_le e.1
  · rename_i n hsome
    rw [lastBlockNumber_eq_some hsome]
    rfl

/-- Trimming drops the votes below the bound. -/
theorem Consensus.trimVotes_latestVotes (s : Consensus) :
    (s.trimVotes epoch).latestVotes =
      s.latestVotes.filter fun vote => voteBound epoch s.head ≤ vote.1 := by
  rw [trimVotes]
  split
  · rename_i hnone
    have hhead : s.head = 0 := by rw [head, hnone]; rfl
    rw [hhead, List.filter_eq_self.2]
    intro vote _
    rw [decide_eq_true_eq, voteBound, lastEpochBlockNumber]
    simpa using bound_zero_le vote.1
  · rename_i n hsome
    rw [lastBlockNumber_eq_some hsome]
    rfl

section Fields

variable (s : Consensus)

@[simp] theorem trimSignerStates_latestVotes :
    s.trimSignerStates.latestVotes = s.latestVotes := by
  rw [Consensus.trimSignerStates]; split <;> rfl

@[simp] theorem trimSignerStates_latestBlockSigners :
    s.trimSignerStates.latestBlockSigners = s.latestBlockSigners := by
  rw [Consensus.trimSignerStates]; split <;> rfl

@[simp] theorem trimSignerStates_db : s.trimSignerStates.db = s.db := by
  rw [Consensus.trimSignerStates]; split <;> rfl

@[simp] theorem trimVotes_latestSignerStates :
    (s.trimVotes epoch).latestSignerStates = s.latestSignerStates := by
  rw [Consensus.trimVotes]; split <;> rfl

@[simp] theorem trimVotes_latestBlockSigners :
    (s.trimVotes epoch).latestBlockSigners = s.latestBlockSigners := by
  rw [Consensus.trimVotes]; split <;> rfl

@[simp] theorem trimVotes_db : (s.trimVotes epoch).db = s.db := by
  rw [Consensus.trimVotes]; split <;> rfl

end Fields

/-- The head depends on the signers of the latest blocks alone. -/
private theorem Consensus.head_congr {s t : Consensus}
    (h : s.latestBlockSigners = t.latestBlockSigners) :
    s.head = t.head := by
  rw [head, head, lastBlockNumber, lastBlockNumber, h]

/-- The head is the last block with a signer. -/
theorem Consensus.head_eq {s : Consensus} {log : List (ℕ × Address)} {last : ℕ × Address}
    (h : s.latestBlockSigners = log ++ [last]) : s.head = last.1 := by
  rw [head, lastBlockNumber, h, List.getLast?_concat, Option.map_some, Option.filter_some]
  by_cases hzero : last.1 = 0
  · simp [hzero]
  · simp [hzero]

/-! ### Active signers -/

/-- The signers for a block above all signer states are those of the last one. -/
private theorem Consensus.cliqueActiveSigners_eq {s : Consensus} {log : List SignerState}
    {last : SignerState}
    (h : s.latestSignerStates = log ++ [last]) {blockNum : ℕ} (hlt : last.1 < blockNum) :
    s.cliqueActiveSigners blockNum = .ok last.2 := by
  rw [cliqueActiveSigners, if_neg (by simp [h]), h, List.reverse_append, List.reverse_singleton,
    List.singleton_append, List.find?_cons_of_pos (by simpa using hlt)]

/-- The limit is that of the last list before the block. -/
theorem Consensus.cliqueSignerLimit_eq {s : Consensus} {log : List SignerState} {last : SignerState}
    (h : s.latestSignerStates = log ++ [last]) {blockNum : ℕ} (hlt : last.1 < blockNum) :
    s.cliqueSignerLimit blockNum = .ok (last.2.length / 2 + 1) := by
  rw [cliqueSignerLimit, cliqueActiveSigners_eq h hlt]
  rfl

/-- The limit depends on the lists of signers only. -/
private theorem Consensus.cliqueSignerLimit_congr {s t : Consensus}
    (h : s.latestSignerStates = t.latestSignerStates) (blockNum : ℕ) :
    s.cliqueSignerLimit blockNum = t.cliqueSignerLimit blockNum := by
  rw [cliqueSignerLimit, cliqueSignerLimit, cliqueActiveSigners, cliqueActiveSigners, h]

/-! ### Blocks which do not vote -/

/-- A header casts no vote and is no checkpoint. -/
def Quiet (epoch : ℕ) (header : Header) : Prop :=
  header.coinbase.isZero = true ∧ cliqueIsEpochTransition epoch header = false

/-- The signer of a header whose seal can be read. -/
def sealer (recover : Header → Except CliqueError Address) (header : Header) : Address :=
  match cliqueSigner recover header with
  | .ok signer => signer
  | .error _ => createZeroAddress

/-- The entry of a block in the list of the latest signers. -/
def entry (recover : Header → Except CliqueError Address) (header : Header) : ℕ × Address :=
  (header.number, sealer recover header)

/-- The seal of a header can be read. -/
def Sealed (recover : Header → Except CliqueError Address) (header : Header) : Prop :=
  cliqueSigner recover header = .ok (sealer recover header)

/-- A header whose signer is recovered is sealed. -/
private theorem sealed_of_ok {header : Header} {signer : Address}
    (h : cliqueSigner recover header = .ok signer) : Sealed recover header := by
  unfold Sealed sealer
  simp only [h]

/-- What a block which does not vote does to the lists. -/
def Consensus.quietBuild (epoch limit : ℕ) (e : ℕ × Address) (s : Consensus) : Consensus :=
  Consensus.saveBlockSigners
    { (s.trimVotes epoch).saveVotes with
      latestBlockSigners := NumberedLog.pushRecent limit s.latestBlockSigners e }

/-- A sealed block adds its signer. -/
private theorem run_cliqueUpdateLatestBlockSigners {s : Consensus} {header : Header} {limit : ℕ}
    (hnumber : header.number ≠ 0) (hsealed : Sealed recover header)
    (hlimit : s.cliqueSignerLimit header.number = .ok limit) :
    (cliqueUpdateLatestBlockSigners recover (some header)).run s =
      (.ok (), Consensus.saveBlockSigners
        { s with
          latestBlockSigners :=
            NumberedLog.pushRecent limit s.latestBlockSigners (entry recover header) }) := by
  have hgenesis : header.isGenesis = false := by simp [Header.isGenesis, hnumber]
  have hpush : ∀ log : List (ℕ × Address),
      (if limit < log.length then log.rtake limit else log) = log.rtake limit := by
    intro log
    split
    · rfl
    · rw [List.rtake, Nat.sub_eq_zero_of_le (not_lt.1 ‹_›), List.drop_zero]
  have hlimit' : Consensus.cliqueSignerLimit
      { s with latestBlockSigners := s.latestBlockSigners ++ [entry recover header] }
      header.number = .ok limit := hlimit
  rw [cliqueUpdateLatestBlockSigners, hgenesis, if_neg Bool.false_ne_true, hsealed]
  simp only [Prog.run_bind, Prog.run_ofExcept, Prog.run_modify, Prog.run_gets, id_eq]
  rw [entry] at hlimit'
  simp only [hlimit', hpush]
  rfl

/-- The signer limit is positive. -/
private theorem Consensus.cliqueSignerLimit_pos {s : Consensus} {blockNum limit : ℕ}
    (h : s.cliqueSignerLimit blockNum = .ok limit) : 0 < limit := by
  rw [cliqueSignerLimit] at h
  cases hactive : s.cliqueActiveSigners blockNum with
  | error e =>
    rw [hactive] at h
    cases h
  | ok signers =>
    rw [hactive] at h
    cases h
    exact Nat.succ_pos _

/-- Only a header whose seal can be read is put. -/
theorem sealed_of_run {s t : Consensus} {header : Header} (hnumber : header.number ≠ 0)
    (h : (cliqueUpdateLatestBlockSigners recover (some header)).run s = (.ok (), t)) :
    Sealed recover header ∧ ∃ limit, s.cliqueSignerLimit header.number = .ok limit := by
  have hgenesis : header.isGenesis = false := by simp [Header.isGenesis, hnumber]
  rw [cliqueUpdateLatestBlockSigners, hgenesis, if_neg Bool.false_ne_true] at h
  obtain ⟨signer, s₁, hsigner, h⟩ := Prog.run_bind_ok.1 h
  obtain ⟨_, s₂, hpush, h⟩ := Prog.run_bind_ok.1 h
  obtain ⟨s₃, _, hget, h⟩ := Prog.run_bind_ok.1 h
  obtain ⟨limit, _, hlimit, -⟩ := Prog.run_bind_ok.1 h
  obtain rfl : s = s₁ := congrArg Prod.snd hsigner
  cases hpush
  cases hget
  exact ⟨sealed_of_ok (congrArg Prod.fst hsigner), limit, congrArg Prod.fst hlimit⟩

/-- A quiet block neither votes nor changes the signers. -/
theorem cliqueBuildSnapshots_of_quiet {header : Header} (h : Quiet epoch header) :
    cliqueBuildSnapshots recover epoch header = (do
      saveTrimmedVotes epoch
      cliqueUpdateLatestBlockSigners recover (some header)) := by
  rw [cliqueBuildSnapshots, h.2, if_neg Bool.false_ne_true, cliqueUpdateVotes, if_pos h.1]

/-- What a quiet block does to the snapshots. -/
theorem run_cliqueBuildSnapshots {s : Consensus} {header : Header} (hquiet : Quiet epoch header)
    (hsealed : Sealed recover header) (hnumber : header.number ≠ 0) {limit : ℕ}
    (hlimit : s.cliqueSignerLimit header.number = .ok limit) :
    (cliqueBuildSnapshots recover epoch header).run s =
      (.ok (), s.quietBuild epoch limit (entry recover header)) := by
  have hvotes : (saveTrimmedVotes epoch).run s = (.ok (), (s.trimVotes epoch).saveVotes) := rfl
  rw [cliqueBuildSnapshots_of_quiet hquiet, Prog.run_bind_of_ok hvotes,
    run_cliqueUpdateLatestBlockSigners hnumber hsealed]
  · simp only [Consensus.quietBuild, Consensus.saveVotes, trimVotes_latestBlockSigners]
    rfl
  · rw [← hlimit]
    exact Consensus.cliqueSignerLimit_congr (trimVotes_latestSignerStates s) _

/-! ### Cutting back -/

/-- What cutting back does where all signer states and votes stay: it trims, and saves. -/
def Consensus.cutBack (epoch blockNumber : ℕ) (s : Consensus) : Consensus :=
  Consensus.saveBlockSigners
    { (s.trimSignerStates.saveSignerStates.trimVotes epoch).saveVotes with
      latestBlockSigners := s.latestBlockSigners.filter fun signer => signer.1 ≤ blockNumber }

/-- Cutting back trims the lists by the head they leave. -/
theorem cutBack_latestSignerStates (s : Consensus) (blockNumber : ℕ) :
    (s.cutBack epoch blockNumber).latestSignerStates =
      NumberedLog.trimKeeping (stateBound s.head) s.latestSignerStates := by
  have hfields : (s.cutBack epoch blockNumber).latestSignerStates =
      (s.trimSignerStates.saveSignerStates.trimVotes epoch).latestSignerStates := rfl
  rw [hfields, trimVotes_latestSignerStates]
  exact s.trimSignerStates_latestSignerStates

/-- Cutting back trims the votes by the head they leave. -/
theorem cutBack_latestVotes (s : Consensus) (blockNumber : ℕ) :
    (s.cutBack epoch blockNumber).latestVotes =
      s.latestVotes.filter fun vote => voteBound epoch s.head ≤ vote.1 := by
  have hhead : s.trimSignerStates.saveSignerStates.head = s.head :=
    Consensus.head_congr (trimSignerStates_latestBlockSigners s)
  have hvotes : s.trimSignerStates.saveSignerStates.latestVotes = s.latestVotes :=
    trimSignerStates_latestVotes s
  have hfields : (s.cutBack epoch blockNumber).latestVotes =
      (s.trimSignerStates.saveSignerStates.trimVotes epoch).latestVotes := rfl
  rw [hfields, Consensus.trimVotes_latestVotes, hhead, hvotes]

/-- Where there are signers their lists are trimmed and written. -/
private theorem run_saveTrimmedSignerStates {s : Consensus} (h : s.latestSignerStates ≠ []) :
    saveTrimmedSignerStates.run s = (.ok (), s.trimSignerStates.saveSignerStates) := by
  rw [saveTrimmedSignerStates, Prog.run_bind, Prog.run_gets]
  change Prog.run (if s.latestSignerStates = [] ∧ s.lastBlockNumber ≠ none then _ else _) s = _
  rw [if_neg (fun hnot => h hnot.1)]
  rfl

/-- With no list and no vote above the block a deletion cuts back. -/
theorem run_cliqueDeleteSnapshots {s : Consensus} {blockNumber : ℕ}
    (hne : s.latestSignerStates ≠ []) (hstates : ∀ e ∈ s.latestSignerStates, e.1 ≤ blockNumber)
    (hvotes : ∀ v ∈ s.latestVotes, v.1 ≤ blockNumber) :
    (cliqueDeleteSnapshots recover epoch blockNumber).run s =
      (.ok (), s.cutBack epoch blockNumber) := by
  have hkeep : ∀ {β : Type} (log : List (ℕ × β)), (∀ e ∈ log, e.1 ≤ blockNumber) →
      log.filter (fun e => e.1 ≤ blockNumber) = log := by
    intro β log hlog
    exact List.filter_eq_self.2 fun e he => decide_eq_true (hlog e he)
  have hcut : (Prog.modify fun s : Consensus => { s with
      latestSignerStates := s.latestSignerStates.filter fun state => state.1 ≤ blockNumber } :
        CliqueM Unit).run s = (.ok (), s) := by
    rw [Prog.run_modify, hkeep _ hstates]
  have hcutVotes : (Prog.modify fun s : Consensus => { s with
      latestVotes := s.latestVotes.filter fun vote => vote.1 ≤ blockNumber } : CliqueM Unit).run
        s.trimSignerStates.saveSignerStates = (.ok (), s.trimSignerStates.saveSignerStates) := by
    rw [Prog.run_modify, hkeep]
    intro v hv
    rw [Consensus.saveSignerStates, trimSignerStates_latestVotes] at hv
    exact hvotes v hv
  have hsave : (cliqueUpdateSignerStates none).run s =
      (.ok (), s.trimSignerStates.saveSignerStates) := run_saveTrimmedSignerStates hne
  rw [cliqueDeleteSnapshots, Prog.run_bind_of_ok hcut, Prog.run_bind_of_ok hsave,
    Prog.run_bind_of_ok hcutVotes]
  simp only [cliqueUpdateVotes, saveTrimmedVotes, cliqueUpdateLatestBlockSigners, Prog.run_bind,
    Prog.run_modify]
  rw [Consensus.cutBack]
  simp only [Consensus.saveVotes, trimVotes_latestBlockSigners, Consensus.saveSignerStates,
    trimSignerStates_latestBlockSigners]

/-! ### Lists which follow a chain -/

/-- The lists of a consensus object which follows a chain up to block `n`. -/
structure Follows (n : ℕ) (s : Consensus) : Prop where
  ne_nil : s.latestSignerStates ≠ []
  ascending : NumberedLog.Ascending s.latestSignerStates
  states_le : ∀ e ∈ s.latestSignerStates, e.1 ≤ n
  votes_le : ∀ v ∈ s.latestVotes, v.1 ≤ n
  signers_le : ∀ e ∈ s.latestBlockSigners, e.1 ≤ n
  head : s.head = n

/-- The last signer state of lists which follow a chain. -/
theorem Follows.exists_last {n : ℕ} {s : Consensus} (h : Follows n s) :
    ∃ log last, s.latestSignerStates = log ++ [last] ∧ last.1 ≤ n := by
  obtain hnil | ⟨log, last, hlog⟩ := NumberedLog.eq_nil_or_append s.latestSignerStates
  · exact absurd hnil h.ne_nil
  · exact ⟨log, last, hlog, h.states_le last (by simp [hlog])⟩

/-- Put the next block on a chain: the extension of `newBlock`. -/
def grow (recover : Header → Except CliqueError Address) (epoch : ℕ) (header : Header) :
    CliqueM Unit := do
  cliqueDeleteSnapshots recover epoch header.number
  cliqueBuildSnapshots recover epoch header

/-- Snapshots that follow a chain can be cut back to any later block. -/
theorem Follows.run_cliqueDeleteSnapshots {n m : ℕ} {s : Consensus} (h : Follows n s)
    (hle : n ≤ m) :
    (cliqueDeleteSnapshots recover epoch m).run s = (.ok (), s.cutBack epoch m) :=
  Clique.run_cliqueDeleteSnapshots h.ne_nil (fun e he => (h.states_le e he).trans hle)
    fun v hv => (h.votes_le v hv).trans hle

/-- Cutting back to the head or above it cuts no block. -/
private theorem Follows.cutBack_latestBlockSigners {n m : ℕ} {s : Consensus} (h : Follows n s)
    (hle : n ≤ m) : (s.cutBack epoch m).latestBlockSigners = s.latestBlockSigners :=
  List.filter_eq_self.2 fun e he => decide_eq_true ((h.signers_le e he).trans hle)

/-- Cutting back leaves snapshots that follow the chain. -/
theorem Follows.cutBack {n m : ℕ} {s : Consensus} (h : Follows n s) (hle : n ≤ m) :
    Follows n (s.cutBack epoch m) where
  ne_nil := by
    rw [cutBack_latestSignerStates]
    exact NumberedLog.trimKeeping_ne_nil _ h.ne_nil
  ascending := by
    rw [cutBack_latestSignerStates]
    exact h.ascending.sublist (NumberedLog.trimKeeping_sublist _ _)
  states_le := by
    rw [cutBack_latestSignerStates]
    exact fun e he => h.states_le e ((NumberedLog.trimKeeping_sublist _ _).subset he)
  votes_le := by
    rw [cutBack_latestVotes]
    exact fun v hv => h.votes_le v (List.mem_of_mem_filter hv)
  signers_le := by
    rw [h.cutBack_latestBlockSigners hle]
    exact h.signers_le
  head := (Consensus.head_congr (h.cutBack_latestBlockSigners hle)).trans h.head

/-- The last signer state is not cut. -/
theorem Follows.cutBack_last {n : ℕ} {s : Consensus} (h : Follows n s) (epoch m : ℕ)
    {log : List SignerState} {last : SignerState} (hlast : s.latestSignerStates = log ++ [last]) :
    ∃ log', (s.cutBack epoch m).latestSignerStates = log' ++ [last] := by
  rw [cutBack_latestSignerStates, hlast, NumberedLog.trimKeeping_append (hlast ▸ h.ascending)]
  exact ⟨_, rfl⟩

/-! ### Counting votes -/

/-- The block casts a vote which, with the votes before it, makes a majority. -/
def ReachesMajority (recover : Header → Except CliqueError Address) (epoch : ℕ) (s : Consensus)
    (header : Header) : Prop :=
  cliqueIsEpochTransition epoch header = false ∧ header.coinbase.isZero = false ∧
    ∃ signer activeSigners limit, cliqueSigner recover header = .ok signer ∧
      s.cliqueActiveSigners header.number = .ok activeSigners ∧
      s.cliqueSignerLimit header.number = .ok limit ∧
      ((header.coinbase ∉ activeSigners ∧
          limit ≤ roundVotes epoch s.latestVotes header signer 2 CLIQUE_NONCE_AUTH) ∨
        (header.coinbase ∈ activeSigners ∧
          limit ≤ roundVotes epoch s.latestVotes header signer 2 CLIQUE_NONCE_DROP))

/-- The votes that count. -/
private theorem numBeneficiaryVotes_congr {votes votes' : List (ℕ × Vote)} {header : Header}
    {signer : Address} (nonce : Bytes)
    (h : (votes.filter fun vote => lastEpochBlockNumber epoch header.number ≤ vote.1 ∧
        vote.2.signer ≠ signer) =
      votes'.filter fun vote => lastEpochBlockNumber epoch header.number ≤ vote.1 ∧
        vote.2.signer ≠ signer) :
    numBeneficiaryVotes epoch votes header signer nonce =
      numBeneficiaryVotes epoch votes' header signer nonce := by
  have hsplit : ∀ votes : List (ℕ × Vote),
      (votes.filter fun vote => lastEpochBlockNumber epoch header.number ≤ vote.1 ∧
        vote.2.signer ≠ signer ∧ vote.2.beneficiary = header.coinbase ∧ vote.2.nonce = nonce) =
      (votes.filter fun vote => lastEpochBlockNumber epoch header.number ≤ vote.1 ∧
        vote.2.signer ≠ signer).filter fun vote =>
          vote.2.beneficiary = header.coinbase ∧ vote.2.nonce = nonce := by
    intro votes
    rw [List.filter_filter]
    refine List.filter_congr fun vote _ => ?_
    rw [← Bool.decide_and, decide_eq_decide]
    tauto
  rw [numBeneficiaryVotes, numBeneficiaryVotes, hsplit, hsplit, h]

/-- The vote of the signer itself does not count among those of the others. -/
private theorem numBeneficiaryVotes_append (votes : List (ℕ × Vote)) (header : Header)
    {signer : Address}
    {vote : ℕ × Vote} (h : vote.2.signer = signer) (nonce : Bytes) :
    numBeneficiaryVotes epoch (votes ++ [vote]) header signer nonce =
      numBeneficiaryVotes epoch votes header signer nonce := by
  refine numBeneficiaryVotes_congr nonce ?_
  rw [List.filter_append, List.filter_cons_of_neg (by simp [h]), List.filter_nil, List.append_nil]

/-- Later blocks have later epochs. -/
theorem lastEpochBlockNumber_mono (epoch : ℕ) {m n : ℕ} (h : m ≤ n) :
    lastEpochBlockNumber epoch m ≤ lastEpochBlockNumber epoch n := by
  have hm := Nat.div_add_mod m epoch
  have hn := Nat.div_add_mod n epoch
  have hle := Nat.mul_le_mul_left epoch (Nat.div_le_div_right (c := epoch) h)
  rw [lastEpochBlockNumber, lastEpochBlockNumber]
  omega

/-- Trimming removes no vote that counts. -/
private theorem numBeneficiaryVotes_trim (votes : List (ℕ × Vote)) {header : Header} {n : ℕ}
    (hle : n ≤ header.number) (signer : Address) (nonce : Bytes) :
    numBeneficiaryVotes epoch (votes.filter fun vote => voteBound epoch n ≤ vote.1) header signer
        nonce = numBeneficiaryVotes epoch votes header signer nonce := by
  refine numBeneficiaryVotes_congr nonce ?_
  rw [List.filter_filter]
  refine List.filter_congr fun vote _ => ?_
  have hmono := lastEpochBlockNumber_mono epoch hle
  rw [← Bool.decide_and, decide_eq_decide, voteBound, CLIQUE_SIGNER_HISTORY_BLOCK_LIMIT]
  constructor
  · exact fun h => h.1
  · intro h
    have h1 := h.1
    exact ⟨h, by omega⟩

/-- Whether a block reaches a majority does not depend on what cutting back trims. -/
private theorem Follows.reachesMajority_cutBack {n : ℕ} {s : Consensus} (h : Follows n s)
    {header : Header}
    (hlt : n < header.number) :
    ReachesMajority recover epoch (s.cutBack epoch header.number) header ↔
      ReachesMajority recover epoch s header := by
  obtain ⟨log, last, hlast, hle⟩ := h.exists_last
  obtain ⟨log', hlast'⟩ := h.cutBack_last epoch header.number hlast
  have hnumber : last.1 < header.number := hle.trans_lt hlt
  have hvotes : ∀ signer nonce,
      roundVotes epoch (s.cutBack epoch header.number).latestVotes header signer 2 nonce =
        roundVotes epoch s.latestVotes header signer 2 nonce := by
    intro signer nonce
    rw [roundVotes, roundVotes, cutBack_latestVotes, h.head, numBeneficiaryVotes_trim _ hlt.le]
  simp only [ReachesMajority, hvotes, Consensus.cliqueActiveSigners_eq hlast hnumber,
    Consensus.cliqueActiveSigners_eq hlast' hnumber, Consensus.cliqueSignerLimit_eq hlast hnumber,
    Consensus.cliqueSignerLimit_eq hlast' hnumber]

/-! ### A round of votes -/

/-- Putting a signer state above all others: the lists that are left. -/
private theorem run_cliqueUpdateSignerStates (s : Consensus) {state : SignerState}
    (hascending : NumberedLog.Ascending s.latestSignerStates)
    (hlt : ∀ e ∈ s.latestSignerStates, e.1 < state.1) :
    ∃ t, (cliqueUpdateSignerStates (some state)).run s = (.ok (), t) ∧
      t.latestSignerStates =
        NumberedLog.trimKeeping (stateBound s.head) (s.latestSignerStates ++ [state]) ∧
      t.latestVotes = s.latestVotes ∧ t.latestBlockSigners = s.latestBlockSigners ∧
      t.db = Function.update s.db .signers
        (some (encode (formatSignerStates t.latestSignerStates))) := by
  have hnew : NumberedLog.Ascending (s.latestSignerStates ++ [state]) := by
    refine List.pairwise_append.2 ⟨hascending, List.pairwise_singleton _ _, ?_⟩
    intro e he e' he'
    rw [List.mem_singleton.1 he']
    exact hlt e he
  have hunknown : s.latestSignerStates.any (fun value => value.1 = state.1) = false := by
    rw [List.any_eq_false]
    intro e he
    have := hlt e he
    simpa using this.ne
  have hpush : s.pushSignerState state =
      { s with latestSignerStates := s.latestSignerStates ++ [state] } := by
    rw [Consensus.pushSignerState, List.Pairwise.insertionSort_eq (hnew.imp fun h => h.le)]
  have hsave := run_saveTrimmedSignerStates (s := s.pushSignerState state)
    (by rw [hpush]; exact List.append_ne_nil_of_right_ne_nil _ (List.cons_ne_nil _ _))
  have hpushed : (Prog.modify (Consensus.pushSignerState state) : CliqueM Unit).run s =
      (.ok (), s.pushSignerState state) := rfl
  refine ⟨(s.pushSignerState state).trimSignerStates.saveSignerStates, ?_, ?_, ?_, ?_, ?_⟩
  · rw [cliqueUpdateSignerStates, Prog.run_bind, Prog.run_gets]
    change Prog.run (if s.latestSignerStates.any (fun value => value.1 = state.1) = true
      then _ else _) s = _
    rw [hunknown, if_neg Bool.false_ne_true, Prog.run_bind_of_ok hpushed, hsave]
  · rw [Consensus.saveSignerStates, Consensus.trimSignerStates_latestSignerStates, hpush]
    rfl
  · rw [Consensus.saveSignerStates, trimSignerStates_latestVotes, hpush]
  · rw [Consensus.saveSignerStates, trimSignerStates_latestBlockSigners, hpush]
  · rw [Consensus.saveSignerStates, trimSignerStates_db, hpush]

/-- The lists within a block above block `n`, before its signer is put: they are those of `s`, but
for the votes and for a signer state of the block. -/
structure Within (n : ℕ) (s t : Consensus) : Prop where
  ne_nil : t.latestSignerStates ≠ []
  ascending : NumberedLog.Ascending t.latestSignerStates
  states_le : ∀ e ∈ t.latestSignerStates, e.1 ≤ n + 1
  votes_le : ∀ v ∈ t.latestVotes, v.1 ≤ n + 1
  signers : t.latestBlockSigners = s.latestBlockSigners
  saved : t.db .signers = some (encode (formatSignerStates t.latestSignerStates))

/-- A majority puts a signer state. -/
private theorem Within.run_majority {n : ℕ} {s : Consensus} {header : Header} (h : Within n s s)
    (hnumber : header.number = n + 1) (hlt : ∀ e ∈ s.latestSignerStates, e.1 ≤ n)
    (signers : List Address) {votes : List (ℕ × Vote)} (hvotes : ∀ v ∈ votes, v.1 ≤ n + 1)
    {majority : Bool} {t : Consensus}
    (hrun : (do
        cliqueUpdateSignerStates (some (header.number, signers))
        pure true : CliqueM Bool).run { s with latestVotes := votes } = (.ok majority, t)) :
    majority = true ∧ Within n s t := by
  obtain ⟨t', hrun', hstates, hvotes', hsigners, hdb⟩ :=
    run_cliqueUpdateSignerStates { s with latestVotes := votes } h.ascending
      (fun e he => (by rw [hnumber]; exact Nat.lt_succ_of_le (hlt e he) :
        e.1 < ((header.number, signers) : SignerState).1))
  rw [Prog.run_bind_of_ok hrun', Prog.run_pure] at hrun
  cases hrun
  have hsub : t.latestSignerStates.Sublist
    (s.latestSignerStates ++ [(header.number, signers)]) := by
    rw [hstates]
    exact NumberedLog.trimKeeping_sublist _ _
  have hnew : NumberedLog.Ascending (s.latestSignerStates ++ [(header.number, signers)]) := by
    refine List.pairwise_append.2 ⟨h.ascending, List.pairwise_singleton _ _, ?_⟩
    intro e he e' he'
    rw [List.mem_singleton.1 he', hnumber]
    exact Nat.lt_succ_of_le (hlt e he)
  refine ⟨rfl, ?_, hnew.sublist hsub, ?_, ?_, hsigners, ?_⟩
  · rw [hstates]
    exact NumberedLog.trimKeeping_ne_nil _
      (List.append_ne_nil_of_right_ne_nil _ (List.cons_ne_nil _ _))
  · intro e he
    obtain he | he := List.mem_append.1 (hsub.subset he)
    · exact (hlt e he).trans (Nat.le_succ n)
    · rw [List.mem_singleton.1 he]
      exact hnumber.le
  · rw [hvotes']
    exact hvotes
  · rw [hdb, Function.update_self]

/-- Without a majority a round puts no signer state. -/
private theorem run_voteRound {n : ℕ} {s : Consensus} {header : Header} {signer : Address}
    {round : ℕ}
    (h : Within n s s) (hnumber : header.number = n + 1) (hlt : ∀ e ∈ s.latestSignerStates, e.1 ≤ n)
    {majority : Bool} {t : Consensus}
    (hrun : (voteRound epoch header signer round).run s = (.ok majority, t)) :
    Within n s t ∧
      ((majority = false ∧
          t = { s with latestVotes := if round = 1 then s.latestVotes ++
            [(header.number, ⟨signer, header.coinbase, header.nonce⟩)] else s.latestVotes }) ∨
        majority = true ∧ ∃ activeSigners limit,
          s.cliqueActiveSigners header.number = .ok activeSigners ∧
          s.cliqueSignerLimit header.number = .ok limit ∧
          ((header.coinbase ∉ activeSigners ∧
              limit ≤ roundVotes epoch s.latestVotes header signer round CLIQUE_NONCE_AUTH) ∨
            (header.coinbase ∈ activeSigners ∧
              limit ≤ roundVotes epoch s.latestVotes header signer round CLIQUE_NONCE_DROP))) := by
  -- the round only reads until it stores the votes
  obtain ⟨s₀, _, hget, hrun⟩ := Prog.run_bind_ok.1 hrun
  cases hget
  obtain ⟨limit, s₁, hread, hrun⟩ := Prog.run_bind_ok.1 hrun
  obtain ⟨activeSigners, s₂, hread', hrun⟩ := Prog.run_bind_ok.1 hrun
  have hlimit : s.cliqueSignerLimit header.number = .ok limit := congrArg Prod.fst hread
  have hactive : s.cliqueActiveSigners header.number = .ok activeSigners := congrArg Prod.fst hread'
  obtain rfl : s = s₁ := congrArg Prod.snd hread
  obtain rfl : s = s₂ := congrArg Prod.snd hread'
  simp only [id_eq] at hrun
  obtain ⟨_, t', hmodify, hrun⟩ := Prog.run_bind_ok.1 hrun
  cases hmodify
  -- votes that are kept are old, and the one that is added is of this block
  have hround : ∀ votes : List (ℕ × Vote), (∀ v ∈ votes, v ∈ s.latestVotes) →
      ∀ v ∈ (if round = 1 then votes ++ [(header.number, ⟨signer, header.coinbase, header.nonce⟩)]
        else votes), v.1 ≤ n + 1 := by
    intro votes hvotes v hv
    split at hv
    · obtain hv | hv := List.mem_append.1 hv
      · exact h.votes_le v (hvotes v hv)
      · rw [List.mem_singleton.1 hv, hnumber]
    · exact h.votes_le v (hvotes v hv)
  -- a majority to add the signer, one to drop it, or none
  by_cases hauth : header.coinbase ∉ activeSigners ∧
      limit ≤ roundVotes epoch s.latestVotes header signer round CLIQUE_NONCE_AUTH
  · have hdropped : ¬ (header.coinbase ∈ activeSigners ∧ limit ≤ roundVotes epoch
        (s.latestVotes.filter fun vote => vote.2.beneficiary ≠ header.coinbase) header signer round
          CLIQUE_NONCE_DROP) := fun hd => hauth.1 hd.1
    simp only [if_pos hauth, if_neg hdropped, if_pos (Or.inl hauth)] at hrun
    obtain ⟨hmajority, hwithin⟩ := h.run_majority hnumber hlt _
      (hround _ fun v hv => List.mem_of_mem_filter hv) hrun
    exact ⟨hwithin, Or.inr ⟨hmajority, _, _, hactive, hlimit, Or.inl hauth⟩⟩
  · by_cases hdrop : header.coinbase ∈ activeSigners ∧
        limit ≤ roundVotes epoch s.latestVotes header signer round CLIQUE_NONCE_DROP
    · simp only [if_neg hauth, if_pos hdrop, if_pos (Or.inr hdrop)] at hrun
      obtain ⟨hmajority, hwithin⟩ := h.run_majority hnumber hlt _
        (hround _ fun v hv => List.mem_of_mem_filter hv) hrun
      exact ⟨hwithin, Or.inr ⟨hmajority, _, _, hactive, hlimit, Or.inr hdrop⟩⟩
    · simp only [if_neg hauth, if_neg hdrop, if_neg (not_or.2 ⟨hauth, hdrop⟩)] at hrun
      cases hrun
      exact ⟨⟨h.ne_nil, h.ascending, h.states_le, hround _ fun v hv => hv, h.signers, h.saved⟩,
        Or.inl ⟨rfl, rfl⟩⟩

/-! ### A block that is put -/

/-- The database holds the list of votes. -/
def VotesSaved (s : Consensus) : Prop :=
  s.db .votes = some (encode (formatVotes s.latestVotes))

/-- The database holds the two lists of signers. -/
def SignersSaved (s : Consensus) : Prop :=
  s.db .signers = some (encode (formatSignerStates s.latestSignerStates)) ∧
    s.db .blockSigners = some (encode (formatBlockSigners s.latestBlockSigners))

/-- The lists that are left are in the database. -/
theorem signersSaved_cutBack (s : Consensus) (m : ℕ) : SignersSaved (s.cutBack epoch m) := by
  constructor
  · simp [Consensus.cutBack, Consensus.saveBlockSigners, Consensus.saveVotes,
      Consensus.saveSignerStates, Function.update]
  · simp [Consensus.cutBack, Consensus.saveBlockSigners]

/-- The votes that are left are in the database. -/
theorem votesSaved_cutBack (s : Consensus) (m : ℕ) : VotesSaved (s.cutBack epoch m) := by
  simp [VotesSaved, Consensus.cutBack, Consensus.saveBlockSigners, Consensus.saveVotes]

/-- Trimming and saving the votes at the end of a block. -/
theorem Within.saveVotes {n : ℕ} {s t : Consensus} (h : Within n s t) (epoch : ℕ) :
    Within n s (t.trimVotes epoch).saveVotes ∧ VotesSaved (t.trimVotes epoch).saveVotes := by
  refine ⟨⟨?_, ?_, ?_, ?_, ?_, ?_⟩, ?_⟩
  · rw [Consensus.saveVotes, trimVotes_latestSignerStates]
    exact h.ne_nil
  · rw [Consensus.saveVotes, trimVotes_latestSignerStates]
    exact h.ascending
  · rw [Consensus.saveVotes, trimVotes_latestSignerStates]
    exact h.states_le
  · rw [Consensus.saveVotes, Consensus.trimVotes_latestVotes]
    exact fun v hv => h.votes_le v (List.mem_of_mem_filter hv)
  · rw [Consensus.saveVotes, trimVotes_latestBlockSigners]
    exact h.signers
  · have hdb : (t.trimVotes epoch).saveVotes.db .signers = t.db .signers := by
      simp [Consensus.saveVotes]
    rw [hdb, h.saved, Consensus.saveVotes, trimVotes_latestSignerStates]
  · simp [VotesSaved, Consensus.saveVotes]

/-- The second round counts at least what the first one counts. -/
private theorem roundVotes_le (votes : List (ℕ × Vote)) (header : Header) (signer : Address)
    (nonce : Bytes) :
    roundVotes epoch votes header signer 1 nonce ≤
      roundVotes epoch votes header signer 2 nonce := by
  simp [roundVotes]

/-- The vote of a block is counted; unless it reaches a majority, the votes are saved. -/
private theorem Within.run_cliqueUpdateVotes {n : ℕ} {s t : Consensus} {header : Header}
    (h : Within n s s) (hnumber : header.number = n + 1)
    (hlt : ∀ e ∈ s.latestSignerStates, e.1 ≤ n)
    (hepoch : cliqueIsEpochTransition epoch header = false)
    (hrun : (cliqueUpdateVotes epoch recover (some header)).run s = (.ok (), t)) :
    Within n s t ∧ (¬ ReachesMajority recover epoch s header → VotesSaved t) := by
  rw [cliqueUpdateVotes] at hrun
  cases hcoinbase : header.coinbase.isZero with
  | true =>
    rw [hcoinbase, if_pos rfl] at hrun
    cases hrun
    exact ⟨(h.saveVotes epoch).1, fun _ => (h.saveVotes epoch).2⟩
  | false =>
    rw [hcoinbase, if_neg Bool.false_ne_true] at hrun
    obtain ⟨signer, s₁, hread, hrun⟩ := Prog.run_bind_ok.1 hrun
    obtain rfl : s = s₁ := congrArg Prod.snd hread
    have hsigner : cliqueSigner recover header = .ok signer := congrArg Prod.fst hread
    obtain ⟨majority, t₁, hround, hrun⟩ := Prog.run_bind_ok.1 hrun
    obtain ⟨hwithin, ⟨rfl, rfl⟩ | ⟨rfl, activeSigners, limit, hactive, hlimit, hmajority⟩⟩ :=
      run_voteRound h hnumber hlt hround
    · rw [if_neg Bool.false_ne_true] at hrun
      obtain ⟨majority, t₂, hround₂, hrun⟩ := Prog.run_bind_ok.1 hrun
      have hself : Within n { s with latestVotes := s.latestVotes ++
          [(header.number, ⟨signer, header.coinbase, header.nonce⟩)] }
          { s with latestVotes := s.latestVotes ++
            [(header.number, ⟨signer, header.coinbase, header.nonce⟩)] } :=
        ⟨hwithin.ne_nil, hwithin.ascending, hwithin.states_le, hwithin.votes_le, rfl, hwithin.saved⟩
      obtain ⟨hwithin₂, ⟨rfl, rfl⟩ | ⟨rfl, activeSigners, limit, hactive, hlimit, hmajority⟩⟩ :=
        run_voteRound hself hnumber hlt hround₂
      · rw [if_neg Bool.false_ne_true] at hrun
        cases hrun
        have hsaved := hwithin.saveVotes epoch
        exact ⟨hsaved.1, fun _ => hsaved.2⟩
      · rw [if_pos rfl] at hrun
        cases hrun
        refine ⟨⟨hwithin₂.ne_nil, hwithin₂.ascending, hwithin₂.states_le, hwithin₂.votes_le,
          hwithin₂.signers, hwithin₂.saved⟩, fun hnot => absurd ?_ hnot⟩
        -- the vote of the round before is by the signer itself
        refine ⟨hepoch, hcoinbase, signer, activeSigners, limit, hsigner, hactive, hlimit, ?_⟩
        simp only [roundVotes, numBeneficiaryVotes_append s.latestVotes header rfl] at hmajority ⊢
        exact hmajority
    · rw [if_pos rfl] at hrun
      cases hrun
      refine ⟨hwithin, fun hnot => absurd ?_ hnot⟩
      refine ⟨hepoch, hcoinbase, signer, activeSigners, limit, hsigner, hactive, hlimit, ?_⟩
      obtain ⟨hnew, hle⟩ | ⟨hold, hle⟩ := hmajority
      · exact Or.inl ⟨hnew, hle.trans (roundVotes_le _ _ _ _)⟩
      · exact Or.inr ⟨hold, hle.trans (roundVotes_le _ _ _ _)⟩

/-- The signer of a block is put last. -/
theorem pushRecent_eq {limit : ℕ} (hpos : 0 < limit) (log : List (ℕ × Address))
    (e : ℕ × Address) : NumberedLog.pushRecent limit log e = log.rtake (limit - 1) ++ [e] := by
  obtain ⟨k, rfl⟩ := Nat.exists_eq_succ_of_ne_zero hpos.ne'
  rw [NumberedLog.pushRecent, List.rtake_concat_succ]
  rfl

/-- **A block that is put on the chain** leads to lists which follow it.  The signers are saved, and
unless the block reaches a majority so are the votes. -/
theorem Follows.grow {n : ℕ} {s t : Consensus} (h : Follows n s) {header : Header}
    (hnumber : header.number = n + 1)
    (hrun : (grow recover epoch header).run s = (.ok (), t)) :
    Follows (n + 1) t ∧ SignersSaved t ∧
      (¬ ReachesMajority recover epoch s header → VotesSaved t) := by
  have hle : n ≤ header.number := hnumber ▸ Nat.le_succ n
  rw [Clique.grow, Prog.run_bind_of_ok (h.run_cliqueDeleteSnapshots hle),
    cliqueBuildSnapshots] at hrun
  have hcut : Follows n (s.cutBack epoch header.number) := h.cutBack hle
  have hself : Within n (s.cutBack epoch header.number) (s.cutBack epoch header.number) :=
    ⟨hcut.ne_nil, hcut.ascending, fun e he => (hcut.states_le e he).trans (Nat.le_succ n),
      fun v hv => (hcut.votes_le v hv).trans (Nat.le_succ n), rfl, (signersSaved_cutBack s _).1⟩
  obtain ⟨t₁, hrun, hwithin, hsaved⟩ : ∃ t₁,
      (cliqueUpdateLatestBlockSigners recover (some header)).run t₁ = (.ok (), t) ∧
      Within n (s.cutBack epoch header.number) t₁ ∧
      (¬ ReachesMajority recover epoch s header → VotesSaved t₁) := by
    cases hepoch : cliqueIsEpochTransition epoch header with
    | true =>
      rw [hepoch, if_pos rfl] at hrun
      exact ⟨_, hrun, hself, fun _ => votesSaved_cutBack s _⟩
    | false =>
      rw [hepoch, if_neg Bool.false_ne_true] at hrun
      obtain ⟨_, t₁, hvotes, hrun⟩ := Prog.run_bind_ok.1 hrun
      rw [← h.reachesMajority_cutBack (hnumber ▸ Nat.lt_succ_self n)]
      exact ⟨t₁, hrun, hself.run_cliqueUpdateVotes hnumber hcut.states_le hepoch hvotes⟩
  -- the signer of the block
  have hne : header.number ≠ 0 := by omega
  obtain ⟨hsealed, limit, hlimit⟩ := sealed_of_run hne hrun
  rw [run_cliqueUpdateLatestBlockSigners hne hsealed hlimit] at hrun
  cases hrun
  have hsigners := pushRecent_eq (Consensus.cliqueSignerLimit_pos hlimit) t₁.latestBlockSigners
    (entry recover header)
  refine ⟨⟨hwithin.ne_nil, hwithin.ascending, hwithin.states_le, hwithin.votes_le, ?_, ?_⟩,
    ⟨?_, ?_⟩, fun hnot => ?_⟩
  · intro e he
    change e ∈ NumberedLog.pushRecent _ _ _ at he
    rw [hsigners, hwithin.signers] at he
    obtain he | he := List.mem_append.1 he
    · exact (hcut.signers_le e ((NumberedLog.rtake_sublist _ _).subset he)).trans (Nat.le_succ n)
    · rw [List.mem_singleton.1 he]
      exact hnumber.le
  · exact (Consensus.head_eq hsigners).trans hnumber
  · simpa [Consensus.saveBlockSigners] using hwithin.saved
  · simp [Consensus.saveBlockSigners]
  · have := hsaved hnot
    simpa [VotesSaved, Consensus.saveBlockSigners] using this

/-! ### Blocks which do not vote, one after the other -/

/-- The numbers of some headers go on from a number. -/
def Numbered : ℕ → List Header → Prop
  | _, [] => True
  | n, header :: headers => header.number = n ∧ Numbered (n + 1) headers

/-- Headers in a row are numbered on. -/
theorem Numbered.append {n : ℕ} {xs ys : List Header} :
    Numbered n (xs ++ ys) ↔ Numbered n xs ∧ Numbered (n + xs.length) ys := by
  induction xs generalizing n with
  | nil => simp [Numbered]
  | cons header xs ih =>
    rw [List.cons_append, Numbered, Numbered, ih, and_assoc, List.length_cons,
      Nat.add_right_comm, Nat.add_assoc]

/-- What a block which does not vote leads to. -/
theorem Follows.run_grow_of_quiet {n : ℕ} {s : Consensus} (h : Follows n s) {header : Header}
    (hnumber : header.number = n + 1) (hquiet : Quiet epoch header)
    (hsealed : Sealed recover header) {log : List SignerState} {last : SignerState}
    (hlast : s.latestSignerStates = log ++ [last]) :
    ∃ t, (Clique.grow recover epoch header).run s = (.ok (), t) ∧
      t.latestSignerStates =
        NumberedLog.trimKeeping (stateBound n) s.latestSignerStates ∧
      t.latestVotes = s.latestVotes.filter (fun vote => voteBound epoch n ≤ vote.1) ∧
      t.latestBlockSigners = NumberedLog.pushRecent (last.2.length / 2 + 1) s.latestBlockSigners
        (entry recover header) := by
  have hle : n ≤ header.number := hnumber ▸ Nat.le_succ n
  obtain ⟨log', hlast'⟩ := h.cutBack_last epoch header.number hlast
  have hlt : last.1 < header.number :=
    hnumber ▸ Nat.lt_succ_of_le (h.states_le last (by simp [hlast]))
  have hlimit := Consensus.cliqueSignerLimit_eq hlast' hlt
  have hbuild := run_cliqueBuildSnapshots hquiet hsealed (by omega : header.number ≠ 0) hlimit
  have hhead : (s.cutBack epoch header.number).head = n := (h.cutBack hle).head
  refine ⟨_, (Prog.run_bind_of_ok (h.run_cliqueDeleteSnapshots hle)).trans hbuild, ?_, ?_, ?_⟩
  · have hfields : ((s.cutBack epoch header.number).quietBuild epoch (last.2.length / 2 + 1)
        (entry recover header)).latestSignerStates =
          ((s.cutBack epoch header.number).trimVotes epoch).latestSignerStates := rfl
    rw [hfields, trimVotes_latestSignerStates, cutBack_latestSignerStates, h.head]
  · have hfields : ((s.cutBack epoch header.number).quietBuild epoch (last.2.length / 2 + 1)
        (entry recover header)).latestVotes =
          ((s.cutBack epoch header.number).trimVotes epoch).latestVotes := rfl
    rw [hfields, Consensus.trimVotes_latestVotes, hhead, cutBack_latestVotes, h.head,
      List.filter_filter]
    refine List.filter_congr fun vote _ => ?_
    rw [Bool.and_self]
  · have hfields : ((s.cutBack epoch header.number).quietBuild epoch (last.2.length / 2 + 1)
        (entry recover header)).latestBlockSigners =
          NumberedLog.pushRecent (last.2.length / 2 + 1)
            (s.cutBack epoch header.number).latestBlockSigners (entry recover header) := rfl
    rw [hfields, h.cutBack_latestBlockSigners hle]

end Clique

end Tvmjs
