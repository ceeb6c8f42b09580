import Tvmjs.Blockchain.CliqueRuns

/-!
# Runs of Clique consensus

* `Run` -- the consensus object of a node, along a canonical chain which grows and is reorganized;
* `setup_of_saved` -- what is read from the database are the lists that were saved;
* `cliqueSnapshots_of_run` -- **in a run whose reorganizations restore the lists** they are always
  those which a fresh consensus object has that is fed the canonical chain, and the database gives
  them back, but for the votes just after a majority.

A reorganization by fewer blocks than the list of the latest signers holds keeps a replaced block in
it; and a majority is put without saving the votes it discards.
-/

namespace Tvmjs

namespace Clique

open RLP

variable {epoch : ℕ} {recover : Header → Except CliqueError Address}

/-! ### Reading what was saved -/

private theorem bytesToNumber_bigIntToBytes (n : ℕ) : bytesToNumber (bigIntToBytes n) = n := by
  rw [bigIntToBytes]
  split
  · rename_i h
    rw [h]
    rfl
  · exact bytesToNumber_numberToBytes n

/-- Reading each of some written items. -/
private theorem mapM_map_eq_ok {α β ε : Type} {write : α → β} {read : β → Except ε α}
    (h : ∀ a, read (write a) = .ok a) (items : List α) :
    (items.map write).mapM read = .ok items := by
  induction items with
  | nil => rfl
  | cons a items ih =>
    rw [List.map_cons, List.mapM_cons, h, ih]
    rfl

private theorem readList_encode {items : List Input}
    (h64 : (encode (.list items)).length < 2 ^ 64) :
    readList (some (encode (.list items))) = .ok items := by
  rw [readList, decode_encode h64]

private theorem getCliqueLatestSignerStates_eq {db : Key → Option Bytes} {states : List SignerState}
    (h : db .signers = some (encode (formatSignerStates states)))
    (h64 : (encode (formatSignerStates states)).length < 2 ^ 64) :
    getCliqueLatestSignerStates db = .ok states := by
  rw [formatSignerStates] at h h64
  rw [getCliqueLatestSignerStates, h, readList_encode h64]
  refine mapM_map_eq_ok (fun state => ?_) states
  have haddress : ∀ a : Address, readAddress (.bytes a.bytes) = .ok a := newAddress_bytes
  have hread : (state.2.map fun a => Input.bytes a.bytes).mapM readAddress = .ok state.2 :=
    mapM_map_eq_ok haddress state.2
  rw [readSignerState, hread, bytesToNumber_bigIntToBytes]
  rfl

private theorem getCliqueLatestVotes_eq {db : Key → Option Bytes} {votes : List (ℕ × Vote)}
    (h : db .votes = some (encode (formatVotes votes)))
    (h64 : (encode (formatVotes votes)).length < 2 ^ 64) : getCliqueLatestVotes db = .ok votes := by
  rw [formatVotes] at h h64
  rw [getCliqueLatestVotes, h, readList_encode h64]
  refine mapM_map_eq_ok (fun vote => ?_) votes
  rw [readVote, newAddress_bytes, newAddress_bytes, bytesToNumber_bigIntToBytes]
  rfl

private theorem getCliqueLatestBlockSigners_eq {db : Key → Option Bytes}
    {signers : List (ℕ × Address)}
    (h : db .blockSigners = some (encode (formatBlockSigners signers)) ∨
      db .blockSigners = none ∧ signers = [])
    (h64 : (encode (formatBlockSigners signers)).length < 2 ^ 64) :
    getCliqueLatestBlockSigners db = .ok signers := by
  obtain h | ⟨h, rfl⟩ := h
  · rw [formatBlockSigners] at h h64
    rw [getCliqueLatestBlockSigners, h, readList_encode h64]
    refine mapM_map_eq_ok (fun signer => ?_) signers
    rw [readBlockSigner, newAddress_bytes, bytesToNumber_bigIntToBytes]
    rfl
  · rw [getCliqueLatestBlockSigners, h]
    rfl

/-- The lists are short enough to be encoded. -/
structure Encodable (s : Consensus) : Prop where
  states : (encode (formatSignerStates s.latestSignerStates)).length < 2 ^ 64
  votes : (encode (formatVotes s.latestVotes)).length < 2 ^ 64
  signers : (encode (formatBlockSigners s.latestBlockSigners)).length < 2 ^ 64

/-- **Saved lists are set up again.** -/
theorem setup_of_saved {s : Consensus} (h : Encodable s)
    (hascending : NumberedLog.Ascending s.latestSignerStates)
    (hstates : s.db .signers = some (encode (formatSignerStates s.latestSignerStates)))
    (hsigners : s.db .blockSigners = some (encode (formatBlockSigners s.latestBlockSigners)) ∨
      s.db .blockSigners = none ∧ s.latestBlockSigners = []) (hvotes : VotesSaved s) :
    setup s.db = .ok s := by
  have hsorted : s.latestSignerStates.insertionSort (fun a b => a.1 ≤ b.1) =
      s.latestSignerStates := List.Pairwise.insertionSort_eq (hascending.imp fun h => h.le)
  rw [setup, getCliqueLatestSignerStates_eq hstates h.states,
    getCliqueLatestVotes_eq hvotes h.votes, getCliqueLatestBlockSigners_eq hsigners h.signers]
  change Except.ok { s with
    latestSignerStates := s.latestSignerStates.insertionSort fun a b => a.1 ≤ b.1 } = _
  rw [hsorted]

/-! ### Runs -/

/-- The consensus object of a node with the blocks of its canonical chain above the genesis block.
A block on the head makes the chain heavier, so it is put at once; otherwise a block which makes its
chain the heavier one replaces the blocks above a common ancestor.  Such blocks cast no votes and
are no checkpoints, and satisfy `harmless`. -/
inductive Run (recover : Header → Except CliqueError Address) (epoch : ℕ) (genesis : Header)
    (harmless : List Header → List Header → List Header → Consensus → Prop) :
    List Header → Consensus → Prop
  | genesis {s : Consensus} : (genesisInit recover epoch genesis).run {} = (.ok (), s) →
      Run recover epoch genesis harmless [] s
  | extend {blocks : List Header} {parent header : Header} {s t : Consensus} :
      Run recover epoch genesis harmless blocks s → header.number = blocks.length + 1 →
      (genesis :: blocks).getLast? = some parent →
      (newBlock recover epoch (genesis :: (blocks ++ [header])) header (some parent)).run s =
        (.ok (), t) →
      Run recover epoch genesis harmless (blocks ++ [header]) t
  | reorganize {common replaced replacing : List Header} {ancestor header : Header}
      {s t : Consensus} :
      Run recover epoch genesis harmless (common ++ replaced) s → replaced ≠ [] →
      Numbered (common.length + 1) replacing →
      (∀ h ∈ replaced, Quiet epoch h) → (∀ h ∈ replacing, Quiet epoch h) →
      (genesis :: common).getLast? = some ancestor → replacing.getLast? = some header →
      harmless common replaced replacing s →
      (newBlock recover epoch (genesis :: (common ++ replacing)) header (some ancestor)).run s =
        (.ok (), t) →
      Run recover epoch genesis harmless (common ++ replacing) t

/-- What each step preserves: the consensus object is a fresh one that was fed the chain. -/
theorem Run.feed_eq {genesis : Header} (hgenesis : genesis.number = 0) {blocks : List Header}
    {s : Consensus} (h : Run recover epoch genesis (Restores recover epoch genesis) blocks s) :
    Numbered 1 blocks ∧ (feed recover epoch genesis blocks).run {} = (.ok (), s) := by
  induction h with
  | genesis hinit => exact ⟨trivial, by rwa [feed_nil]⟩
  | extend _ hheader hparent hrun ih =>
    obtain ⟨hnumbered, hfed⟩ := ih
    have hnew : Numbered 1 (_ ++ [_]) :=
      Numbered.append.2 ⟨hnumbered, hheader.trans (Nat.add_comm _ 1), trivial⟩
    rw [newBlock_eq_grow (hnumbered.getLast_number hgenesis hparent) hheader] at hrun
    refine ⟨hnew, (run_feed_append hgenesis hnew).2 ⟨_, hfed, ?_⟩⟩
    rw [List.forM_cons, List.forM_nil, bind_pure_unit]
    exact hrun
  | @reorganize common replaced replacing ancestor header s t _ hreplaced hreplacing hquiet hquiet'
      hancestor hheader hrestores hrun ih =>
    obtain ⟨hnumbered, hfed⟩ := ih
    have hcommon := (Numbered.append.1 hnumbered).1
    have hnew : Numbered 1 (common ++ replacing) :=
      Numbered.append.2 ⟨hcommon, by rwa [Nat.add_comm 1]⟩
    have hne : replacing ≠ [] := by
      rintro rfl
      cases hheader
    have hnumber : header.number = common.length + replacing.length := by
      rw [List.getLast?_eq_getElem?] at hheader
      obtain ⟨hlt, rfl⟩ := List.getElem?_eq_some_iff.1 hheader
      rw [hreplacing.number_eq hlt]
      omega
    exact ⟨hnew, run_newBlock_of_restores hgenesis hreplaced hne hnumbered hnew hquiet hquiet'
      (hcommon.getLast_number hgenesis hancestor) hnumber hfed hrestores hrun⟩

/-- **The lists of Clique consensus.**  In a run whose reorganizations restore them, they are always
what feeding the blocks of the canonical chain in order gives to a fresh consensus object; the
database gives back the two lists of signers, and all lists unless the last block reaches a
majority. -/
theorem cliqueSnapshots_of_run {genesis : Header} (hgenesis : genesis.number = 0)
    {blocks : List Header} {s : Consensus}
    (hrun : Run recover epoch genesis (Restores recover epoch genesis) blocks s) :
    (feed recover epoch genesis blocks).run {} = (.ok (), s) ∧
      (Encodable s →
        getCliqueLatestSignerStates s.db = .ok s.latestSignerStates ∧
        getCliqueLatestBlockSigners s.db = .ok s.latestBlockSigners ∧
        (¬ LastReachesMajority recover epoch genesis blocks → setup s.db = .ok s)) := by
  obtain ⟨hnumbered, hfed⟩ := hrun.feed_eq hgenesis
  obtain ⟨hfollows, hstates, hsigners, hvotes⟩ := follows_of_feed hgenesis hnumbered hfed
  refine ⟨hfed, fun h => ⟨getCliqueLatestSignerStates_eq hstates h.states,
    getCliqueLatestBlockSigners_eq hsigners h.signers, fun hnot => ?_⟩⟩
  exact setup_of_saved h hfollows.ascending hstates hsigners (hvotes hnot)

/-! ### Sample chains -/

/-- The address of the key that seals `sealedBlock`. -/
def sampleSigner : Address :=
  ⟨numberToBytes 0x0aa2ee4520e8d00aec244ca7a27e9ade131b0577, by decide⟩

/-- The seal of block 1 without a vote, and of block 1 with a vote. -/
def sampleSeal (votes : Bool) : Bytes :=
  numberToBytes 0x9377c312145a5afb911bf9e8c067bcf6094c533603687850df502b61290bbf5e ++
    if votes then
      numberToBytes 0x47aef86ee884d25da04d4fb79aa6306f736100589efb1627d000a7ca841b0fae ++ [0]
    else
      numberToBytes 0x16a804be8ec4f908237f9aa709b99ad3b9e25413b8b21e421821bd10e747fa28 ++ [1]

/-- The keys recovered from the two seals. -/
def sampleRecover (header : Header) : Except CliqueError Address :=
  if header.extraData ∈ [true, false].map fun votes => List.replicate 32 0 ++ sampleSeal votes then
    .ok sampleSigner
  else .error (.signature "invalid signature")

/-- A genesis block with two signers, of which the first has the zero address. -/
def sampleGenesis : Header where
  number := 0
  difficulty := 1
  coinbase := createZeroAddress
  nonce := CLIQUE_NONCE_DROP
  extraData := List.replicate 32 0 ++ createZeroAddress.bytes ++ sampleSigner.bytes ++
    List.replicate 65 0
  rest := []

/-- A genesis block whose only signer has the zero address. -/
def sampleSingleGenesis : Header :=
  { sampleGenesis with
    extraData := List.replicate 32 0 ++ createZeroAddress.bytes ++ List.replicate 65 0 }

/-- A block without a seal is one of the zero address. -/
def unsealedBlock (number difficulty : ℕ) (rest : Bytes) : Header where
  number := number
  difficulty := difficulty
  coinbase := createZeroAddress
  nonce := CLIQUE_NONCE_DROP
  extraData := List.replicate 97 0
  rest := rest

/-- The block 1 of the other signer, with a vote or without. -/
def sealedBlock (beneficiary : Option Address) : Header where
  number := 1
  difficulty := 2
  coinbase := beneficiary.getD createZeroAddress
  nonce := if beneficiary.isSome then CLIQUE_NONCE_AUTH else CLIQUE_NONCE_DROP
  extraData := List.replicate 32 0 ++ sampleSeal beneficiary.isSome
  rest := []

/-- Whom the votes are for. -/
def sampleBeneficiary : Address := ⟨List.replicate 20 0x43, List.length_replicate⟩

/-- The consensus object of a node at a genesis block. -/
def sampleStart (genesis : Header) : Consensus :=
  ((genesisInit sampleRecover 30000 genesis).run {}).2

/-- The consensus object after a block was put above an ancestor. -/
def samplePut (canonical : List Header) (header ancestor : Header) (s : Consensus) : Consensus :=
  ((newBlock sampleRecover 30000 canonical header (some ancestor)).run s).2

/-- A block is accepted: its signature, signers and difficulty are valid. -/
def accepts (s : Consensus) (header : Header) : Bool :=
  match s.validateConsensus sampleRecover 30000 header,
    s.validateDifficulty sampleRecover header with
  | .ok (), .ok () => true
  | _, _ => false

/-- Does a program return? -/
def returns (x : CliqueM Unit) (s : Consensus) : Bool :=
  match x.run s with
  | (.ok (), _) => true
  | (.error _, _) => false

private theorem run_eq_of_returns {x : CliqueM Unit} {s : Consensus} (h : returns x s = true) :
    x.run s = (.ok (), (x.run s).2) := by
  rw [returns] at h
  split at h
  · rename_i hrun
    rw [hrun]
  · cases h

/-- A chain with one signer whose block 1 is replaced by two blocks. -/
def sampleRestored : Consensus :=
  samplePut [sampleSingleGenesis, unsealedBlock 1 2 [1], unsealedBlock 2 2 [1]]
    (unsealedBlock 2 2 [1]) sampleSingleGenesis
    (samplePut [sampleSingleGenesis, unsealedBlock 1 2 [0]] (unsealedBlock 1 2 [0])
      sampleSingleGenesis (sampleStart sampleSingleGenesis))

/-- The lists along this chain, and that they are set up again from the database. -/
theorem cliqueSnapshots_of_run_sample :
    (feed sampleRecover 30000 sampleSingleGenesis
        [unsealedBlock 1 2 [1], unsealedBlock 2 2 [1]]).run {} = (.ok (), sampleRestored) ∧
      getCliqueLatestSignerStates sampleRestored.db = .ok sampleRestored.latestSignerStates ∧
      getCliqueLatestBlockSigners sampleRestored.db = .ok sampleRestored.latestBlockSigners ∧
      setup sampleRestored.db = .ok sampleRestored := by
  have hquiet : ∀ h ∈ [unsealedBlock 1 2 [0], unsealedBlock 1 2 [1], unsealedBlock 2 2 [1]],
      Quiet 30000 h := by
    unfold Quiet
    decide
  have hstart : Run sampleRecover 30000 sampleSingleGenesis
      (Restores sampleRecover 30000 sampleSingleGenesis) [] (sampleStart sampleSingleGenesis) :=
    .genesis (run_eq_of_returns (by decide +kernel))
  have hfirst : Run sampleRecover 30000 sampleSingleGenesis
      (Restores sampleRecover 30000 sampleSingleGenesis) [unsealedBlock 1 2 [0]]
      (samplePut [sampleSingleGenesis, unsealedBlock 1 2 [0]] (unsealedBlock 1 2 [0])
        sampleSingleGenesis (sampleStart sampleSingleGenesis)) :=
    hstart.extend rfl rfl (run_eq_of_returns (by decide +kernel))
  have hshort : Encodable sampleRestored :=
    ⟨by decide +kernel, by decide +kernel, by decide +kernel⟩
  -- the last block votes for nobody
  have hvotes : ¬ LastReachesMajority sampleRecover 30000 sampleSingleGenesis
      [unsealedBlock 1 2 [1], unsealedBlock 2 2 [1]] := by
    rintro ⟨init, header, before, hblocks, -, -, hcoinbase, -⟩
    change [unsealedBlock 1 2 [1]] ++ [unsealedBlock 2 2 [1]] = init ++ [header] at hblocks
    obtain rfl : unsealedBlock 2 2 [1] = header :=
      List.singleton_inj.1 (List.append_inj' hblocks rfl).2
    revert hcoinbase
    decide
  suffices hrun : Run sampleRecover 30000 sampleSingleGenesis
      (Restores sampleRecover 30000 sampleSingleGenesis)
      ([] ++ [unsealedBlock 1 2 [1], unsealedBlock 2 2 [1]]) sampleRestored by
    obtain ⟨hfed, hsaved⟩ := cliqueSnapshots_of_run rfl hrun
    obtain ⟨hstates, hsigners, hsetup⟩ := hsaved hshort
    exact ⟨hfed, hstates, hsigners, hsetup hvotes⟩
  refine hfirst.reorganize (List.cons_ne_nil _ _) ⟨rfl, rfl, trivial⟩
    (fun h hh => hquiet h (by simp_all)) (fun h hh => hquiet h (List.mem_cons_of_mem _ hh)) rfl rfl
    ⟨fun limit hlimit => Or.inl ?_, fun before hbefore => ?_⟩
    (run_eq_of_returns (by decide +kernel))
  · have hone : (Consensus.cliqueSignerLimit (samplePut
        [sampleSingleGenesis, unsealedBlock 1 2 [0]] (unsealedBlock 1 2 [0])
        sampleSingleGenesis (sampleStart sampleSingleGenesis)) 1).toOption = some 1 := by
      decide +kernel
    have hsome : (Except.ok limit : Except CliqueError ℕ).toOption = some 1 := by
      rw [← hone]
      exact congrArg Except.toOption hlimit.symm
    cases hsome
    decide
  · obtain rfl : before = sampleStart sampleSingleGenesis :=
      (congrArg Prod.snd hbefore).symm.trans (congrArg (fun x : CliqueM Unit => (x.run {}).2)
        (feed_nil _))
    decide

/-- Block 1 of the zero address is put, and then replaced by the block 1 of the other signer. -/
def sampleForked : Consensus :=
  samplePut [sampleGenesis, unsealedBlock 1 1 []] (unsealedBlock 1 1 []) sampleGenesis
    (sampleStart sampleGenesis)

/-- The block of the other signer has replaced block 1. -/
def sampleReorganized : Consensus :=
  samplePut [sampleGenesis, sealedBlock none] (sealedBlock none) sampleGenesis sampleForked

/-- Block 2 of the zero address, with the second vote for the beneficiary. -/
def decidingBlock : Header :=
  { unsealedBlock 2 2 [] with coinbase := sampleBeneficiary, nonce := CLIQUE_NONCE_AUTH }

/-- Both signers vote for the beneficiary. -/
def sampleVoted : Consensus :=
  samplePut [sampleGenesis, sealedBlock (some sampleBeneficiary)]
    (sealedBlock (some sampleBeneficiary)) sampleGenesis (sampleStart sampleGenesis)

/-- The second vote makes the majority. -/
def sampleDecided : Consensus :=
  samplePut [sampleGenesis, sealedBlock (some sampleBeneficiary), decidingBlock] decidingBlock
    (sealedBlock (some sampleBeneficiary)) sampleVoted

/-- A heavier block 1 replaces a block 1; both are accepted and quiet, and both their signers are in
the list afterwards.  And where a second vote makes a majority, the first one is still in the
database. -/
theorem cliqueSnapshots_diverge :
    (accepts (sampleStart sampleGenesis) (unsealedBlock 1 1 []) = true ∧
      accepts sampleForked (sealedBlock none) = true ∧
      Run sampleRecover 30000 sampleGenesis (fun _ _ _ _ => True) [sealedBlock none]
        sampleReorganized ∧
      sampleReorganized.latestBlockSigners = [(1, createZeroAddress), (1, sampleSigner)] ∧
      ((feed sampleRecover 30000 sampleGenesis [sealedBlock none]).run {}).2.latestBlockSigners =
        [(1, sampleSigner)]) ∧
    accepts (sampleStart sampleGenesis) (sealedBlock (some sampleBeneficiary)) = true ∧
      accepts sampleVoted decidingBlock = true ∧
      Run sampleRecover 30000 sampleGenesis (fun _ _ _ _ => True)
        [sealedBlock (some sampleBeneficiary), decidingBlock] sampleDecided ∧
      sampleDecided.latestVotes = [] ∧
      (getCliqueLatestVotes sampleDecided.db).toOption =
        some [(1, ⟨sampleSigner, sampleBeneficiary, CLIQUE_NONCE_AUTH⟩)] := by
  have hstart : Run sampleRecover 30000 sampleGenesis (fun _ _ _ _ => True) []
      (sampleStart sampleGenesis) :=
    .genesis (run_eq_of_returns (by decide +kernel))
  have hforked : Run sampleRecover 30000 sampleGenesis (fun _ _ _ _ => True) [unsealedBlock 1 1 []]
      sampleForked :=
    hstart.extend rfl rfl (run_eq_of_returns (by decide +kernel))
  have hvoted : Run sampleRecover 30000 sampleGenesis (fun _ _ _ _ => True)
      [sealedBlock (some sampleBeneficiary)] sampleVoted :=
    hstart.extend rfl rfl (run_eq_of_returns (by decide +kernel))
  have hquiet : ∀ h ∈ [unsealedBlock 1 1 [], sealedBlock none], Quiet 30000 h := by
    unfold Quiet
    decide +kernel
  refine ⟨⟨?_, ?_, ?_, ?_, ?_⟩, ?_, ?_, ?_, ?_, ?_⟩
  · decide +kernel
  · decide +kernel
  · change Run sampleRecover 30000 sampleGenesis _ ([] ++ [sealedBlock none]) _
    exact hforked.reorganize (List.cons_ne_nil _ _) ⟨rfl, trivial⟩
      (fun h hh => hquiet h (by simp_all)) (fun h hh => hquiet h (by simp_all)) rfl rfl trivial
      (run_eq_of_returns (by decide +kernel))
  · decide +kernel
  · decide +kernel
  · decide +kernel
  · decide +kernel
  · exact hvoted.extend rfl rfl (run_eq_of_returns (by decide +kernel))
  · decide +kernel
  · decide +kernel

end Clique

end Tvmjs
