import Mathlib.Logic.Function.Basic
import Tvmjs.Base.NumberedLog
import Tvmjs.Base.BigEndian
import Tvmjs.Base.Prog
import Tvmjs.Util.AccountRlp

/-!
# Clique consensus
A Clique chain is sealed by a list of signers, which changes by votes that blocks cast.  The
consensus object keeps three lists along with the canonical chain, each entry with the number of its
block: the signers after each change, the votes, and the signers of the latest blocks.  All three
are saved to the database.

* `cliqueUpdateSignerStates`, `cliqueUpdateVotes`, `cliqueUpdateLatestBlockSigners` -- what a block
  does to each list;
* `newBlock` -- cutting back to the common ancestor, and building up the canonical blocks above it;
* `validateConsensus`, `validateDifficulty` -- which blocks are accepted;
* `setup` -- the three lists as the database has them.
Recovering the key of a seal from the hash of a header is not part of the source, and is a
parameter.
-/

namespace Tvmjs

namespace Clique

open RLP

/-! ### Addresses and headers -/

/-- An address has 20 bytes. -/
structure Address where
  bytes : Bytes
  length_eq : bytes.length = 20
deriving DecidableEq

/-- Why consensus code throws. -/
inductive CliqueError where
  | invalidAddressLength
  | notEpochTransition
  | signersUnavailable (blockNum : ℕ)
  | undefinedSignerState
  | headerNotFound (number : ℕ)
  | signature (message : String)
  | invalidSignature
  | recentlySigned
  | checkpointCount (checkpoint active : ℕ)
  | checkpointSigner (index : ℕ)
  | difficultyRange
  | noSigners
  | difficulty
  | malformed

/-- `new Address(bytes)` -/
def newAddress (bytes : Bytes) : Except CliqueError Address :=
  if h : bytes.length = 20 then .ok ⟨bytes, h⟩ else .error .invalidAddressLength

/-- The address of 20 zero bytes. -/
def createZeroAddress : Address := ⟨List.replicate 20 0, List.length_replicate⟩

/-- Whether an address is the zero address, which votes for nobody. -/
def Address.isZero (a : Address) : Bool := a = createZeroAddress

@[simp] theorem newAddress_bytes (a : Address) : newAddress a.bytes = .ok a := dif_pos a.length_eq

/-- The fields of a header that consensus reads, and the rest, which the seal signs as well. -/
structure Header where
  number : ℕ
  difficulty : ℕ
  coinbase : Address
  nonce : Bytes
  extraData : Bytes
  rest : Bytes
deriving DecidableEq

/-- Whether a header is the genesis header. -/
def Header.isGenesis (header : Header) : Bool := header.number = 0

/-- The bytes at the front of the extra data that are free. -/
def CLIQUE_EXTRA_VANITY : ℕ := 32

/-- The bytes of the seal at the end of the extra data. -/
def CLIQUE_EXTRA_SEAL : ℕ := 65

/-- The nonce of a vote for a signer. -/
def CLIQUE_NONCE_AUTH : Bytes := List.replicate 8 0xff

/-- The nonce of a vote against a signer. -/
def CLIQUE_NONCE_DROP : Bytes := List.replicate 8 0

/-- The difficulty of a block whose signer is in turn. -/
def CLIQUE_DIFF_INTURN : ℕ := 2

/-- The difficulty of a block whose signer is not in turn. -/
def CLIQUE_DIFF_NOTURN : ℕ := 1

/-- How many blocks the history of signers and votes reaches back. -/
def CLIQUE_SIGNER_HISTORY_BLOCK_LIMIT : ℤ := 200

section

variable (epoch : ℕ)

/-- Whether a header is that of an epoch transition, which carries the list of signers. -/
def cliqueIsEpochTransition (header : Header) : Bool := header.number % epoch = 0

/-- The signers that a checkpoint lists between the vanity and the seal. -/
def cliqueEpochTransitionSigners (header : Header) : Except CliqueError (List Address) :=
  if cliqueIsEpochTransition epoch header then
    let signerBytes := (header.extraData.take
      (header.extraData.length - CLIQUE_EXTRA_SEAL)).drop CLIQUE_EXTRA_VANITY
    (List.range (signerBytes.length / 20)).mapM fun i =>
      newAddress ((signerBytes.drop (20 * i)).take 20)
  else .error .notEpochTransition

end

/-- The last 65 bytes. -/
def cliqueExtraSeal (header : Header) : Bytes :=
  header.extraData.drop (header.extraData.length - CLIQUE_EXTRA_SEAL)

section

variable (recover : Header → Except CliqueError Address)

/-- The signer of a header: the zero address where there is no seal. -/
def cliqueSigner (header : Header) : Except CliqueError Address :=
  if cliqueExtraSeal header = [] ∨ cliqueExtraSeal header = List.replicate CLIQUE_EXTRA_SEAL 0 then
    .ok createZeroAddress
  else recover header

/-- Is the signer in the list? -/
def cliqueVerifySignature (header : Header) (signerList : List Address) :
    Except CliqueError Bool := do
  let signerAddress ← cliqueSigner recover header
  return signerAddress ∈ signerList

end

/-! ### The three lists -/

/-- The signers after a change, with the number of the block that made it. -/
abbrev SignerState := ℕ × List Address

/-- A vote: `signer` wants `beneficiary` to be or not to be a signer. -/
structure Vote where
  signer : Address
  beneficiary : Address
  nonce : Bytes
deriving DecidableEq

/-- What the consensus object saves. -/
inductive Key where
  | signers
  | votes
  | blockSigners
deriving DecidableEq

/-- The consensus object: its three lists, and its part of the database. -/
structure Consensus where
  latestSignerStates : List SignerState := []
  latestVotes : List (ℕ × Vote) := []
  latestBlockSigners : List (ℕ × Address) := []
  db : Key → Option Bytes := fun _ => none

/-- A method on the consensus object; what is changed before a throw stays changed. -/
abbrev CliqueM := Prog Consensus CliqueError

/-- `blockSigners[blockSigners.length - 1]?.[0]`, where it is truthy -/
def Consensus.lastBlockNumber (s : Consensus) : Option ℕ :=
  (s.latestBlockSigners.getLast?.map Prod.fst).filter (· ≠ 0)

/-- The signers for a block are those after the last change below it. -/
def Consensus.cliqueActiveSigners (s : Consensus) (blockNum : ℕ) :
    Except CliqueError (List Address) :=
  if s.latestSignerStates = [] then .ok []
  else match s.latestSignerStates.reverse.find? fun state => state.1 < blockNum with
    | some state => .ok state.2
    | none => .error (.signersUnavailable blockNum)

/-- The number of consecutive blocks of which a signer may sign one. -/
def Consensus.cliqueSignerLimit (s : Consensus) (blockNum : ℕ) : Except CliqueError ℕ := do
  return (← s.cliqueActiveSigners blockNum).length / 2 + 1

/-! ### The signers -/

/-- The encoding of the signer states. -/
def formatSignerStates (states : List SignerState) : Input :=
  .list (states.map fun state =>
    .list [.bytes (bigIntToBytes state.1), .list (state.2.map fun a => .bytes a.bytes)])

/-- Appends a list of signers and sorts the lists by block number. -/
def Consensus.pushSignerState (state : SignerState) (s : Consensus) : Consensus :=
  { s with
    latestSignerStates :=
      (s.latestSignerStates ++ [state]).insertionSort fun a b => a.1 ≤ b.1 }

/-- Trim to the history limit, but keep the last item. -/
def Consensus.trimSignerStates (s : Consensus) : Consensus :=
  match s.lastBlockNumber with
  | none => s
  | some n =>
    { s with
      latestSignerStates := NumberedLog.trimKeeping ((n : ℤ) - CLIQUE_SIGNER_HISTORY_BLOCK_LIMIT)
        s.latestSignerStates }

/-- Writes the lists of signers to the database. -/
def Consensus.saveSignerStates (s : Consensus) : Consensus :=
  { s with
    db := Function.update s.db .signers
      (some (encode (formatSignerStates s.latestSignerStates))) }

/-- Trim and save.  Where there is no signer state, `lastItem` is undefined, and so is what is
kept. -/
def saveTrimmedSignerStates : CliqueM Unit := do
  let s ← Prog.gets id
  if s.latestSignerStates = [] ∧ s.lastBlockNumber ≠ none then Prog.throw .undefinedSignerState
  else Prog.modify fun s => s.trimSignerStates.saveSignerStates

/-- Put a signer state, unless there is one of that block; then trim and save. -/
def cliqueUpdateSignerStates : Option SignerState → CliqueM Unit
  | none => saveTrimmedSignerStates
  | some state => do
    let s ← Prog.gets id
    if s.latestSignerStates.any (fun value => value.1 = state.1) then pure ()
    else
      Prog.modify (Consensus.pushSignerState state)
      saveTrimmedSignerStates

/-! ### The votes -/

/-- The encoding of the votes. -/
def formatVotes (votes : List (ℕ × Vote)) : Input :=
  .list (votes.map fun v => .list [.bytes (bigIntToBytes v.1),
    .list [.bytes v.2.signer.bytes, .bytes v.2.beneficiary.bytes, .bytes v.2.nonce]])

/-- The signers of some votes, each once. -/
def votesBySigner (votes : List (ℕ × Vote)) : List Address :=
  votes.foldl (fun beneficiaryVotes vote =>
    if (beneficiaryVotes.filter fun voteCMP => voteCMP = vote.2.signer).length = 0 then
      beneficiaryVotes ++ [vote.2.signer]
    else beneficiaryVotes) []

section

variable (epoch : ℕ)

/-- The last epoch block up to a number. -/
def lastEpochBlockNumber (number : ℕ) : ℕ := number - number % epoch

/-- How many other signers have voted this way on the beneficiary of a block since the last
epoch. -/
def numBeneficiaryVotes (votes : List (ℕ × Vote)) (header : Header) (signer : Address)
    (nonce : Bytes) : ℕ :=
  (votesBySigner (votes.filter fun vote =>
    lastEpochBlockNumber epoch header.number ≤ vote.1 ∧ vote.2.signer ≠ signer ∧
      vote.2.beneficiary = header.coinbase ∧ vote.2.nonce = nonce)).length

/-- The votes of one kind that a round counts: the second one counts the new vote, too. -/
def roundVotes (votes : List (ℕ × Vote)) (header : Header) (signer : Address) (round : ℕ)
    (nonce : Bytes) : ℕ :=
  numBeneficiaryVotes epoch votes header signer nonce +
    if round = 2 ∧ header.nonce = nonce then 1 else 0

/-- `activeSigners.sort(...)`, by the numbers the addresses are. -/
def sortAddresses (signers : List Address) : List Address :=
  signers.insertionSort fun a b => BigEndian.value a.bytes ≤ BigEndian.value b.bytes

/-- One round of counting the votes on the beneficiary of a block: whether there is a majority,
which puts a new signer state. -/
def voteRound (header : Header) (signer : Address) (round : ℕ) : CliqueM Bool := do
  let s ← Prog.gets id
  let limit ← Prog.ofExcept (s.cliqueSignerLimit header.number)
  let activeSigners ← Prog.ofExcept (s.cliqueActiveSigners header.number)
  let beneficiary := header.coinbase
  let beneficiaryIsSigner := beneficiary ∈ activeSigners
  let latestVote : ℕ × Vote := (header.number, ⟨signer, beneficiary, header.nonce⟩)
  let authorized := ¬ beneficiaryIsSigner ∧
    limit ≤ roundVotes epoch s.latestVotes header signer round CLIQUE_NONCE_AUTH
  let authorizedSigners :=
    if authorized then sortAddresses (activeSigners ++ [beneficiary]) else activeSigners
  let authorizedVotes :=
    if authorized then s.latestVotes.filter fun vote => vote.2.beneficiary ≠ beneficiary
    else s.latestVotes
  let dropped := beneficiaryIsSigner ∧
    limit ≤ roundVotes epoch authorizedVotes header signer round CLIQUE_NONCE_DROP
  let newSigners :=
    if dropped then authorizedSigners.filter fun signer => signer ≠ beneficiary
    else authorizedSigners
  let newVotes :=
    if dropped then authorizedVotes.filter fun vote =>
      vote.2.signer ≠ beneficiary ∧ vote.2.beneficiary ≠ beneficiary
    else authorizedVotes
  Prog.modify fun s =>
    { s with latestVotes := if round = 1 then newVotes ++ [latestVote] else newVotes }
  if authorized ∨ dropped then do
    cliqueUpdateSignerStates (some (header.number, newSigners))
    pure true
  else pure false

/-- Trim the votes to the history limit before the last epoch block. -/
def Consensus.trimVotes (s : Consensus) : Consensus :=
  match s.lastBlockNumber with
  | none => s
  | some n =>
    { s with
      latestVotes := s.latestVotes.filter fun vote =>
        (lastEpochBlockNumber epoch n : ℤ) - CLIQUE_SIGNER_HISTORY_BLOCK_LIMIT ≤ vote.1 }

/-- Writes the votes to the database. -/
def Consensus.saveVotes (s : Consensus) : Consensus :=
  { s with db := Function.update s.db .votes (some (encode (formatVotes s.latestVotes))) }

/-- Drops the votes of old epochs and writes the others. -/
def saveTrimmedVotes : CliqueM Unit :=
  Prog.modify fun s => (s.trimVotes epoch).saveVotes

variable (recover : Header → Except CliqueError Address)

/-- The vote of a block that casts one is counted in two rounds; a majority in either returns before
the votes are saved. -/
def cliqueUpdateVotes : Option Header → CliqueM Unit
  | none => saveTrimmedVotes epoch
  | some header =>
    if header.coinbase.isZero then saveTrimmedVotes epoch
    else do
      let signer ← Prog.ofExcept (cliqueSigner recover header)
      if ← voteRound epoch header signer 1 then pure ()
      else if ← voteRound epoch header signer 2 then pure ()
      else saveTrimmedVotes epoch

end

/-! ### The signers of the latest blocks -/

/-- The encoding of the signers of the latest blocks. -/
def formatBlockSigners (blockSigners : List (ℕ × Address)) : Input :=
  .list (blockSigners.map fun b => .list [.bytes (bigIntToBytes b.1), .bytes b.2.bytes])

/-- Writes the signers of the latest blocks to the database. -/
def Consensus.saveBlockSigners (s : Consensus) : Consensus :=
  { s with
    db := Function.update s.db .blockSigners
      (some (encode (formatBlockSigners s.latestBlockSigners))) }

section

variable (recover : Header → Except CliqueError Address)

/-- Put the signer of a block, and keep as many as the signer limit. -/
def cliqueUpdateLatestBlockSigners : Option Header → CliqueM Unit
  | none => Prog.modify Consensus.saveBlockSigners
  | some header =>
    if header.isGenesis then pure ()
    else do
      let signer ← Prog.ofExcept (cliqueSigner recover header)
      Prog.modify fun s =>
        { s with latestBlockSigners := s.latestBlockSigners ++ [(header.number, signer)] }
      let s ← Prog.gets id
      let limit ← Prog.ofExcept (s.cliqueSignerLimit header.number)
      Prog.modify fun s =>
        { s with
          latestBlockSigners :=
            if limit < s.latestBlockSigners.length then s.latestBlockSigners.rtake limit
            else s.latestBlockSigners }
      Prog.modify Consensus.saveBlockSigners

/-! ### New blocks -/

variable (epoch : ℕ)

/-- Cut the three lists back to the entries up to a number. -/
def cliqueDeleteSnapshots (blockNumber : ℕ) : CliqueM Unit := do
  Prog.modify fun s =>
    { s with latestSignerStates := s.latestSignerStates.filter fun state => state.1 ≤ blockNumber }
  cliqueUpdateSignerStates none
  Prog.modify fun s =>
    { s with latestVotes := s.latestVotes.filter fun vote => vote.1 ≤ blockNumber }
  cliqueUpdateVotes epoch recover none
  Prog.modify fun s =>
    { s with
      latestBlockSigners := s.latestBlockSigners.filter fun signer => signer.1 ≤ blockNumber }
  cliqueUpdateLatestBlockSigners recover none

/-- What a new block adds to the snapshots.  At an epoch transition there are no votes to read. -/
def cliqueBuildSnapshots (header : Header) : CliqueM Unit := do
  if cliqueIsEpochTransition epoch header then pure ()
  else cliqueUpdateVotes epoch recover (some header)
  cliqueUpdateLatestBlockSigners recover (some header)

/-- The header of a canonical chain with a number; the genesis block comes first. -/
def getCanonicalHeader (canonical : List Header) (number : ℕ) : Except CliqueError Header :=
  match canonical[number]? with
  | some header => .ok header
  | none => .error (.headerNotFound number)

/-- What the consensus object does when a block was put: nothing, unless the canonical chain has
changed above a common ancestor. -/
def newBlock (canonical : List Header) (header : Header) : Option Header → CliqueM Unit
  | none => pure ()
  | some commonAncestor => do
    cliqueDeleteSnapshots recover epoch (commonAncestor.number + 1)
    (List.range' (commonAncestor.number + 1) (header.number - commonAncestor.number)).forM
      fun number => do
        let canonicalHeader ← Prog.ofExcept (getCanonicalHeader canonical number)
        cliqueBuildSnapshots recover epoch canonicalHeader

/-- Save the signers of the genesis block. -/
def genesisInit (genesis : Header) : CliqueM Unit := do
  let signers ← Prog.ofExcept (cliqueEpochTransitionSigners epoch genesis)
  cliqueUpdateSignerStates (some (0, signers))
  cliqueUpdateVotes epoch recover none

/-! ### Which blocks are accepted -/

/-- Has the signer of a header signed one of the blocks just before it? -/
def Consensus.cliqueCheckRecentlySigned (s : Consensus) (header : Header) :
    Except CliqueError Bool := do
  if header.isGenesis ∨ header.number = 1 then return false
  let limit ← s.cliqueSignerLimit header.number
  let signers := s.latestBlockSigners.drop (if s.latestBlockSigners.length < limit then 0 else 1)
  if (signers.getLast?.map Prod.fst).any (· ≠ (header.number : ℤ) - 1) then return false
  let signer ← cliqueSigner recover header
  return 1 < ((signers ++ [(header.number, signer)]).filter fun s => s.2 = signer).length

/-- The signers of a checkpoint are the active ones. -/
def checkpointValid (checkpointSigners activeSigners : List Address) : Except CliqueError Unit :=
  if checkpointSigners.length ≠ activeSigners.length then
    .error (.checkpointCount checkpointSigners.length activeSigners.length)
  else
    match (List.range checkpointSigners.length).find? fun i =>
        activeSigners[i]? ≠ checkpointSigners[i]? with
    | some i => .error (.checkpointSigner i)
    | none => .ok ()

/-- The checks of the seal: the signer is active and has not signed lately, and at an epoch
transition the list of signers is the active one. -/
def Consensus.validateConsensus (s : Consensus) (header : Header) : Except CliqueError Unit := do
  let signers ← s.cliqueActiveSigners header.number
  if ¬ (← cliqueVerifySignature recover header signers) then .error .invalidSignature
  else if ← s.cliqueCheckRecentlySigned recover header then .error .recentlySigned
  else if cliqueIsEpochTransition epoch header then
    checkpointValid (← cliqueEpochTransitionSigners epoch header) signers
  else .ok ()

/-- The difficulty says whether the signer was in turn. -/
def Consensus.validateDifficulty (s : Consensus) (header : Header) : Except CliqueError Unit := do
  if header.difficulty ≠ CLIQUE_DIFF_INTURN ∧ header.difficulty ≠ CLIQUE_DIFF_NOTURN then
    .error .difficultyRange
  else
    let signers ← s.cliqueActiveSigners header.number
    if signers = [] then .error .noSigners
    else
      let signer ← cliqueSigner recover header
      let inTurn := signer ∈ signers ∧ header.number % signers.length = signers.idxOf signer
      if (inTurn ∧ header.difficulty = CLIQUE_DIFF_INTURN) ∨
          (¬ inTurn ∧ header.difficulty = CLIQUE_DIFF_NOTURN) then .ok ()
      else .error .difficulty

end

/-! ### Reloading -/

/-- Decode a saved list; nothing saved is an empty list. -/
def readList (saved : Option Bytes) : Except CliqueError (List Input) :=
  match saved with
  | none => .ok []
  | some bytes => match decode bytes with
    | .ok (.list items) => .ok items
    | _ => .error .malformed

/-- An address as it is read back. -/
def readAddress : Input → Except CliqueError Address
  | .bytes bytes => newAddress bytes
  | .list _ => .error .malformed

/-- A list of signers as it is read back. -/
def readSignerState : Input → Except CliqueError SignerState
  | .list [.bytes number, .list addresses] => do
    return (bytesToNumber number, ← addresses.mapM readAddress)
  | _ => .error .malformed

/-- A vote as it is read back. -/
def readVote : Input → Except CliqueError (ℕ × Vote)
  | .list [.bytes number, .list [.bytes signer, .bytes beneficiary, .bytes nonce]] => do
    let signer ← newAddress signer
    let beneficiary ← newAddress beneficiary
    return (bytesToNumber number, ⟨signer, beneficiary, nonce⟩)
  | _ => .error .malformed

/-- The signer of a block as it is read back. -/
def readBlockSigner : Input → Except CliqueError (ℕ × Address)
  | .list [.bytes number, .bytes signer] => do
    return (bytesToNumber number, ← newAddress signer)
  | _ => .error .malformed

/-- The lists of signers in the database, none where nothing was written. -/
def getCliqueLatestSignerStates (db : Key → Option Bytes) :
    Except CliqueError (List SignerState) := do
  (← readList (db .signers)).mapM readSignerState

/-- The votes in the database, none where nothing was written. -/
def getCliqueLatestVotes (db : Key → Option Bytes) : Except CliqueError (List (ℕ × Vote)) := do
  (← readList (db .votes)).mapM readVote

/-- The signers of the latest blocks in the database, none where nothing was written. -/
def getCliqueLatestBlockSigners (db : Key → Option Bytes) :
    Except CliqueError (List (ℕ × Address)) := do
  (← readList (db .blockSigners)).mapM readBlockSigner

/-- The consensus object that is set up on a database. -/
def setup (db : Key → Option Bytes) : Except CliqueError Consensus := do
  let states ← getCliqueLatestSignerStates db
  let votes ← getCliqueLatestVotes db
  let blockSigners ← getCliqueLatestBlockSigners db
  return { latestSignerStates := states.insertionSort fun a b => a.1 ≤ b.1,
           latestVotes := votes, latestBlockSigners := blockSigners, db }

end Clique

end Tvmjs
