import Tvmjs.Tvm.DataWord

/-!
# Precompile 09

Batch validation of signatures: each is compared with an address of its own.

* `recoverAddrBySign` -- a recovery, which is logged;
* `precompile09` -- the precompile;
* `BatchCalldata` -- what its calldata looks like where it is not malformed;
* `precompile09_cases` -- what it returns for every calldata, and which recoveries it makes.
-/

namespace Tvmjs

namespace Precompile

open Interpreter (ExecResult)

/-! ### Recoveries -/

/-- The functions of the cryptography library. -/
structure Crypto where
  sha256 : Bytes → Bytes
  /-- `ecrecover(hash, v, r, s)`, absent where it throws. -/
  ecrecover : Bytes → ℕ → Bytes → Bytes → Option Bytes
  /-- `publicToAddress(publicKey)`, absent where it throws. -/
  publicToAddress : Bytes → Option Bytes

/-- Programs which recover signers; the state is the log of signatures and hashes, the latest
first. -/
abbrev RecoverM (α : Type) := Prog (List (Bytes × Bytes)) Abort α

variable (crypto : Crypto)

/-- The signer of a hash; no bytes where the signature is none. -/
def signer (hash sign : Bytes) : Bytes :=
  let r := (sign.take 32)
  let s := (sign.take 64).drop 32
  let v := (sign.getD 64 0).toNat
  let v := if v < 27 then v + 27 else v
  match (crypto.ecrecover hash v r s).bind crypto.publicToAddress with
  | some address => address
  | none => []

/-- `recoverAddrBySign(sign, hash)` -/
def recoverAddrBySign (sign hash : Bytes) : RecoverM Bytes := do
  Prog.modify ((sign, hash) :: ·)
  pure (signer crypto hash sign)

/-! ### The shape of the calldata -/

/-- The proposal under which the shape of the calldata is checked. -/
def TRON_OSAKA_PROPOSAL : ℕ := 96

/-- The words of the calldata before those of its items. -/
def SIGNATURE_CALLDATA_HEADER_WORDS : ℕ := 5

/-- `isTronOsakaEnabled(opts)` -/
def isTronOsakaEnabled (opts : PrecompileInput) : Bool :=
  opts.common.isActivatedProposal TRON_OSAKA_PROPOSAL

/-- `isValidTronSignatureCalldata(data, itemWords)` -/
def isValidTronSignatureCalldata (data : Bytes) (itemWords : ℕ) : Bool :=
  let headerBytes := SIGNATURE_CALLDATA_HEADER_WORDS * WORD_SIZE
  data.length % WORD_SIZE = 0 ∧ data.length > headerBytes ∧
    (data.length - headerBytes) % (itemWords * WORD_SIZE) = 0

/-- What is returned when something is thrown. -/
def unknownResult (gasLimit : ℤ) : ExecResult where
  executionGasUsed := gasLimit
  exceptionError := some "unknown"
  returnValue := []
  createdAddress := none

/-- `new Uint8Array(DataWord.WORD_SIZE)` -/
def zeroWord : Bytes := List.replicate WORD_SIZE 0

/-! ### The precompile -/

/-- What precompile 09 reads out of its calldata. -/
structure BatchArguments where
  hash : Bytes
  signatures : List Bytes
  addresses : List Bytes

/-- The arguments; there are none where zero is returned early. -/
def batchArguments (data : Bytes) : Except Abort (Option BatchArguments) := do
  let words := parseArray data
  let hash ← wordAt words 0
  let (signaturesOffset, signatureCount) ← arrayHeader words 1
  if signatureCount = 0 ∨ signatureCount > 16 then return none
  else
    let (addressesOffset, addressCount) ← arrayHeader words 2
    if signatureCount ≠ addressCount then return none
    else
      let signatures ← extractSigArray words signaturesOffset signatureCount data
      let addresses ← extractBytes32Array words addressesOffset addressCount
      return some { hash, signatures, addresses }

/-- The loop over the signatures, from `i` on. -/
def batchLoop (hash : Bytes) : ℕ → List Bytes → List Bytes → Bytes → RecoverM Bytes
  | i, sign :: signatures, address :: addresses, returnValue => do
    let recoveredAddr ← recoverAddrBySign crypto sign hash
    batchLoop hash (i + 1) signatures addresses
      (if equalAddressByteArray address recoveredAddr then returnValue.set i 1 else returnValue)
  | _, _, _, returnValue => pure returnValue

/-- The body of `try`. -/
def batchBody (data : Bytes) : RecoverM Bytes := do
  match ← Prog.ofExcept (batchArguments data) with
  | none => pure zeroWord
  | some arguments =>
    batchLoop crypto arguments.hash 0 arguments.signatures arguments.addresses zeroWord

/-- The number of signatures the calldata is charged for. -/
def batchCharged (data : Bytes) : ℕ := (data.length / WORD_SIZE - 5) / 6

/-- `precompile09(opts)` -/
def precompile09 (opts : PrecompileInput) : RecoverM ExecResult :=
  let gasUsed := batchCharged opts.data * opts.common.param "batchvalidatesignGas"
  if isTronOsakaEnabled opts ∧ !isValidTronSignatureCalldata opts.data 6 then
    pure (OOGResult opts.gasLimit)
  else if opts.gasLimit < gasUsed then pure (OOGResult opts.gasLimit)
  else
    Prog.tryCatch (do
      let returnValue ← batchBody crypto opts.data
      pure (success gasUsed returnValue))
      fun _ => pure (unknownResult opts.gasLimit)

/-! ### Calldata which is not malformed -/

/-- A header, an array of at most 16 signatures and one of as many addresses. -/
structure BatchCalldata (data : Bytes) : Prop where
  header : 3 ≤ wordCount data
  signatures : IsOffset data 1
  addresses : IsOffset data 2
  count_pos : 0 < arrayCount data 1
  count_le : arrayCount data 1 ≤ 16
  same : arrayCount data 1 = arrayCount data 2
  sigArray : SigArray data (arrayOffset data 1) (arrayCount data 1)
  fits : arrayOffset data 2 + arrayCount data 2 < wordCount data

/-- What such calldata says. -/
def batchOf (data : Bytes) : BatchArguments where
  hash := word data 0
  signatures := (List.range (arrayCount data 1)).map (signature data (arrayOffset data 1))
  addresses := (List.range (arrayCount data 1)).map fun i => word data (arrayOffset data 2 + i + 1)

theorem batchArguments_of_batchCalldata {data : Bytes} (h : BatchCalldata data) :
    batchArguments data = .ok (some (batchOf data)) := by
  have hheader := h.header
  have hfits := h.sigArray.fits
  have hfits' := h.fits
  have hle := h.count_le
  have hsame := h.same
  have hsignatures := arrayHeader_of_inside (by omega) h.signatures (by omega) (by omega)
  have haddresses := arrayHeader_of_inside (by omega) h.addresses (by omega) (by omega)
  rw [← hsame] at haddresses hfits'
  simp only [batchArguments, wordAt_of_lt (show 0 < wordCount data by omega), hsignatures, bind,
    Except.bind]
  rw [if_neg (by have := h.count_pos; omega), haddresses]
  simp only [ne_eq, not_true_eq_false, if_false, extractSigArray_of_sigArray h.count_pos h.sigArray,
    extractBytes32Array_of_fits h.count_pos hfits']
  rfl

/-- Malformed calldata is refused, and no word is used which is not there but one of the header. -/
theorem batchArguments_of_not_batchCalldata {data : Bytes} (h : ¬ BatchCalldata data) :
    batchArguments data = .ok none ∨ ∃ e, batchArguments data = .error e ∧
      (e = .undefinedWord → wordCount data < 3) := by
  by_cases h0 : 0 < wordCount data
  swap
  · refine Or.inr ⟨.undefinedWord, ?_, fun _ => by omega⟩
    rw [batchArguments, wordAt_of_ge (not_lt.1 h0)]
    rfl
  simp only [batchArguments, wordAt_of_lt h0, bind, Except.bind]
  obtain ⟨e, he, hundefined⟩ | ⟨-, hsignatures, count, hcount, harray⟩ := arrayHeader_cases data 1
  · rw [he]
    refine Or.inr ⟨e, rfl, fun heq => ?_⟩
    have hle := hundefined heq
    omega
  rw [hcount]
  dsimp only
  by_cases hrange : count = 0 ∨ count > 16
  · rw [if_pos hrange]
    exact Or.inl rfl
  rw [if_neg hrange]
  obtain ⟨rfl, hinside⟩ := harray (by omega)
  obtain ⟨e, he, hundefined⟩ | ⟨h2, haddresses, count, hcount', harray'⟩ := arrayHeader_cases data 2
  · rw [he]
    refine Or.inr ⟨e, rfl, fun heq => ?_⟩
    have hle := hundefined heq
    omega
  rw [hcount']
  dsimp only
  by_cases hsame : arrayCount data 1 = count
  swap
  · rw [if_pos hsame]
    exact Or.inl rfl
  subst hsame
  obtain ⟨hsame, hinside'⟩ := harray' (by omega)
  rw [if_neg (by simp)]
  by_cases hsig : SigArray data (arrayOffset data 1) (arrayCount data 1)
  swap
  · obtain ⟨e, he, hne⟩ := extractSigArray_of_not_sigArray (by omega) hsig
    rw [he]
    exact Or.inr ⟨e, rfl, fun heq => absurd heq hne⟩
  rw [extractSigArray_of_sigArray (by omega) hsig]
  by_cases hfits : arrayOffset data 2 + arrayCount data 1 < wordCount data
  · exact absurd ⟨h2, hsignatures, haddresses, by omega, by omega, hsame, hsig, hsame ▸ hfits⟩ h
  · rw [extractBytes32Array_of_not_fits (by omega) hfits]
    exact Or.inr ⟨_, rfl, nofun⟩

/-! ### The loop -/

/-- What the loop makes of byte `j`. -/
def batchByte (hash : Bytes) (i : ℕ) (signatures addresses : List Bytes) (j : ℕ) (b : UInt8) :
    UInt8 :=
  if i ≤ j ∧ j < i + signatures.length ∧ equalAddressByteArray (addresses.getD (j - i) [])
    (signer crypto hash (signatures.getD (j - i) [])) then 1 else b

/-- The byte of the first signature. -/
private theorem batchByte_self (hash : Bytes) (i : ℕ) (sign address : Bytes)
    (signatures addresses : List Bytes)
    (b : UInt8) : batchByte crypto hash i (sign :: signatures) (address :: addresses) i b =
      if equalAddressByteArray address (signer crypto hash sign) then 1 else b := by
  rw [batchByte, Nat.sub_self, List.getD_cons_zero, List.getD_cons_zero, List.length_cons]
  congr 1
  simp

/-- The bytes of the others. -/
private theorem batchByte_succ (hash : Bytes) {i j : ℕ} (h : j ≠ i) (sign address : Bytes)
    (signatures addresses : List Bytes) (b : UInt8) :
    batchByte crypto hash i (sign :: signatures) (address :: addresses) j b =
      batchByte crypto hash (i + 1) signatures addresses j b := by
  by_cases hlt : i < j
  · obtain ⟨k, rfl⟩ := Nat.exists_eq_add_of_lt hlt
    rw [batchByte, batchByte, show i + k + 1 - i = k + 1 by omega,
      show i + k + 1 - (i + 1) = k by omega, List.getD_cons_succ, List.getD_cons_succ,
      List.length_cons]
    congr 1
    simp only [eq_iff_iff]
    constructor
    · rintro ⟨-, hk, heq⟩
      exact ⟨by omega, by omega, heq⟩
    · rintro ⟨-, hk, heq⟩
      exact ⟨by omega, by omega, heq⟩
  · rw [batchByte, batchByte, if_neg (by omega), if_neg (by omega)]

/-- The loop recovers each signature once, and sets the bytes of those which match. -/
private theorem run_batchLoop (hash : Bytes) (i : ℕ) {signatures addresses : List Bytes}
    (hlength : addresses.length = signatures.length) (returnValue : Bytes)
    (log : List (Bytes × Bytes)) :
    (batchLoop crypto hash i signatures addresses returnValue).run log =
      (.ok (returnValue.mapIdx (batchByte crypto hash i signatures addresses)),
        (signatures.map fun sign => (sign, hash)).reverse ++ log) := by
  -- On the signatures; `i` is the byte the round writes, and later rounds leave it as it is.
  induction signatures generalizing i addresses returnValue log with
  | nil =>
    have hid : returnValue.mapIdx (batchByte crypto hash i [] addresses) = returnValue := by
      refine List.ext_getElem? fun j => ?_
      rw [List.getElem?_mapIdx]
      rcases returnValue[j]? with _ | b
      · rfl
      · rw [Option.map_some, batchByte, if_neg]
        rintro ⟨hle, hlt, -⟩
        rw [List.length_nil] at hlt
        omega
    rw [hid]
    rfl
  | cons sign signatures ih =>
    obtain _ | ⟨address, addresses⟩ := addresses
    · cases hlength
    · rw [batchLoop, Prog.run_bind]
      change (batchLoop crypto hash (i + 1) signatures addresses _).run ((sign, hash) :: log) = _
      rw [ih (i + 1) (Nat.succ.inj hlength)]
      refine Prod.ext ?_ ?_
      · refine congrArg Except.ok (List.ext_getElem? fun j => ?_)
        rw [List.getElem?_mapIdx, List.getElem?_mapIdx]
        -- the byte of this round is settled now, any other one by the rounds to come
        by_cases hj : j = i
        · subst hj
          have hlater : ∀ b, batchByte crypto hash (j + 1) signatures addresses j b = b :=
            fun b => if_neg (by omega)
          rw [show batchByte crypto hash (j + 1) signatures addresses j = id from funext hlater,
            Option.map_id_apply]
          by_cases hmatch : equalAddressByteArray address (signer crypto hash sign) = true
          · have hself : batchByte crypto hash j (sign :: signatures) (address :: addresses) j =
                fun _ => 1 := funext fun b => by rw [batchByte_self, if_pos hmatch]
            rw [if_pos hmatch, hself]
            exact List.getElem?_set_self'
          · have hself : batchByte crypto hash j (sign :: signatures) (address :: addresses) j =
                id := funext fun b => by rw [batchByte_self, if_neg hmatch, id]
            rw [if_neg hmatch, hself, Option.map_id_apply]
        · have hset : (if equalAddressByteArray address (signer crypto hash sign) then
              returnValue.set i 1 else returnValue)[j]? = returnValue[j]? := by
            split
            · exact List.getElem?_set_ne (Ne.symm hj)
            · rfl
          rw [hset]
          exact congrArg (returnValue[j]?.map ·)
            (funext
              fun b => (batchByte_succ crypto hash hj sign address signatures addresses b).symm)
      · simp

/-! ### What the precompile returns -/

/-- A failure which uses all the gas. -/
structure FullGasFailure (opts : PrecompileInput) (r : ExecResult) : Prop where
  gas : r.executionGasUsed = opts.gasLimit
  failed : r.exceptionError ≠ none
  empty : r.returnValue = []

theorem fullGasFailure_OOGResult (opts : PrecompileInput) :
    FullGasFailure opts (OOGResult opts.gasLimit) := ⟨rfl, nofun, rfl⟩

theorem fullGasFailure_unknownResult (opts : PrecompileInput) :
    FullGasFailure opts (unknownResult opts.gasLimit) := ⟨rfl, nofun, rfl⟩

/-- What is refused before anything is read. -/
def Refused (opts : PrecompileInput) (itemWords gasUsed : ℕ) : Prop :=
  (isTronOsakaEnabled opts ∧ !isValidTronSignatureCalldata opts.data itemWords) ∨
    opts.gasLimit < gasUsed

/-- The output for calldata which is not malformed. -/
def batchOutput (data : Bytes) : Bytes :=
  zeroWord.mapIdx (batchByte crypto (batchOf data).hash 0 (batchOf data).signatures
    (batchOf data).addresses)

/-- The recoveries for such calldata, the latest first. -/
def batchRecoveries (data : Bytes) : List (Bytes × Bytes) :=
  ((batchOf data).signatures.map fun sign => (sign, (batchOf data).hash)).reverse

theorem length_batchRecoveries (data : Bytes) :
    (batchRecoveries data).length = arrayCount data 1 := by
  rw [batchRecoveries, List.length_reverse, List.length_map, batchOf, List.length_map,
    List.length_range]

/-- Byte `i` tells whether signature `i` is by address `i`. -/
theorem getElem?_batchOutput {data : Bytes} {i : ℕ} (hi : i < WORD_SIZE) :
    (batchOutput crypto data)[i]? = some (if i < arrayCount data 1 ∧
      equalAddressByteArray (word data (arrayOffset data 2 + i + 1))
        (signer crypto (word data 0) (signature data (arrayOffset data 1) i)) then 1 else 0) := by
  rw [batchOutput, List.getElem?_mapIdx, zeroWord, List.getElem?_replicate_of_lt hi,
    Option.map_some, batchByte, Nat.sub_zero, batchOf]
  by_cases hlt : i < arrayCount data 1
  · have hget : ∀ f : ℕ → Bytes, ((List.range (arrayCount data 1)).map f).getD i [] = f i := by
      intro f
      rw [List.getD_eq_getElem?_getD, List.getElem?_map, List.getElem?_range hlt]
      rfl
    rw [hget, hget]
    congr 1
    simp [hlt]
  · congr 1
    rw [if_neg, if_neg]
    · exact fun h => hlt h.1
    · rintro ⟨-, h, -⟩
      rw [List.length_map, List.length_range] at h
      omega

/-- **How a call of precompile 09 can end.**  It never throws. -/
theorem precompile09_cases (opts : PrecompileInput) (log : List (Bytes × Bytes)) :
    ∃ r log', (precompile09 crypto opts).run log = (.ok r, log') ∧
      (Refused opts 6 (batchCharged opts.data * opts.common.param "batchvalidatesignGas") ∧
          r = OOGResult opts.gasLimit ∧ log' = log ∨
        ¬ Refused opts 6 (batchCharged opts.data * opts.common.param "batchvalidatesignGas") ∧
          (BatchCalldata opts.data ∧ log' = batchRecoveries opts.data ++ log ∧
              r = success (batchCharged opts.data * opts.common.param "batchvalidatesignGas")
                (batchOutput crypto opts.data) ∨
            ¬ BatchCalldata opts.data ∧ log' = log ∧ (r = unknownResult opts.gasLimit ∨
              r = success (batchCharged opts.data * opts.common.param "batchvalidatesignGas")
                zeroWord))) := by
  rw [precompile09]
  generalize batchCharged opts.data * opts.common.param "batchvalidatesignGas" = gasUsed
  by_cases hshape : isTronOsakaEnabled opts ∧ !isValidTronSignatureCalldata opts.data 6
  · rw [if_pos hshape]
    exact ⟨_, _, rfl, Or.inl ⟨Or.inl hshape, rfl, rfl⟩⟩
  rw [if_neg hshape]
  by_cases hgas : opts.gasLimit < gasUsed
  · rw [if_pos hgas]
    exact ⟨_, _, rfl, Or.inl ⟨Or.inr hgas, rfl, rfl⟩⟩
  rw [if_neg hgas]
  have hadmitted : ¬ Refused opts 6 gasUsed := by
    rintro (h | h)
    · exact hshape h
    · exact hgas h
  by_cases hdata : BatchCalldata opts.data
  · have hbody : (batchBody crypto opts.data).run log =
        (.ok (batchOutput crypto opts.data), batchRecoveries opts.data ++ log) := by
      rw [batchBody, batchArguments_of_batchCalldata hdata]
      exact run_batchLoop crypto (batchOf opts.data).hash 0 (by simp [batchOf]) zeroWord log
    refine ⟨_, _, ?_, Or.inr ⟨hadmitted, Or.inl ⟨hdata, rfl, rfl⟩⟩⟩
    rw [Prog.run_tryCatch, Prog.run_bind_of_ok hbody]
    rfl
  · obtain hnone | ⟨e, he, -⟩ := batchArguments_of_not_batchCalldata hdata
    · have hbody : (batchBody crypto opts.data).run log = (.ok zeroWord, log) := by
        rw [batchBody, hnone]
        rfl
      refine ⟨_, _, ?_, Or.inr ⟨hadmitted, Or.inr ⟨hdata, rfl, Or.inr rfl⟩⟩⟩
      rw [Prog.run_tryCatch, Prog.run_bind_of_ok hbody]
      rfl
    · have hbody : (batchBody crypto opts.data).run log = (.error e, log) := by
        rw [batchBody, he]
        rfl
      refine ⟨_, _, ?_, Or.inr ⟨hadmitted, Or.inr ⟨hdata, rfl, Or.inl rfl⟩⟩⟩
      rw [Prog.run_tryCatch, Prog.run_bind_of_error hbody]
      rfl

end Precompile

end Tvmjs
