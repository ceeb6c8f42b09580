import Mathlib.Algebra.Order.BigOperators.Group.List
import Tvmjs.Tvm.ValidateSign
import Tvmjs.Util.AccountRlp

/-!
# Precompile 0a

Validation of the signatures of an account against one of its permissions.

* `precompile0a` -- the precompile;
* `newSigners` -- the signers in the order in which they first sign;
* `run_multiLoop` -- the loop adds up the weights of these;
* `precompile0a_cases` -- what the precompile returns, and which recoveries it makes.
-/

namespace Tvmjs

namespace Precompile

open Interpreter (ExecResult)

variable (crypto : Crypto)

/-! ### Weights -/

/-- A sum of numbers. -/
def addNumber (a b : ℤ) : ℤ :=
  if a + b < 0 then -(toNumber (a + b).natAbs) else toNumber (a + b).toNat

/-- `getWeight(permission, address)` -/
def getWeight : List Key → Bytes → ℤ
  | [], _ => 0
  | key :: keys, address =>
    if equalAddressByteArray key.address address then key.weight else getWeight keys address

/-- `account.getPermissionById(id)`, where the permissions are loaded. -/
def getPermissionById (activePermissions : List Permission) (id : ℕ) : Option Permission :=
  activePermissions.find? fun permission => permission.id = id

/-! ### The precompile -/

/-- `getLast20Bytes()` -/
def getLast20Bytes (word : Bytes) : Bytes := (word.take WORD_SIZE).drop 12

/-- `convertToTronAddress(address)` -/
def convertToTronAddress (address : Bytes) : Bytes :=
  if address.length = 20 then 0x41 :: address else address

/-- What precompile 0a reads out of its calldata. -/
structure MultiArguments where
  addr : Bytes
  permissionId : ℕ
  hash : Bytes
  signatures : List Bytes

/-- What is hashed: the account, the id of the permission in 4 bytes, and the data. -/
def combine (addr : Bytes) (permissionId : ℕ) (data : Bytes) : Except Abort Bytes :=
  -- every engine builds an array of four elements
  match setLengthLeft (fun _ _ => true) (bigIntToBytes permissionId) 4 with
  | .ok permissionIdBytes => .ok (convertToTronAddress addr ++ permissionIdBytes ++ data)
  | .error _ => .error .unsafeInteger

/-- The arguments; there are none where zero is returned early. -/
def multiArguments (rawData : Bytes) : Except Abort (Option MultiArguments) := do
  let words := parseArray rawData
  let addressWord ← wordAt words 0
  let addr := getLast20Bytes addressWord
  let permissionWord ← wordAt words 1
  let permissionId ← intValueSafe permissionWord
  let data ← wordAt words 2
  let combined ← combine addr permissionId data
  let hash := crypto.sha256 combined
  let (signaturesOffset, signatureCount) ← arrayHeader words 3
  if signatureCount = 0 ∨ signatureCount > 5 then return none
  else
    let signatures ← extractSigArray words signaturesOffset signatureCount rawData
    return some { addr, permissionId, hash, signatures }

/-- The loop over the signatures; it has no sum where a signer has no weight. -/
def multiLoop (keys : List Key) (hash : Bytes) :
    List Bytes → ℤ → List Bytes → List Bytes → RecoverM (Option ℤ)
  | [], totalWeight, _, _ => pure (some totalWeight)
  | sign :: signatures, totalWeight, executedSignList, executedAddrList =>
    if sign ∈ executedSignList then
      multiLoop keys hash signatures totalWeight executedSignList executedAddrList
    else do
      let recoveredAddr ← recoverAddrBySign crypto sign hash
      if recoveredAddr ∈ executedAddrList then
        multiLoop keys hash signatures totalWeight executedSignList executedAddrList
      else if getWeight keys recoveredAddr = 0 then pure none
      else
        multiLoop keys hash signatures (addNumber totalWeight (getWeight keys recoveredAddr))
          (sign :: executedSignList) (recoveredAddr :: executedAddrList)

/-- The word which says yes. -/
def oneWord : Bytes := zeroWord.set (WORD_SIZE - 1) 1

/-- The signatures against a permission. -/
def checkPermission (permission : Permission) (arguments : MultiArguments) : RecoverM Bytes := do
  match ← multiLoop crypto permission.keys arguments.hash arguments.signatures 0 [] [] with
  | some totalWeight => pure (if totalWeight ≥ permission.threshold then oneWord else zeroWord)
  | none => pure zeroWord

/-- `stateManager.getAccount(address)`: it may throw, there may be no account, and the permissions
of an account may not be loaded. -/
abbrev GetAccount := Bytes → Except Abort (Option (Option (List Permission)))

/-- The body of `try`. -/
def multiBody (getAccount : GetAccount) (rawData : Bytes) : RecoverM Bytes := do
  match ← Prog.ofExcept (multiArguments crypto rawData) with
  | none => pure zeroWord
  | some arguments =>
    match ← Prog.ofExcept (getAccount arguments.addr) with
    | some (some activePermissions) =>
      match getPermissionById activePermissions arguments.permissionId with
      | some permission => checkPermission crypto permission arguments
      | none => pure zeroWord
    -- permissions which are not loaded throw, which is ignored
    | _ => pure zeroWord

/-- The number of signatures the calldata is charged for. -/
def multiCharged (data : Bytes) : ℕ := (data.length / WORD_SIZE - 5) / 5

/-- `precompile0a(opts)` -/
def precompile0a (getAccount : GetAccount) (opts : PrecompileInput) : RecoverM ExecResult :=
  let gasUsed := multiCharged opts.data * opts.common.param "validatemultisignGas"
  if isTronOsakaEnabled opts ∧ !isValidTronSignatureCalldata opts.data 5 then
    pure (OOGResult opts.gasLimit)
  else if opts.gasLimit < gasUsed then pure (OOGResult opts.gasLimit)
  else
    Prog.tryCatch (do
      let returnValue ← multiBody crypto getAccount opts.data
      pure (success gasUsed returnValue))
      fun _ => pure (unknownResult opts.gasLimit)

/-! ### Calldata which is not malformed -/

/-- A header with the id of a permission, and an array of at most 5 signatures. -/
structure MultiCalldata (data : Bytes) : Prop where
  header : 4 ≤ wordCount data
  permissionId : number data 1 < 2 ^ 31
  signatures : IsOffset data 3
  count_pos : 0 < arrayCount data 3
  count_le : arrayCount data 3 ≤ 5
  sigArray : SigArray data (arrayOffset data 3) (arrayCount data 3)

/-- The id of a permission in 4 bytes. -/
def idBytes (id : ℕ) : Bytes := List.replicate (4 - (bigIntToBytes id).length) 0 ++ bigIntToBytes id

/-- What such calldata says. -/
def multiOf (data : Bytes) : MultiArguments where
  addr := getLast20Bytes (word data 0)
  permissionId := number data 1
  hash := crypto.sha256 (0x41 :: getLast20Bytes (word data 0) ++ idBytes (number data 1) ++
    word data 2)
  signatures := (List.range (arrayCount data 3)).map (signature data (arrayOffset data 3))

private theorem combine_eq {data : Bytes} {id : ℕ} (hid : id < 2 ^ 31) :
    combine (getLast20Bytes (word data 0)) id (word data 2) =
      .ok (0x41 :: getLast20Bytes (word data 0) ++ idBytes id ++ word data 2) := by
  have hlength : (getLast20Bytes (word data 0)).length = 20 := by
    rw [getLast20Bytes, List.length_drop, List.length_take, word, BigEndian.length_window]
    rfl
  have hshort : (bigIntToBytes id).length ≤ 4 := by
    rw [bigIntToBytes]
    split
    · decide
    · exact BigEndian.length_digits_le (hid.trans (by decide))
  have hfills : FillsLeft (fun _ _ => true) (bigIntToBytes id).length 4 := Or.inr rfl
  rw [combine, setLengthLeft_eq _ hshort, if_pos hfills, convertToTronAddress, if_pos hlength]
  rfl

theorem multiArguments_of_multiCalldata {data : Bytes} (h : MultiCalldata data) :
    multiArguments crypto data = .ok (some (multiOf crypto data)) := by
  have hheader := h.header
  have hfits := h.sigArray.fits
  have hle := h.count_le
  have hsignatures := arrayHeader_of_inside (by omega) h.signatures (by omega) (by omega)
  simp only [multiArguments, wordAt_of_lt (show 0 < wordCount data by omega),
    wordAt_of_lt (show 1 < wordCount data by omega),
      wordAt_of_lt (show 2 < wordCount data by omega),
    intValueSafe_word, if_pos h.permissionId, combine_eq h.permissionId, hsignatures, bind,
    Except.bind]
  rw [if_neg (by have := h.count_pos; omega)]
  simp only [extractSigArray_of_sigArray h.count_pos h.sigArray]
  rfl

/-- Malformed calldata is refused, and no word is used which is not there but one of the header. -/
theorem multiArguments_of_not_multiCalldata {data : Bytes} (h : ¬ MultiCalldata data) :
    multiArguments crypto data = .ok none ∨ ∃ e, multiArguments crypto data = .error e ∧
      (e = .undefinedWord → wordCount data < 4) := by
  rw [multiArguments]
  by_cases h0 : 0 < wordCount data
  swap
  · rw [wordAt_of_ge (not_lt.1 h0)]
    exact Or.inr ⟨_, rfl, fun _ => by omega⟩
  by_cases h1 : 1 < wordCount data
  swap
  · rw [wordAt_of_lt h0, wordAt_of_ge (not_lt.1 h1)]
    exact Or.inr ⟨_, rfl, fun _ => by omega⟩
  simp only [wordAt_of_lt h0, wordAt_of_lt h1, intValueSafe_word, bind, Except.bind]
  by_cases hid : number data 1 < 2 ^ 31
  swap
  · rw [if_neg hid]
    exact Or.inr ⟨_, rfl, nofun⟩
  rw [if_pos hid]
  by_cases h2 : 2 < wordCount data
  swap
  · rw [wordAt_of_ge (not_lt.1 h2)]
    exact Or.inr ⟨_, rfl, fun _ => by omega⟩
  simp only [wordAt_of_lt h2, combine_eq hid]
  obtain ⟨e, he, hundefined⟩ | ⟨h3, hsignatures, count, hcount, harray⟩ := arrayHeader_cases data 3
  · rw [he]
    refine Or.inr ⟨e, rfl, fun heq => ?_⟩
    have hle := hundefined heq
    omega
  rw [hcount]
  dsimp only
  by_cases hrange : count = 0 ∨ count > 5
  · rw [if_pos hrange]
    exact Or.inl rfl
  rw [if_neg hrange]
  obtain ⟨rfl, hinside⟩ := harray (by omega)
  by_cases hsig : SigArray data (arrayOffset data 3) (arrayCount data 3)
  · exact absurd ⟨h3, hid, hsignatures, by omega, by omega, hsig⟩ h
  · obtain ⟨e, he, hne⟩ := extractSigArray_of_not_sigArray (by omega) hsig
    rw [he]
    exact Or.inr ⟨e, rfl, fun heq => absurd heq hne⟩

/-! ### The loop -/

/-- Those of a list which were not seen before, each at its first place. -/
def newSigners : List Bytes → List Bytes → List Bytes
  | _, [] => []
  | seen, s :: signers =>
    if s ∈ seen then newSigners seen signers else s :: newSigners (s :: seen) signers

theorem mem_newSigners {seen signers : List Bytes} {s : Bytes} :
    s ∈ newSigners seen signers ↔ s ∈ signers ∧ s ∉ seen := by
  induction signers generalizing seen with
  | nil => simp [newSigners]
  | cons t signers ih =>
    rw [newSigners]
    split
    · next hseen =>
      rw [ih, List.mem_cons]
      constructor
      · rintro ⟨hmem, hnew⟩
        exact ⟨Or.inr hmem, hnew⟩
      · rintro ⟨rfl | hmem, hnew⟩
        · exact absurd hseen hnew
        · exact ⟨hmem, hnew⟩
    · next hnew =>
      rw [List.mem_cons, ih, List.mem_cons, List.mem_cons]
      constructor
      · rintro (rfl | ⟨hmem, hne⟩)
        · exact ⟨Or.inl rfl, hnew⟩
        · exact ⟨Or.inr hmem, fun h => hne (Or.inr h)⟩
      · rintro ⟨rfl | hmem, hne⟩
        · exact Or.inl rfl
        · by_cases heq : s = t
          · exact Or.inl heq
          · exact Or.inr ⟨hmem, by simp [heq, hne]⟩

theorem nodup_newSigners (seen signers : List Bytes) : (newSigners seen signers).Nodup := by
  induction signers generalizing seen with
  | nil => exact List.nodup_nil
  | cons s signers ih =>
    rw [newSigners]
    split
    · exact ih seen
    · refine List.nodup_cons.2 ⟨fun h => ?_, ih _⟩
      exact (mem_newSigners.1 h).2 List.mem_cons_self

/-- The sum of the weights, one number after the other. -/
def sumWeights (keys : List Key) (totalWeight : ℤ) (signers : List Bytes) : ℤ :=
  signers.foldl (fun total s => addNumber total (getWeight keys s)) totalWeight

/-- **The loop adds up the weights of the new signers**, unless one of them has none; it recovers no
signature twice. -/
theorem run_multiLoop (keys : List Key) (hash : Bytes) (signatures : List Bytes) (totalWeight : ℤ)
    {executedSignList executedAddrList : List Bytes}
    (hseen : ∀ sign ∈ executedSignList, signer crypto hash sign ∈ executedAddrList)
    (log : List (Bytes × Bytes)) :
    ∃ recoveries, recoveries.length ≤ signatures.length ∧
      (multiLoop crypto keys hash signatures totalWeight executedSignList executedAddrList).run
          log =
        (.ok (if ∀ s ∈ newSigners executedAddrList (signatures.map (signer crypto hash)),
            getWeight keys s ≠ 0
          then some (sumWeights keys totalWeight
            (newSigners executedAddrList (signatures.map (signer crypto hash))))
          else none), recoveries ++ log) := by
  -- On the signatures; the signer of each that was seen is on the list of addresses.
  induction signatures generalizing totalWeight executedSignList executedAddrList log with
  | nil => exact ⟨[], le_rfl, by simp [multiLoop, newSigners, sumWeights]⟩
  | cons sign signatures ih =>
    rw [multiLoop, List.map_cons, newSigners]
    -- a signature seen before is passed over without a recovery
    by_cases hsign : sign ∈ executedSignList
    · rw [if_pos hsign, if_pos (hseen sign hsign)]
      obtain ⟨recoveries, hle, hrun⟩ := ih totalWeight hseen log
      exact ⟨recoveries, hle.trans (Nat.le_succ _), hrun⟩
    rw [if_neg hsign, Prog.run_bind]
    change ∃ recoveries, _ ∧ Prog.run (if signer crypto hash sign ∈ executedAddrList then _ else _)
      ((sign, hash) :: log) = _
    -- another signature of a signer seen before counts nothing
    by_cases haddr : signer crypto hash sign ∈ executedAddrList
    · rw [if_pos haddr, if_pos haddr]
      obtain ⟨recoveries, hle, hrun⟩ := ih totalWeight hseen ((sign, hash) :: log)
      refine ⟨recoveries ++ [(sign, hash)], ?_, ?_⟩
      · rw [List.length_append, List.length_cons]
        exact Nat.succ_le_succ hle
      · rw [hrun, List.append_assoc]
        rfl
    rw [if_neg haddr, if_neg haddr]
    -- a signer without weight in the permission ends the loop
    by_cases hweight : getWeight keys (signer crypto hash sign) = 0
    · rw [if_pos hweight, if_neg]
      · exact ⟨[(sign, hash)], Nat.succ_le_succ (Nat.zero_le _), rfl⟩
      · exact fun h => h _ List.mem_cons_self hweight
    · rw [if_neg hweight]
      have hseen' : ∀ t ∈ sign :: executedSignList,
          signer crypto hash t ∈ signer crypto hash sign :: executedAddrList := by
        intro t ht
        obtain rfl | ht := List.mem_cons.1 ht
        · exact List.mem_cons_self
        · exact List.mem_cons_of_mem _ (hseen t ht)
      obtain ⟨recoveries, hle, hrun⟩ := ih
        (addNumber totalWeight (getWeight keys (signer crypto hash sign))) hseen'
        ((sign, hash) :: log)
      refine ⟨recoveries ++ [(sign, hash)], ?_, ?_⟩
      · rw [List.length_append, List.length_cons]
        exact Nat.succ_le_succ hle
      · rw [hrun, List.append_assoc]
        refine Prod.ext (congrArg Except.ok ?_) rfl
        simp only [List.forall_mem_cons, ne_eq, hweight, not_false_eq_true, true_and]
        rfl

/-! ### What the precompile returns -/

/-- The signers of the signatures. -/
def multiSigners (data : Bytes) : List Bytes :=
  (multiOf crypto data).signatures.map (signer crypto (multiOf crypto data).hash)

/-- The permission the calldata names exists, each signer has a weight in it, and the weights of the
signers, each taken once, reach the threshold. -/
def Approved (getAccount : GetAccount) (data : Bytes) : Prop :=
  ∃ activePermissions permission,
    getAccount (multiOf crypto data).addr = .ok (some (some activePermissions)) ∧
    getPermissionById activePermissions (multiOf crypto data).permissionId = some permission ∧
    (∀ s ∈ multiSigners crypto data, getWeight permission.keys s ≠ 0) ∧
    permission.threshold ≤
      sumWeights permission.keys 0 (newSigners [] (multiSigners crypto data))

/-- What a permission makes of signers. -/
def Permits (permission : Permission) (signers : List Bytes) : Prop :=
  (∀ s ∈ newSigners [] signers, getWeight permission.keys s ≠ 0) ∧
    permission.threshold ≤ sumWeights permission.keys 0 (newSigners [] signers)

/-- A permission which permits says yes; each signature is recovered once at most. -/
private theorem run_checkPermission (permission : Permission) (arguments : MultiArguments)
    (log : List (Bytes × Bytes)) :
    ∃ recoveries out, recoveries.length ≤ arguments.signatures.length ∧
      (checkPermission crypto permission arguments).run log = (.ok out, recoveries ++ log) ∧
      (Permits permission (arguments.signatures.map (signer crypto arguments.hash)) ∧
        out = oneWord ∨
        ¬ Permits permission (arguments.signatures.map (signer crypto arguments.hash)) ∧
          out = zeroWord) := by
  obtain ⟨recoveries, hle, hrun⟩ := run_multiLoop crypto permission.keys arguments.hash
    arguments.signatures 0 (fun _ h => absurd h (@List.not_mem_nil Bytes _)) log
  rw [checkPermission, Prog.run_bind_of_ok hrun, Permits]
  generalize newSigners [] (arguments.signatures.map (signer crypto arguments.hash)) = signers
  by_cases hweights : ∀ s ∈ signers, getWeight permission.keys s ≠ 0
  · rw [if_pos hweights]
    refine ⟨recoveries, _, hle, rfl, ?_⟩
    by_cases hsum : permission.threshold ≤ sumWeights permission.keys 0 signers
    · exact Or.inl ⟨⟨hweights, hsum⟩, if_pos hsum⟩
    · exact Or.inr ⟨fun h => hsum h.2, if_neg hsum⟩
  · rw [if_neg hweights]
    exact ⟨recoveries, zeroWord, hle, rfl, Or.inr ⟨fun h => hweights h.1, rfl⟩⟩

/-- The approval by the permission which the calldata names. -/
theorem approved_iff {getAccount : GetAccount} {data : Bytes} {ps : List Permission}
    {permission : Permission}
    (haccount : getAccount (multiOf crypto data).addr = .ok (some (some ps)))
    (hpermission : getPermissionById ps (multiOf crypto data).permissionId = some permission) :
    Approved crypto getAccount data ↔ Permits permission (multiSigners crypto data) := by
  constructor
  · rintro ⟨ps', permission', hps, hpermission', hweights, hsum⟩
    rw [haccount] at hps
    obtain rfl := Option.some.inj (Option.some.inj (Except.ok.inj hps))
    rw [hpermission] at hpermission'
    obtain rfl := Option.some.inj hpermission'
    exact ⟨fun s hs => hweights s (mem_newSigners.1 hs).1, hsum⟩
  · rintro ⟨hweights, hsum⟩
    exact ⟨ps, permission, haccount, hpermission, fun s hs => hweights s
      (mem_newSigners.2 ⟨hs, List.not_mem_nil⟩), hsum⟩

/-- The body on calldata which is not malformed, where the account can be read. -/
private theorem run_multiBody {getAccount : GetAccount} {data : Bytes} (h : MultiCalldata data)
    {account : Option (Option (List Permission))}
    (haccount : getAccount (multiOf crypto data).addr = .ok account) (log : List (Bytes × Bytes)) :
    ∃ recoveries out, recoveries.length ≤ arrayCount data 3 ∧
      (multiBody crypto getAccount data).run log = (.ok out, recoveries ++ log) ∧
      (Approved crypto getAccount data ∧ out = oneWord ∨
        ¬ Approved crypto getAccount data ∧ out = zeroWord) := by
  have hunapproved : (∀ ps permission, account = some (some ps) →
      getPermissionById ps (multiOf crypto data).permissionId ≠ some permission) →
      ¬ Approved crypto getAccount data := by
    rintro hnone ⟨ps, permission, hps, hpermission, -⟩
    rw [haccount] at hps
    exact hnone ps permission (Except.ok.inj hps) hpermission
  have hcount : (multiOf crypto data).signatures.length = arrayCount data 3 := by
    rw [multiOf, List.length_map, List.length_range]
  rw [multiBody, multiArguments_of_multiCalldata crypto h]
  change ∃ recoveries out, _ ∧ Prog.run (Prog.ofExcept (getAccount (multiOf crypto data).addr) >>=
    _)
    log = _ ∧ _
  rw [haccount]
  rcases account with _ | _ | ps
  · exact ⟨[], zeroWord, Nat.zero_le _, rfl, Or.inr ⟨hunapproved nofun, rfl⟩⟩
  · exact ⟨[], zeroWord, Nat.zero_le _, rfl, Or.inr ⟨hunapproved nofun, rfl⟩⟩
  change ∃ recoveries out, _ ∧ Prog.run (match getPermissionById ps
    (multiOf crypto data).permissionId with
      | some permission => checkPermission crypto permission (multiOf crypto data)
      | none => pure zeroWord) log = _ ∧ _
  rcases hpermission : getPermissionById ps (multiOf crypto data).permissionId with _ | permission
  · refine ⟨[], zeroWord, Nat.zero_le _, rfl, Or.inr ⟨hunapproved ?_, rfl⟩⟩
    intro ps' permission' hps
    obtain rfl := Option.some.inj (Option.some.inj hps)
    rw [hpermission]
    exact nofun
  · rw [approved_iff crypto haccount hpermission, ← hcount]
    exact run_checkPermission crypto permission (multiOf crypto data) log

/-- **How a call of precompile 0a can end.**  It never throws. -/
theorem precompile0a_cases (getAccount : GetAccount) (opts : PrecompileInput)
    (log : List (Bytes × Bytes)) :
    ∃ r recoveries, (precompile0a crypto getAccount opts).run log = (.ok r, recoveries ++ log) ∧
      (Refused opts 5 (multiCharged opts.data * opts.common.param "validatemultisignGas") ∧
          r = OOGResult opts.gasLimit ∧ recoveries = [] ∨
        ¬ Refused opts 5 (multiCharged opts.data * opts.common.param "validatemultisignGas") ∧
          (MultiCalldata opts.data ∧ recoveries.length ≤ arrayCount opts.data 3 ∧
              (Approved crypto getAccount opts.data ∧
                  r = success (multiCharged opts.data * opts.common.param "validatemultisignGas")
                    oneWord ∨
                ¬ Approved crypto getAccount opts.data ∧
                  r = success (multiCharged opts.data * opts.common.param "validatemultisignGas")
                    zeroWord) ∨
            recoveries = [] ∧ (¬ MultiCalldata opts.data ∨
                ∃ e, getAccount (multiOf crypto opts.data).addr = .error e) ∧
              (r = unknownResult opts.gasLimit ∨ ¬ MultiCalldata opts.data ∧
                r = success (multiCharged opts.data * opts.common.param "validatemultisignGas")
                  zeroWord))) := by
  rw [precompile0a]
  generalize multiCharged opts.data * opts.common.param "validatemultisignGas" = gasUsed
  -- the guards in the order of the source: the shape, the gas, then the calldata itself
  by_cases hshape : isTronOsakaEnabled opts ∧ !isValidTronSignatureCalldata opts.data 5
  · rw [if_pos hshape]
    exact ⟨_, [], rfl, Or.inl ⟨Or.inl hshape, rfl, rfl⟩⟩
  rw [if_neg hshape]
  by_cases hgas : opts.gasLimit < gasUsed
  · rw [if_pos hgas]
    exact ⟨_, [], rfl, Or.inl ⟨Or.inr hgas, rfl, rfl⟩⟩
  rw [if_neg hgas]
  have hadmitted : ¬ Refused opts 5 gasUsed := by
    rintro (h | h)
    · exact hshape h
    · exact hgas h
  by_cases hdata : MultiCalldata opts.data
  · -- reading the account may throw, which is caught like all else
    rcases haccount : getAccount (multiOf crypto opts.data).addr with e | account
    · have hbody : (multiBody crypto getAccount opts.data).run log = (.error e, log) := by
        rw [multiBody, multiArguments_of_multiCalldata crypto hdata]
        change Prog.run (Prog.ofExcept (getAccount (multiOf crypto opts.data).addr) >>= _) log = _
        rw [haccount]
        rfl
      refine ⟨_, [], ?_, Or.inr ⟨hadmitted, Or.inr ⟨rfl, Or.inr ⟨e, rfl⟩, Or.inl rfl⟩⟩⟩
      rw [Prog.run_tryCatch, Prog.run_bind_of_error hbody]
      rfl
    · obtain ⟨recoveries, out, hle, hbody, hout⟩ := run_multiBody crypto hdata haccount log
      refine ⟨success gasUsed out, recoveries, ?_, Or.inr ⟨hadmitted, Or.inl ⟨hdata, hle, ?_⟩⟩⟩
      · rw [Prog.run_tryCatch, Prog.run_bind_of_ok hbody]
        rfl
      · obtain ⟨happroved, rfl⟩ | ⟨hnot, rfl⟩ := hout
        · exact Or.inl ⟨happroved, rfl⟩
        · exact Or.inr ⟨hnot, rfl⟩
  · obtain hnone | ⟨e, he, -⟩ := multiArguments_of_not_multiCalldata crypto hdata
    · have hbody : (multiBody crypto getAccount opts.data).run log = (.ok zeroWord, log) := by
        rw [multiBody, hnone]
        rfl
      refine ⟨_, [], ?_, Or.inr ⟨hadmitted, Or.inr ⟨rfl, Or.inl hdata, Or.inr ⟨hdata, rfl⟩⟩⟩⟩
      rw [Prog.run_tryCatch, Prog.run_bind_of_ok hbody]
      rfl
    · have hbody : (multiBody crypto getAccount opts.data).run log = (.error e, log) := by
        rw [multiBody, he]
        rfl
      refine ⟨_, [], ?_, Or.inr ⟨hadmitted, Or.inr ⟨rfl, Or.inl hdata, Or.inl rfl⟩⟩⟩
      rw [Prog.run_tryCatch, Prog.run_bind_of_error hbody]
      rfl

/-- Weights which are not negative add up exactly as long as the sum is a safe integer. -/
theorem sumWeights_eq {keys : List Key} {signers : List Bytes} {totalWeight : ℤ}
    (htotal : 0 ≤ totalWeight) (hweights : ∀ s ∈ signers, 0 ≤ getWeight keys s)
    (hsafe : totalWeight + (signers.map (getWeight keys)).sum ≤ MAX_SAFE_INTEGER) :
    sumWeights keys totalWeight signers = totalWeight + (signers.map (getWeight keys)).sum := by
  induction signers generalizing totalWeight with
  | nil => simp [sumWeights]
  | cons s signers ih =>
    have hs := hweights s List.mem_cons_self
    have hrest : 0 ≤ (signers.map (getWeight keys)).sum :=
      List.sum_nonneg fun w hw => by
        obtain ⟨t, ht, rfl⟩ := List.mem_map.1 hw
        exact hweights t (List.mem_cons_of_mem _ ht)
    rw [List.map_cons, List.sum_cons] at hsafe ⊢
    have hadd : addNumber totalWeight (getWeight keys s) = totalWeight + getWeight keys s := by
      rw [addNumber, if_neg (by omega), toNumber_of_le (by omega)]
      omega
    have hstep : sumWeights keys totalWeight (s :: signers) =
        sumWeights keys (addNumber totalWeight (getWeight keys s)) signers := rfl
    rw [hstep, hadd, ih (by omega) (fun t ht => hweights t (List.mem_cons_of_mem _ ht)) (by omega)]
    omega

end Precompile

end Tvmjs
