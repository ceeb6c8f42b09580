import Mathlib.Algebra.BigOperators.Group.Finset.Basic
import Mathlib.Order.Interval.Finset.Nat
import Tvmjs.Tvm.ValidateMultiSign

/-!
# The signature precompiles

What the two signature precompiles promise for every calldata.

* `signaturePrecompiles_sound` -- they never throw, and what they say is right;
* `signaturePrecompiles_paid` -- recoveries are paid for where the parts of the calldata do not
  overlap; elsewhere their number is bounded.
-/

namespace Tvmjs

namespace Precompile

open Interpreter (ExecResult)

variable (crypto : Crypto)

/-! ### What they say -/

/-- Weights which are not negative are added up exactly, up to the safe integers. -/
private theorem permits_iff {permission : Permission} {signers : List Bytes}
    (hweights : ∀ s ∈ signers, 0 ≤ getWeight permission.keys s)
    (hsafe : ∑ s ∈ signers.toFinset, getWeight permission.keys s ≤ MAX_SAFE_INTEGER) :
    Permits permission signers ↔ (∀ s ∈ signers, getWeight permission.keys s ≠ 0) ∧
      permission.threshold ≤ ∑ s ∈ signers.toFinset, getWeight permission.keys s := by
  have hmem : ∀ s, s ∈ newSigners [] signers ↔ s ∈ signers := fun s => by simp [mem_newSigners]
  have hsum : ((newSigners [] signers).map (getWeight permission.keys)).sum =
      ∑ s ∈ signers.toFinset, getWeight permission.keys s := by
    rw [← List.sum_toFinset _ (nodup_newSigners [] signers)]
    congr 1
    ext s
    rw [List.mem_toFinset, List.mem_toFinset, hmem]
  have hexact := sumWeights_eq (le_refl 0) (fun s hs => hweights s ((hmem s).1 hs))
    (show 0 + ((newSigners [] signers).map (getWeight permission.keys)).sum ≤ MAX_SAFE_INTEGER by
      rwa [hsum, zero_add])
  rw [hsum, zero_add] at hexact
  rw [Permits, hexact]
  simp only [hmem]

/-- **The signature precompiles are sound.**  They never throw; each fails and uses all its gas, or
succeeds.  Where precompile 09 succeeds, byte `i` of its output is 1 exactly if `i` is below the
number of signatures and signature `i` is by address `i`, and malformed calldata gives zero.  Where
precompile 0a succeeds, its output is 1 exactly if the calldata is not malformed and the permission
it names approves, and else zero.  No word is used which is not there, but one of the header; and
weights are added up exactly, up to the safe integers. -/
theorem signaturePrecompiles_sound :
    (∀ opts : PrecompileInput, ∃ r log, (precompile09 crypto opts).run [] = (.ok r, log) ∧
      (FullGasFailure opts r ∨ r.exceptionError = none ∧
        (BatchCalldata opts.data → ∀ i < WORD_SIZE, r.returnValue[i]? =
          some (if i < arrayCount opts.data 1 ∧ equalAddressByteArray
            (word opts.data (arrayOffset opts.data 2 + i + 1))
            (signer crypto (word opts.data 0) (signature opts.data (arrayOffset opts.data 1) i))
              then 1 else 0)) ∧
        (¬ BatchCalldata opts.data → r.returnValue = zeroWord))) ∧
    (∀ (getAccount : GetAccount) (opts : PrecompileInput), ∃ r log,
      (precompile0a crypto getAccount opts).run [] = (.ok r, log) ∧
      (FullGasFailure opts r ∨ r.exceptionError = none ∧
        (MultiCalldata opts.data ∧ Approved crypto getAccount opts.data ∧ r.returnValue = oneWord ∨
          ¬ (MultiCalldata opts.data ∧ Approved crypto getAccount opts.data) ∧
            r.returnValue = zeroWord))) ∧
    (∀ data, batchArguments data = .error .undefinedWord → wordCount data < 3) ∧
    (∀ data, multiArguments crypto data = .error .undefinedWord → wordCount data < 4) ∧
    (∀ (permission : Permission) (signers : List Bytes),
      (∀ s ∈ signers, 0 ≤ getWeight permission.keys s) →
      ∑ s ∈ signers.toFinset, getWeight permission.keys s ≤ MAX_SAFE_INTEGER →
      (Permits permission signers ↔ (∀ s ∈ signers, getWeight permission.keys s ≠ 0) ∧
        permission.threshold ≤ ∑ s ∈ signers.toFinset, getWeight permission.keys s)) := by
  refine ⟨fun opts => ?_, fun getAccount opts => ?_, fun data h => ?_, fun data h => ?_,
    fun permission signers hweights hsafe => permits_iff hweights hsafe⟩
  · obtain ⟨r, log, hrun, hcases⟩ := precompile09_cases crypto opts []
    refine ⟨r, log, hrun, ?_⟩
    -- out of gas, a verified batch, malformed calldata or a word that is not there
    obtain ⟨-, rfl, -⟩ | ⟨-, ⟨hdata, -, rfl⟩ | ⟨hdata, -, rfl | rfl⟩⟩ := hcases
    · exact Or.inl (fullGasFailure_OOGResult opts)
    · refine Or.inr ⟨rfl, fun _ i hi => ?_, fun h => absurd hdata h⟩
      rw [success_returnValue]
      exact getElem?_batchOutput crypto hi
    · exact Or.inl (fullGasFailure_unknownResult opts)
    · exact Or.inr ⟨rfl, fun h => absurd h hdata, fun _ => rfl⟩
  · obtain ⟨r, recoveries, hrun, hcases⟩ := precompile0a_cases crypto getAccount opts []
    refine ⟨r, recoveries ++ [], hrun, ?_⟩
    obtain ⟨-, rfl, -⟩ | ⟨-, ⟨hdata, -, ⟨happroved, rfl⟩ | ⟨hnot, rfl⟩⟩ |
      ⟨-, -, rfl | ⟨hdata, rfl⟩⟩⟩ := hcases
    · exact Or.inl (fullGasFailure_OOGResult opts)
    · exact Or.inr ⟨rfl, Or.inl ⟨hdata, happroved, rfl⟩⟩
    · exact Or.inr ⟨rfl, Or.inr ⟨fun h => hnot h.2, rfl⟩⟩
    · exact Or.inl (fullGasFailure_unknownResult opts)
    · exact Or.inr ⟨rfl, Or.inr ⟨fun h => hdata h.1, rfl⟩⟩
  · by_cases hdata : BatchCalldata data
    · rw [batchArguments_of_batchCalldata hdata] at h
      cases h
    · obtain hnone | ⟨e, he, hheader⟩ := batchArguments_of_not_batchCalldata hdata
      · rw [hnone] at h
        cases h
      · rw [he] at h
        exact hheader (Except.error.inj h)
  · by_cases hdata : MultiCalldata data
    · rw [multiArguments_of_multiCalldata crypto hdata] at h
      cases h
    · obtain hnone | ⟨e, he, hheader⟩ := multiArguments_of_not_multiCalldata crypto hdata
      · rw [hnone] at h
        cases h
      · rw [he] at h
        exact hheader (Except.error.inj h)

/-- The 32 bytes of a number. -/
def sampleWord (n : ℕ) : Bytes := (List.range 32).map fun i => UInt8.ofNat (n / 256 ^ (31 - i))

/-- An account, two signers, and data to be signed for permission 2 of the account. -/
def sampleOwner : Bytes := (sampleWord 0x6813eb9362372eef6200f3b1dbc3f819671cba69).drop 12

/-- The address of the first key. -/
def sampleFirst : Bytes := (sampleWord 0x7e5f4552091a69125d5dfcb7b8c2659029395bdf).drop 12

/-- The address of the second key. -/
def sampleSecond : Bytes := (sampleWord 0x2b5ad5c4795c026514f8317c7a215e218dccd6cf).drop 12

/-- The hash that is signed. -/
def sampleData : Bytes :=
  sampleWord 0x9f86d081884c7d659a2feaa0c55ad015a3bf4f1b2b0b822cd15d6c15b0f00a08

/-- The digest of what is signed, and the public keys which the two signatures give. -/
def sampleHash : Bytes :=
  sampleWord 0x7a06fbbb7599240f9f6921e8a7321d195e8bb1b4e0190e5bf08c553f18a9f8c4

/-- The public key of the private key one. -/
def sampleFirstKey : Bytes :=
  sampleWord 0x79be667ef9dcbbac55a06295ce870b07029bfcdb2dce28d959f2815b16f81798 ++
    sampleWord 0x483ada7726a3c4655da4fbfc0e1108a8fd17b448a68554199c47d08ffb10d4b8

/-- The public key of the private key two. -/
def sampleSecondKey : Bytes :=
  sampleWord 0xc6047f9441ed7d6d3045406e95c07cd85c778e4b8cef3ca7abac09b95c709ee5 ++
    sampleWord 0x1ae168fea63dc339a3c58419466ceaeef7f632653266d0e1236431a950cfe52a

/-- The two signatures. -/
def sampleSignature : ℕ → List ℕ
  | 0 => [0xf01d6b9018ab421dd410404cb869072065522bf85734008f105cf385a023a80f,
      0x7d6e2c691c4620a1c998dd472fb00bb60bc7c62825eed9fb95ea28611ced2dc7, 0x1b * 256 ^ 31]
  | _ => [0x54006a630e70fca8d45a696d7dba3a1cb7d81cc830cfce3be0f634373aac3f0a,
      0x27ff165c90572bf2c44da5e2ace2a169026c9531c7f93ddc2e66426699d3bd2c, 0x1c * 256 ^ 31]

/-- The functions of the cryptography library on what the sample hashes and recovers. -/
def sampleCrypto : Crypto where
  sha256 b := if b = 0x41 :: sampleOwner ++ [0, 0, 0, 2] ++ sampleData then sampleHash else []
  ecrecover hash v r s :=
    if hash ≠ sampleHash then none
    else if [BigEndian.value r, BigEndian.value s, v * 256 ^ 31] = sampleSignature 0 then
      some sampleFirstKey
    else if [BigEndian.value r, BigEndian.value s, v * 256 ^ 31] = sampleSignature 1 then
      some sampleSecondKey
    else none
  publicToAddress key :=
    if key = sampleFirstKey then some sampleFirst
    else if key = sampleSecondKey then some sampleSecond
    else none

/-- Calldata with both signatures, whose length words hold a number. -/
def sampleWords (lengthWord : ℕ) : List ℕ :=
  [BigEndian.value sampleOwner, 2, BigEndian.value sampleData, 128, 2, 64, 192, lengthWord] ++
    sampleSignature 0 ++ [lengthWord] ++ sampleSignature 1

/-- A call of the multi-signature check with two signatures. -/
def sampleMulti (lengthWord : ℕ) : PrecompileInput where
  data := (sampleWords lengthWord).flatMap sampleWord
  gasLimit := 10000
  common :=
    { isActivatedEIP := fun _ => false
      isActivatedProposal := fun _ => false
      param := fun _ => 1500 }

/-- A permission which both signers are keys of, the second one with a given weight. -/
def samplePermission (weight : ℤ) : Permission where
  type := PermissionType.Active
  id := 2
  permissionName := []
  threshold := 1
  parentId := 0
  operations := .bytes []
  keys := [⟨sampleFirst, 1⟩, ⟨sampleSecond, weight⟩]

/-- What a precompile returns where it succeeds. -/
def returned : Except Abort ExecResult × List (Bytes × Bytes) → Option Bytes
  | (.ok r, _) => if r.exceptionError = none then some r.returnValue else none
  | (.error _, _) => none

private theorem returned_precompile0a (getAccount : GetAccount) {opts : PrecompileInput}
    (hadmitted : ¬ Refused opts 5
      (multiCharged opts.data * opts.common.param "validatemultisignGas"))
    (hdata : MultiCalldata opts.data) {ps : List Permission} {permission : Permission}
    (haccount : getAccount (multiOf crypto opts.data).addr = .ok (some (some ps)))
    (hpermission : getPermissionById ps (multiOf crypto opts.data).permissionId = some permission) :
    Permits permission (multiSigners crypto opts.data) ∧
        returned ((precompile0a crypto getAccount opts).run []) = some oneWord ∨
      ¬ Permits permission (multiSigners crypto opts.data) ∧
        returned ((precompile0a crypto getAccount opts).run []) = some zeroWord := by
  obtain ⟨r, recoveries, hrun, hcases⟩ := precompile0a_cases crypto getAccount opts []
  rw [hrun, ← approved_iff crypto haccount hpermission]
  obtain ⟨hrefused, -⟩ | ⟨-, ⟨-, -, ⟨happroved, rfl⟩ | ⟨hnot, rfl⟩⟩ |
    ⟨-, hbad | ⟨e, he⟩, -⟩⟩ := hcases
  · exact absurd hrefused hadmitted
  · exact Or.inl ⟨happroved, rfl⟩
  · exact Or.inr ⟨hnot, rfl⟩
  · exact absurd hdata hbad
  · rw [haccount] at he
    cases he

section Sample

variable {lengthWord : ℕ} (h : lengthWord ∈ [0, 65])

include h

private theorem word_sample {i n : ℕ} (hi : (sampleWords lengthWord)[i]? = some n) :
    word (sampleMulti lengthWord).data i = sampleWord n := by
  have hparse : ∀ lengthWord ∈ [0, 65], parseArray (sampleMulti lengthWord).data =
      (sampleWords lengthWord).map sampleWord := by decide +kernel
  have hget : (parseArray (sampleMulti lengthWord).data)[i]? = some (sampleWord n) := by
    rw [hparse lengthWord h, List.getElem?_map, hi, Option.map_some]
  exact word_eq hget

private theorem number_sample {i n : ℕ} (hi : (sampleWords lengthWord)[i]? = some n) :
    number (sampleMulti lengthWord).data i = BigEndian.value (sampleWord n) := by
  rw [number, word_sample h hi]

private theorem length_sample : (sampleMulti lengthWord).data.length = 480 := by
  have hlength : ∀ lengthWord ∈ [0, 65], (sampleMulti lengthWord).data.length = 480 := by
    decide +kernel
  exact hlength lengthWord h

/-- The numbers in the words of the sample. -/
private theorem numbers_sample : number (sampleMulti lengthWord).data 1 = 2 ∧
    number (sampleMulti lengthWord).data 3 = 128 ∧ number (sampleMulti lengthWord).data 4 = 2 ∧
    number (sampleMulti lengthWord).data 5 = 64 ∧ number (sampleMulti lengthWord).data 6 = 192 := by
  refine ⟨(number_sample h rfl).trans ?_, (number_sample h rfl).trans ?_,
    (number_sample h rfl).trans ?_, (number_sample h rfl).trans ?_,
    (number_sample h rfl).trans ?_⟩ <;> decide

/-- The sample is not malformed, whatever its length words hold. -/
private theorem multiCalldata_sample : MultiCalldata (sampleMulti lengthWord).data := by
  obtain ⟨h1, h3, h4, h5, h6⟩ := numbers_sample h
  have hlength := length_sample h
  generalize (sampleMulti lengthWord).data = data at *
  have hwords : wordCount data = 15 := by rw [wordCount, hlength]; rfl
  have harray : arrayOffset data 3 = 4 := by rw [arrayOffset, h3]; rfl
  have hcount : arrayCount data 3 = 2 := by rw [arrayCount, harray, h4]
  have hoffsets : ∀ i < 2, IsOffset data (4 + i + 1) ∧
      4 + arrayOffset data (4 + i + 1) + 1 < wordCount data := by
    intro i hi
    obtain rfl | rfl : i = 0 ∨ i = 1 := by omega
    · exact ⟨⟨by rw [h5]; decide, by rw [h5]; rfl⟩, by rw [arrayOffset, h5, hwords]; decide⟩
    · exact ⟨⟨by rw [h6]; decide, by rw [h6]; rfl⟩, by rw [arrayOffset, h6, hwords]; decide⟩
  refine ⟨by omega, by rw [h1]; decide, ⟨by rw [h3]; decide, by rw [h3]; rfl⟩,
    by rw [hcount]; decide, by rw [hcount]; decide, ?_⟩
  rw [harray, hcount]
  exact ⟨by rw [hwords]; decide, fun i hi => (hoffsets i hi).1, fun i hi => (hoffsets i hi).2⟩

/-- The signatures of the sample. -/
private theorem signature_sample : ∀ i < 2, signature (sampleMulti lengthWord).data 4 i =
    ((sampleSignature i).flatMap sampleWord).take SIGNATURE_LENGTH := by
  obtain ⟨-, -, -, h5, h6⟩ := numbers_sample h
  have hlength := length_sample h
  have hread : ∀ lengthWord ∈ [0, 65], ∀ i < 2,
      ((sampleMulti lengthWord).data.take (256 + 128 * i + SIGNATURE_LENGTH)).drop (256 + 128 * i) =
        ((sampleSignature i).flatMap sampleWord).take SIGNATURE_LENGTH := by decide
  intro i hi
  rw [← hread lengthWord h i hi, BigEndian.take_drop_eq_window (by
    rw [hlength, SIGNATURE_LENGTH]
    omega), signature, arrayOffset]
  obtain rfl | rfl : i = 0 ∨ i = 1 := by omega
  · rw [h5]
    rfl
  · rw [h6]
    rfl

private theorem multiSigners_sample :
    multiSigners sampleCrypto (sampleMulti lengthWord).data = [sampleFirst, sampleSecond] := by
  obtain ⟨h1, h3, h4, -, -⟩ := numbers_sample h
  have hsignature := signature_sample h
  have hlength := length_sample h
  have haddr : getLast20Bytes (word (sampleMulti lengthWord).data 0) = sampleOwner := by
    rw [word_sample h rfl]
    decide
  have hdata : word (sampleMulti lengthWord).data 2 = sampleData := by
    rw [word_sample h rfl]
    decide
  generalize (sampleMulti lengthWord).data = data at *
  have harray : arrayOffset data 3 = 4 := by rw [arrayOffset, h3]; rfl
  have hcount : arrayCount data 3 = 2 := by rw [arrayCount, harray, h4]
  have hhash : (multiOf sampleCrypto data).hash = sampleHash := by
    change sampleCrypto.sha256 (0x41 :: getLast20Bytes (word data 0) ++ idBytes (number data 1) ++
      word data 2) = _
    rw [haddr, h1, hdata]
    decide
  have hsigners : ∀ i < 2, signer sampleCrypto sampleHash
      (((sampleSignature i).flatMap sampleWord).take SIGNATURE_LENGTH) =
        [sampleFirst, sampleSecond].getD i [] := by decide
  rw [multiSigners, hhash]
  change ((List.range (arrayCount data 3)).map (signature data (arrayOffset data 3))).map _ = _
  rw [harray, hcount]
  change [signer sampleCrypto sampleHash (signature data 4 0),
    signer sampleCrypto sampleHash (signature data 4 1)] = _
  rw [hsignature 0 (by decide), hsignature 1 (by decide), hsigners 0 (by decide),
    hsigners 1 (by decide)]
  rfl

end Sample

/-- Both signers are keys of the permission, and their weights reach the threshold; but a key of no
weight takes the approval back.  And signatures whose length words hold zero are approved. -/
theorem precompile0a_weightless :
    (getPermissionById [samplePermission 0] 2 = some (samplePermission 0) ∧
      (∀ s ∈ multiSigners sampleCrypto (sampleMulti 65).data,
        ∃ key ∈ (samplePermission 0).keys, equalAddressByteArray key.address s) ∧
      (samplePermission 0).threshold ≤
        ∑ s ∈ (multiSigners sampleCrypto (sampleMulti 65).data).toFinset,
          getWeight (samplePermission 0).keys s ∧
      returned ((precompile0a sampleCrypto (fun _ => .ok (some (some [samplePermission 0])))
        (sampleMulti 65)).run []) = some zeroWord) ∧
    number (sampleMulti 0).data 7 = 0 ∧
      returned ((precompile0a sampleCrypto (fun _ => .ok (some (some [samplePermission 1])))
        (sampleMulti 0)).run []) = some oneWord := by
  have h0 : 0 ∈ [0, 65] := by decide
  have h65 : 65 ∈ [0, 65] := by decide
  have hadmitted : ∀ lengthWord ∈ [0, 65], ¬ Refused (sampleMulti lengthWord) 5
      (multiCharged (sampleMulti lengthWord).data *
        (sampleMulti lengthWord).common.param "validatemultisignGas") := by
    rintro lengthWord h (⟨hosaka, -⟩ | hgas)
    · cases hosaka
    · rw [multiCharged, length_sample h] at hgas
      exact absurd hgas (by change ¬ (10000 : ℤ) < ((480 / 32 - 5) / 5 * 1500 : ℕ); decide)
  have hpermission : ∀ lengthWord ∈ [0, 65], ∀ weight, getPermissionById [samplePermission weight]
      (multiOf sampleCrypto (sampleMulti lengthWord).data).permissionId =
        some (samplePermission weight) := by
    intro lengthWord h weight
    change getPermissionById _ (number (sampleMulti lengthWord).data 1) = _
    rw [(numbers_sample h).1]
    rfl
  refine ⟨⟨rfl, ?_, ?_, ?_⟩, ?_, ?_⟩
  · rw [multiSigners_sample h65]
    decide
  · rw [multiSigners_sample h65]
    decide
  · obtain ⟨hpermits, -⟩ | ⟨-, hzero⟩ := returned_precompile0a sampleCrypto
      (fun _ => .ok (some (some [samplePermission 0]))) (hadmitted 65 h65)
        (multiCalldata_sample h65) rfl
      (hpermission 65 h65 0)
    · rw [multiSigners_sample h65] at hpermits
      exact absurd hpermits.1 (by decide)
    · exact hzero
  · exact (number_sample h0 rfl).trans (by decide)
  · obtain ⟨-, hone⟩ | ⟨hnot, -⟩ := returned_precompile0a sampleCrypto
      (fun _ => .ok (some (some [samplePermission 1]))) (hadmitted 0 h0)
        (multiCalldata_sample h0) rfl
      (hpermission 0 h0 1)
    · exact hone
    · rw [multiSigners_sample h0] at hnot
      exact absurd ⟨by decide, by decide⟩ hnot

/-! ### What they cost -/

/-- Parts of the calldata, by their first word and their number of words, which lie inside and do
not overlap. -/
structure Separate (words : ℕ) (parts : List (ℕ × ℕ)) : Prop where
  inside : ∀ p ∈ parts, p.1 + p.2 ≤ words
  disjoint : parts.Pairwise fun p q => p.1 + p.2 ≤ q.1 ∨ q.1 + q.2 ≤ p.1

/-- The words of some parts. -/
def cover (parts : List (ℕ × ℕ)) : Finset ℕ :=
  parts.foldr (fun p words => Finset.Ico p.1 (p.1 + p.2) ∪ words) ∅

private theorem mem_cover {parts : List (ℕ × ℕ)} {i : ℕ} :
    i ∈ cover parts ↔ ∃ p ∈ parts, p.1 ≤ i ∧ i < p.1 + p.2 := by
  induction parts with
  | nil => simp [cover]
  | cons p parts ih =>
    have hcons : cover (p :: parts) = Finset.Ico p.1 (p.1 + p.2) ∪ cover parts := rfl
    rw [hcons, Finset.mem_union, Finset.mem_Ico, ih]
    simp

/-- Parts which do not overlap are together no longer than what they lie in. -/
private theorem Separate.sum_le {words : ℕ} {parts : List (ℕ × ℕ)} (h : Separate words parts) :
    (parts.map Prod.snd).sum ≤ words := by
  have hcard : (cover parts).card = (parts.map Prod.snd).sum := by
    have hdisjoint := h.disjoint
    clear h
    induction parts with
    | nil => rfl
    | cons p parts ih =>
      obtain ⟨hp, hparts⟩ := List.pairwise_cons.1 hdisjoint
      have hcons : cover (p :: parts) = Finset.Ico p.1 (p.1 + p.2) ∪ cover parts := rfl
      rw [hcons, Finset.card_union_of_disjoint, ih hparts, Nat.card_Ico, List.map_cons,
        List.sum_cons, Nat.add_sub_cancel_left]
      rw [Finset.disjoint_left]
      intro i hi hi'
      obtain ⟨q, hq, hle, hlt⟩ := mem_cover.1 hi'
      have hpq := hp q hq
      rw [Finset.mem_Ico] at hi
      omega
  rw [← hcard, ← Finset.card_range words]
  refine Finset.card_le_card fun i hi => ?_
  obtain ⟨p, hp, -, hlt⟩ := mem_cover.1 hi
  exact Finset.mem_range.2 (hlt.trans_le (h.inside p hp))

/-- The words of the signatures of an array, each with its length word. -/
def signatureParts (data : Bytes) (offset count : ℕ) : List (ℕ × ℕ) :=
  (List.range count).map fun i => (offset + arrayOffset data (offset + i + 1) + 1, 4)

/-- The parts of the calldata of precompile 09: the header, the two arrays and the signatures. -/
def batchParts (data : Bytes) : List (ℕ × ℕ) :=
  (0, 3) :: (arrayOffset data 1, 1 + arrayCount data 1) ::
    (arrayOffset data 2, 1 + arrayCount data 2) ::
      signatureParts data (arrayOffset data 1) (arrayCount data 1)

/-- The parts of the calldata of precompile 0a. -/
def multiParts (data : Bytes) : List (ℕ × ℕ) :=
  (0, 4) :: (arrayOffset data 3, 1 + arrayCount data 3) ::
    signatureParts data (arrayOffset data 3) (arrayCount data 3)

private theorem sum_signatureParts (data : Bytes) (offset count : ℕ) :
    ((signatureParts data offset count).map Prod.snd).sum = 4 * count := by
  rw [signatureParts, List.map_map]
  change ((List.range count).map fun _ => 4).sum = 4 * count
  rw [List.map_const', List.sum_replicate_nat, List.length_range, Nat.mul_comm]

private theorem le_batchCharged {data : Bytes} (h : BatchCalldata data)
    (hparts : Separate (wordCount data) (batchParts data)) :
    arrayCount data 1 ≤ batchCharged data := by
  have hsum := hparts.sum_le
  have hsame := h.same
  rw [batchParts, List.map_cons, List.map_cons, List.map_cons, List.sum_cons, List.sum_cons,
    List.sum_cons, sum_signatureParts] at hsum
  change arrayCount data 1 ≤ (wordCount data - 5) / 6
  omega

private theorem le_multiCharged {data : Bytes}
    (hparts : Separate (wordCount data) (multiParts data)) :
    arrayCount data 3 ≤ multiCharged data := by
  have hsum := hparts.sum_le
  rw [multiParts, List.map_cons, List.map_cons, List.sum_cons, List.sum_cons,
    sum_signatureParts] at hsum
  change arrayCount data 3 ≤ (wordCount data - 5) / 5
  omega

/-- **Recoveries are paid for.**  Where the header, the arrays and the signatures of the calldata do
not overlap and lie inside it, every recovery is within the gas used; and however they overlap,
precompile 09 makes at most 16 recoveries and precompile 0a at most 5. -/
theorem signaturePrecompiles_paid :
    (∀ opts : PrecompileInput, 0 ≤ opts.gasLimit →
      ∃ r log, (precompile09 crypto opts).run [] = (.ok r, log) ∧ log.length ≤ 16 ∧
        ((BatchCalldata opts.data → Separate (wordCount opts.data) (batchParts opts.data)) →
          (log.length * opts.common.param "batchvalidatesignGas" : ℕ) ≤ r.executionGasUsed)) ∧
    (∀ (getAccount : GetAccount) (opts : PrecompileInput), 0 ≤ opts.gasLimit →
      ∃ r log, (precompile0a crypto getAccount opts).run [] = (.ok r, log) ∧ log.length ≤ 5 ∧
        ((MultiCalldata opts.data → Separate (wordCount opts.data) (multiParts opts.data)) →
          (log.length * opts.common.param "validatemultisignGas" : ℕ) ≤ r.executionGasUsed)) := by
  have hnothing : ∀ (price : ℕ) {gas : ℤ}, 0 ≤ gas →
      (([] : List (Bytes × Bytes)).length * price : ℕ) ≤ gas := by
    intro price gas hgas
    rwa [List.length_nil, Nat.zero_mul]
  constructor
  · intro opts hlimit
    obtain ⟨r, log, hrun, hcases⟩ := precompile09_cases crypto opts []
    refine ⟨r, log, hrun, ?_⟩
    obtain ⟨-, rfl, rfl⟩ | ⟨-, ⟨hdata, rfl, rfl⟩ | ⟨-, rfl, rfl | rfl⟩⟩ := hcases
    · exact ⟨Nat.zero_le _, fun _ => hnothing _ hlimit⟩
    · rw [List.append_nil, length_batchRecoveries]
      refine ⟨hdata.count_le, fun hparts => ?_⟩
      exact Int.ofNat_le.2 (Nat.mul_le_mul_right _ (le_batchCharged hdata (hparts hdata)))
    · exact ⟨Nat.zero_le _, fun _ => hnothing _ hlimit⟩
    · exact ⟨Nat.zero_le _, fun _ => hnothing _ (Int.natCast_nonneg _)⟩
  · intro getAccount opts hlimit
    obtain ⟨r, recoveries, hrun, hcases⟩ := precompile0a_cases crypto getAccount opts []
    rw [List.append_nil] at hrun
    refine ⟨r, recoveries, hrun, ?_⟩
    obtain ⟨-, rfl, rfl⟩ | ⟨-, ⟨hdata, hle, hresult⟩ | ⟨rfl, -, rfl | ⟨-, rfl⟩⟩⟩ := hcases
    · exact ⟨Nat.zero_le _, fun _ => hnothing _ hlimit⟩
    · refine ⟨hle.trans hdata.count_le, fun hparts => ?_⟩
      have hcharged := hle.trans (le_multiCharged (hparts hdata))
      have hgas : r.executionGasUsed =
          (multiCharged opts.data * opts.common.param "validatemultisignGas" : ℕ) := by
        obtain ⟨-, rfl⟩ | ⟨-, rfl⟩ := hresult <;> rfl
      rw [hgas]
      exact Int.ofNat_le.2 (Nat.mul_le_mul_right _ hcharged)
    · exact ⟨Nat.zero_le _, fun _ => hnothing _ hlimit⟩
    · exact ⟨Nat.zero_le _, fun _ => hnothing _ (Int.natCast_nonneg _)⟩

/-- The parts of the sample lie side by side. -/
private theorem separate_sample {lengthWord : ℕ} (h : lengthWord ∈ [0, 65]) :
    Separate (wordCount (sampleMulti lengthWord).data)
      (multiParts (sampleMulti lengthWord).data) := by
  obtain ⟨-, h3, h4, h5, h6⟩ := numbers_sample h
  have hlength := length_sample h
  generalize (sampleMulti lengthWord).data = data at *
  have hwords : wordCount data = 15 := by rw [wordCount, hlength]; rfl
  have harray : arrayOffset data 3 = 4 := by rw [arrayOffset, h3]; rfl
  have hcount : arrayCount data 3 = 2 := by rw [arrayCount, harray, h4]
  have hfirst : arrayOffset data 5 = 2 := by rw [arrayOffset, h5]; rfl
  have hsecond : arrayOffset data 6 = 6 := by rw [arrayOffset, h6]; rfl
  have hparts : multiParts data = [(0, 4), (4, 3), (7, 4), (11, 4)] := by
    rw [multiParts, harray, hcount]
    change [(0, 4), (4, 3), (4 + arrayOffset data 5 + 1, 4), (4 + arrayOffset data 6 + 1, 4)] = _
    rw [hfirst, hsecond]
  rw [hwords, hparts]
  exact ⟨by decide, by decide⟩

/-- What is recovered for the sample is paid. -/
theorem signaturePrecompiles_paid_sample : ∃ r log,
    (precompile0a sampleCrypto (fun _ => .ok (some (some [samplePermission 1])))
      (sampleMulti 65)).run [] = (.ok r, log) ∧
    log.length ≤ 5 ∧ (log.length * 1500 : ℕ) ≤ r.executionGasUsed := by
  obtain ⟨r, log, hrun, hle, hpaid⟩ := (signaturePrecompiles_paid sampleCrypto).2
    (fun _ => .ok (some (some [samplePermission 1]))) (sampleMulti 65) (by decide)
  exact ⟨r, log, hrun, hle, hpaid fun _ => separate_sample (by decide)⟩

/-- Eleven words, of which the first says 10 and is where both arrays begin. -/
def sampleAliased : PrecompileInput where
  data := (10 :: List.replicate 10 0).flatMap sampleWord
  gasLimit := 100000
  common :=
    { isActivatedEIP := fun _ => false
      isActivatedProposal := fun _ => false
      param := fun _ => 1500 }

/-- Ten signatures are recovered from calldata which is charged for one. -/
theorem precompile09_aliased :
    returned ((precompile09 sampleCrypto sampleAliased).run []) = some zeroWord ∧
      ((precompile09 sampleCrypto sampleAliased).run []).2.length = 10 ∧
      batchCharged sampleAliased.data = 1 := by
  refine ⟨?_, ?_, ?_⟩ <;> decide +kernel

end Precompile

end Tvmjs
