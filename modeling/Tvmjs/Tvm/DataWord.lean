import Tvmjs.Base.Prog
import Tvmjs.Tvm.Precompile

/-!
# Calldata in words

How the signature precompiles take their arguments out of untrusted calldata.

* `parseArray`, `intValueSafe` -- the words of the calldata, and their values;
* `extractArrayLength`, `extractBytes32Array`, `extractSigArray` -- arrays behind an offset;
* `SigArray` -- what an array of signatures looks like;
* `extractSigArray_of_sigArray`, `extractSigArray_of_not_sigArray` -- exactly these are extracted.
-/

namespace Tvmjs

namespace Precompile

open Interpreter (subarray)

/-- What is thrown while arguments are read. -/
inductive Abort where
  /-- A word is used which is not there. -/
  | undefinedWord
  /-- DataWord value does not fit in a safe integer. -/
  | unsafeInteger
  /-- ABI array offset is not word-aligned. -/
  | unalignedOffset
  /-- ABI array elements exceed calldata bounds. -/
  | arrayBounds
  /-- ABI signature offset exceeds calldata bounds. -/
  | signatureBounds
  /-- The state manager throws. -/
  | state
deriving DecidableEq, Repr

/-! ### Words -/

/-- `DataWord.WORD_SIZE` -/
def WORD_SIZE : ℕ := 32

/-- `DataWord.parseArray(data)`: the whole words of the calldata. -/
def parseArray (data : Bytes) : List Bytes :=
  (List.range (data.length / WORD_SIZE)).map fun i =>
    Interpreter.setLengthRight (subarray data (i * WORD_SIZE) (i * WORD_SIZE + WORD_SIZE)) WORD_SIZE

/-- `words[i]`, of which something is asked. -/
def wordAt (words : List Bytes) (i : ℕ) : Except Abort Bytes :=
  match words[i]? with
  | some word => .ok word
  | none => .error .undefinedWord

/-- The wrap of `<<` to 32 bits with a sign. -/
def toInt32 (n : ℤ) : ℤ := n.bmod (2 ^ 32)

/-- `intValue()` -/
def intValue (word : Bytes) : ℤ :=
  word.foldl (fun intVal ele => toInt32 (intVal * 256) + ele.toNat) 0

/-- The bytes from the first one on which is not zero. -/
def bytesOccupied (word : Bytes) : ℕ :=
  match word.findIdx? (· ≠ 0) with
  | some firstNonZero => WORD_SIZE - firstNonZero
  | none => 0

/-- `intValueSafe()` -/
def intValueSafe (word : Bytes) : Except Abort ℕ :=
  if bytesOccupied word > 4 ∨ intValue word < 0 then .error .unsafeInteger
  else .ok (intValue word).toNat

/-- `equalAddressByteArray(arr1, arr2)`: the last 20 bytes are equal. -/
def equalAddressByteArray (arr1 arr2 : Bytes) : Bool :=
  if arr1.length < 20 ∨ arr2.length < 20 then false
  else arr1.drop (arr1.length - 20) = arr2.drop (arr2.length - 20)

/-! ### Arrays -/

/-- `n / WORD_SIZE`, where that is an integer. -/
def wordOffset (n : ℕ) : Option ℕ := if n % WORD_SIZE = 0 then some (n / WORD_SIZE) else none

/-- `assertArrayElementsAvailable(words, offset, count)`, with the offset it finds to be an
integer. -/
def assertArrayElementsAvailable (words : List Bytes) (offset : Option ℕ) (count : ℕ) :
    Except Abort ℕ :=
  match offset with
  | none => .error .arrayBounds
  | some offset =>
    if offset ≥ words.length ∨ count > words.length - offset - 1 then .error .arrayBounds
    else .ok offset

/-- `extractArrayLength(words, offset)` -/
def extractArrayLength (words : List Bytes) (offset : Option ℕ) : Except Abort ℕ :=
  match offset with
  | none => .error .unalignedOffset
  | some offset =>
    if offset ≥ words.length then .ok 0
    else do
      let word ← wordAt words offset
      intValueSafe word

/-- The array whose offset is in `words[i]`: the offset in words, and the length. -/
def arrayHeader (words : List Bytes) (i : ℕ) : Except Abort (Option ℕ × ℕ) := do
  let word ← wordAt words i
  let bytesOffset ← intValueSafe word
  let offset := wordOffset bytesOffset
  let count ← extractArrayLength words offset
  return (offset, count)

/-- `extractBytes32Array(words, offset, count)` -/
def extractBytes32Array (words : List Bytes) (offset : Option ℕ) (count : ℕ) :
    Except Abort (List Bytes) :=
  if count = 0 then .ok []
  else do
    let offset ← assertArrayElementsAvailable words offset count
    (List.range count).mapM fun i => wordAt words (offset + i + 1)

/-- The bytes of a signature. -/
def SIGNATURE_LENGTH : ℕ := 65

/-- Signature `i` of an array. -/
def extractSig (words : List Bytes) (offset : ℕ) (data : Bytes) (i : ℕ) : Except Abort Bytes := do
  let word ← wordAt words (offset + i + 1)
  let bytesOffset ← intValueSafe word
  match wordOffset bytesOffset with
  | none => .error .signatureBounds
  | some bytesOffset =>
    if offset + bytesOffset + 1 ≥ words.length then .error .signatureBounds
    else
      let start := (bytesOffset + offset + 2) * WORD_SIZE
      return Interpreter.setLengthRight (subarray data start (start + SIGNATURE_LENGTH))
        SIGNATURE_LENGTH

/-- `extractSigArray(words, offset, count, data)` -/
def extractSigArray (words : List Bytes) (offset : Option ℕ) (count : ℕ) (data : Bytes) :
    Except Abort (List Bytes) :=
  if count = 0 then .ok []
  else do
    let offset ← assertArrayElementsAvailable words offset count
    (List.range count).mapM (extractSig words offset data)

/-! ### The value of a word -/

private theorem bytesOccupied_eq {word : Bytes} (h : word.length = WORD_SIZE) :
    bytesOccupied word = (word.dropWhile (· = 0)).length := by
  have hfind : ∀ w : Bytes, (match w.findIdx? (· ≠ 0) with
      | some i => w.length - i
      | none => 0) = (w.dropWhile (· = 0)).length := by
    intro w
    induction w with
    | nil => rfl
    | cons x w ih =>
      by_cases hx : x = 0
      · subst hx
        rw [List.dropWhile_cons_of_pos (by simp), ← ih, List.findIdx?_cons,
          show decide ((0 : UInt8) ≠ 0) = false from rfl]
        generalize w.findIdx? (fun x => decide (x ≠ 0)) = first
        rcases first with _ | i
        · rfl
        · exact Nat.succ_sub_succ w.length i
      · rw [List.dropWhile_cons_of_neg (by simpa using hx), List.findIdx?_cons]
        simp [hx]
  rw [bytesOccupied, ← hfind, h]

/-- The value is that of the bytes occupied. -/
private theorem value_dropWhile (word : Bytes) :
    BigEndian.value (word.dropWhile (· = 0)) = BigEndian.value word := by
  induction word with
  | nil => rfl
  | cons x word ih =>
    by_cases hx : x = 0
    · subst hx
      rw [List.dropWhile_cons_of_pos (by simp), ih, BigEndian.value_cons]
      simp
    · rw [List.dropWhile_cons_of_neg (by simpa using hx)]

/-- The loop holds the value of what it has read, wrapped to 32 bits. -/
private theorem intValue_eq (word : Bytes) : intValue word = toInt32 (BigEndian.value word) := by
  induction word using List.reverseRecOn with
  | nil => rfl
  | append_singleton word x ih =>
    have hx : x.toNat < 256 := x.toNat_lt
    have hvalue : BigEndian.value (word ++ [x]) = BigEndian.value word * 256 + x.toNat := by
      rw [BigEndian.value_append]
      simp [BigEndian.value]
    have hstep : intValue (word ++ [x]) = toInt32 (intValue word * 256) + x.toNat := by
      rw [intValue, List.foldl_append]
      rfl
    rw [hstep, ih, hvalue]
    push_cast
    generalize (BigEndian.value word : ℤ) = v
    -- a multiple of 256 has room for one more byte
    simp only [toInt32, Int.bmod_def]
    omega

/-- The upper half of the 32-bit numbers is negative. -/
private theorem toInt32_natCast {v : ℕ} (h : v < 2 ^ 32) :
    toInt32 v = if v < 2 ^ 31 then (v : ℤ) else v - 2 ^ 32 := by
  rw [toInt32, Int.bmod_def]
  split <;> split <;> omega

/-- The values which are safe are those below 2^31. -/
private theorem intValueSafe_eq {word : Bytes} (h : word.length = WORD_SIZE) :
    intValueSafe word =
      if BigEndian.value word < 2 ^ 31 then .ok (BigEndian.value word)
        else .error .unsafeInteger := by
  have hvalue := value_dropWhile word
  have hlt := BigEndian.value_lt (word.dropWhile (· = 0))
  rw [hvalue] at hlt
  have hoccupied : bytesOccupied word > 4 → 2 ^ 32 ≤ BigEndian.value word := by
    rw [bytesOccupied_eq h]
    intro hlong
    rcases hdrop : word.dropWhile (· = 0) with _ | ⟨x, rest⟩
    · rw [hdrop] at hlong
      exact absurd hlong (by decide)
    · -- the first byte is not zero, and at least four bytes follow
      have hx : x ≠ 0 := by
        have hhead := List.head?_dropWhile_not (fun x : UInt8 => decide (x = 0)) word
        rw [hdrop] at hhead
        simpa using hhead
      have hpos : 1 ≤ x.toNat := Nat.pos_of_ne_zero fun h0 => hx (UInt8.toNat_inj.1 h0)
      rw [hdrop, List.length_cons] at hlong
      have hpow : (256 : ℕ) ^ 4 ≤ 256 ^ rest.length := Nat.pow_le_pow_right (by decide) (by omega)
      have hmul := Nat.mul_le_mul hpos hpow
      rw [← hvalue, hdrop, BigEndian.value_cons]
      calc 2 ^ 32 = 1 * 256 ^ 4 := by norm_num
        _ ≤ x.toNat * 256 ^ rest.length := hmul
        _ ≤ _ := Nat.le_add_right _ _
  have hsmall : ¬ bytesOccupied word > 4 → BigEndian.value word < 2 ^ 32 := by
    rw [bytesOccupied_eq h]
    intro hshort
    exact hlt.trans_le (Nat.pow_le_pow_right (by decide) (not_lt.1 hshort))
  rw [intValueSafe, intValue_eq]
  generalize BigEndian.value word = v at hoccupied hsmall
  by_cases hbytes : bytesOccupied word > 4
  · have hlarge := hoccupied hbytes
    rw [if_pos (Or.inl hbytes), if_neg (by omega)]
  · have hwrap := toInt32_natCast (hsmall hbytes)
    by_cases hv : v < 2 ^ 31
    · rw [if_pos hv] at hwrap
      rw [hwrap, if_neg (by omega), if_pos hv, Int.toNat_natCast]
    · rw [if_neg hv] at hwrap
      rw [hwrap, if_pos (Or.inr (by have := hsmall hbytes; omega)), if_neg hv]

/-! ### What the calldata says -/

section Calldata

variable (data : Bytes)

/-- The number of whole words. -/
def wordCount : ℕ := data.length / WORD_SIZE

/-- Word `i` and its value. -/
def word (i : ℕ) : Bytes := BigEndian.window data (i * WORD_SIZE) WORD_SIZE

/-- The number a word stands for. -/
def number (i : ℕ) : ℕ := BigEndian.value (word data i)

/-- Where the array begins whose offset is in word `i`, and how many elements it says it has. -/
def arrayOffset (i : ℕ) : ℕ := number data i / WORD_SIZE

/-- The number of elements of the array a word points to. -/
def arrayCount (i : ℕ) : ℕ := number data (arrayOffset data i)

/-- Word `i` is the offset of a word. -/
structure IsOffset (i : ℕ) : Prop where
  safe : number data i < 2 ^ 31
  aligned : number data i % WORD_SIZE = 0

/-- Signature `i` of the array of signatures at `offset`: the bytes behind its length word, followed
by zeros where the calldata ends. -/
def signature (offset i : ℕ) : Bytes :=
  BigEndian.window data ((arrayOffset data (offset + i + 1) + offset + 2) * WORD_SIZE)
    SIGNATURE_LENGTH

/-- An array of `count` signatures at `offset`: the offsets of the elements lie inside the calldata,
and so do the words in front of the signatures. -/
structure SigArray (offset count : ℕ) : Prop where
  fits : offset + count < wordCount data
  offsets : ∀ i < count, IsOffset data (offset + i + 1)
  inside : ∀ i < count, offset + arrayOffset data (offset + i + 1) + 1 < wordCount data

@[simp] theorem length_parseArray : (parseArray data).length = wordCount data := by
  rw [parseArray, List.length_map, List.length_range]
  rfl

variable {data}

theorem wordAt_of_lt {i : ℕ} (h : i < wordCount data) :
    wordAt (parseArray data) i = .ok (word data i) := by
  have hread : Interpreter.setLengthRight
      (subarray data (i * WORD_SIZE) (i * WORD_SIZE + WORD_SIZE)) WORD_SIZE = word data i :=
    BigEndian.take_drop_append_replicate data (i * WORD_SIZE) WORD_SIZE
  have hget : (parseArray data)[i]? = some (word data i) := by
    rw [parseArray, List.getElem?_map, List.getElem?_range
      (show i < data.length / WORD_SIZE from h),
      Option.map_some, hread]
  rw [wordAt, hget]

theorem word_eq {i : ℕ} {w : Bytes} (h : (parseArray data)[i]? = some w) : word data i = w := by
  have hlt : i < wordCount data := by
    rw [← length_parseArray]
    exact (List.getElem?_eq_some_iff.1 h).1
  have hword := wordAt_of_lt hlt
  rw [wordAt, h] at hword
  exact (Except.ok.inj hword).symm

theorem wordAt_of_ge {i : ℕ} (h : wordCount data ≤ i) :
    wordAt (parseArray data) i = .error .undefinedWord := by
  rw [wordAt, List.getElem?_eq_none (by rwa [length_parseArray])]

theorem intValueSafe_word (i : ℕ) : intValueSafe (word data i) =
    if number data i < 2 ^ 31 then .ok (number data i) else .error .unsafeInteger :=
  intValueSafe_eq (BigEndian.length_window _ _ _)

/-- The offset in word `i`, where that is one. -/
private theorem wordOffset_number {i : ℕ} (h : number data i % WORD_SIZE = 0) :
    wordOffset (number data i) = some (arrayOffset data i) := if_pos h

/-- The length of the array whose offset is in word `i`; there is none behind the calldata. -/
private theorem extractArrayLength_number (i : ℕ) :
    extractArrayLength (parseArray data) (wordOffset (number data i)) =
      if number data i % WORD_SIZE ≠ 0 then .error .unalignedOffset
      else if wordCount data ≤ arrayOffset data i then .ok 0
      else if arrayCount data i < 2 ^ 31 then .ok (arrayCount data i)
      else .error .unsafeInteger := by
  by_cases haligned : number data i % WORD_SIZE = 0
  · rw [wordOffset_number haligned, extractArrayLength, if_neg (not_not.2 haligned),
      length_parseArray]
    by_cases hbehind : wordCount data ≤ arrayOffset data i
    · rw [if_pos hbehind, if_pos hbehind]
    · rw [if_neg hbehind, if_neg hbehind, wordAt_of_lt (not_le.1 hbehind)]
      exact intValueSafe_word _
  · rw [wordOffset, if_neg haligned, extractArrayLength, if_pos haligned]

/-- An array inside the calldata. -/
theorem arrayHeader_of_inside {i : ℕ} (hi : i < wordCount data) (h : IsOffset data i)
    (hinside : arrayOffset data i < wordCount data) (hcount : arrayCount data i < 2 ^ 31) :
    arrayHeader (parseArray data) i = .ok (some (arrayOffset data i), arrayCount data i) := by
  rw [arrayHeader, wordAt_of_lt hi]
  simp only [bind, Except.bind]
  rw [intValueSafe_word, if_pos h.safe]
  dsimp only
  rw [extractArrayLength_number, if_neg (not_not.2 h.aligned), if_neg (not_le.2 hinside),
    if_pos hcount, wordOffset_number h.aligned]
  rfl

/-- What is no such array throws or has no elements, and only word `i` can be one which is not
there. -/
theorem arrayHeader_cases (data : Bytes) (i : ℕ) :
    (∃ e, arrayHeader (parseArray data) i = .error e ∧ (e = .undefinedWord → wordCount data ≤ i)) ∨
      i < wordCount data ∧ IsOffset data i ∧ ∃ count,
        arrayHeader (parseArray data) i = .ok (some (arrayOffset data i), count) ∧
        (count ≠ 0 → count = arrayCount data i ∧ arrayOffset data i < wordCount data) := by
  by_cases hi : i < wordCount data
  · by_cases hsafe : number data i < 2 ^ 31
    · rw [arrayHeader, wordAt_of_lt hi]
      simp only [bind, Except.bind]
      rw [intValueSafe_word, if_pos hsafe]
      dsimp only
      rw [extractArrayLength_number]
      by_cases haligned : number data i % WORD_SIZE = 0
      · rw [if_neg (not_not.2 haligned), wordOffset_number haligned]
        by_cases hbehind : wordCount data ≤ arrayOffset data i
        · rw [if_pos hbehind]
          exact Or.inr ⟨hi, ⟨hsafe, haligned⟩, 0, rfl, fun h => absurd rfl h⟩
        · rw [if_neg hbehind]
          by_cases hcount : arrayCount data i < 2 ^ 31
          · rw [if_pos hcount]
            exact Or.inr ⟨hi, ⟨hsafe, haligned⟩, _, rfl, fun _ => ⟨rfl, not_le.1 hbehind⟩⟩
          · rw [if_neg hcount]
            exact Or.inl ⟨_, rfl, nofun⟩
      · rw [if_pos haligned]
        exact Or.inl ⟨_, rfl, nofun⟩
    · rw [arrayHeader, wordAt_of_lt hi]
      simp only [bind, Except.bind]
      rw [intValueSafe_word, if_neg hsafe]
      exact Or.inl ⟨_, rfl, nofun⟩
  · rw [arrayHeader, wordAt_of_ge (not_lt.1 hi)]
    exact Or.inl ⟨_, rfl, fun _ => not_lt.1 hi⟩

/-! ### Arrays of the calldata -/

section MapM

variable {α β ε : Type} {f : α → Except ε β} {g : α → β}

private theorem mapM_of_ok {l : List α} (h : ∀ a ∈ l, f a = .ok (g a)) :
    l.mapM f = .ok (l.map g) := by
  induction l with
  | nil => rfl
  | cons a l ih =>
    rw [List.mapM_cons, h a List.mem_cons_self, ih fun b hb => h b (List.mem_cons_of_mem _ hb)]
    rfl

/-- The first element which throws throws. -/
private theorem mapM_of_error {l : List α} {e : ε} {P : ε → Prop} {a : α} (ha : a ∈ l)
    (he : f a = .error e)
    (h : ∀ b ∈ l, ∀ e, f b = .error e → P e) : ∃ e, l.mapM f = .error e ∧ P e := by
  induction l with
  | nil => exact absurd ha List.not_mem_nil
  | cons b l ih =>
    rw [List.mapM_cons]
    rcases hb : f b with e' | y
    · exact ⟨e', rfl, h b List.mem_cons_self e' hb⟩
    · have hmem : a ∈ l := by
        obtain rfl | hmem := List.mem_cons.1 ha
        · rw [he] at hb
          cases hb
        · exact hmem
      obtain ⟨e', he', hP⟩ := ih hmem fun b hb => h b (List.mem_cons_of_mem _ hb)
      refine ⟨e', ?_, hP⟩
      rw [he']
      rfl

end MapM

private theorem assertArrayElementsAvailable_of_fits {offset count : ℕ}
    (h : offset + count < wordCount data) :
    assertArrayElementsAvailable (parseArray data) (some offset) count = .ok offset := by
  rw [assertArrayElementsAvailable, length_parseArray, if_neg (by omega)]

private theorem assertArrayElementsAvailable_of_not_fits {offset count : ℕ}
    (h : ¬ offset + count < wordCount data) :
    assertArrayElementsAvailable (parseArray data) (some offset) count = .error .arrayBounds := by
  rw [assertArrayElementsAvailable, length_parseArray, if_pos (by omega)]

theorem extractBytes32Array_of_fits {offset count : ℕ} (hpos : 0 < count)
    (h : offset + count < wordCount data) :
    extractBytes32Array (parseArray data) (some offset) count =
      .ok ((List.range count).map fun i => word data (offset + i + 1)) := by
  rw [extractBytes32Array, if_neg hpos.ne', assertArrayElementsAvailable_of_fits h]
  refine mapM_of_ok fun i hi => wordAt_of_lt ?_
  have hlt := List.mem_range.1 hi
  omega

theorem extractBytes32Array_of_not_fits {offset count : ℕ} (hpos : 0 < count)
    (h : ¬ offset + count < wordCount data) :
    extractBytes32Array (parseArray data) (some offset) count = .error .arrayBounds := by
  rw [extractBytes32Array, if_neg hpos.ne', assertArrayElementsAvailable_of_not_fits h]
  rfl

/-- A signature whose offset lies inside the calldata. -/
private theorem extractSig_of_inside {offset i : ℕ} (hi : offset + i + 1 < wordCount data)
    (hoffset : IsOffset data (offset + i + 1))
    (hinside : offset + arrayOffset data (offset + i + 1) + 1 < wordCount data) :
    extractSig (parseArray data) offset data i = .ok (signature data offset i) := by
  have hread : Interpreter.setLengthRight (subarray data
      ((arrayOffset data (offset + i + 1) + offset + 2) * WORD_SIZE)
      ((arrayOffset data (offset + i + 1) + offset + 2) * WORD_SIZE + SIGNATURE_LENGTH))
      SIGNATURE_LENGTH = signature data offset i := BigEndian.take_drop_append_replicate data _ _
  rw [extractSig, wordAt_of_lt hi]
  simp only [bind, Except.bind]
  rw [intValueSafe_word, if_pos hoffset.safe]
  simp only [wordOffset_number hoffset.aligned, length_parseArray, if_neg (not_le.2 hinside), hread]
  rfl

/-- Any other one throws, and not because a word is not there. -/
private theorem extractSig_of_not_inside {offset i : ℕ} (hi : offset + i + 1 < wordCount data)
    (h : ¬ (IsOffset data (offset + i + 1) ∧
      offset + arrayOffset data (offset + i + 1) + 1 < wordCount data)) :
    ∃ e, extractSig (parseArray data) offset data i = .error e ∧ e ≠ .undefinedWord := by
  rw [extractSig, wordAt_of_lt hi]
  simp only [bind, Except.bind]
  rw [intValueSafe_word]
  by_cases hsafe : number data (offset + i + 1) < 2 ^ 31
  · rw [if_pos hsafe]
    by_cases haligned : number data (offset + i + 1) % WORD_SIZE = 0
    · have houtside : wordCount data ≤ offset + arrayOffset data (offset + i + 1) + 1 :=
        not_lt.1 fun hlt => h ⟨⟨hsafe, haligned⟩, hlt⟩
      simp only [wordOffset_number haligned, length_parseArray, if_pos houtside]
      exact ⟨_, rfl, nofun⟩
    · simp only [wordOffset, if_neg haligned]
      exact ⟨_, rfl, nofun⟩
  · rw [if_neg hsafe]
    exact ⟨_, rfl, nofun⟩

/-- **An array of signatures is extracted.** -/
theorem extractSigArray_of_sigArray {offset count : ℕ} (hpos : 0 < count)
    (h : SigArray data offset count) :
    extractSigArray (parseArray data) (some offset) count data =
      .ok ((List.range count).map (signature data offset)) := by
  rw [extractSigArray, if_neg hpos.ne', assertArrayElementsAvailable_of_fits h.fits]
  refine mapM_of_ok fun i hi => ?_
  have hlt := List.mem_range.1 hi
  have hfits := h.fits
  exact extractSig_of_inside (by omega) (h.offsets i hlt) (h.inside i hlt)

/-- **Nothing else is**, and no word is used which is not there. -/
theorem extractSigArray_of_not_sigArray {offset count : ℕ} (hpos : 0 < count)
    (h : ¬ SigArray data offset count) :
    ∃ e, extractSigArray (parseArray data) (some offset) count data = .error e ∧
      e ≠ .undefinedWord := by
  rw [extractSigArray, if_neg hpos.ne']
  by_cases hfits : offset + count < wordCount data
  · rw [assertArrayElementsAvailable_of_fits hfits]
    obtain ⟨i, hi, hbad⟩ : ∃ i < count, ¬ (IsOffset data (offset + i + 1) ∧
        offset + arrayOffset data (offset + i + 1) + 1 < wordCount data) := by
      by_contra hall
      push Not at hall
      exact h ⟨hfits, fun i hi => (hall i hi).1, fun i hi => (hall i hi).2⟩
    obtain ⟨e, he, -⟩ := extractSig_of_not_inside (by omega) hbad
    refine mapM_of_error (P := (· ≠ Abort.undefinedWord)) (List.mem_range.2 hi) he
      fun j hj e' he' => ?_
    have hlt := List.mem_range.1 hj
    by_cases hgood : IsOffset data (offset + j + 1) ∧
        offset + arrayOffset data (offset + j + 1) + 1 < wordCount data
    · rw [extractSig_of_inside (by omega) hgood.1 hgood.2] at he'
      cases he'
    · have hinside : offset + j + 1 < wordCount data := by omega
      obtain ⟨e'', he'', hne⟩ := extractSig_of_not_inside hinside hgood
      rw [he''] at he'
      cases he'
      exact hne
  · rw [assertArrayElementsAvailable_of_not_fits hfits]
    exact ⟨_, rfl, nofun⟩

end Calldata

end Precompile

end Tvmjs
