import Tvmjs.Base.Utf

/-!
# Text: literals, slices and hex digits of strings

The string functions the sources call on `JSString`s.

* `JSString.ofString` -- a literal, as its UTF-16 code units;
* `JSString.slice`, `JSString.stripHexMark` -- parts of a string;
* `JSString.parseHex` -- `Number.parseInt(text, 16)`, `none` for `NaN`;
* `JSString.hexOf_toDigits` -- the digits a number is printed with spell it;
* `hexOfBytes`, `bytesOfHex` -- byte strings as pairs of digits;
* `parseHex_slice_hexOfBytes` -- the two digits at a byte's place read back the byte.
-/

namespace Tvmjs

namespace JSString

/-- The code units of a literal. -/
def ofString (s : String) : JSString := ofScalars (s.toList.map Char.toNat)

theorem ofString_ofList (l : List Char) :
    ofString (String.ofList l) = ofScalars (l.map Char.toNat) := by
  rw [ofString, String.toList_ofList]

theorem ofString_append (s t : String) : ofString (s ++ t) = ofString s ++ ofString t := by
  rw [ofString, String.toList_append, List.map_append, ofScalars, List.flatMap_append]
  rfl

/-- `text.slice(start, stop)` for places that are not negative. -/
def slice (s : JSString) (start stop : ℕ) : JSString := (s.drop start).take (stop - start)

/-- `text.startsWith(start)`. -/
def startsWith (s start : JSString) : Bool := start.isPrefixOf s

/-- `text.replace(/^0x/i, '')`. -/
def stripHexMark (s : JSString) : JSString :=
  if s.startsWith (ofString "0x") || s.startsWith (ofString "0X") then s.drop 2 else s

/-! ### Hex digits -/

/-- The value of a hex digit, of either case. -/
def digitValue (u : UInt16) : Option ℕ :=
  let n := u.toNat
  if 48 ≤ n ∧ n ≤ 57 then some (n - 48)
  else if 97 ≤ n ∧ n ≤ 102 then some (n - 87)
  else if 65 ≤ n ∧ n ≤ 70 then some (n - 55)
  else none

/-- A hex digit, as the byte printer writes it. -/
def digit (n : ℕ) : UInt16 := UInt16.ofNat (if n < 10 then n + 48 else n + 87)

theorem digitValue_digit : ∀ n < 16, digitValue (digit n) = some n := by decide

/-- The number some digits stand for, most significant first. -/
def digitsValue (ds : List ℕ) : ℕ := ds.foldl (fun n d => 16 * n + d) 0

/-- What `parseInt` skips in front of a number: white space and line ends. -/
def isSpace (u : UInt16) : Bool :=
  let n := u.toNat
  (9 ≤ n ∧ n ≤ 13) ∨ n = 32 ∨ n = 0xa0 ∨ n = 0x1680 ∨ (0x2000 ≤ n ∧ n ≤ 0x200a) ∨ n = 0x2028 ∨
    n = 0x2029 ∨ n = 0x202f ∨ n = 0x205f ∨ n = 0x3000 ∨ n = 0xfeff

/-- The number in front of a text without sign: as many digits as there are. -/
def parseDigits (s : JSString) : Option ℕ :=
  match (s.takeWhile fun u => (digitValue u).isSome).filterMap digitValue with
  | [] => none
  | ds => some (digitsValue ds)

/-- `Number.parseInt(text, 16)`; `NaN` is `none`. -/
def parseHex (s : JSString) : Option ℤ :=
  match s.dropWhile isSpace with
  | [] => none
  | u :: us =>
    if u.toNat = 45 then (parseDigits (stripHexMark us)).map fun n => -(n : ℤ)
    else if u.toNat = 43 then (parseDigits (stripHexMark us)).map Int.ofNat
    else (parseDigits (stripHexMark (u :: us))).map Int.ofNat

/-- Hex digits which spell a number. -/
structure HexOf (n : ℕ) (ds : JSString) : Prop where
  digits : ∀ u ∈ ds, (digitValue u).isSome
  value : digitsValue (ds.filterMap digitValue) = n

theorem HexOf.snoc {n d : ℕ} {ds : JSString} (h : HexOf n ds) (hd : d < 16) :
    HexOf (16 * n + d) (ds ++ [digit d]) := by
  have hdigit := digitValue_digit d hd
  constructor
  · intro u hu
    rcases List.mem_append.1 hu with hu | hu
    · exact h.digits u hu
    · rw [List.mem_singleton.1 hu, hdigit]
      rfl
  · rw [List.filterMap_append, digitsValue, List.foldl_append]
    change List.foldl _ (digitsValue _) _ = _
    rw [h.value, List.filterMap_cons_some hdigit]
    rfl

theorem HexOf.zeros {n : ℕ} {ds : JSString} (h : HexOf n ds) (k : ℕ) :
    HexOf n (List.replicate k (digit 0) ++ ds) := by
  induction k with
  | zero => exact h
  | succ k ih =>
    have hzero : digitValue (digit 0) = some 0 := rfl
    constructor
    · intro u hu
      rcases List.mem_cons.1 hu with rfl | hu
      · rfl
      · exact ih.digits u hu
    · rw [List.replicate_succ, List.cons_append, List.filterMap_cons_some hzero]
      exact ih.value

/-- The digits a number is printed with. -/
theorem hexOf_toDigits (n : ℕ) :
    HexOf n (ofScalars ((Nat.toDigits 16 n).map Char.toNat)) ∧
      (ofScalars ((Nat.toDigits 16 n).map Char.toNat)).length = (Nat.toDigits 16 n).length := by
  have hunits : ∀ d < 16, units (Nat.digitChar d).toNat = [digit d] := by decide
  induction n using Nat.strong_induction_on with
  | h n ih =>
    by_cases hlt : n < 16
    · have hone : ofScalars ((Nat.toDigits 16 n).map Char.toNat) = [] ++ [digit n] := by
        rw [Nat.toDigits_of_lt_base hlt, List.nil_append, ← hunits n hlt]
        exact List.append_nil _
      have hnil : HexOf 0 [] := ⟨nofun, rfl⟩
      have hsnoc := hnil.snoc hlt
      rw [← hone, Nat.mul_zero, Nat.zero_add] at hsnoc
      exact ⟨hsnoc, by rw [hone, Nat.toDigits_of_lt_base hlt]; rfl⟩
    · have hmod : n % 16 < 16 := Nat.mod_lt n (by decide)
      have hmore : ofScalars ((Nat.toDigits 16 n).map Char.toNat) =
          ofScalars ((Nat.toDigits 16 (n / 16)).map Char.toNat) ++ [digit (n % 16)] := by
        rw [Nat.toDigits_of_base_le (by decide) (Nat.le_of_not_lt hlt), List.map_append, ofScalars,
          List.flatMap_append, ← hunits _ hmod]
        exact congrArg _ (List.append_nil _)
      obtain ⟨hhex, hlength⟩ := ih (n / 16) (Nat.div_lt_self (by omega) (by decide))
      have hsnoc := hhex.snoc hmod
      rw [← hmore, Nat.div_add_mod] at hsnoc
      refine ⟨hsnoc, ?_⟩
      rw [hmore, List.length_append, hlength,
        Nat.toDigits_of_base_le (by decide) (Nat.le_of_not_lt hlt), List.length_append]
      rfl

end JSString

/-- The digits of some bytes, two for each. -/
def hexOfBytes (b : List UInt8) : JSString :=
  b.flatMap fun x => [JSString.digit (x.toNat / 16), JSString.digit (x.toNat % 16)]

/-- The bytes of a string of digit pairs. -/
def bytesOfHex : JSString → Option (List UInt8)
  | [] => some []
  | [_] => none
  | u :: v :: s => do
    let high ← JSString.digitValue u
    let low ← JSString.digitValue v
    let rest ← bytesOfHex s
    return UInt8.ofNat (16 * high + low) :: rest

@[simp] theorem length_hexOfBytes (b : List UInt8) : (hexOfBytes b).length = 2 * b.length := by
  induction b with
  | nil => rfl
  | cons x b ih =>
    have hcons : hexOfBytes (x :: b) =
        JSString.digit (x.toNat / 16) :: JSString.digit (x.toNat % 16) :: hexOfBytes b := rfl
    rw [hcons, List.length_cons, List.length_cons, ih, List.length_cons]
    omega

/-- The digits at a byte's place. -/
theorem slice_hexOfBytes (b : List UInt8) (i : ℕ) (hi : i < b.length) :
    (hexOfBytes b).slice (i * 2) (i * 2 + 2) =
      [JSString.digit (b[i].toNat / 16), JSString.digit (b[i].toNat % 16)] := by
  induction b generalizing i with
  | nil => exact absurd hi (Nat.not_lt_zero i)
  | cons x b ih =>
    have hcons : hexOfBytes (x :: b) =
        JSString.digit (x.toNat / 16) :: JSString.digit (x.toNat % 16) :: hexOfBytes b := rfl
    rw [hcons]
    match i, hi with
    | 0, _ => rfl
    | i + 1, hi =>
      have hrec := ih i (Nat.lt_of_succ_lt_succ hi)
      have hstart : (i + 1) * 2 = i * 2 + 1 + 1 := by omega
      rw [JSString.slice] at hrec ⊢
      rw [hstart, List.drop_succ_cons, List.drop_succ_cons, List.getElem_cons_succ, ← hrec]
      congr 1
      omega

/-- A byte's two digits read back the byte. -/
theorem parseHex_digits :
    ∀ n < 256, JSString.parseHex [JSString.digit (n / 16), JSString.digit (n % 16)] =
      some (n : ℤ) := by
  decide +kernel

theorem parseHex_slice_hexOfBytes (b : List UInt8) (i : ℕ) (hi : i < b.length) :
    JSString.parseHex ((hexOfBytes b).slice (i * 2) (i * 2 + 2)) = some (b[i].toNat : ℤ) := by
  rw [slice_hexOfBytes b i hi]
  exact parseHex_digits _ b[i].toNat_lt

end Tvmjs
