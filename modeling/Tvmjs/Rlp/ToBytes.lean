import Tvmjs.Base.Utf
import Tvmjs.Rlp.Codec

/-!
# Encoding of values that are not bytes yet

The encoder takes strings and numbers as well as bytes.  A string that begins with `0x` is read as
hex, any other one is encoded as UTF-8.
-/

namespace Tvmjs

namespace RLP

/-- What the encoder takes (`Input`). -/
inductive RawInput where
  | bytes (b : Bytes)
  | str (s : JSString)
  | number (n : ℤ)
  | bigint (n : ℤ)
  | null
  /-- An object that has bytes but is none of the above. -/
  | object (b : Bytes)
  | list (l : List RawInput)

/-- Why a value cannot be turned into bytes. -/
inductive ToBytesError where
  | signed
  | unpadded (length : ℕ)
  | nonHex (chars : JSString) (index : ℕ)
  | unsupported
  deriving DecidableEq

/-- The texts of the errors. -/
def ToBytesError.message : ToBytesError → String
  | signed => "Invalid integer as argument, must be unsigned!"
  | unpadded length => "padded hex string expected, got unpadded hex of length " ++ toString length
  | nonHex chars index => "hex string expected, got non-hex character \"" ++
      String.ofList (chars.map fun u => Char.ofNat u.toNat) ++ "\" at index " ++ toString index
  | unsupported => "toBytes: received unsupported type object"

/-- The value of a hex digit. -/
def asciiToBase16 (char : UInt16) : Option ℕ :=
  if 48 ≤ char.toNat ∧ char.toNat ≤ 57 then some (char.toNat - 48)
  else if 65 ≤ char.toNat ∧ char.toNat ≤ 70 then some (char.toNat - (65 - 10))
  else if 97 ≤ char.toNat ∧ char.toNat ≤ 102 then some (char.toNat - (97 - 10))
  else none

/-- Whether a string begins with `0x`. -/
def isHexString (str : JSString) : Bool := str.take 2 = [48, 120]

/-- The digits of a hex string; any other string as it is. -/
def stripHexPrefix (str : JSString) : JSString := if isHexString str then str.drop 2 else str

/-- A zero in front of an odd number of digits. -/
def padToEven (a : JSString) : JSString := if a.length % 2 ≠ 0 then 48 :: a else a

/-- The bytes of pairs of hex digits, the first of which stands at `hi`. -/
def hexPairs : JSString → ℕ → Except ToBytesError Bytes
  | c :: c' :: hex, hi =>
    match asciiToBase16 c, asciiToBase16 c' with
    | some n1, some n2 => do
      let rest ← hexPairs hex (hi + 2)
      return UInt8.ofNat (n1 * 16 + n2) :: rest
    | _, _ => .error (.nonHex [c, c'] hi)
  | _, _ => .ok []

/-- The bytes of hex digits; an odd number of digits throws. -/
def hexToBytes (hex : JSString) : Except ToBytesError Bytes :=
  let hex := if hex.take 2 = [48, 120] then hex.drop 2 else hex
  if hex.length % 2 ≠ 0 then .error (.unpadded hex.length) else hexPairs hex 0

/-- The bytes of a number; zero has none. -/
def numberBytes (n : ℤ) : Except ToBytesError Bytes :=
  if n = 0 then .ok []
  else if n < 0 then .error .signed
  else .ok (numberToBytes n.toNat)

/-- Transform anything but a list into bytes. -/
def toBytes : RawInput → Except ToBytesError Bytes
  | .bytes b => .ok b
  | .str s =>
    if isHexString s then hexToBytes (padToEven (stripHexPrefix s)) else .ok (TextEncoder.encode s)
  | .number n => numberBytes n
  | .bigint n => numberBytes n
  | .null => .ok []
  | .object _ => .error .unsupported
  | .list _ => .error .unsupported

mutual

/-- A value with all its members as bytes. -/
def toInput : RawInput → Except ToBytesError Input
  | .list l => do return .list (← toInputs l)
  | x => do return .bytes (← toBytes x)

/-- The inputs of a list, in order; the first that throws ends the list. -/
def toInputs : List RawInput → Except ToBytesError (List Input)
  | [] => .ok []
  | x :: xs => do
    let y ← toInput x
    let ys ← toInputs xs
    return y :: ys

end

/-- The encoding of any value. -/
def encodeRaw (x : RawInput) : Except ToBytesError Bytes := do return encode (← toInput x)

mutual

/-- A decoded value as a value to encode. -/
def ofInput : Input → RawInput
  | .bytes b => .bytes b
  | .list l => .list (ofInputs l)

/-- The raw inputs of a list of inputs. -/
def ofInputs : List Input → List RawInput
  | [] => []
  | x :: xs => ofInput x :: ofInputs xs

end

/-! ### Lists -/

theorem toInputs_eq_ok_iff {xs : List RawInput} {ys : List Input} :
    toInputs xs = .ok ys ↔ List.Forall₂ (fun x y => toInput x = .ok y) xs ys := by
  induction xs generalizing ys with
  | nil =>
    rw [toInputs, Except.ok.injEq, List.forall₂_nil_left_iff]
    exact eq_comm
  | cons x xs ih =>
    rw [toInputs, List.forall₂_cons_left_iff]
    constructor
    · intro h
      cases hx : toInput x with
      | error e =>
        rw [hx] at h
        cases h
      | ok y =>
        cases hxs : toInputs xs with
        | error e =>
          rw [hx, hxs] at h
          cases h
        | ok ys' =>
          rw [hx, hxs] at h
          cases h
          exact ⟨y, ys', rfl, ih.1 hxs, rfl⟩
    · rintro ⟨y, ys', hx, hxs, rfl⟩
      rw [hx, ih.2 hxs]
      rfl

theorem toInput_list_eq_ok_iff {xs : List RawInput} {y : Input} :
    toInput (.list xs) = .ok y ↔ ∃ ys, toInputs xs = .ok ys ∧ y = .list ys := by
  rw [toInput]
  cases toInputs xs with
  | error e => exact ⟨fun h => (by cases h), fun ⟨_, h, _⟩ => (by cases h)⟩
  | ok ys =>
    constructor
    · intro h
      cases h
      exact ⟨ys, rfl, rfl⟩
    · rintro ⟨ys', h, rfl⟩
      cases h
      rfl

theorem toInputs_bytes (l : List Bytes) : toInputs (l.map .bytes) = .ok (l.map .bytes) := by
  induction l with
  | nil => rfl
  | cons b l ih =>
    rw [List.map_cons, List.map_cons, toInputs, ih]
    rfl

/-! ### Hex strings -/

/-- A byte takes two digits. -/
private theorem length_hexPairs {hex : JSString} {hi : ℕ} {b : Bytes}
    (h : hexPairs hex hi = .ok b) :
    2 * b.length ≤ hex.length := by
  induction hex, hi using hexPairs.induct generalizing b with
  | case1 c c' hex hi n1 n2 h1 h2 ih =>
    rw [hexPairs, h1, h2] at h
    cases hrest : hexPairs hex (hi + 2) with
    | error e =>
      rw [hrest] at h
      cases h
    | ok rest =>
      rw [hrest] at h
      cases h
      have hlen := ih hrest
      simp only [List.length_cons]
      omega
  | case2 c c' hex hi hno =>
    rw [hexPairs] at h
    split at h
    · rename_i h1 h2
      exact absurd h2 (hno _ _ h1)
    · cases h
  | case3 hex hi hno =>
    unfold hexPairs at h
    split at h
    · exact absurd rfl (hno _ _ _)
    · cases h
      exact Nat.zero_le _

/-- The bytes of a string that begins with `0x` are fewer than half its characters. -/
theorem length_toBytes_hex {s : JSString} {b : Bytes} (hs : isHexString s = true)
    (h : toBytes (.str s) = .ok b) : b.length < s.length := by
  have htwo : 2 ≤ s.length := by
    have htake := congrArg List.length (of_decide_eq_true hs)
    rw [List.length_take] at htake
    exact min_eq_left_iff.1 htake
  have hstrip : (stripHexPrefix s).length = s.length - 2 := by
    rw [stripHexPrefix, if_pos hs, List.length_drop]
  have hpad : (padToEven (stripHexPrefix s)).length ≤ s.length - 1 := by
    unfold padToEven
    split
    · rw [List.length_cons, hstrip]
      omega
    · rw [hstrip]
      omega
  rw [toBytes, if_pos hs, hexToBytes] at h
  generalize padToEven (stripHexPrefix s) = p at h hpad
  have hcut : (if p.take 2 = [48, 120] then p.drop 2 else p).length ≤ p.length := by
    split
    · rw [List.length_drop]
      exact Nat.sub_le _ _
    · exact le_rfl
  generalize (if p.take 2 = [48, 120] then p.drop 2 else p) = q at h hcut
  split at h
  · cases h
  · have hlen := length_hexPairs h
    omega

/-- Pairs of hex digits have bytes. -/
theorem hexPairs_isOk {hex : JSString} (hhex : ∀ u ∈ hex, (asciiToBase16 u).isSome) (hi : ℕ) :
    ∃ b, hexPairs hex hi = .ok b := by
  induction hex, hi using hexPairs.induct with
  | case1 c c' hex hi n1 n2 h1 h2 ih =>
    obtain ⟨b, hb⟩ := ih fun u hu => hhex u (List.mem_cons_of_mem _ (List.mem_cons_of_mem _ hu))
    exact ⟨_, by rw [hexPairs, h1, h2, hb]; rfl⟩
  | case2 c c' hex hi hno =>
    obtain ⟨n1, h1⟩ := Option.isSome_iff_exists.1 (hhex c List.mem_cons_self)
    obtain ⟨n2, h2⟩ := Option.isSome_iff_exists.1
      (hhex c' (List.mem_cons_of_mem _ List.mem_cons_self))
    exact absurd h2 (hno n1 n2 h1)
  | case3 hex hi hno =>
    refine ⟨[], ?_⟩
    unfold hexPairs
    split
    · exact absurd rfl (hno _ _ _)
    · rfl

end RLP

end Tvmjs
