import Mathlib.Data.List.Basic
import Tvmjs.Util.Account

/-!
# Hex strings

The conversions between bytes and hex strings.  The digits themselves are those of the hash library
(`NobleHex`); the padding and the refusal of `0x` are the repository's.
-/

namespace Tvmjs

/-- A hex string without `0x`. -/
abbrev HexString := List Char

/-- The hex functions of the hash library. -/
structure NobleHex where
  /-- Two digits for each byte. -/
  bytesToHex : Bytes → HexString
  /-- The bytes of a hex string; there are none when the string is no such one. -/
  hexToBytes : HexString → Option Bytes

/-- The documented behaviour of the hex functions. -/
structure NobleHex.Lawful (hex : NobleHex) : Prop where
  hexToBytes_bytesToHex : ∀ b, hex.hexToBytes (hex.bytesToHex b) = some b
  length_bytesToHex : ∀ b, (hex.bytesToHex b).length = 2 * b.length
  digits : ∀ b, ∀ c ∈ hex.bytesToHex b, c ∈ "0123456789abcdef".toList

/-- A `0` in front of a string of odd length. -/
def padToEven (a : HexString) : HexString := if a.length % 2 ≠ 0 then '0' :: a else a

section Hex

variable (hex : NobleHex)

/-- The hex digits of bytes. -/
def bytesToUnprefixedHex (b : Bytes) : HexString := hex.bytesToHex b

/-- The bytes of a hex string; a string with `0x` is refused. -/
def unprefixedHexToBytes (s : HexString) : Option Bytes :=
  if ['0', 'x'].isPrefixOf s then none else hex.hexToBytes (padToEven s)

variable {hex}

theorem unprefixedHexToBytes_bytesToUnprefixedHex (hhex : hex.Lawful) (b : Bytes) :
    unprefixedHexToBytes hex (bytesToUnprefixedHex hex b) = some b := by
  have hx : ¬ ['0', 'x'].isPrefixOf (hex.bytesToHex b) = true := by
    intro h
    have hmem := (List.isPrefixOf_iff_prefix.1 h).subset (show 'x' ∈ ['0', 'x'] by decide)
    exact absurd (hhex.digits b 'x' hmem) (by decide)
  have heven : padToEven (hex.bytesToHex b) = hex.bytesToHex b := by
    rw [padToEven, hhex.length_bytesToHex, if_neg (by omega)]
  rw [bytesToUnprefixedHex, unprefixedHexToBytes, if_neg hx, heven, hhex.hexToBytes_bytesToHex]

theorem bytesToUnprefixedHex_injective (hhex : hex.Lawful) :
    Function.Injective (bytesToUnprefixedHex hex) := by
  intro b b' h
  have hb := unprefixedHexToBytes_bytesToUnprefixedHex hhex b
  rw [h, unprefixedHexToBytes_bytesToUnprefixedHex hhex b', Option.some.injEq] at hb
  exact hb.symm

end Hex

/-! ### Lower-case digits -/

/-- A hex digit. -/
def hexDigit (n : ℕ) : Char := "0123456789abcdef".toList.getD n '0'

/-- The value of a hex digit. -/
def hexValue (c : Char) : Option ℕ := "0123456789abcdef".toList.findIdx? (· = c)

/-- The bytes of a string of lower-case digits. -/
def readHex : HexString → Option Bytes
  | [] => some []
  | [_] => none
  | c :: c' :: s => do
    let high ← hexValue c
    let low ← hexValue c'
    let rest ← readHex s
    return UInt8.ofNat (16 * high + low) :: rest

/-- The hex functions with lower-case digits. -/
def lowerHex : NobleHex where
  bytesToHex b := b.flatMap fun x => [hexDigit (x.toNat / 16), hexDigit (x.toNat % 16)]
  hexToBytes := readHex

private theorem hexValue_hexDigit : ∀ n < 16, hexValue (hexDigit n) = some n := by decide

theorem lawful_lowerHex : lowerHex.Lawful where
  hexToBytes_bytesToHex b := by
    change readHex (b.flatMap _) = some b
    induction b with
    | nil => rfl
    | cons x b ih =>
      have hx : x.toNat < 256 := x.toNat_lt
      have hhigh := hexValue_hexDigit (x.toNat / 16) (by omega)
      have hlow := hexValue_hexDigit (x.toNat % 16) (by omega)
      have hsum : 16 * (x.toNat / 16) + x.toNat % 16 = x.toNat := Nat.div_add_mod ..
      simp only [List.flatMap_cons, List.cons_append, List.nil_append, readHex, hhigh, hlow, ih,
        Option.bind_eq_bind, Option.bind_some, hsum, UInt8.ofNat_toNat]
      rfl
  length_bytesToHex b := by
    change (b.flatMap _).length = _
    induction b with
    | nil => rfl
    | cons x b ih =>
      rw [List.flatMap_cons, List.length_append, ih, List.length_cons]
      simp only [List.length_cons, List.length_nil]
      omega
  digits b c hc := by
    obtain ⟨x, -, hx⟩ := List.mem_flatMap.1 hc
    have hdigit : ∀ n < 16, hexDigit n ∈ "0123456789abcdef".toList := by decide
    have hlt : x.toNat < 256 := x.toNat_lt
    rcases List.mem_cons.1 hx with rfl | hx
    · exact hdigit _ (by omega)
    · rw [List.mem_singleton.1 hx]
      exact hdigit _ (by omega)

/-! ### Strings with `0x` -/

/-- A hex string with `0x` before its digits. -/
abbrev PrefixedHexString := List Char

/-- The hex digits of bytes, after `0x`. -/
def bytesToHex (bytes : Bytes) : PrefixedHexString := '0' :: 'x' :: lowerHex.bytesToHex bytes

theorem bytesToHex_injective : Function.Injective bytesToHex := fun _ _ h =>
  bytesToUnprefixedHex_injective lawful_lowerHex (List.cons.inj (List.cons.inj h).2).2

end Tvmjs
