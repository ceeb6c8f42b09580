import Mathlib.Algebra.GroupWithZero.Nat
import Mathlib.Algebra.Group.Int.Defs
import Mathlib.Algebra.Group.Nat.Defs
import Mathlib.Data.Int.Basic
import Mathlib.Algebra.NeZero
import Mathlib.Data.Fin.Basic

/-!
# Addresses, byte strings and accounts

The value types every other part of the development shares: byte strings, 20-byte addresses,
TRC-10 balance maps and account records.
-/

namespace Tvmjs

/-- A byte string (`Uint8Array`). -/
abbrev Bytes := List UInt8

/-- A 20-byte address. -/
abbrev Address := Fin (2 ^ 160)

instance instNeZeroAddress : NeZero (2 ^ 160) := ⟨(Nat.two_pow_pos 160).ne'⟩

instance instLawfulBEqBytes : LawfulBEq Bytes := inferInstanceAs (LawfulBEq (List UInt8))

/-- TRC-10 balances by token id (`AssetBalances`); an absent id has no entry at all. -/
abbrev AssetBalances := ℕ → Option ℤ

/-- The hash of the empty string. -/
def KECCAK256_NULL : Bytes :=
  [0xc5, 0xd2, 0x46, 0x01, 0x86, 0xf7, 0x23, 0x3c, 0x92, 0x7e, 0x7d, 0xb2, 0xdc, 0xc7, 0x03, 0xc0,
   0xe5, 0x00, 0xb6, 0x53, 0xca, 0x82, 0x27, 0x3b, 0x7b, 0xfa, 0xd8, 0x04, 0x5d, 0x85, 0xa4, 0x70]

/-- The hash of the encoding of the empty trie. -/
def KECCAK256_RLP : Bytes :=
  [0x56, 0xe8, 0x1f, 0x17, 0x1b, 0xcc, 0x55, 0xa6, 0xff, 0x83, 0x45, 0xe6, 0x92, 0xc0, 0xf8, 0x6e,
   0x5b, 0x48, 0xe0, 0x1b, 0x99, 0x6c, 0xad, 0xc0, 0x01, 0x62, 0x2f, 0xb5, 0xe3, 0x63, 0xb4, 0x21]

/-- An account of the state trie; the defaults are those of `new Account()`. -/
structure Account where
  /-- How many transactions and creates the account has sent. -/
  nonce : ℕ := 0
  /-- TRX balance, in sun. -/
  balance : ℤ := 0
  /-- Root of the account's storage trie. -/
  storageRoot : Bytes := KECCAK256_RLP
  /-- Hash of the account's code. -/
  codeHash : Bytes := KECCAK256_NULL
  /-- TRC-10 balances. -/
  asset : AssetBalances := fun _ => none

namespace Account

/-- The balance of one token, zero where the account has no entry. -/
def token (a : Account) (id : ℕ) : ℤ := (a.asset id).getD 0

end Account

/-- The widest signed 64-bit value. -/
def INT64_MAX : ℤ := 9223372036854775807

end Tvmjs
