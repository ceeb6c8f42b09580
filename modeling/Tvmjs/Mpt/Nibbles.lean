import Mathlib.Order.Fin.Basic
import Mathlib.Data.List.Infix
import Mathlib.Data.List.Lex
import Tvmjs.Util.Account

/-!
# Nibbles and the hex prefix

Keys of a trie are walked nibble by nibble.  A node's path is stored as bytes, after a prefix
that says whether the node is a leaf and whether the path has an odd length.

* `nibblesTypeToPackedBytes_bytesToNibbles`, `bytesToNibbles_nibblesTypeToPackedBytes` -- the
  conversions invert each other on lists of even length;
* `isTerminator_addHexPrefix`, `removeHexPrefix_addHexPrefix` -- a prefix reads back;
* `nibblesCompare_eq_zero`, `nibblesCompare_neg_iff` -- the comparison is the lexicographic order.
-/

namespace Tvmjs

/-- Half a byte. -/
abbrev Nibble := Fin 16

/-- A key or a part of one, nibble by nibble. -/
abbrev Nibbles := List Nibble

/-- The two nibbles of a byte, the high one first. -/
def byteNibbles (b : UInt8) : Nibbles :=
  [⟨b.toNat / 16, by have := b.toNat_lt; omega⟩, ⟨b.toNat % 16, Nat.mod_lt _ (by decide)⟩]

/-- Converts bytes to nibbles. -/
def bytesToNibbles (key : Bytes) : Nibbles := key.flatMap byteNibbles

/-- Converts nibbles into bytes; an odd last nibble is left out. -/
def nibblesTypeToPackedBytes : Nibbles → Bytes
  | hi :: lo :: arr => UInt8.ofNat (hi.val * 16 + lo.val) :: nibblesTypeToPackedBytes arr
  | _ => []

/-- Compare two nibble arrays: negative where the first comes first. -/
def nibblesCompare : Nibbles → Nibbles → ℤ
  | [], [] => 0
  | [], _ :: _ => -1
  | _ :: _, [] => 1
  | a :: n1, b :: n2 => if a < b then -1 else if b < a then 1 else nibblesCompare n1 n2

/-- How many leading nibbles two nibble arrays share. -/
def matchingNibbleLength : Nibbles → Nibbles → ℕ
  | a :: nib1, b :: nib2 => if a = b then matchingNibbleLength nib1 nib2 + 1 else 0
  | _, _ => 0

/-- Prepends the hex prefix to a path. -/
def addHexPrefix (key : Nibbles) (terminator : Bool) : Nibbles :=
  let flag : Nibble := if terminator then 2 else 0
  if key.length % 2 = 1 then (1 + flag) :: key else flag :: 0 :: key

/-- Removes the hex prefix of a path. -/
def removeHexPrefix : Nibbles → Nibbles
  | [] => []
  | n :: val => if n.val % 2 = 1 then val else val.drop 1

/-- Whether a prefixed path is that of a leaf. -/
def isTerminator : Nibbles → Bool
  | [] => false
  | n :: _ => 1 < n

/-! ### Bytes and nibbles -/

@[simp] theorem bytesToNibbles_nil : bytesToNibbles [] = [] := rfl

@[simp] theorem bytesToNibbles_cons (b : UInt8) (key : Bytes) :
    bytesToNibbles (b :: key) = byteNibbles b ++ bytesToNibbles key := rfl

/-- Two nibbles for each byte. -/
@[simp] theorem length_bytesToNibbles (key : Bytes) :
    (bytesToNibbles key).length = 2 * key.length := by
  induction key with
  | nil => rfl
  | cons b key ih =>
    rw [bytesToNibbles_cons, List.length_append, ih, List.length_cons]
    simp only [byteNibbles, List.length_cons, List.length_nil]
    omega

/-- Packing undoes the split into nibbles. -/
theorem nibblesTypeToPackedBytes_bytesToNibbles (key : Bytes) :
    nibblesTypeToPackedBytes (bytesToNibbles key) = key := by
  induction key with
  | nil => rfl
  | cons b key ih =>
    rw [bytesToNibbles_cons]
    change UInt8.ofNat (b.toNat / 16 * 16 + b.toNat % 16) ::
      nibblesTypeToPackedBytes (bytesToNibbles key) = _
    rw [ih, Nat.div_add_mod', UInt8.ofNat_toNat]

/-- Different bytes have different nibbles. -/
theorem bytesToNibbles_injective : Function.Injective bytesToNibbles :=
  Function.LeftInverse.injective nibblesTypeToPackedBytes_bytesToNibbles

/-- An even number of nibbles survives packing. -/
theorem bytesToNibbles_nibblesTypeToPackedBytes : ∀ {arr : Nibbles}, arr.length % 2 = 0 →
    bytesToNibbles (nibblesTypeToPackedBytes arr) = arr
  | [], _ => rfl
  | [_], h => by simp at h
  | hi :: lo :: arr, h => by
    have ih := @bytesToNibbles_nibblesTypeToPackedBytes arr (by
      simp only [List.length_cons] at h
      omega)
    have hbyte : (UInt8.ofNat (hi.val * 16 + lo.val)).toNat = hi.val * 16 + lo.val :=
      UInt8.toNat_ofNat_of_lt' (by have := hi.isLt; have := lo.isLt; simp only [UInt8.size]; omega)
    rw [nibblesTypeToPackedBytes, bytesToNibbles_cons, ih, byteNibbles]
    have hhi : (hi.val * 16 + lo.val) / 16 = hi.val := by omega
    have hlo : (hi.val * 16 + lo.val) % 16 = lo.val := by omega
    simp only [hbyte, hhi, hlo, Fin.eta, List.cons_append, List.nil_append]

/-- A byte for two nibbles. -/
theorem length_nibblesTypeToPackedBytes : ∀ arr : Nibbles,
    (nibblesTypeToPackedBytes arr).length = arr.length / 2
  | [] => rfl
  | [_] => by simp [nibblesTypeToPackedBytes]
  | _ :: _ :: arr => by
    rw [nibblesTypeToPackedBytes, List.length_cons, length_nibblesTypeToPackedBytes arr]
    simp only [List.length_cons]
    omega

/-! ### The hex prefix -/

/-- The prefix makes the number of nibbles even. -/
private theorem length_addHexPrefix_mod (key : Nibbles) (terminator : Bool) :
    (addHexPrefix key terminator).length % 2 = 0 := by
  rw [addHexPrefix]
  split <;> simp only [List.length_cons] <;> omega

/-- The prefix is one nibble or two. -/
theorem length_addHexPrefix_le (key : Nibbles) (terminator : Bool) :
    (addHexPrefix key terminator).length ≤ key.length + 2 := by
  rw [addHexPrefix]
  split <;> simp

/-- The prefix tells a leaf from an extension. -/
theorem isTerminator_addHexPrefix (key : Nibbles) (terminator : Bool) :
    isTerminator (addHexPrefix key terminator) = terminator := by
  rw [addHexPrefix]
  split <;> cases terminator <;> rfl

/-- The prefix can be taken off again. -/
theorem removeHexPrefix_addHexPrefix (key : Nibbles) (terminator : Bool) :
    removeHexPrefix (addHexPrefix key terminator) = key := by
  rw [addHexPrefix]
  split <;> cases terminator <;> rfl

/-- The bytes of a prefixed path read back as the prefixed path. -/
theorem bytesToNibbles_packed_addHexPrefix (key : Nibbles) (terminator : Bool) :
    bytesToNibbles (nibblesTypeToPackedBytes (addHexPrefix key terminator)) =
      addHexPrefix key terminator :=
  bytesToNibbles_nibblesTypeToPackedBytes (length_addHexPrefix_mod key terminator)

/-! ### Comparing -/

/-- Only equal paths compare as equal. -/
theorem nibblesCompare_eq_zero : ∀ {n1 n2 : Nibbles}, nibblesCompare n1 n2 = 0 ↔ n1 = n2
  | [], [] => by simp [nibblesCompare]
  | [], _ :: _ => by simp [nibblesCompare]
  | _ :: _, [] => by simp [nibblesCompare]
  | a :: n1, b :: n2 => by
    rw [nibblesCompare, List.cons.injEq]
    split
    · rename_i h
      simp [h.ne]
    · split
      · rename_i h
        simp [h.ne']
      · rename_i h1 h2
        rw [nibblesCompare_eq_zero, and_iff_right (le_antisymm (not_lt.1 h2) (not_lt.1 h1))]

/-- The comparison is the lexicographic order. -/
theorem nibblesCompare_neg_iff : ∀ {n1 n2 : Nibbles}, nibblesCompare n1 n2 < 0 ↔ n1 < n2
  | [], [] => by simp [nibblesCompare]
  | [], _ :: _ => by simp [nibblesCompare]
  | _ :: _, [] => by simp [nibblesCompare]
  | a :: n1, b :: n2 => by
    rw [nibblesCompare, List.cons_lt_cons_iff]
    split
    · rename_i h
      simp [h]
    · split
      · rename_i h
        simp [h.le, h.ne']
      · rename_i h1 h2
        rw [nibblesCompare_neg_iff, or_iff_right h1,
          and_iff_right (le_antisymm (not_lt.1 h2) (not_lt.1 h1))]

/-- The comparison is antisymmetric. -/
private theorem nibblesCompare_swap :
    ∀ n1 n2 : Nibbles, nibblesCompare n2 n1 = -nibblesCompare n1 n2
  | [], [] => rfl
  | [], _ :: _ => rfl
  | _ :: _, [] => rfl
  | a :: n1, b :: n2 => by
    rw [nibblesCompare, nibblesCompare]
    rcases lt_trichotomy a b with h | h | h
    · rw [if_neg h.not_gt, if_pos h, if_pos h]
      rfl
    · subst h
      simp only [lt_irrefl, if_false]
      exact nibblesCompare_swap n1 n2
    · rw [if_pos h, if_neg h.not_gt, if_pos h]

/-! ### Shared prefixes -/

/-- Up to the length that matches the paths agree. -/
theorem take_matchingNibbleLength : ∀ nib1 nib2 : Nibbles,
    nib1.take (matchingNibbleLength nib1 nib2) = nib2.take (matchingNibbleLength nib1 nib2)
  | [], _ => by simp [matchingNibbleLength]
  | _ :: _, [] => by simp [matchingNibbleLength]
  | a :: nib1, b :: nib2 => by
    rw [matchingNibbleLength]
    split
    · rename_i h
      rw [List.take_succ_cons, List.take_succ_cons, h, take_matchingNibbleLength]
    · rfl

end Tvmjs
