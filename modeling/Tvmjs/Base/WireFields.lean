import Tvmjs.Base.Wire

/-!
# Messages as sequences of fields
A message is read field by field: a key, which holds the number of the field and the kind of its
value, and then the value.  Numbers need not be written in the shortest way, but have a greatest
length.

* `IsVarint`, `IsValue`, `IsFields` -- which bytes are a number, a value, a message;
* `IsVarint.append_inj` -- where a number ends is decided by its own bytes;
* `isFields_flatten`, `isFields_number`, `isFields_bytes` -- what a writer writes is a message.
-/

namespace Tvmjs

namespace Wire

/-- A number in at most `k` bytes of seven bits, the lowest first. -/
inductive IsVarint : ℕ → List UInt8 → ℕ → Prop
  | last {k : ℕ} {b : UInt8} (hb : b.toNat < 128) : IsVarint (k + 1) [b] b.toNat
  | more {k n : ℕ} {b : UInt8} {bs : List UInt8} (hb : 128 ≤ b.toNat) (hbs : IsVarint k bs n) :
      IsVarint (k + 1) (b :: bs) (b.toNat - 128 + 128 * n)

/-- The greatest number of bytes of a number. -/
abbrev maxVarint : ℕ := 10

/-- The value of a field. -/
inductive Value where
  | number (n : ℕ)
  | bytes (bytes : List UInt8)
deriving DecidableEq

/-- The bytes of a value of one of the four kinds: a number, eight bytes, bytes of stated length and
four bytes. -/
inductive IsValue : ℕ → List UInt8 → Value → Prop
  | number {bs : List UInt8} {n : ℕ} (hbs : IsVarint maxVarint bs n) : IsValue 0 bs (.number n)
  | fixed64 {data : List UInt8} (hdata : data.length = 8) : IsValue 1 data (.bytes data)
  | delimited {l data : List UInt8} (hl : IsVarint maxVarint l data.length) :
      IsValue 2 (l ++ data) (.bytes data)
  | fixed32 {data : List UInt8} (hdata : data.length = 4) : IsValue 5 data (.bytes data)

/-- A message: complete fields one after the other, each a key, whose lowest three bits are the
kind, and a value. -/
inductive IsFields : List UInt8 → List (ℕ × Value) → Prop
  | nil : IsFields [] []
  | cons {k v rest : List UInt8} {key : ℕ} {value : Value} {fs : List (ℕ × Value)}
      (hk : IsVarint maxVarint k key) (hv : IsValue (key % 8) v value) (hrest : IsFields rest fs) :
      IsFields (k ++ (v ++ rest)) ((key, value) :: fs)

theorem IsVarint.ne_nil {k n : ℕ} {bs : List UInt8} (h : IsVarint k bs n) : bs ≠ [] := by
  cases h with
  | last => exact List.cons_ne_nil _ _
  | more => exact List.cons_ne_nil _ _

/-- A number ends with its first byte below 128, whatever follows. -/
theorem IsVarint.append_inj {k m n : ℕ} {bs cs x y : List UInt8} (h : IsVarint k bs m)
    (h' : IsVarint k cs n) (heq : bs ++ x = cs ++ y) : m = n ∧ x = y := by
  induction h generalizing cs n with
  | last hb =>
    cases h' with
    | last hc =>
      obtain ⟨rfl, hrest⟩ := List.cons.inj heq
      exact ⟨rfl, hrest⟩
    | more hc hcs =>
      obtain ⟨rfl, -⟩ := List.cons.inj heq
      omega
  | more hb hbs ih =>
    cases h' with
    | last hc =>
      obtain ⟨rfl, -⟩ := List.cons.inj heq
      omega
    | more hc hcs =>
      obtain ⟨rfl, hrest⟩ := List.cons.inj heq
      obtain ⟨rfl, hxy⟩ := ih hcs hrest
      exact ⟨rfl, hxy⟩

/-- The shortest way to write a number. -/
theorem isVarint_varint {k n : ℕ} (hn : n < 128 ^ (k + 1)) : IsVarint (k + 1) (varint n) n := by
  induction k generalizing n with
  | zero =>
    rw [pow_one] at hn
    have hbyte : (UInt8.ofNat n).toNat = n := by
      rw [UInt8.toNat_ofNat']
      omega
    have hlast := @IsVarint.last 0 (UInt8.ofNat n) (hbyte.symm ▸ hn)
    rw [hbyte] at hlast
    rwa [varint_of_lt hn]
  | succ k ih =>
    rw [varint]
    split
    · rename_i hdiv
      have hbyte : (UInt8.ofNat (n % 128)).toNat = n := by
        rw [UInt8.toNat_ofNat']
        omega
      have hlast := @IsVarint.last (k + 1) (UInt8.ofNat (n % 128)) (by omega)
      rwa [hbyte] at hlast
    · have hbyte : (UInt8.ofNat (n % 128 + 128)).toNat = n % 128 + 128 := by
        rw [UInt8.toNat_ofNat']
        omega
      have hrest := ih (n := n / 128) (by rw [pow_succ] at hn; omega)
      have hmore := IsVarint.more (b := UInt8.ofNat (n % 128 + 128)) (by omega) hrest
      rwa [hbyte, show n % 128 + 128 - 128 + 128 * (n / 128) = n by omega] at hmore

theorem IsVarint.lt {k n : ℕ} {bs : List UInt8} (h : IsVarint k bs n) : n < 128 ^ k := by
  induction h with
  | @last k b hb =>
    calc b.toNat < 128 := hb
      _ = 128 ^ 1 := (pow_one 128).symm
      _ ≤ 128 ^ (k + 1) := Nat.pow_le_pow_right (by decide) (by omega)
  | @more k n b bs hb hbs ih =>
    have hlt : b.toNat < 256 := b.toNat_lt
    rw [pow_succ]
    omega

theorem IsVarint.length_le {k n : ℕ} {bs : List UInt8} (h : IsVarint k bs n) : bs.length ≤ k := by
  induction h with
  | last => exact Nat.succ_le_succ (Nat.zero_le _)
  | more _ _ ih => exact Nat.succ_le_succ ih

/-! ### What a writer writes -/

theorem isFields_append {bs cs : List UInt8} {fs gs : List (ℕ × Value)} (hb : IsFields bs fs)
    (hc : IsFields cs gs) : IsFields (bs ++ cs) (fs ++ gs) := by
  induction hb with
  | nil => exact hc
  | cons hk hv _ ih =>
    rw [List.append_assoc, List.append_assoc]
    exact .cons hk hv ih

/-- The key of a field as it is written. -/
def keyOf (field wire : ℕ) : ℕ := field * 8 + wire

theorem keyOf_mod {field wire : ℕ} (hwire : wire < 8) : keyOf field wire % 8 = wire := by
  rw [keyOf]
  omega

/-- A field alone. -/
theorem isFields_one {k v : List UInt8} {key : ℕ} {value : Value} (hk : IsVarint maxVarint k key)
    (hv : IsValue (key % 8) v value) : IsFields (k ++ v) [(key, value)] := by
  have hone := IsFields.cons hk hv .nil
  rwa [List.append_nil] at hone

/-- A number with its tag. -/
theorem isFields_number {field n : ℕ} (hfield : keyOf field 0 < 128 ^ maxVarint)
    (hn : n < 128 ^ maxVarint) :
    IsFields (tag field 0 ++ varint n) [(keyOf field 0, .number n)] := by
  refine isFields_one (isVarint_varint hfield) ?_
  rw [keyOf_mod (by decide)]
  exact .number (isVarint_varint hn)

/-- Bytes with their tag and their length. -/
theorem isFields_bytes {field : ℕ} {data : List UInt8} (hfield : keyOf field 2 < 128 ^ maxVarint)
    (hdata : data.length < 128 ^ maxVarint) :
    IsFields (lenDelim field data) [(keyOf field 2, .bytes data)] := by
  rw [lenDelim, List.append_assoc]
  refine isFields_one (isVarint_varint hfield) ?_
  rw [keyOf_mod (by decide)]
  exact .delimited (isVarint_varint hdata)

/-- Messages one after the other. -/
theorem isFields_flatten {pieces : List (List UInt8)} {entries : List (List (ℕ × Value))}
    (h : List.Forall₂ IsFields pieces entries) : IsFields pieces.flatten entries.flatten := by
  induction h with
  | nil => exact .nil
  | cons hb _ ih => exact isFields_append hb ih

/-- The kind in which a writer writes a value. -/
def Value.wire : Value → ℕ
  | number _ => 0
  | bytes _ => 2

/-- The values of one field as they are written. -/
def fieldEntries (slot : ℕ × List Value) : List (ℕ × Value) :=
  slot.2.map fun v => (keyOf slot.1 v.wire, v)

end Wire

end Tvmjs
