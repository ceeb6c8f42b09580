import Mathlib.Data.List.Infix
import Mathlib.Data.Nat.Bitwise

/-!
# Base-128 numbers and tagged fields

The wire format of a message is a sequence of fields, each a tag with a number or with a byte string
of stated length.  A number is written in bytes of seven bits, the lowest first, every byte but the
last with its high bit set.

* `Wire.readVarint_append` -- a number is read back from what follows it;
* `Wire.varint_append_inj`, `Wire.lenDelim_append_inj` -- hence what is written in front of other
  bytes can be told apart from them;
* `Wire.numberField_append_inj` -- the same for a number field that is left out when it is zero, as
  long as its tag does not start what follows.
-/

namespace Tvmjs

namespace Wire

/-- The bytes of a number. -/
def varint (n : ℕ) : List UInt8 :=
  if n / 128 = 0 then [UInt8.ofNat (n % 128)]
  else UInt8.ofNat (n % 128 + 128) :: varint (n / 128)
termination_by n
decreasing_by omega

/-- The number in front of some bytes, and the bytes after it. -/
def readVarint : List UInt8 → Option (ℕ × List UInt8)
  | [] => none
  | b :: bs =>
    if b.toNat < 128 then some (b.toNat, bs)
    else (readVarint bs).map fun read => (b.toNat - 128 + 128 * read.1, read.2)

/-- A number is read back, whatever follows. -/
theorem readVarint_append (n : ℕ) (rest : List UInt8) :
    readVarint (varint n ++ rest) = some (n, rest) := by
  induction n using Nat.strong_induction_on with
  | h n ih =>
    rw [varint]
    split
    · have hbyte : (UInt8.ofNat (n % 128)).toNat = n := by
        rw [UInt8.toNat_ofNat']
        omega
      rw [List.singleton_append, readVarint, hbyte, if_pos (by omega)]
    · have hbyte : (UInt8.ofNat (n % 128 + 128)).toNat = n % 128 + 128 := by
        rw [UInt8.toNat_ofNat']
        omega
      have hsum : n % 128 + 128 - 128 + 128 * (n / 128) = n := by omega
      rw [List.cons_append, readVarint, hbyte, if_neg (by omega), ih (n / 128) (by omega),
        Option.map_some, hsum]

theorem varint_append_inj {m n : ℕ} {x y : List UInt8} (h : varint m ++ x = varint n ++ y) :
    m = n ∧ x = y := by
  have hread := readVarint_append m x
  rw [h, readVarint_append, Option.some.injEq, Prod.mk.injEq] at hread
  exact ⟨hread.1.symm, hread.2.symm⟩

theorem varint_of_lt {n : ℕ} (h : n < 128) : varint n = [UInt8.ofNat n] := by
  rw [varint, if_pos (Nat.div_eq_of_lt h), Nat.mod_eq_of_lt h]

/-- The tag of a field: its number and the kind of its value. -/
def tag (field wire : ℕ) : List UInt8 := varint (field * 8 + wire)

theorem tag_append_inj {f g v w : ℕ} (hv : v < 8) (hw : w < 8) {x y : List UInt8}
    (h : tag f v ++ x = tag g w ++ y) : f = g ∧ v = w ∧ x = y := by
  obtain ⟨htag, hrest⟩ := varint_append_inj h
  exact ⟨by omega, by omega, hrest⟩

/-- A byte string with its tag and its length. -/
def lenDelim (field : ℕ) (bytes : List UInt8) : List UInt8 :=
  tag field 2 ++ varint bytes.length ++ bytes

theorem lenDelim_append_inj {f : ℕ} {b c x y : List UInt8}
    (h : lenDelim f b ++ x = lenDelim f c ++ y) : b = c ∧ x = y := by
  rw [lenDelim, lenDelim, List.append_assoc, List.append_assoc, List.append_assoc,
    List.append_assoc] at h
  obtain ⟨hlength, hrest⟩ := varint_append_inj (List.append_cancel_left h)
  exact List.append_inj hrest hlength

/-- A number with its tag; nothing for zero. -/
def numberField (field n : ℕ) : List UInt8 := if n = 0 then [] else tag field 0 ++ varint n

/-- What follows a field does not start with its tag. -/
def Past (field : ℕ) (x : List UInt8) : Prop := ∀ rest, x ≠ tag field 0 ++ rest

theorem past_lenDelim (f g : ℕ) (b x : List UInt8) : Past f (lenDelim g b ++ x) := by
  intro rest h
  rw [lenDelim, List.append_assoc, List.append_assoc] at h
  obtain ⟨-, hwire, -⟩ := tag_append_inj (by decide) (by decide) h
  exact absurd hwire (by decide)

theorem past_nil (f : ℕ) : Past f [] := by
  intro rest h
  have hread := readVarint_append (f * 8 + 0) rest
  rw [show varint (f * 8 + 0) ++ rest = [] from h.symm] at hread
  cases hread

theorem numberField_append_inj {f m n : ℕ} {x y : List UInt8} (hx : Past f x) (hy : Past f y)
    (h : numberField f m ++ x = numberField f n ++ y) : m = n ∧ x = y := by
  unfold numberField at h
  split at h
  · rename_i hm
    split at h
    · rename_i hn
      exact ⟨hm.trans hn.symm, h⟩
    · rw [List.append_assoc] at h
      exact absurd h (hx _)
  · split at h
    · rw [List.append_assoc] at h
      exact absurd h.symm (hy _)
    · rw [List.append_assoc, List.append_assoc] at h
      exact varint_append_inj (List.append_cancel_left h)

/-- A byte string that may be absent. -/
def optionalBytes (field : ℕ) : Option (List UInt8) → List UInt8
  | none => []
  | some bytes => lenDelim field bytes

theorem optionalBytes_inj {f : ℕ} {o o' : Option (List UInt8)}
    (h : optionalBytes f o = optionalBytes f o') : o = o' := by
  have hne : ∀ b, lenDelim f b ≠ [] := by
    intro b hb
    have hread := readVarint_append (f * 8 + 2) (varint b.length ++ b)
    rw [lenDelim, tag, List.append_assoc] at hb
    rw [hb] at hread
    cases hread
  rcases o with _ | b
  · rcases o' with _ | c
    · rfl
    · exact absurd h.symm (hne c)
  · rcases o' with _ | c
    · exact absurd h (hne b)
    · have happend : lenDelim f b ++ [] = lenDelim f c ++ [] := congrArg (· ++ []) h
      rw [(lenDelim_append_inj happend).1]

theorem past_optionalBytes (f g : ℕ) (o : Option (List UInt8)) :
    Past f (optionalBytes g o) := by
  rcases o with _ | b
  · exact past_nil f
  · have hpast := past_lenDelim f g b []
    rwa [List.append_nil] at hpast

end Wire

end Tvmjs
