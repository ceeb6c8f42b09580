import Mathlib.Data.List.Infix
import Mathlib.Tactic.IntervalCases
import Tvmjs.Util.Account

/-!
# Bits

Arrays of bits, the most significant bit of a byte first.

* `bytesToBits_bitsToBytes` -- bits that are packed read back;
* `bitsToBytes_allBits` -- bytes that are unpacked are packed again;
* `matchingBitsLength_append`, `exists_matchingBits` -- the longest common beginning.
-/

namespace Tvmjs

/-- The bits of a byte array, as many as asked for; past its end they are 0. -/
def bytesToBits (bytes : Bytes) (bitLength : ℕ) : List Bool :=
  (List.range bitLength).map fun i => (bytes.getD (i / 8) 0).toNat.testBit (7 - i % 8)

/-- A byte from its bits, the most significant one first. -/
def byteOfBits (b : ℕ → Bool) : UInt8 :=
  UInt8.ofNat ((List.range 8).foldl (fun acc i => 2 * acc + (b i).toNat) 0)

/-- Converts an array of bits into bytes; the last byte is filled up with zeros. -/
def bitsToBytes (bits : List Bool) : Bytes :=
  (List.range ((bits.length + 7) / 8)).map fun j => byteOfBits fun i => bits.getD (8 * j + i) false

/-- The count of consecutively matching items from the start. -/
def matchingBitsLength : List Bool → List Bool → ℕ
  | a :: bits1, b :: bits2 => if a = b then matchingBitsLength bits1 bits2 + 1 else 0
  | _, _ => 0

/-- The bits of all the bytes. -/
def allBits (bytes : Bytes) : List Bool := bytesToBits bytes (bytes.length * 8)

/-! ### Packing and unpacking -/

@[simp] theorem length_bytesToBits (bytes : Bytes) (n : ℕ) : (bytesToBits bytes n).length = n := by
  simp [bytesToBits]

@[simp] theorem length_allBits (bytes : Bytes) : (allBits bytes).length = bytes.length * 8 :=
  length_bytesToBits bytes _

theorem length_bitsToBytes (bits : List Bool) :
    (bitsToBytes bits).length = (bits.length + 7) / 8 := by
  simp [bitsToBytes]

private theorem byteOfBits_congr {b b' : ℕ → Bool} (h : ∀ i < 8, b i = b' i) :
    byteOfBits b = byteOfBits b' := by
  simp only [byteOfBits, List.range_succ, List.range_zero, List.nil_append, List.cons_append,
    List.foldl_cons, List.foldl_nil]
  rw [h 0 (by decide), h 1 (by decide), h 2 (by decide), h 3 (by decide), h 4 (by decide),
    h 5 (by decide), h 6 (by decide), h 7 (by decide)]

/-- A bit of a packed byte. -/
private theorem testBit_packed : ∀ b0 b1 b2 b3 b4 b5 b6 b7 : Bool, ∀ i < 8,
    (byteOfBits fun j => [b0, b1, b2, b3, b4, b5, b6, b7].getD j false).toNat.testBit (7 - i) =
      [b0, b1, b2, b3, b4, b5, b6, b7].getD i false := by
  decide

private theorem testBit_byteOfBits (b : ℕ → Bool) {i : ℕ} (hi : i < 8) :
    (byteOfBits b).toNat.testBit (7 - i) = b i := by
  have hlist : ∀ j < 8, b j = [b 0, b 1, b 2, b 3, b 4, b 5, b 6, b 7].getD j false := by
    intro j hj
    interval_cases j
    all_goals rfl
  rw [byteOfBits_congr hlist, testBit_packed _ _ _ _ _ _ _ _ i hi, ← hlist i hi]

/-- A byte is packed from its bits. -/
private theorem byteOfBits_testBit (x : UInt8) :
    byteOfBits (fun i => x.toNat.testBit (7 - i)) = x := by
  have hall : ∀ n < 256, byteOfBits (fun i => n.testBit (7 - i)) = UInt8.ofNat n := by
    decide +kernel
  rw [hall _ x.toNat_lt, UInt8.ofNat_toNat]

/-- **Bits that are packed read back.** -/
theorem bytesToBits_bitsToBytes (bits : List Bool) :
    bytesToBits (bitsToBytes bits) bits.length = bits := by
  refine List.ext_getElem (length_bytesToBits _ _) fun i hi hi' => ?_
  have hbyte : i / 8 < (bits.length + 7) / 8 := by omega
  simp only [bytesToBits, List.getElem_map, List.getElem_range, bitsToBytes,
    List.getD_eq_getElem?_getD, List.getElem?_map, List.getElem?_range hbyte]
  change (byteOfBits _).toNat.testBit _ = _
  rw [testBit_byteOfBits _ (Nat.mod_lt i (by decide)), Nat.div_add_mod,
    List.getElem?_eq_getElem hi']
  rfl

/-- **Bytes that are unpacked are packed again.** -/
theorem bitsToBytes_allBits (bytes : Bytes) : bitsToBytes (allBits bytes) = bytes := by
  refine List.ext_getElem ?_ fun j hj hj' => ?_
  · rw [length_bitsToBytes, length_allBits]
    omega
  · have hbits : ∀ i < 8, (allBits bytes).getD (8 * j + i) false =
        (bytes[j]).toNat.testBit (7 - i) := by
      intro i hi
      have hdiv : (8 * j + i) / 8 = j := by omega
      have hmod : (8 * j + i) % 8 = i := by omega
      rw [allBits, bytesToBits, List.getD_eq_getElem?_getD, List.getElem?_map,
        List.getElem?_range (by omega)]
      change (bytes.getD ((8 * j + i) / 8) 0).toNat.testBit (7 - (8 * j + i) % 8) = _
      rw [hdiv, hmod, List.getD_eq_getElem?_getD, List.getElem?_eq_getElem hj']
      rfl
    simp only [bitsToBytes, List.getElem_map, List.getElem_range]
    rw [byteOfBits_congr hbits, byteOfBits_testBit]

theorem allBits_injective : Function.Injective allBits :=
  Function.LeftInverse.injective bitsToBytes_allBits

/-- Bits that fill whole bytes are those of the bytes. -/
theorem allBits_bitsToBytes {bits : List Bool} (h : bits.length % 8 = 0) :
    allBits (bitsToBytes bits) = bits := by
  have hlen : (bitsToBytes bits).length * 8 = bits.length := by
    rw [length_bitsToBytes]
    omega
  rw [allBits, hlen, bytesToBits_bitsToBytes]

/-! ### Common beginnings -/

theorem matchingBitsLength_comm (a b : List Bool) :
    matchingBitsLength a b = matchingBitsLength b a := by
  induction a generalizing b with
  | nil => cases b <;> rfl
  | cons x a ih =>
    rcases b with _ | ⟨y, b⟩
    · rfl
    · rw [matchingBitsLength, matchingBitsLength, ih]
      by_cases h : x = y
      · rw [if_pos h, if_pos h.symm]
      · rw [if_neg h, if_neg (Ne.symm h)]

/-- Words with a common beginning match there. -/
theorem matchingBitsLength_append (p a b : List Bool) :
    matchingBitsLength (p ++ a) (p ++ b) = p.length + matchingBitsLength a b := by
  induction p with
  | nil => simp
  | cons x p ih =>
    rw [List.cons_append, List.cons_append, matchingBitsLength, if_pos rfl, ih, List.length_cons]
    omega

/-- A beginning matches as far as it goes. -/
theorem matchingBitsLength_of_isPrefix {p k : List Bool} (h : p <+: k) :
    matchingBitsLength k p = p.length := by
  obtain ⟨r, rfl⟩ := h
  have happend := matchingBitsLength_append p r []
  rw [List.append_nil] at happend
  rw [happend]
  cases r <;> rfl

/-- Words of one length match up to a place where they differ. -/
theorem exists_matchingBits {k w : List Bool} (hlen : k.length = w.length) (hne : k ≠ w) :
    ∃ p b r r', k = p ++ b :: r ∧ w = p ++ (!b) :: r' ∧ matchingBitsLength k w = p.length := by
  induction k generalizing w with
  | nil =>
    rw [List.length_nil, eq_comm, List.length_eq_zero_iff] at hlen
    exact absurd hlen.symm hne
  | cons x k ih =>
    rcases w with _ | ⟨y, w⟩
    · cases hlen
    · by_cases h : x = y
      · subst h
        obtain ⟨p, b, r, r', hk, hw, hmatch⟩ :=
          ih (Nat.succ.inj hlen) fun heq => hne (by rw [heq])
        exact ⟨x :: p, b, r, r', by rw [hk]; rfl, by rw [hw]; rfl, by
          rw [matchingBitsLength, if_pos rfl, hmatch, List.length_cons]⟩
      · refine ⟨[], x, k, w, rfl, ?_, ?_⟩
        · have hy : y = !x := by
            revert h
            cases x <;> cases y <;> simp
          rw [hy]
          rfl
        · rw [matchingBitsLength, if_neg h]
          rfl

end Tvmjs
