import Mathlib.Data.Nat.Digits.Lemmas
import Mathlib.Data.List.Basic
import Mathlib.Tactic.IntervalCases
import Tvmjs.Util.Account

/-!
# Recursive length prefix

The encoder and the decoder of nested lists of byte strings.

* `RLP.decodeOne_encode_append` -- the decoder reads an encoding back and leaves what follows it;
* `RLP.decode_encode` -- **the round trip** of an encoding shorter than `2 ^ 64` bytes;
* `RLP.encode_injective` -- two inputs with the same such encoding are equal.

A length of `2 ^ 64` or more takes nine bytes, and the prefix byte has room for eight.
-/

namespace Tvmjs

namespace RLP

/-- A byte string or a list of inputs (`Input`, as it is after `toBytes`). -/
inductive Input where
  | bytes (b : Bytes)
  | list (l : List Input)

/-- Why a decoder gives up. -/
inductive RLPError where
  | extraZeros
  | outOfBounds
  | singleByte
  | stringLength
  | shortString
  | shortList
  | totalLength
  | byteSequence
  | remainder
  | fuel
  deriving DecidableEq, Repr

/-- The texts of the errors. -/
def RLPError.message : RLPError → String
  | extraZeros => "invalid RLP: extra zeros"
  | outOfBounds => "invalid RLP (safeSlice): end slice of Uint8Array out-of-bounds"
  | singleByte => "invalid RLP encoding: invalid prefix, single byte < 0x80 are not prefixed"
  | stringLength => "invalid RLP: not enough bytes for string length"
  | shortString => "invalid RLP: expected string length to be greater than 55"
  | shortList => "invalid RLP: encoded list too short"
  | totalLength => "invalid RLP: total length is larger than the data"
  | byteSequence => "Invalid byte sequence"
  | remainder => "invalid RLP: remainder must be zero"
  | fuel => ""

/-! ### Encoding -/

/-- The bytes of a positive number's hexadecimal digits, padded to an even count. -/
def numberToBytes (n : ℕ) : Bytes := ((Nat.digits 256 n).map UInt8.ofNat).reverse

/-- The prefix of a string (`offset` 128) or of a list (`offset` 192). -/
def encodeLength (len offset : ℕ) : Bytes :=
  if len < 56 then [UInt8.ofNat (len + offset)]
  else
    let lLength := (numberToBytes len).length
    numberToBytes (offset + 55 + lLength) ++ numberToBytes len

/-- The encoding of a byte string. -/
def encodeBytes (b : Bytes) : Bytes :=
  match b with
  | [x] => if x < 128 then [x] else encodeLength 1 128 ++ [x]
  | _ => encodeLength b.length 128 ++ b

mutual

/-- The encoding of an input. -/
def encode : Input → Bytes
  | .bytes b => encodeBytes b
  | .list l =>
    let output := encodeAll l
    encodeLength output.length 192 ++ output

/-- The encodings of the members of a list, one after the other. -/
def encodeAll : List Input → Bytes
  | [] => []
  | x :: xs => encode x ++ encodeAll xs

end

/-! ### Decoding -/

/-- The number written by big-endian bytes. -/
def bytesToNumber (v : Bytes) : ℕ := Nat.ofDigits 256 (v.map UInt8.toNat).reverse

/-- A length, which has no leading zero. -/
def decodeLength (v : Bytes) : Except RLPError ℕ :=
  match v with
  | [] => .error .byteSequence
  | x :: _ => if x = 0 then .error .extraZeros else .ok (bytesToNumber v)

/-- The bytes from `start` up to `stop`, which has to lie within the input. -/
def safeSlice (input : Bytes) (start stop : ℕ) : Except RLPError Bytes :=
  if stop > input.length then .error .outOfBounds else .ok ((input.take stop).drop start)

/-- A string of up to 55 bytes. -/
def decodeShortString (firstByte : UInt8) (input : Bytes) (length : ℕ) :
    Except RLPError (Input × Bytes) := do
  let data ← (if firstByte = 0x80 then .ok [] else safeSlice input 1 length)
  if length = 2 ∧ data.headD 0 < 0x80 then .error .singleByte
  else .ok (.bytes data, input.drop length)

/-- A string of more than 55 bytes, whose length stands before position `lLength`. -/
def decodeLongString (input : Bytes) (lLength : ℕ) : Except RLPError (Input × Bytes) :=
  if input.length - 1 < lLength then .error .stringLength
  else do
    let length ← decodeLength (← safeSlice input 1 lLength)
    if length ≤ 55 then .error .shortString
    else do
      let data ← safeSlice input lLength (length + lLength)
      .ok (.bytes data, input.drop (length + lLength))

/-- Where the members of a list of more than 55 bytes end. -/
def longListEnd (input : Bytes) (lLength : ℕ) : Except RLPError ℕ := do
  let length ← decodeLength (← safeSlice input 1 lLength)
  if length < 56 then .error .shortList
  else if lLength + length > input.length then .error .totalLength
  else .ok (lLength + length)

mutual

/-- Decode the first input of a byte string and return it with the bytes that follow it.  The
fuel bounds the nesting and the number of members; twice the number of bytes is enough. -/
def decodeOne : ℕ → Bytes → Except RLPError (Input × Bytes)
  | 0, _ => .error .fuel
  | _ + 1, [] => .error .byteSequence
  | fuel + 1, firstByte :: rest =>
    let input := firstByte :: rest
    if firstByte.toNat ≤ 0x7f then .ok (.bytes [firstByte], rest)
    else if firstByte.toNat ≤ 0xb7 then
      decodeShortString firstByte input (firstByte.toNat - 0x7f)
    else if firstByte.toNat ≤ 0xbf then decodeLongString input (firstByte.toNat - 0xb6)
    else if firstByte.toNat ≤ 0xf7 then do
      let length := firstByte.toNat - 0xbf
      let decoded ← decodeAll fuel (← safeSlice input 1 length)
      .ok (.list decoded, input.drop length)
    else do
      let lLength := firstByte.toNat - 0xf6
      let totalLength ← longListEnd input lLength
      let decoded ← decodeAll fuel (← safeSlice input lLength totalLength)
      .ok (.list decoded, input.drop totalLength)

/-- Decode inputs until no byte is left. -/
def decodeAll : ℕ → Bytes → Except RLPError (List Input)
  | 0, _ => .error .fuel
  | _ + 1, [] => .ok []
  | fuel + 1, x :: rest => do
    let (d, innerRemainder) ← decodeOne fuel (x :: rest)
    let decoded ← decodeAll fuel innerRemainder
    return d :: decoded

end

/-- Decode a byte string which is one encoding and nothing else. -/
def decode (input : Bytes) : Except RLPError Input :=
  match input with
  | [] => .ok (.bytes [])
  | _ => do
    let (data, rest) ← decodeOne (2 * input.length) input
    if rest.length ≠ 0 then .error .remainder else .ok data

/-! ### Lengths -/

theorem numberToBytes_of_lt {n : ℕ} (h0 : 0 < n) (h : n < 256) :
    numberToBytes n = [UInt8.ofNat n] := by
  simp [numberToBytes, Nat.digits_of_lt 256 n h0.ne' h]

private theorem length_numberToBytes_pos {n : ℕ} (h : 0 < n) : 0 < (numberToBytes n).length := by
  simp [numberToBytes, List.length_pos_iff, Nat.digits_ne_nil_iff_ne_zero, h.ne']

private theorem length_numberToBytes_le {n : ℕ} (h : n < 2 ^ 64) :
    (numberToBytes n).length ≤ 8 := by
  rw [numberToBytes, List.length_reverse, List.length_map]
  exact (Nat.digits_length_le_iff (by norm_num) n).2 (by norm_num; omega)

/-- The digits of a number read back as the number. -/
theorem bytesToNumber_numberToBytes (n : ℕ) : bytesToNumber (numberToBytes n) = n := by
  have hdigits : ((Nat.digits 256 n).map UInt8.ofNat).map UInt8.toNat = Nat.digits 256 n := by
    rw [List.map_map]
    refine (List.map_congr_left fun d hd => ?_).trans (List.map_id _)
    exact UInt8.toNat_ofNat_of_lt' (Nat.digits_lt_base (by norm_num) hd)
  rw [bytesToNumber, numberToBytes, List.map_reverse, List.reverse_reverse, hdigits,
    Nat.ofDigits_digits]

/-- The first digit of a positive number is not zero. -/
theorem decodeLength_numberToBytes {n : ℕ} (h : 0 < n) :
    decodeLength (numberToBytes n) = .ok n := by
  have hne : Nat.digits 256 n ≠ [] := Nat.digits_ne_nil_iff_ne_zero.2 h.ne'
  have hlast := Nat.getLast_digit_ne_zero 256 h.ne'
  have hlt : (Nat.digits 256 n).getLast hne < 256 :=
    Nat.digits_lt_base (by norm_num) (List.getLast_mem hne)
  have hhead : (numberToBytes n).head? = some (UInt8.ofNat ((Nat.digits 256 n).getLast hne)) := by
    rw [numberToBytes, List.head?_reverse, List.getLast?_map,
      List.getLast?_eq_getLast_of_ne_nil hne]
    rfl
  obtain ⟨x, v, hv⟩ : ∃ x v, numberToBytes n = x :: v :=
    List.exists_cons_of_length_pos (length_numberToBytes_pos h)
  have hx : x ≠ 0 := by
    rw [hv, List.head?_cons, Option.some.injEq] at hhead
    intro h0
    apply hlast
    have := congrArg UInt8.toNat (hhead.symm.trans h0)
    rwa [UInt8.toNat_ofNat_of_lt' hlt] at this
  rw [hv, decodeLength, if_neg hx, ← hv, bytesToNumber_numberToBytes]

theorem encodeLength_of_lt {len : ℕ} (h : len < 56) (offset : ℕ) :
    encodeLength len offset = [UInt8.ofNat (len + offset)] := if_pos h

/-- A long length below `2 ^ 64` is one prefix byte and at most eight bytes of length. -/
private theorem encodeLength_of_le {len offset : ℕ} (h : 56 ≤ len) (h64 : len < 2 ^ 64)
    (ho : offset ≤ 192) :
    encodeLength len offset =
      UInt8.ofNat (offset + 55 + (numberToBytes len).length) :: numberToBytes len := by
  have hle := length_numberToBytes_le h64
  rw [encodeLength, if_neg (by omega)]
  simp only
  rw [numberToBytes_of_lt (by omega) (by omega)]
  rfl

private theorem length_encodeLength_pos (len offset : ℕ) :
    0 < (encodeLength len offset).length := by
  rw [encodeLength]
  split
  · simp
  · rw [List.length_append]
    have := length_numberToBytes_pos (n := len) (by omega)
    omega

private theorem length_encodeBytes_pos (b : Bytes) : 0 < (encodeBytes b).length := by
  unfold encodeBytes
  split
  · split <;> simp
  · rw [List.length_append]
    have := length_encodeLength_pos b.length 128
    omega

private theorem length_le_encodeBytes (b : Bytes) : b.length ≤ (encodeBytes b).length := by
  unfold encodeBytes
  split
  · split <;> simp
  · simp

private theorem length_encodeLength_le {len : ℕ} (offset : ℕ) (h64 : len < 2 ^ 64)
    (ho : offset ≤ 192) :
    (encodeLength len offset).length ≤ 9 := by
  by_cases h : len < 56
  · rw [encodeLength_of_lt h]
    simp
  · have := length_numberToBytes_le h64
    rw [encodeLength_of_le (not_lt.1 h) h64 ho, List.length_cons]
    omega

theorem length_encodeBytes_le {b : Bytes} (h64 : b.length < 2 ^ 64) :
    (encodeBytes b).length ≤ b.length + 9 := by
  have h := length_encodeLength_le 128 h64 (by norm_num)
  unfold encodeBytes
  split
  · rename_i x
    have h1 : (encodeLength 1 128).length ≤ 9 := h
    split
    · simp
    · rw [List.length_append, List.length_singleton]
      omega
  · rw [List.length_append]
    omega

theorem length_encode_list_le {l : List Input} (h64 : (encodeAll l).length < 2 ^ 64) :
    (encode (.list l)).length ≤ (encodeAll l).length + 9 := by
  have h := length_encodeLength_le 192 h64 le_rfl
  rw [encode, List.length_append]
  omega

theorem length_encodeAll_le {l : List Input} {M : ℕ} (h : ∀ x ∈ l, (encode x).length ≤ M) :
    (encodeAll l).length ≤ l.length * M := by
  induction l with
  | nil => exact Nat.zero_le _
  | cons x l ih =>
    have hx := h x List.mem_cons_self
    have hl := ih fun y hy => h y (List.mem_cons_of_mem x hy)
    rw [encodeAll, List.length_append, List.length_cons, Nat.succ_mul]
    omega

theorem encodeAll_append (l l' : List Input) :
    encodeAll (l ++ l') = encodeAll l ++ encodeAll l' := by
  induction l with
  | nil => rfl
  | cons x l ih => rw [List.cons_append, encodeAll, encodeAll, ih, List.append_assoc]

/-- Every encoding has a byte. -/
theorem length_encode_pos (x : Input) : 0 < (encode x).length := by
  cases x with
  | bytes b => exact length_encodeBytes_pos b
  | list l =>
    rw [encode, List.length_append]
    have := length_encodeLength_pos (encodeAll l).length 192
    omega

/-! ### The round trip -/

private theorem safeSlice_append (p x r : Bytes) {start stop : ℕ} (hp : p.length = start)
    (hx : start + x.length = stop) : safeSlice (p ++ (x ++ r)) start stop = .ok x := by
  subst hp hx
  rw [safeSlice, if_neg (by simp), ← List.append_assoc, List.take_left' (by simp)]
  simp

/-- A prefix byte, a length and the bytes it counts. -/
private theorem safeSlice_cons_append (b : UInt8) (p x r : Bytes) {start stop : ℕ}
    (hp : p.length + 1 = start) (hx : start + x.length = stop) :
    safeSlice (b :: (p ++ (x ++ r))) start stop = .ok x :=
  safeSlice_append (b :: p) x r hp hx

/-- The prefix byte of a short or long encoding. -/
private theorem toNat_prefix {n : ℕ} (h : n < 256) : (UInt8.ofNat n).toNat = n :=
  UInt8.toNat_ofNat_of_lt' h

/-- A string of up to 55 bytes, not a single byte which is its own encoding. -/
private theorem decodeOne_shortString {b : Bytes} (r : Bytes) (fuel : ℕ) (hlt : b.length < 56)
    (hone : ∀ x, b = [x] → ¬ x < 128) :
    decodeOne (fuel + 1) (UInt8.ofNat (b.length + 128) :: (b ++ r)) = .ok (.bytes b, r) := by
  have hb := toNat_prefix (show b.length + 128 < 256 by omega)
  have hsub : b.length + 128 - 0x7f = b.length + 1 := by omega
  rw [decodeOne]
  simp only [hb, hsub]
  rw [if_neg (by omega), if_pos (by omega), decodeShortString]
  have hdata : (if UInt8.ofNat (b.length + 128) = 0x80 then .ok []
      else safeSlice (UInt8.ofNat (b.length + 128) :: (b ++ r)) 1 (b.length + 1)) =
        (.ok b : Except RLPError Bytes) := by
    split
    · rename_i h0
      have hlen : b.length = 0 := by
        have := congrArg UInt8.toNat h0
        rw [hb] at this
        simpa using this
      rw [List.eq_nil_of_length_eq_zero hlen]
    · exact safeSlice_cons_append _ [] b r rfl (by omega)
  have hsingle : ¬ (b.length + 1 = 2 ∧ b.headD 0 < 0x80) := by
    rintro ⟨hlen, hx⟩
    obtain ⟨x, rfl⟩ := List.length_eq_one_iff.1 (Nat.succ.inj hlen)
    exact hone x rfl hx
  rw [hdata]
  change (if _ then _ else _) = _
  rw [if_neg hsingle, List.drop_succ_cons, List.drop_left]

/-- What the decoder sees of an input with a long length: where the length ends and what it is. -/
private theorem longLength {b : Bytes} (offset : ℕ) (r : Bytes) (hle : 56 ≤ b.length) :
    let l := numberToBytes b.length
    let input := UInt8.ofNat (offset + 55 + l.length) :: (l ++ (b ++ r))
    safeSlice input 1 (l.length + 1) = .ok l ∧ decodeLength l = .ok b.length ∧
      safeSlice input (l.length + 1) (l.length + 1 + b.length) = .ok b ∧
      input.drop (l.length + 1 + b.length) = r := by
  intro l input
  refine ⟨safeSlice_cons_append _ [] l (b ++ r) rfl (by omega),
    decodeLength_numberToBytes (by omega), safeSlice_cons_append _ l b r rfl rfl, ?_⟩
  rw [← List.drop_drop, List.drop_succ_cons, List.drop_left, List.drop_left]

/-- A string of 56 bytes or more. -/
private theorem decodeOne_longString {b : Bytes} (r : Bytes) (fuel : ℕ) (hle : 56 ≤ b.length)
    (h64 : b.length < 2 ^ 64) :
    decodeOne (fuel + 1) (UInt8.ofNat (128 + 55 + (numberToBytes b.length).length) ::
      (numberToBytes b.length ++ (b ++ r))) = .ok (.bytes b, r) := by
  have hl8 := length_numberToBytes_le h64
  have hl0 := length_numberToBytes_pos (n := b.length) (by omega)
  obtain ⟨hlen, hdec, hdata, hdrop⟩ := longLength 128 r hle
  generalize numberToBytes b.length = l at *
  have hb := toNat_prefix (show 128 + 55 + l.length < 256 by omega)
  have hsub : 128 + 55 + l.length - 0xb6 = l.length + 1 := by omega
  rw [decodeOne]
  simp only [hb, hsub]
  rw [if_neg (by omega), if_neg (by omega), if_pos (by omega), decodeLongString,
    if_neg (show ¬ (UInt8.ofNat (128 + 55 + l.length) :: (l ++ (b ++ r))).length - 1 <
      l.length + 1 by simp only [List.length_cons, List.length_append]; omega), hlen]
  change (decodeLength l).bind _ = _
  rw [hdec]
  change (if _ then _ else _) = _
  rw [if_neg (by omega), Nat.add_comm b.length, hdata, hdrop]
  rfl

private theorem decodeOne_encodeBytes_append (b r : Bytes) (fuel : ℕ) (h64 : b.length < 2 ^ 64) :
    decodeOne (fuel + 1) (encodeBytes b ++ r) = .ok (.bytes b, r) := by
  by_cases hone : ∃ x, b = [x] ∧ x < 128
  · obtain ⟨x, rfl, hx⟩ := hone
    have hle : x.toNat ≤ 0x7f := by
      have := UInt8.lt_iff_toNat_lt.1 hx
      simpa using Nat.le_of_lt_succ this
    have henc : encodeBytes [x] = [x] := if_pos hx
    rw [henc, List.singleton_append, decodeOne]
    exact if_pos hle
  · have henc : encodeBytes b = encodeLength b.length 128 ++ b := by
      unfold encodeBytes
      split
      · rename_i x
        rw [if_neg fun hx => hone ⟨x, rfl, hx⟩]
        rfl
      · rfl
    rw [henc]
    by_cases hlt : b.length < 56
    · rw [encodeLength_of_lt hlt, List.singleton_append, List.cons_append]
      exact decodeOne_shortString r fuel hlt fun x hb hx => hone ⟨x, hb, hx⟩
    · rw [encodeLength_of_le (not_lt.1 hlt) h64 (by norm_num), List.cons_append,
        List.cons_append, List.append_assoc]
      exact decodeOne_longString r fuel (not_lt.1 hlt) h64

/-- A list whose members take `out`, which decodes to them. -/
private theorem decodeOne_list {out : Bytes} {l : List Input} (r : Bytes) {fuel : ℕ}
    (h64 : out.length < 2 ^ 64) (hout : decodeAll fuel out = .ok l) :
    decodeOne (fuel + 1) (encodeLength out.length 192 ++ (out ++ r)) = .ok (.list l, r) := by
  by_cases hlt : out.length < 56
  · have hb := toNat_prefix (show out.length + 192 < 256 by omega)
    have hsub : out.length + 192 - 0xbf = out.length + 1 := by omega
    rw [encodeLength_of_lt hlt, List.singleton_append, decodeOne]
    simp only [hb, hsub]
    have hdata : safeSlice (UInt8.ofNat (out.length + 192) :: (out ++ r)) 1 (out.length + 1) =
        .ok out := safeSlice_cons_append _ [] out r rfl (by omega)
    rw [if_neg (by omega), if_neg (by omega), if_neg (by omega), if_pos (by omega), hdata]
    change (decodeAll fuel out).bind _ = _
    rw [hout, List.drop_succ_cons, List.drop_left]
    rfl
  · have hle := not_lt.1 hlt
    have hl8 := length_numberToBytes_le h64
    have hl0 := length_numberToBytes_pos (n := out.length) (by omega)
    rw [encodeLength_of_le hle h64 (by norm_num), List.cons_append]
    obtain ⟨hlen, hdec, hdata, hdrop⟩ := longLength 192 r hle
    generalize numberToBytes out.length = p at *
    have hb := toNat_prefix (show 192 + 55 + p.length < 256 by omega)
    have hsub : 192 + 55 + p.length - 0xf6 = p.length + 1 := by omega
    have hend : longListEnd (UInt8.ofNat (192 + 55 + p.length) :: (p ++ (out ++ r)))
        (p.length + 1) = .ok (p.length + 1 + out.length) := by
      rw [longListEnd, hlen]
      change (decodeLength p).bind _ = _
      rw [hdec]
      change (if _ then _ else _) = _
      rw [if_neg (by omega), if_neg (by simp; omega)]
    rw [decodeOne]
    simp only [hb, hsub]
    rw [if_neg (by omega), if_neg (by omega), if_neg (by omega), if_neg (by omega), hend]
    change (safeSlice _ _ _).bind _ = _
    rw [hdata]
    change (decodeAll fuel out).bind _ = _
    rw [hout, hdrop]
    rfl

mutual

/-- The decoder reads an encoding back and leaves what follows it. -/
theorem decodeOne_encode_append : ∀ (x : Input) (r : Bytes) (fuel : ℕ),
    (encode x).length < 2 ^ 64 → 2 * (encode x).length ≤ fuel →
    decodeOne fuel (encode x ++ r) = .ok (x, r)
  | .bytes b, r, fuel, h64, hfuel => by
    have hpos := length_encodeBytes_pos b
    obtain ⟨n, rfl⟩ : ∃ n, fuel = n + 1 := ⟨fuel - 1, by rw [encode] at hfuel; omega⟩
    rw [encode] at h64 ⊢
    exact decodeOne_encodeBytes_append b r n (lt_of_le_of_lt (length_le_encodeBytes b) h64)
  | .list l, r, fuel, h64, hfuel => by
    rw [encode, List.length_append] at h64 hfuel
    have hpos := length_encodeLength_pos (encodeAll l).length 192
    obtain ⟨n, rfl⟩ : ∃ n, fuel = n + 1 := ⟨fuel - 1, by omega⟩
    rw [encode, List.append_assoc]
    exact decodeOne_list r (by omega) (decodeAll_encodeAll l n (by omega) (by omega))

private theorem decodeAll_encodeAll : ∀ (l : List Input) (fuel : ℕ),
    (encodeAll l).length < 2 ^ 64 → 2 * (encodeAll l).length + 1 ≤ fuel →
    decodeAll fuel (encodeAll l) = .ok l
  | [], fuel, _, hfuel => by
    obtain ⟨n, rfl⟩ : ∃ n, fuel = n + 1 := ⟨fuel - 1, by omega⟩
    rfl
  | x :: xs, fuel, h64, hfuel => by
    rw [encodeAll, List.length_append] at h64 hfuel
    have hpos := length_encode_pos x
    obtain ⟨n, rfl⟩ : ∃ n, fuel = n + 1 := ⟨fuel - 1, by omega⟩
    obtain ⟨b, bs, hb⟩ := List.exists_cons_of_length_pos hpos
    rw [encodeAll, hb, List.cons_append, decodeAll, ← List.cons_append, ← hb,
      decodeOne_encode_append x (encodeAll xs) n (by omega) (by omega)]
    change (decodeAll n (encodeAll xs)).bind _ = _
    rw [decodeAll_encodeAll xs n (by omega) (by omega)]
    rfl

end

/-- **The round trip.** -/
theorem decode_encode {x : Input} (h64 : (encode x).length < 2 ^ 64) :
    decode (encode x) = .ok x := by
  obtain ⟨b, bs, hb⟩ := List.exists_cons_of_length_pos (length_encode_pos x)
  have hone := decodeOne_encode_append x [] _ h64 le_rfl
  rw [List.append_nil] at hone
  have hdecode : decode (encode x) =
      (decodeOne (2 * (encode x).length) (encode x)).bind fun p =>
        if p.2.length ≠ 0 then .error .remainder else .ok p.1 := by
    rw [hb]
    rfl
  rw [hdecode, hone]
  rfl

/-- An encoding determines the input. -/
theorem encode_injective {x y : Input} (h64 : (encode x).length < 2 ^ 64)
    (h : encode x = encode y) : x = y := by
  have hx := decode_encode h64
  rw [h] at h64 hx
  exact Except.ok.inj (hx.symm.trans (decode_encode h64))

end RLP

end Tvmjs
