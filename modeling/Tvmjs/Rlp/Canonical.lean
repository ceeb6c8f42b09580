import Tvmjs.Rlp.Codec

/-!
# Canonicity of the recursive length prefix

Whatever the decoder accepts is an encoding, so that no input has two of them.

* `RLP.eq_encode_of_decodeOne` -- what is read off the front of a byte string is the encoding of
  the result;
* `RLP.decode_ne_fuel` -- the decoder's own bound on its recursion is never reached;
* `RLP.decode_eq_iff` -- **a byte string decodes to an input exactly when it is its encoding**.
-/

namespace Tvmjs

namespace RLP

/-- Decode the first encoding of a stream: the input and the bytes that follow it (`decode` with
`stream` set).  A stream of no bytes gives no remainder. -/
def decodeStream (input : Bytes) : Except RLPError (Input × Bytes) :=
  match input with
  | [] => .ok (.bytes [], [])
  | _ => decodeOne (2 * input.length) input

/-! ### What was accepted -/

theorem bind_eq_ok {α β : Type} {x : Except RLPError α} {f : α → Except RLPError β} {b : β} :
    (x >>= f) = .ok b ↔ ∃ a, x = .ok a ∧ f a = .ok b := by
  cases x with
  | error e =>
    constructor
    · intro h
      cases h
    · rintro ⟨a, ha, -⟩
      cases ha
  | ok a =>
    constructor
    · intro h
      exact ⟨a, rfl, h⟩
    · rintro ⟨a', ha, h⟩
      obtain rfl := Except.ok.inj ha
      exact h

/-- An accepted slice lies within the input. -/
private theorem safeSlice_eq_ok {input x : Bytes} {start stop : ℕ}
    (h : safeSlice input start stop = .ok x) :
    stop ≤ input.length ∧ x = (input.take stop).drop start := by
  rw [safeSlice] at h
  split at h
  · cases h
  · rename_i hle
    exact ⟨not_lt.1 hle, (Except.ok.inj h).symm⟩

/-- A slice begun where another part of the input ends. -/
private theorem safeSlice_append_eq_ok {p r x : Bytes} {start n : ℕ} (hp : p.length = start)
    (h : safeSlice (p ++ r) start (start + n) = .ok x) :
    x.length = n ∧ r = x ++ (p ++ r).drop (start + n) := by
  obtain ⟨hle, hx⟩ := safeSlice_eq_ok h
  subst hp
  have hr : x = r.take n := by
    rw [hx, List.take_length_add_append, List.drop_left]
  rw [List.length_append] at hle
  refine ⟨?_, ?_⟩
  · rw [hr, List.length_take]
    omega
  · rw [hr, ← List.drop_drop, List.drop_left, List.take_append_drop]

/-- **An accepted length is written as the encoder writes it.** -/
theorem eq_numberToBytes_of_decodeLength {v : Bytes} {n : ℕ} (h : decodeLength v = .ok n) :
    v = numberToBytes n := by
  cases v with
  | nil => cases h
  | cons x v =>
    rw [decodeLength] at h
    split at h
    · cases h
    · rename_i hx
      obtain rfl := Except.ok.inj h
      have hdigits : Nat.digits 256 (bytesToNumber (x :: v)) =
          ((x :: v).map UInt8.toNat).reverse := by
        refine Nat.digits_ofDigits 256 (by norm_num) _ (fun d hd => ?_) fun hne => ?_
        · obtain ⟨y, -, rfl⟩ := List.mem_map.1 (List.mem_reverse.1 hd)
          exact y.toNat_lt
        · rw [List.getLast_reverse]
          intro h0
          exact hx (UInt8.toNat_inj.1 h0)
      rw [numberToBytes, hdigits, List.map_reverse, List.reverse_reverse, List.map_map]
      refine (List.map_id _).symm.trans (List.map_congr_left fun y _ => ?_)
      exact UInt8.ofNat_toNat.symm

/-- The two prefixes of an encoding, up to 55 bytes and beyond. -/
private theorem encodeLength_eq_cons {b : UInt8} {n offset : ℕ} (hn : n < 56)
    (hb : b.toNat = n + offset) : encodeLength n offset = [b] := by
  rw [encodeLength_of_lt hn, ← hb, UInt8.ofNat_toNat]

private theorem encodeLength_eq_cons_length {b : UInt8} {n offset : ℕ} {v : Bytes} (hn : 56 ≤ n)
    (hv : v = numberToBytes n) (hb : b.toNat = offset + 55 + v.length) (ho : 0 < offset) :
    encodeLength n offset = b :: v := by
  have hbyte : numberToBytes (offset + 55 + v.length) = [b] := by
    rw [← hb, numberToBytes_of_lt (by omega) b.toNat_lt, UInt8.ofNat_toNat]
  rw [encodeLength, if_neg (by omega)]
  simp only
  rw [← hv, hbyte, List.singleton_append]

/-- A string with its prefix, unless it is a byte which needs none. -/
private theorem encodeBytes_eq {b : Bytes} (h : ¬ (b.length = 1 ∧ b.headD 0 < 0x80)) :
    encodeBytes b = encodeLength b.length 128 ++ b := by
  unfold encodeBytes
  split
  · rename_i x
    have hx : ¬ x < 128 := fun hx => h ⟨rfl, hx⟩
    rw [if_neg hx]
    rfl
  · rfl

/-- An accepted string of up to 55 bytes. -/
private theorem eq_encode_of_decodeShortString {b : UInt8} {rest r : Bytes} {x : Input}
    (hlo : 0x80 ≤ b.toNat) (hhi : b.toNat ≤ 0xb7)
    (h : decodeShortString b (b :: rest) (b.toNat - 0x7f) = .ok (x, r)) :
    b :: rest = encode x ++ r := by
  obtain ⟨data, hdata, h⟩ := bind_eq_ok.1 h
  obtain ⟨n, hn⟩ : ∃ n, b.toNat = n + 0x80 := ⟨b.toNat - 0x80, by omega⟩
  have hlen : b.toNat - 0x7f = 1 + n := by omega
  have hsplit : data.length = n ∧ rest = data ++ (b :: rest).drop (1 + n) := by
    split at hdata
    · rename_i h0
      obtain rfl := Except.ok.inj hdata
      obtain rfl : n = 0 := by
        rw [h0] at hn
        simpa using hn
      exact ⟨rfl, rfl⟩
    · rw [hlen] at hdata
      exact safeSlice_append_eq_ok (p := [b]) (r := rest) rfl hdata
  split at h
  · cases h
  · rename_i hsingle
    obtain ⟨rfl, rfl⟩ := Prod.mk.inj (Except.ok.inj h)
    have hbyte : ¬ (data.length = 1 ∧ data.headD 0 < 0x80) := fun h1 =>
      hsingle ⟨by omega, h1.2⟩
    rw [encode, encodeBytes_eq hbyte, encodeLength_eq_cons (b := b) (by omega) (by omega), hlen]
    exact congrArg (b :: ·) hsplit.2

/-- An accepted string of more than 55 bytes. -/
private theorem eq_encode_of_decodeLongString {b : UInt8} {rest r : Bytes} {x : Input}
    (hlo : 0xb8 ≤ b.toNat)
    (h : decodeLongString (b :: rest) (b.toNat - 0xb6) = .ok (x, r)) :
    b :: rest = encode x ++ r := by
  obtain ⟨m, hm⟩ : ∃ m, b.toNat = m + 0xb7 := ⟨b.toNat - 0xb7, by omega⟩
  have hpos : b.toNat - 0xb6 = 1 + m := by omega
  rw [decodeLongString, hpos] at h
  split at h
  · cases h
  obtain ⟨v, hv, h⟩ := bind_eq_ok.1 h
  obtain ⟨n, hn, h⟩ := bind_eq_ok.1 h
  split at h
  · cases h
  rename_i h55
  obtain ⟨data, hdata, h⟩ := bind_eq_ok.1 h
  obtain ⟨rfl, rfl⟩ := Prod.mk.inj (Except.ok.inj h)
  obtain ⟨hvlen, hrest⟩ := safeSlice_append_eq_ok (p := [b]) (r := rest) rfl hv
  have hnum := eq_numberToBytes_of_decodeLength hn
  have hsplit : b :: rest = (b :: v) ++ ([b] ++ rest).drop (1 + m) := congrArg (b :: ·) hrest
  rw [hsplit, Nat.add_comm n] at hdata
  obtain ⟨hdlen, htail⟩ := safeSlice_append_eq_ok (p := b :: v) (by simp [hvlen, Nat.add_comm])
    hdata
  rw [← hsplit] at htail
  have hbyte : ¬ (data.length = 1 ∧ data.headD 0 < 0x80) := fun h1 => by omega
  rw [encode, encodeBytes_eq hbyte, hdlen,
    encodeLength_eq_cons_length (b := b) (by omega) hnum (by omega) (by norm_num), Nat.add_comm n]
  conv_lhs => rw [hsplit, htail]
  simp

/-- An accepted prefix of a list of more than 55 bytes, and the members it counts. -/
private theorem eq_append_of_longListEnd {b : UInt8} {rest out : Bytes} {total : ℕ}
    (hlo : 0xf8 ≤ b.toNat) (h : longListEnd (b :: rest) (b.toNat - 0xf6) = .ok total)
    (hout : safeSlice (b :: rest) (b.toNat - 0xf6) total = .ok out) :
    b :: rest = encodeLength out.length 192 ++ (out ++ (b :: rest).drop total) := by
  obtain ⟨m, hm⟩ : ∃ m, b.toNat = m + 0xf7 := ⟨b.toNat - 0xf7, by omega⟩
  have hpos : b.toNat - 0xf6 = 1 + m := by omega
  rw [hpos] at h hout
  obtain ⟨v, hv, h⟩ := bind_eq_ok.1 h
  obtain ⟨n, hn, h⟩ := bind_eq_ok.1 h
  split at h
  · cases h
  rename_i h56
  split at h
  · cases h
  obtain rfl := Except.ok.inj h
  obtain ⟨hvlen, hrest⟩ := safeSlice_append_eq_ok (p := [b]) (r := rest) rfl hv
  have hnum := eq_numberToBytes_of_decodeLength hn
  have hsplit : b :: rest = (b :: v) ++ ([b] ++ rest).drop (1 + m) := congrArg (b :: ·) hrest
  rw [hsplit] at hout
  obtain ⟨hdlen, htail⟩ := safeSlice_append_eq_ok (p := b :: v) (by simp [hvlen, Nat.add_comm])
    hout
  rw [← hsplit] at htail
  rw [hdlen, encodeLength_eq_cons_length (b := b) (by omega) hnum (by omega) (by norm_num)]
  conv_lhs => rw [hsplit, htail]

mutual

/-- **What is read off the front of a byte string is the encoding of the result.** -/
theorem eq_encode_of_decodeOne : ∀ {fuel : ℕ} {b r : Bytes} {x : Input},
    decodeOne fuel b = .ok (x, r) → b = encode x ++ r
  | 0, _, _, _, h => by cases h
  | _ + 1, [], _, _, h => by cases h
  | fuel + 1, b :: rest, r, x, h => by
    rw [decodeOne] at h
    simp only at h
    split at h
    · rename_i h7f
      obtain ⟨rfl, rfl⟩ := Prod.mk.inj (Except.ok.inj h)
      have hlt : b < 128 := UInt8.lt_iff_toNat_lt.2 (Nat.lt_succ_of_le h7f)
      have henc : encode (.bytes [b]) = [b] := if_pos hlt
      rw [henc, List.singleton_append]
    rename_i h7f
    split at h
    · rename_i hb7
      exact eq_encode_of_decodeShortString (by omega) hb7 h
    rename_i hb7
    split at h
    · exact eq_encode_of_decodeLongString (by omega) h
    rename_i hbf
    split at h
    · rename_i hf7
      obtain ⟨out, hout, h⟩ := bind_eq_ok.1 h
      obtain ⟨l, hl, h⟩ := bind_eq_ok.1 h
      obtain ⟨rfl, rfl⟩ := Prod.mk.inj (Except.ok.inj h)
      have hlen : b.toNat - 0xbf = 1 + (b.toNat - 0xc0) := by omega
      rw [hlen] at hout
      obtain ⟨hn, hrest⟩ := safeSlice_append_eq_ok (p := [b]) (r := rest) rfl hout
      obtain rfl := eq_encodeAll_of_decodeAll hl
      rw [encode, encodeLength_eq_cons (b := b) (by omega) (by omega), hlen]
      exact congrArg (b :: ·) hrest
    · rename_i hf7
      obtain ⟨total, htotal, h⟩ := bind_eq_ok.1 h
      obtain ⟨out, hout, h⟩ := bind_eq_ok.1 h
      obtain ⟨l, hl, h⟩ := bind_eq_ok.1 h
      obtain ⟨rfl, rfl⟩ := Prod.mk.inj (Except.ok.inj h)
      have hsplit := eq_append_of_longListEnd (by omega) htotal hout
      obtain rfl := eq_encodeAll_of_decodeAll hl
      rw [encode, List.append_assoc]
      exact hsplit

private theorem eq_encodeAll_of_decodeAll : ∀ {fuel : ℕ} {b : Bytes} {l : List Input},
    decodeAll fuel b = .ok l → b = encodeAll l
  | 0, _, _, h => by cases h
  | _ + 1, [], _, h => by
    obtain rfl := Except.ok.inj h
    rfl
  | fuel + 1, b :: rest, l, h => by
    rw [decodeAll] at h
    obtain ⟨⟨x, r⟩, hx, h⟩ := bind_eq_ok.1 h
    obtain ⟨xs, hxs, h⟩ := bind_eq_ok.1 h
    obtain rfl := Except.ok.inj h
    rw [encodeAll, eq_encode_of_decodeOne hx, eq_encodeAll_of_decodeAll hxs]

end

/-! ### The bound on the recursion -/

theorem bind_eq_error {α β : Type} {x : Except RLPError α} {f : α → Except RLPError β}
    {e : RLPError} : (x >>= f) = .error e ↔
      x = .error e ∨ ∃ a, x = .ok a ∧ f a = .error e := by
  cases x with
  | error e' =>
    constructor
    · intro h
      exact .inl (congrArg Except.error (Except.error.inj h))
    · rintro (h | ⟨a, ha, -⟩)
      · obtain rfl := Except.error.inj h
        rfl
      · cases ha
  | ok a =>
    constructor
    · intro h
      exact .inr ⟨a, rfl, h⟩
    · rintro (h | ⟨a', ha, h⟩)
      · cases h
      · obtain rfl := Except.ok.inj ha
        exact h

private theorem safeSlice_ne_fuel (input : Bytes) (start stop : ℕ) :
    safeSlice input start stop ≠ .error .fuel := by
  rw [safeSlice]
  split
  · simp
  · simp

private theorem decodeLength_ne_fuel (v : Bytes) : decodeLength v ≠ .error .fuel := by
  cases v with
  | nil => simp [decodeLength]
  | cons x v =>
    rw [decodeLength]
    split
    · simp
    · simp

private theorem decodeShortString_ne_fuel (b : UInt8) (input : Bytes) (length : ℕ) :
    decodeShortString b input length ≠ .error .fuel := by
  intro h
  rcases bind_eq_error.1 h with h | ⟨data, -, h⟩
  · split at h
    · cases h
    · exact safeSlice_ne_fuel _ _ _ h
  · split at h
    · cases h
    · cases h

private theorem decodeLongString_ne_fuel (input : Bytes) (lLength : ℕ) :
    decodeLongString input lLength ≠ .error .fuel := by
  intro h
  rw [decodeLongString] at h
  split at h
  · cases h
  rcases bind_eq_error.1 h with h | ⟨v, -, h⟩
  · exact safeSlice_ne_fuel _ _ _ h
  rcases bind_eq_error.1 h with h | ⟨n, -, h⟩
  · exact decodeLength_ne_fuel v h
  split at h
  · cases h
  rcases bind_eq_error.1 h with h | ⟨data, -, h⟩
  · exact safeSlice_ne_fuel _ _ _ h
  · cases h

private theorem longListEnd_ne_fuel (input : Bytes) (lLength : ℕ) :
    longListEnd input lLength ≠ .error .fuel := by
  intro h
  rcases bind_eq_error.1 h with h | ⟨v, -, h⟩
  · exact safeSlice_ne_fuel _ _ _ h
  rcases bind_eq_error.1 h with h | ⟨n, -, h⟩
  · exact decodeLength_ne_fuel v h
  split at h
  · cases h
  · split at h
    · cases h
    · cases h

/-- A slice which leaves out a byte is shorter. -/
private theorem length_lt_of_safeSlice {input x : Bytes} {start stop : ℕ} (hstart : 0 < start)
    (hinput : 0 < input.length) (h : safeSlice input start stop = .ok x) :
    x.length < input.length := by
  obtain ⟨hle, rfl⟩ := safeSlice_eq_ok h
  rw [List.length_drop, List.length_take]
  omega

mutual

/-- **The decoder's own bound on its recursion is never reached.** -/
theorem decodeOne_ne_fuel : ∀ {fuel : ℕ} {b : Bytes}, 0 < b.length → 2 * b.length ≤ fuel →
    decodeOne fuel b ≠ .error .fuel
  | 0, b, hpos, hfuel, _ => by omega
  | _ + 1, [], hpos, _, _ => by simp at hpos
  | fuel + 1, b :: rest, hpos, hfuel, h => by
    have hmembers : ∀ {out : Bytes} {start stop : ℕ}, 0 < start →
        safeSlice (b :: rest) start stop = .ok out → decodeAll fuel out ≠ .error .fuel :=
      fun hstart hout => decodeAll_ne_fuel (by
        have hlt := length_lt_of_safeSlice hstart hpos hout
        omega)
    rw [decodeOne] at h
    simp only at h
    split at h
    · cases h
    split at h
    · exact decodeShortString_ne_fuel _ _ _ h
    split at h
    · exact decodeLongString_ne_fuel _ _ h
    rename_i hbf
    split at h
    · rcases bind_eq_error.1 h with h | ⟨out, hout, h⟩
      · exact safeSlice_ne_fuel _ _ _ h
      rcases bind_eq_error.1 h with h | ⟨l, -, h⟩
      · exact hmembers one_pos hout h
      · cases h
    · rename_i hf7
      rcases bind_eq_error.1 h with h | ⟨total, -, h⟩
      · exact longListEnd_ne_fuel _ _ h
      rcases bind_eq_error.1 h with h | ⟨out, hout, h⟩
      · exact safeSlice_ne_fuel _ _ _ h
      rcases bind_eq_error.1 h with h | ⟨l, -, h⟩
      · exact hmembers (by omega) hout h
      · cases h

private theorem decodeAll_ne_fuel : ∀ {fuel : ℕ} {b : Bytes}, 2 * b.length + 1 ≤ fuel →
    decodeAll fuel b ≠ .error .fuel
  | 0, b, hfuel, _ => by omega
  | _ + 1, [], _, h => by cases h
  | fuel + 1, b :: rest, hfuel, h => by
    rw [decodeAll] at h
    rcases bind_eq_error.1 h with h | ⟨⟨x, r⟩, hx, h⟩
    · exact decodeOne_ne_fuel (by simp) (by omega) h
    rcases bind_eq_error.1 h with h | ⟨xs, -, h⟩
    · have hlen := congrArg List.length (eq_encode_of_decodeOne hx)
      have hpos := length_encode_pos x
      rw [List.length_append] at hlen
      exact decodeAll_ne_fuel (by omega) h
    · cases h

end

/-- The recursion of `decode` is always deep enough. -/
theorem decode_ne_fuel (b : Bytes) : decode b ≠ .error .fuel := by
  intro h
  cases b with
  | nil => cases h
  | cons x b =>
    rcases bind_eq_error.1 h with h | ⟨⟨y, r⟩, -, h⟩
    · exact decodeOne_ne_fuel (by simp) le_rfl h
    · change (if r.length ≠ 0 then _ else _) = _ at h
      by_cases hr : r.length ≠ 0
      · rw [if_pos hr] at h
        cases h
      · rw [if_neg hr] at h
        cases h

/-! ### The codec -/

/-- **A byte string decodes to an input exactly when it is its encoding.** -/
theorem decode_eq_iff {b : Bytes} (hb : b ≠ []) (h64 : b.length < 2 ^ 64) (x : Input) :
    decode b = .ok x ↔ b = encode x := by
  constructor
  · intro h
    obtain ⟨y, ys, rfl⟩ := List.exists_cons_of_ne_nil hb
    obtain ⟨⟨d, r⟩, hone, h⟩ := bind_eq_ok.1 h
    change (if r.length ≠ 0 then _ else _) = _ at h
    by_cases hr : r.length ≠ 0
    · rw [if_pos hr] at h
      cases h
    · rw [if_neg hr] at h
      obtain rfl := Except.ok.inj h
      have hnil : r = [] := List.eq_nil_of_length_eq_zero (not_not.1 hr)
      have henc := eq_encode_of_decodeOne hone
      rwa [hnil, List.append_nil] at henc
  · rintro rfl
    exact decode_encode h64

/-- The front of a stream is decoded, the rest is left. -/
private theorem decodeStream_encode_append {x : Input} (h64 : (encode x).length < 2 ^ 64)
    (r : Bytes) :
    decodeStream (encode x ++ r) = .ok (x, r) := by
  obtain ⟨b, bs, hb⟩ := List.exists_cons_of_length_pos (length_encode_pos x)
  have hstream : decodeStream (encode x ++ r) =
      decodeOne (2 * (encode x ++ r).length) (encode x ++ r) := by
    rw [hb]
    rfl
  rw [hstream]
  refine decodeOne_encode_append x r _ h64 ?_
  rw [List.length_append]
  omega

/-- **RLP is a canonical codec** on byte strings shorter than `2 ^ 64`, as every `Uint8Array`
is. -/
theorem decode_canonical :
    (∀ x, (encode x).length < 2 ^ 64 → decode (encode x) = .ok x) ∧
      (∀ x r, (encode x).length < 2 ^ 64 → decodeStream (encode x ++ r) = .ok (x, r)) ∧
      ∀ b, b ≠ [] → b.length < 2 ^ 64 → ∀ x, decode b = .ok x ↔ b = encode x :=
  ⟨fun _ h64 => decode_encode h64, fun _ r h64 => decodeStream_encode_append h64 r,
    fun _ hb h64 x => decode_eq_iff hb h64 x⟩

/-- A list of a byte and of an empty list, alone and before another byte. -/
theorem decode_canonical_nested :
    decode (encode (.list [.bytes [7], .list []])) = .ok (.list [.bytes [7], .list []]) ∧
      decodeStream (encode (.list [.bytes [7], .list []]) ++ [9]) =
        .ok (.list [.bytes [7], .list []], [9]) ∧
      (decode [0xc2, 7, 0xc0] = .ok (.list [.bytes [7], .list []]) ↔
        [0xc2, 7, 0xc0] = encode (.list [.bytes [7], .list []])) :=
  ⟨decode_canonical.1 _ (by decide), decode_canonical.2.1 _ _ (by decide),
    decode_canonical.2.2 _ (by decide) (by decide) _⟩

end RLP

end Tvmjs
