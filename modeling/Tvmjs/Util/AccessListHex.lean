import Mathlib.Data.List.DropRight
import Mathlib.Data.List.TakeWhile
import Tvmjs.Util.AccessListCodec

/-!
# Hex strings of access lists

Bytes in hex and back, with and without leading zeros.

* `hexToBytes_bytesToHex`, `toBytes_hexUnits` -- the hex form of bytes is read back, by the list and
  by the RLP encoder;
* `normalizeHexForRLP_bytesToHex` -- the encoder's form of a slot;
* `padToEvenHex_bigIntToHex`, `parseIndex_indexToHex` -- numbers in hex.
-/

namespace Tvmjs

/-! ### Digits -/

private theorem bytesToHex_cons (x : UInt8) (b : Bytes) :
    lowerHex.bytesToHex (x :: b) =
      hexDigit (x.toNat / 16) :: hexDigit (x.toNat % 16) :: lowerHex.bytesToHex b := rfl

private theorem even_length_bytesToHex (b : Bytes) : (lowerHex.bytesToHex b).length % 2 = 0 := by
  rw [lawful_lowerHex.length_bytesToHex]
  exact Nat.mul_mod_right 2 _

private theorem padToEven_bytesToHex (b : Bytes) :
    padToEven (lowerHex.bytesToHex b) = lowerHex.bytesToHex b := by
  rw [padToEven, if_neg fun h => h (even_length_bytesToHex b)]

private theorem hexDigit_eq_zero_iff : ∀ n < 16, hexDigit n = '0' ↔ n = 0 := by decide

theorem padToEvenHex_bytesToHex (b : Bytes) : padToEvenHex (bytesToHex b) = bytesToHex b := by
  change '0' :: 'x' :: padToEven (lowerHex.bytesToHex b) = _
  rw [padToEven_bytesToHex]
  rfl

theorem normalizeStorageKeyHex_bytesToHex (b : Bytes) :
    normalizeStorageKeyHex (bytesToHex b) = bytesToHex b := by
  rw [normalizeStorageKeyHex]
  split
  · rename_i hnil
    have hb : lowerHex.bytesToHex b = [] := hnil
    rw [bytesToHex, hb]
  · exact padToEvenHex_bytesToHex b

/-- The hex form of bytes is read back. -/
theorem hexToBytes_bytesToHex (b : Bytes) : hexToBytes (bytesToHex b) = some b := by
  have hall : ("0123456789abcdef".toList.all fun c => c.toLower == c) = true := by decide
  have hlower : ∀ c ∈ "0123456789abcdef".toList, c.toLower = c := fun c hc =>
    eq_of_beq (List.all_eq_true.1 hall c hc)
  have hmap : (lowerHex.bytesToHex b).map Char.toLower = lowerHex.bytesToHex b :=
    (List.map_congr_left fun c hc => hlower c (lawful_lowerHex.digits b c hc)).trans (List.map_id _)
  have hprefix : ['0', 'x'].isPrefixOf (bytesToHex b) = true := rfl
  rw [hexToBytes, if_pos hprefix]
  change readHex ((padToEven (lowerHex.bytesToHex b)).map Char.toLower) = _
  rw [padToEven_bytesToHex, hmap]
  exact lawful_lowerHex.hexToBytes_bytesToHex b

/-! ### Leading zeros -/

/-- Leading zero digits are leading zero bytes, but for one that is put back. -/
private theorem dropWhile_bytesToHex (b : Bytes) :
    padToEven ((lowerHex.bytesToHex b).dropWhile (· = '0')) =
        lowerHex.bytesToHex (stripLeadingZeros b) ∧
      ((lowerHex.bytesToHex b).dropWhile (· = '0') = [] ↔ stripLeadingZeros b = []) := by
  induction b with
  | nil => exact ⟨rfl, ⟨fun _ => rfl, fun _ => rfl⟩⟩
  | cons x b ih =>
    have hx : x.toNat < 256 := x.toNat_lt
    have hhigh := hexDigit_eq_zero_iff (x.toNat / 16) (by omega)
    have hlow := hexDigit_eq_zero_iff (x.toNat % 16) (by omega)
    have heven := even_length_bytesToHex b
    rw [bytesToHex_cons]
    by_cases hzero : x = 0
    · have hstrip : stripLeadingZeros (x :: b) = stripLeadingZeros b := by
        rw [stripLeadingZeros, hzero, List.dropWhile_cons_of_pos (by decide)]
        rfl
      have hdigits : hexDigit (x.toNat / 16) = '0' ∧ hexDigit (x.toNat % 16) = '0' := by
        rw [hzero]
        decide
      rw [hstrip, List.dropWhile_cons_of_pos (by simpa using hdigits.1),
        List.dropWhile_cons_of_pos (by simpa using hdigits.2)]
      exact ih
    · have hne : x.toNat ≠ 0 := fun h => hzero (UInt8.toNat_inj.1 h)
      have hstrip : stripLeadingZeros (x :: b) = x :: b := by
        rw [stripLeadingZeros, List.dropWhile_cons_of_neg (by simpa using hzero)]
      rw [hstrip]
      by_cases hfirst : x.toNat / 16 = 0
      · -- an odd number of digits is left
        have hlast : ¬hexDigit (x.toNat % 16) = '0' := fun h => by
          have := hlow.1 h
          omega
        rw [List.dropWhile_cons_of_pos (by simpa using hhigh.2 hfirst),
          List.dropWhile_cons_of_neg (by simpa using hlast), padToEven, List.length_cons,
          if_pos (by omega), bytesToHex_cons, hhigh.2 hfirst]
        exact ⟨rfl, iff_of_false (List.cons_ne_nil _ _) (List.cons_ne_nil _ _)⟩
      · rw [List.dropWhile_cons_of_neg (by simpa using mt hhigh.1 hfirst), padToEven,
          List.length_cons, List.length_cons, if_neg (by omega)]
        exact ⟨rfl, iff_of_false (List.cons_ne_nil _ _) (List.cons_ne_nil _ _)⟩

theorem normalizeHexForRLP_bytesToHex (b : Bytes) :
    (stripLeadingZeros b = [] ∧ normalizeHexForRLP (bytesToHex b) = .bytes []) ∨
      normalizeHexForRLP (bytesToHex b) = .hex (bytesToHex (stripLeadingZeros b)) := by
  obtain ⟨hpad, hnil⟩ := dropWhile_bytesToHex b
  rw [normalizeHexForRLP]
  change (_ ∧ (if (lowerHex.bytesToHex b).dropWhile (· = '0') = [] then _ else _) = _) ∨
    (if (lowerHex.bytesToHex b).dropWhile (· = '0') = [] then _ else _) = _
  by_cases h : stripLeadingZeros b = []
  · exact Or.inl ⟨h, if_pos (hnil.2 h)⟩
  · refine Or.inr ((if_neg (mt hnil.1 h)).trans ?_)
    exact congrArg (fun s => HexOrBytes.hex ('0' :: 'x' :: s)) hpad

theorem toBytes_normalizeHexForRLP (b : Bytes) :
    (normalizeHexForRLP (bytesToHex b)).toBytes = stripLeadingZeros b := by
  obtain ⟨hnil, h⟩ | h := normalizeHexForRLP_bytesToHex b
  · rw [h, hnil]
    rfl
  · rw [h, HexOrBytes.toBytes, hexToBytes_bytesToHex]
    rfl

theorem normalizeQuantityHexForRLP_bytesToHex (b : Bytes) :
    normalizeQuantityHexForRLP (bytesToHex b) = bytesToHex (stripLeadingZeros b) := by
  obtain ⟨hpad, hnil⟩ := dropWhile_bytesToHex b
  rw [normalizeQuantityHexForRLP]
  change (if (lowerHex.bytesToHex b).dropWhile (· = '0') = [] then _ else _) = _
  by_cases h : stripLeadingZeros b = []
  · rw [if_pos (hnil.2 h), h]
    rfl
  · rw [if_neg (mt hnil.1 h)]
    exact congrArg (fun s => '0' :: 'x' :: s) hpad

theorem stripLeadingZeros_idem (b : Bytes) :
    stripLeadingZeros (stripLeadingZeros b) = stripLeadingZeros b :=
  List.dropWhile_idempotent _ b

/-! ### The encoder's strings -/

private theorem hexUnits_cons (c : Char) (s : PrefixedHexString) :
    hexUnits (c :: s) = JSString.units c.toNat ++ hexUnits s := rfl

private theorem hexUnits_bytesToHex (b : Bytes) :
    hexUnits (lowerHex.bytesToHex b) = hexOfBytes b := by
  have hunits : ∀ n < 16, JSString.units (hexDigit n).toNat = [JSString.digit n] := by decide
  induction b with
  | nil => rfl
  | cons x b ih =>
    have hx : x.toNat < 256 := x.toNat_lt
    rw [bytesToHex_cons, hexUnits_cons, hexUnits_cons, ih, hunits _ (by omega), hunits _ (by omega)]
    rfl

private theorem hexPairs_hexOfBytes (b : Bytes) (i : ℕ) :
    RLP.hexPairs (hexOfBytes b) i = .ok b := by
  have hdigit : ∀ n < 16, RLP.asciiToBase16 (JSString.digit n) = some n := by decide
  induction b generalizing i with
  | nil => rfl
  | cons x b ih =>
    have hx : x.toNat < 256 := x.toNat_lt
    have hsum : x.toNat / 16 * 16 + x.toNat % 16 = x.toNat := by omega
    change RLP.hexPairs (JSString.digit (x.toNat / 16) :: JSString.digit (x.toNat % 16) ::
      hexOfBytes b) i = _
    rw [RLP.hexPairs, hdigit _ (by omega), hdigit _ (by omega)]
    dsimp only
    rw [ih, hsum, UInt8.ofNat_toNat]
    rfl

/-- The encoder reads the hex form of bytes as the bytes. -/
theorem toBytes_hexUnits (b : Bytes) : RLP.toBytes (.str (hexUnits (bytesToHex b))) = .ok b := by
  have hunits : hexUnits (bytesToHex b) = 48 :: 120 :: hexOfBytes b := by
    rw [← hexUnits_bytesToHex]
    rfl
  have heven : RLP.padToEven (hexOfBytes b) = hexOfBytes b := by
    rw [RLP.padToEven, length_hexOfBytes, if_neg (by omega)]
  have hplain : ¬(hexOfBytes b).take 2 = [48, 120] := by
    cases b with
    | nil => exact nofun
    | cons x b =>
      have hx : x.toNat < 256 := x.toNat_lt
      have hdigit : ∀ n < 16, JSString.digit n ≠ 120 := by decide
      intro h
      exact hdigit (x.toNat % 16) (by omega) (List.cons.inj (List.cons.inj h).2).1
  have hprefix : RLP.isHexString (48 :: 120 :: hexOfBytes b) = true := rfl
  rw [hunits, RLP.toBytes, if_pos hprefix, RLP.stripHexPrefix, if_pos hprefix]
  change RLP.hexToBytes (RLP.padToEven (hexOfBytes b)) = _
  rw [heven, RLP.hexToBytes, if_neg hplain, length_hexOfBytes, if_neg (by omega)]
  exact hexPairs_hexOfBytes b 0

theorem toInput_hexUnits (b : Bytes) :
    RLP.toInput (.str (hexUnits (bytesToHex b))) = .ok (.bytes b) := by
  rw [RLP.toInput, toBytes_hexUnits]
  · rfl
  · intro l h
    cases h

/-! ### Numbers -/

private theorem numberToBytes_of_le {n : ℕ} (h : 256 ≤ n) :
    RLP.numberToBytes n = RLP.numberToBytes (n / 256) ++ [UInt8.ofNat (n % 256)] := by
  rw [RLP.numberToBytes, Nat.digits_def' (by decide) (by omega), List.map_cons, List.reverse_cons]
  rfl

/-- The digits of a number, an even number of them, are the hex form of its bytes. -/
private theorem padToEven_toString16 (n : ℕ) :
    padToEven (toString16 n) = lowerHex.bytesToHex (bigIntToBytes n) := by
  have hsmall : ∀ n < 256, padToEven (toString16 n) = lowerHex.bytesToHex (bigIntToBytes n) := by
    intro n hn
    by_cases h0 : n = 0
    · rw [h0]
      rfl
    · rw [bigIntToBytes, if_neg h0, RLP.numberToBytes_of_lt (by omega) hn]
      have hdigits : ∀ n < 256, padToEven (toString16 n) =
          lowerHex.bytesToHex [UInt8.ofNat n] := by decide +kernel
      exact hdigits n hn
  have hdigit : ∀ n < 16, Nat.digitChar n = hexDigit n := by decide
  induction n using Nat.strong_induction_on with
  | h n ih =>
    by_cases hn : n < 256
    · exact hsmall n hn
    · have hmore : toString16 n = toString16 (n / 256) ++
          [hexDigit (n / 16 % 16), hexDigit (n % 16)] := by
        have hle : 16 ≤ n / 16 := by omega
        rw [toString16, Nat.toDigits_of_base_le (by decide) (by omega),
          Nat.toDigits_of_base_le (by decide) hle, Nat.div_div_eq_div_mul, List.append_assoc,
          hdigit _ (Nat.mod_lt _ (by decide)), hdigit _ (Nat.mod_lt _ (by decide))]
        rfl
      have hpad : ∀ s : HexString, ∀ c d : Char,
          padToEven (s ++ [c, d]) = padToEven s ++ [c, d] := by
        intro s c d
        have hlength : (s ++ [c, d]).length = s.length + 2 := List.length_append
        rw [padToEven, padToEven, hlength, Nat.add_mod_right]
        split
        · rfl
        · rfl
      have hbytes : bigIntToBytes n = bigIntToBytes (n / 256) ++ [UInt8.ofNat (n % 256)] := by
        rw [bigIntToBytes, if_neg (by omega), bigIntToBytes, if_neg (by omega),
          numberToBytes_of_le (by omega)]
      have hbyte : (UInt8.ofNat (n % 256)).toNat = n % 256 :=
        UInt8.toNat_ofNat_of_lt' (Nat.mod_lt n (by decide))
      have happend : lowerHex.bytesToHex (bigIntToBytes (n / 256) ++ [UInt8.ofNat (n % 256)]) =
          lowerHex.bytesToHex (bigIntToBytes (n / 256)) ++
            [hexDigit (n % 256 / 16), hexDigit (n % 256 % 16)] := by
        change List.flatMap _ _ = _
        rw [List.flatMap_append, List.flatMap_singleton, hbyte]
        rfl
      rw [hmore, hpad, ih (n / 256) (by omega), hbytes, happend]
      congr 3
      · omega
      · congr 1
        omega

theorem padToEvenHex_bigIntToHex (n : ℕ) :
    padToEvenHex (bigIntToHex n) = bytesToHex (bigIntToBytes n) := by
  change '0' :: 'x' :: padToEven (toString16 n) = _
  rw [padToEven_toString16]
  rfl

/-- An index is read back. -/
theorem parseIndex_indexToHex (n : ℕ) : parseIndex (indexToHex n) = some n := by
  obtain ⟨hhex, hlength⟩ := JSString.hexOf_toDigits n
  have hdigits :
      ∃ ds, hexUnits (padToEven (toString16 n)) = ds ∧ JSString.HexOf n ds ∧ ds ≠ [] := by
    have hpos : 0 < (Nat.toDigits 16 n).length := Nat.length_toDigits_pos
    have hne : hexUnits (toString16 n) ≠ [] := by
      intro h
      have hzero : (JSString.ofScalars ((Nat.toDigits 16 n).map Char.toNat)).length = 0 := by
        rw [show JSString.ofScalars ((Nat.toDigits 16 n).map Char.toNat) = [] from h]
        rfl
      omega
    rw [padToEven]
    split
    · exact ⟨_, rfl, hhex.zeros 1, List.cons_ne_nil _ _⟩
    · exact ⟨_, rfl, hhex, hne⟩
  obtain ⟨ds, hds, hof, hne⟩ := hdigits
  have hunits : hexUnits (indexToHex n) = 48 :: 120 :: ds := by
    rw [← hds]
    rfl
  have hparse : JSString.parseDigits ds = some n := by
    have htake : ds.takeWhile (fun u => (JSString.digitValue u).isSome) = ds :=
      List.takeWhile_eq_self_iff.2 hof.digits
    have hvalues : ds.filterMap JSString.digitValue ≠ [] := by
      obtain ⟨u, t, rfl⟩ := List.exists_cons_of_ne_nil hne
      obtain ⟨d, hd⟩ := Option.isSome_iff_exists.1 (hof.digits u List.mem_cons_self)
      rw [List.filterMap_cons_some hd]
      exact List.cons_ne_nil _ _
    have hvalue := hof.value
    rw [JSString.parseDigits, htake]
    split
    · rename_i hnil
      exact absurd hnil hvalues
    · rw [hvalue]
  have hread : JSString.parseHex (48 :: 120 :: ds) = some (n : ℤ) := by
    rw [JSString.parseHex, List.dropWhile_cons_of_neg (by decide)]
    change Option.map Int.ofNat (JSString.parseDigits ds) = _
    rw [hparse]
    rfl
  rw [parseIndex, hunits, hread]

end Tvmjs
