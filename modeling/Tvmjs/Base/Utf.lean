import Mathlib.Data.List.Basic
import Mathlib.Tactic.NormNum

/-!
# Strings of the language and their UTF-8 bytes

A string is a list of UTF-16 code units, in which surrogates need not stand in pairs.

* `TextEncoder.encode` -- UTF-8; a lone surrogate becomes U+FFFD;
* `TextDecoder.decode` -- one byte at a time, with the bounds of the next byte in the state; what is
  not UTF-8 becomes U+FFFD, and a byte order mark in front is dropped;
* `TextDecoder.decode_encode_iff` -- the round trip gives the string back exactly when its
  surrogates stand in pairs and no byte order mark stands in front;
* `TextDecoder.length_decode_le` -- a string has at most as many code units as its bytes.
-/

namespace Tvmjs

/-- A string: its UTF-16 code units. -/
abbrev JSString := List UInt16

namespace JSString

/-- The first half of a surrogate pair. -/
def isHigh (u : UInt16) : Bool := 0xd800 ≤ u.toNat ∧ u.toNat < 0xdc00

/-- The second half of a surrogate pair. -/
def isLow (u : UInt16) : Bool := 0xdc00 ≤ u.toNat ∧ u.toNat < 0xe000

/-- The scalar value of a code unit that stands alone. -/
def unitScalar (u : UInt16) : ℕ := if isHigh u ∨ isLow u then 0xfffd else u.toNat

/-- The scalar value of a surrogate pair. -/
def pairScalar (u v : UInt16) : ℕ := 0x10000 + (u.toNat - 0xd800) * 0x400 + (v.toNat - 0xdc00)

/-- The scalar values of a string. -/
def toScalars : JSString → List ℕ
  | [] => []
  | [u] => [unitScalar u]
  | u :: v :: us =>
    if isHigh u ∧ isLow v then pairScalar u v :: toScalars us
      else unitScalar u :: toScalars (v :: us)

/-- The code units of a scalar value. -/
def units (c : ℕ) : JSString :=
  if c < 0x10000 then [UInt16.ofNat c]
  else [UInt16.ofNat (0xd800 + (c - 0x10000) / 0x400),
    UInt16.ofNat (0xdc00 + (c - 0x10000) % 0x400)]

/-- The string of some scalar values. -/
def ofScalars (cs : List ℕ) : JSString := cs.flatMap units

/-- All surrogates stand in pairs. -/
def IsWellFormed : JSString → Prop
  | [] => True
  | [u] => ¬ (isHigh u ∨ isLow u)
  | u :: v :: us =>
    if isHigh u ∧ isLow v then IsWellFormed us else ¬ (isHigh u ∨ isLow u) ∧ IsWellFormed (v :: us)

/-- A scalar value: a code point which is no surrogate. -/
def IsScalar (c : ℕ) : Prop := c < 0xd800 ∨ (0xe000 ≤ c ∧ c < 0x110000)

theorem isHigh_iff {u : UInt16} : isHigh u = true ↔ 0xd800 ≤ u.toNat ∧ u.toNat < 0xdc00 :=
  decide_eq_true_iff

theorem isLow_iff {u : UInt16} : isLow u = true ↔ 0xdc00 ≤ u.toNat ∧ u.toNat < 0xe000 :=
  decide_eq_true_iff

theorem isScalar_unitScalar (u : UInt16) : IsScalar (unitScalar u) := by
  have hlt : u.toNat < 65536 := u.toNat_lt
  unfold unitScalar IsScalar
  split
  · exact .inr ⟨by norm_num, by norm_num⟩
  · rename_i h
    rw [isHigh_iff, isLow_iff] at h
    omega

theorem isScalar_pairScalar {u v : UInt16} (hu : isHigh u = true) (hv : isLow v = true) :
    IsScalar (pairScalar u v) := by
  rw [isHigh_iff] at hu
  rw [isLow_iff] at hv
  unfold pairScalar IsScalar
  omega

theorem isScalar_of_mem_toScalars {s : JSString} {c : ℕ} (hc : c ∈ toScalars s) : IsScalar c := by
  induction s using toScalars.induct with
  | case1 => exact absurd hc List.not_mem_nil
  | case2 u =>
    rw [toScalars, List.mem_singleton] at hc
    exact hc ▸ isScalar_unitScalar u
  | case3 u v us h ih =>
    rw [toScalars, if_pos h, List.mem_cons] at hc
    rcases hc with hc | hc
    · rw [hc]
      exact isScalar_pairScalar h.1 h.2
    · exact ih hc
  | case4 u v us h ih =>
    rw [toScalars, if_neg h, List.mem_cons] at hc
    rcases hc with hc | hc
    · rw [hc]
      exact isScalar_unitScalar u
    · exact ih hc

theorem units_pairScalar {u v : UInt16} (hu : isHigh u = true) (hv : isLow v = true) :
    units (pairScalar u v) = [u, v] := by
  rw [isHigh_iff] at hu
  rw [isLow_iff] at hv
  have hhigh : 0xd800 + (pairScalar u v - 0x10000) / 0x400 = u.toNat := by
    unfold pairScalar
    omega
  have hlow : 0xdc00 + (pairScalar u v - 0x10000) % 0x400 = v.toNat := by
    unfold pairScalar
    omega
  have hlarge : ¬ pairScalar u v < 0x10000 := by
    unfold pairScalar
    omega
  rw [units, if_neg hlarge, hhigh, hlow, UInt16.ofNat_toNat,
    UInt16.ofNat_toNat]

theorem units_unitScalar (u : UInt16) :
    units (unitScalar u) = if isHigh u ∨ isLow u then [0xfffd] else [u] := by
  rw [unitScalar]
  split
  · rfl
  · have hlt : u.toNat < 0x10000 := u.toNat_lt
    rw [units, if_pos hlt, UInt16.ofNat_toNat]

/-- A lone surrogate is not what it is replaced by. -/
theorem unitScalar_eq_iff (u : UInt16) : units (unitScalar u) = [u] ↔ ¬ (isHigh u ∨ isLow u) := by
  rw [units_unitScalar]
  constructor
  · intro h hs
    rw [if_pos hs] at h
    obtain rfl : (0xfffd : UInt16) = u := (List.cons.inj h).1
    exact absurd hs (by decide)
  · exact fun h => if_neg h

/-- Replacing the lone surrogates keeps the number of code units. -/
theorem length_ofScalars_toScalars (s : JSString) :
    (ofScalars (toScalars s)).length = s.length := by
  have hunit : ∀ u, (units (unitScalar u)).length = 1 := fun u => by
    rw [units_unitScalar]
    split <;> rfl
  induction s using toScalars.induct with
  | case1 => rfl
  | case2 u =>
    rw [toScalars, ofScalars, List.flatMap_singleton, hunit]
    rfl
  | case3 u v us h ih =>
    rw [ofScalars] at ih
    rw [toScalars, if_pos h, ofScalars, List.flatMap_cons, units_pairScalar h.1 h.2,
      List.length_append, ih]
    simp only [List.length_cons, List.length_nil]
    omega
  | case4 u v us h ih =>
    rw [ofScalars] at ih
    rw [toScalars, if_neg h, ofScalars, List.flatMap_cons, List.length_append, ih, hunit]
    simp only [List.length_cons]
    omega

/-- A string is that of its scalar values exactly when its surrogates stand in pairs. -/
theorem ofScalars_toScalars_iff (s : JSString) : ofScalars (toScalars s) = s ↔ IsWellFormed s := by
  induction s using toScalars.induct with
  | case1 => exact iff_of_true rfl trivial
  | case2 u =>
    rw [toScalars, ofScalars, List.flatMap_singleton, IsWellFormed]
    exact unitScalar_eq_iff u
  | case3 u v us h ih =>
    rw [ofScalars] at ih
    rw [toScalars, if_pos h, ofScalars, List.flatMap_cons, units_pairScalar h.1 h.2, IsWellFormed,
      if_pos h, ← ih]
    exact ⟨fun h => List.cons.inj (List.cons.inj h).2 |>.2, fun h => by rw [h]; rfl⟩
  | case4 u v us h ih =>
    rw [ofScalars] at ih
    rw [toScalars, if_neg h, ofScalars, List.flatMap_cons, IsWellFormed, if_neg h, ← ih,
      ← unitScalar_eq_iff u]
    have hunit : ∃ x, units (unitScalar u) = [x] := by
      rw [units_unitScalar]
      split
      · exact ⟨_, rfl⟩
      · exact ⟨_, rfl⟩
    obtain ⟨x, hx⟩ := hunit
    rw [hx]
    exact ⟨fun h => ⟨by rw [(List.cons.inj h).1], (List.cons.inj h).2⟩,
      fun h => by rw [List.singleton_append, (List.cons.inj h.1).1, h.2]⟩

end JSString

/-! ### The encoder -/

namespace TextEncoder

/-- The bytes of a scalar value. -/
def encodeScalar (c : ℕ) : List UInt8 :=
  if c < 0x80 then [UInt8.ofNat c]
  else if c < 0x800 then [UInt8.ofNat (0xc0 + c / 0x40), UInt8.ofNat (0x80 + c % 0x40)]
  else if c < 0x10000 then
    [UInt8.ofNat (0xe0 + c / 0x1000), UInt8.ofNat (0x80 + c / 0x40 % 0x40),
      UInt8.ofNat (0x80 + c % 0x40)]
  else
    [UInt8.ofNat (0xf0 + c / 0x40000), UInt8.ofNat (0x80 + c / 0x1000 % 0x40),
      UInt8.ofNat (0x80 + c / 0x40 % 0x40), UInt8.ofNat (0x80 + c % 0x40)]

/-- The UTF-8 bytes of a string. -/
def encode (s : JSString) : List UInt8 := (JSString.toScalars s).flatMap encodeScalar

/-- A string without bytes is empty. -/
theorem encode_eq_nil_iff (s : JSString) : encode s = [] ↔ s = [] := by
  have hscalar : ∀ c, encodeScalar c ≠ [] := by
    intro c
    unfold encodeScalar
    split_ifs <;> exact List.cons_ne_nil _ _
  have hscalars : JSString.toScalars s = [] ↔ s = [] := by
    cases s using JSString.toScalars.fun_cases with
    | case1 => exact iff_of_true rfl rfl
    | case2 u => exact iff_of_false (List.cons_ne_nil _ _) (List.cons_ne_nil _ _)
    | case3 u v us h =>
      rw [JSString.toScalars, if_pos h]
      exact iff_of_false (List.cons_ne_nil _ _) (List.cons_ne_nil _ _)
    | case4 u v us h =>
      rw [JSString.toScalars, if_neg h]
      exact iff_of_false (List.cons_ne_nil _ _) (List.cons_ne_nil _ _)
  rw [encode, List.flatMap_eq_nil_iff, ← hscalars]
  constructor
  · intro h
    exact List.eq_nil_iff_forall_not_mem.2 fun c hc => hscalar c (h c hc)
  · rintro h c hc
    rw [h] at hc
    cases hc

end TextEncoder

/-! ### The decoder -/

namespace TextDecoder

/-- Where the decoder stands between two bytes. -/
structure State where
  /-- How many bytes of the character are still to come. -/
  needed : ℕ
  /-- What is known of its scalar value. -/
  codePoint : ℕ
  /-- The least value of the next byte. -/
  lower : ℕ := 0x80
  /-- The greatest value of the next byte. -/
  upper : ℕ := 0xbf

/-- Between two characters. -/
def State.init : State := ⟨0, 0, 0x80, 0xbf⟩

/-- The first byte of a character. -/
def first (b : ℕ) : List ℕ × State :=
  if b < 0x80 then ([b], .init)
  else if 0xc2 ≤ b ∧ b ≤ 0xdf then ([], ⟨1, b - 0xc0, 0x80, 0xbf⟩)
  else if 0xe0 ≤ b ∧ b ≤ 0xef then
    ([], ⟨2, b - 0xe0, if b = 0xe0 then 0xa0 else 0x80, if b = 0xed then 0x9f else 0xbf⟩)
  else if 0xf0 ≤ b ∧ b ≤ 0xf4 then
    ([], ⟨3, b - 0xf0, if b = 0xf0 then 0x90 else 0x80, if b = 0xf4 then 0x8f else 0xbf⟩)
  else ([0xfffd], .init)

/-- One byte: the scalar values it completes and the state after it.  A byte that cannot continue
the character is taken as a first one. -/
def step (s : State) (b : ℕ) : List ℕ × State :=
  if s.needed = 0 then first b
  else if s.lower ≤ b ∧ b ≤ s.upper then
    if s.needed = 1 then ([s.codePoint * 0x40 + (b - 0x80)], .init)
    else ([], ⟨s.needed - 1, s.codePoint * 0x40 + (b - 0x80), 0x80, 0xbf⟩)
  else (0xfffd :: (first b).1, (first b).2)

/-- The scalar values of some bytes. -/
def decodeFrom : State → List UInt8 → List ℕ
  | s, [] => if s.needed = 0 then [] else [0xfffd]
  | s, b :: bs => (step s b.toNat).1 ++ decodeFrom (step s b.toNat).2 bs

/-- Scalar values without a byte order mark in front. -/
def dropMark : List ℕ → List ℕ
  | 0xfeff :: cs => cs
  | cs => cs

/-- The string of some bytes. -/
def decode (bs : List UInt8) : JSString := JSString.ofScalars (dropMark (decodeFrom .init bs))

open JSString TextEncoder

theorem decodeFrom_cons (s : State) {n : ℕ} (hn : n < 256) (bs : List UInt8) :
    decodeFrom s (UInt8.ofNat n :: bs) = (step s n).1 ++ decodeFrom (step s n).2 bs := by
  rw [decodeFrom, UInt8.toNat_ofNat_of_lt' hn]

/-- A byte which is within the bounds and not the last of its character. -/
theorem decodeFrom_more {s : State} {n : ℕ} (hneeded : 2 ≤ s.needed) (hl : s.lower ≤ n)
    (hu : n ≤ s.upper) (hn : n < 256) (bs : List UInt8) :
    decodeFrom s (UInt8.ofNat n :: bs) =
      decodeFrom ⟨s.needed - 1, s.codePoint * 0x40 + (n - 0x80), 0x80, 0xbf⟩ bs := by
  rw [decodeFrom_cons s hn, step, if_neg (by omega), if_pos ⟨hl, hu⟩, if_neg (by omega)]
  rfl

/-- The last byte of a character. -/
theorem decodeFrom_last {s : State} {n : ℕ} (hneeded : s.needed = 1) (hl : s.lower ≤ n)
    (hu : n ≤ s.upper) (hn : n < 256) (bs : List UInt8) :
    decodeFrom s (UInt8.ofNat n :: bs) =
      (s.codePoint * 0x40 + (n - 0x80)) :: decodeFrom .init bs := by
  rw [decodeFrom_cons s hn, step, if_neg (by omega), if_pos ⟨hl, hu⟩, if_pos hneeded]
  rfl

theorem decodeFrom_first {n : ℕ} (hn : n < 256) (bs : List UInt8) :
    decodeFrom .init (UInt8.ofNat n :: bs) = (first n).1 ++ decodeFrom (first n).2 bs := by
  have hfirst : step .init n = first n := if_pos rfl
  rw [decodeFrom_cons .init hn, hfirst]

/-- The bytes of a scalar value read back as the value. -/
theorem decodeFrom_encodeScalar {c : ℕ} (hc : IsScalar c) (bs : List UInt8) :
    decodeFrom .init (encodeScalar c ++ bs) = c :: decodeFrom .init bs := by
  unfold IsScalar at hc
  by_cases h1 : c < 0x80
  · rw [encodeScalar, if_pos h1, List.singleton_append, decodeFrom_first (by omega), first,
      if_pos h1]
    rfl
  by_cases h2 : c < 0x800
  · rw [encodeScalar, if_neg h1, if_pos h2, List.cons_append, decodeFrom_first (by omega), first,
      if_neg (by omega), if_pos (by omega), List.nil_append, List.singleton_append]
    rw [decodeFrom_last rfl (by simp) (by simp; omega) (by omega)]
    refine congrArg (· :: decodeFrom .init bs) ?_
    simp only
    omega
  by_cases h3 : c < 0x10000
  · rw [encodeScalar, if_neg h1, if_neg h2, if_pos h3, List.cons_append,
      decodeFrom_first (by omega), first, if_neg (by omega), if_neg (by omega), if_pos (by omega),
      List.nil_append, List.cons_append, List.singleton_append]
    rw [decodeFrom_more le_rfl (by simp only; split <;> omega) (by simp only; split <;> omega)
      (by omega), decodeFrom_last rfl (by simp) (by simp; omega) (by omega)]
    refine congrArg (· :: decodeFrom .init bs) ?_
    simp only
    omega
  · rw [encodeScalar, if_neg h1, if_neg h2, if_neg h3, List.cons_append,
      decodeFrom_first (by omega), first, if_neg (by omega), if_neg (by omega), if_neg (by omega),
      if_pos (by omega), List.nil_append, List.cons_append, List.cons_append, List.singleton_append]
    rw [decodeFrom_more (by simp) (by simp only; split <;> omega) (by simp only; split <;> omega)
      (by omega), decodeFrom_more le_rfl (by simp) (by simp; omega) (by omega),
      decodeFrom_last rfl (by simp) (by simp; omega) (by omega)]
    refine congrArg (· :: decodeFrom .init bs) ?_
    simp only
    omega

theorem decodeFrom_encode {cs : List ℕ} (hcs : ∀ c ∈ cs, IsScalar c) :
    decodeFrom .init (cs.flatMap encodeScalar) = cs := by
  induction cs with
  | nil => rfl
  | cons c cs ih =>
    rw [List.flatMap_cons, decodeFrom_encodeScalar (hcs c List.mem_cons_self),
      ih fun c hc => hcs c (List.mem_cons_of_mem _ hc)]

/-- What comes back of a string: its lone surrogates are replaced and a byte order mark is lost. -/
theorem decode_encode (s : JSString) :
    decode (encode s) = ofScalars (dropMark (toScalars s)) := by
  rw [decode, encode, decodeFrom_encode fun c hc => isScalar_of_mem_toScalars hc]

/-- **The round trip** gives back the strings whose surrogates stand in pairs and which do not begin
with a byte order mark. -/
theorem decode_encode_iff (s : JSString) :
    decode (encode s) = s ↔ IsWellFormed s ∧ s.head? ≠ some 0xfeff := by
  have hhead : (toScalars s).head? = some 0xfeff ↔ s.head? = some 0xfeff := by
    have hmark : ∀ u, unitScalar u = 0xfeff ↔ u = 0xfeff := by
      intro u
      rw [← UInt16.toNat_inj]
      unfold unitScalar
      split
      · rename_i h
        rw [isHigh_iff, isLow_iff] at h
        constructor
        · intro h0
          cases h0
        · intro h0
          rw [h0] at h
          exact absurd h (by decide)
      · rfl
    induction s using toScalars.induct with
    | case1 => simp [toScalars]
    | case2 u => simpa [toScalars] using hmark u
    | case3 u v us h =>
      rw [toScalars, if_pos h]
      have hne : pairScalar u v ≠ 0xfeff := by
        unfold pairScalar
        omega
      have hne' : u ≠ 0xfeff := by
        rintro rfl
        exact absurd h.1 (by decide)
      simp [hne, hne']
    | case4 u v us h =>
      rw [toScalars, if_neg h]
      simpa using hmark u
  rw [decode_encode, ← ofScalars_toScalars_iff, ne_eq, ← hhead]
  have hdrop : ∀ cs : List ℕ, cs.head? ≠ some 0xfeff → dropMark cs = cs := by
    intro cs hcs
    unfold dropMark
    split
    · simp at hcs
    · rfl
  by_cases hmark : (toScalars s).head? = some 0xfeff
  · -- without the mark the string is shorter
    refine iff_of_false (fun h => ?_) fun h => h.2 hmark
    obtain ⟨cs, hcs⟩ := List.head?_eq_some_iff.1 hmark
    have hlen := congrArg List.length h
    rw [← length_ofScalars_toScalars s, hcs] at hlen
    have hshort : (ofScalars (0xfeff :: cs)).length = (ofScalars cs).length + 1 := by
      rw [ofScalars, List.flatMap_cons, List.length_append, Nat.add_comm]
      rfl
    rw [hshort] at hlen
    exact absurd hlen (Nat.ne_of_lt (Nat.lt_succ_self _))
  · rw [hdrop _ hmark]
    exact ⟨fun h => ⟨h, hmark⟩, And.left⟩

/-- What the bytes of a character that is not finished can still give. -/
def State.pending (s : State) : ℕ := if s.needed = 0 then 0 else 1

theorem length_first (b : ℕ) :
    (ofScalars (first b).1).length + (first b).2.pending ≤ 1 := by
  have hinit : State.init.pending = 0 := rfl
  unfold first
  split
  · rw [hinit]
    simp only [ofScalars, List.flatMap_singleton, units]
    split
    · simp
    · omega
  · split
    · simp [ofScalars, State.pending]
    · split
      · simp [ofScalars, State.pending]
      · split
        · simp [ofScalars, State.pending]
        · exact le_rfl

theorem length_units_le (c : ℕ) : (units c).length ≤ 2 := by
  unfold units
  split <;> simp

theorem length_step (s : State) (b : ℕ) :
    (ofScalars (step s b).1).length + (step s b).2.pending ≤ s.pending + 1 := by
  by_cases hneeded : s.needed = 0
  · rw [step, if_pos hneeded]
    exact (length_first b).trans (Nat.le_add_left 1 _)
  have hpending : s.pending = 1 := if_neg hneeded
  rw [step, if_neg hneeded, hpending]
  split
  · split
    · simpa [ofScalars, State.pending, State.init] using length_units_le _
    · simp only [ofScalars, List.flatMap_nil, List.length_nil, State.pending]
      split <;> omega
  · have h := length_first b
    have hcons : (ofScalars (0xfffd :: (first b).1)).length =
        (ofScalars (first b).1).length + 1 := by
      rw [ofScalars, List.flatMap_cons, List.length_append, Nat.add_comm]
      rfl
    change (ofScalars (0xfffd :: (first b).1)).length + (first b).2.pending ≤ 1 + 1
    rw [hcons]
    omega

theorem length_decodeFrom_le (s : State) (bs : List UInt8) :
    (ofScalars (decodeFrom s bs)).length ≤ s.pending + bs.length := by
  induction bs generalizing s with
  | nil =>
    unfold decodeFrom State.pending
    split
    · exact Nat.zero_le _
    · exact le_rfl
  | cons b bs ih =>
    have hstep := length_step s b.toNat
    have hrest := ih (step s b.toNat).2
    have happend : ∀ cs cs', (ofScalars (cs ++ cs')).length =
        (ofScalars cs).length + (ofScalars cs').length := fun cs cs' => by
      rw [ofScalars, List.flatMap_append, List.length_append]
      rfl
    rw [decodeFrom, happend, List.length_cons]
    omega

/-- A string has at most as many code units as its bytes. -/
theorem length_decode_le (bs : List UInt8) : (decode bs).length ≤ bs.length := by
  have h := length_decodeFrom_le .init bs
  have hdrop : ∀ cs, (ofScalars (dropMark cs)).length ≤ (ofScalars cs).length := by
    intro cs
    unfold dropMark
    split
    · rw [ofScalars, ofScalars, List.flatMap_cons, List.length_append]
      exact Nat.le_add_left _ _
    · exact le_rfl
  refine (hdrop _).trans (h.trans ?_)
  exact (Nat.zero_add _).le

end TextDecoder

end Tvmjs
