import Tvmjs.Base.Text

/-!
# The text of JSON values

The grammar of JSON on strings, with the white space where it was written.

* `IsValue` -- what the text of a value is;
* `elementOffsets`, `memberPlaces` -- where the elements of an array and the members of an object
  start;
* `Occurs` -- a value at an offset of a text, itself or inside of another one.
-/

namespace Tvmjs

namespace JsonText

/-! ### Characters -/

/-- `"`, which opens and closes a string. -/
abbrev quote : UInt16 := 0x22

/-- `\`, which begins an escape. -/
abbrev backslash : UInt16 := 0x5c

/-- `,`, between two members or elements. -/
abbrev comma : UInt16 := 0x2c

/-- `:`, between a key and its value. -/
abbrev colon : UInt16 := 0x3a

/-- `{`, which opens an object. -/
abbrev openBrace : UInt16 := 0x7b

/-- `}`, which closes an object. -/
abbrev closeBrace : UInt16 := 0x7d

/-- `[`, which opens an array. -/
abbrev openBracket : UInt16 := 0x5b

/-- `]`, which closes an array. -/
abbrev closeBracket : UInt16 := 0x5d

/-- The white space of the grammar. -/
def isBlank (u : UInt16) : Bool := u = 0x20 ∨ u = 0x09 ∨ u = 0x0a ∨ u = 0x0d

/-- Blanks only. -/
def IsBlanks (s : JSString) : Prop := ∀ u ∈ s, isBlank u = true

/-- A decimal digit. -/
def isDigit (u : UInt16) : Bool := 0x30 ≤ u.toNat ∧ u.toNat ≤ 0x39

/-! ### Scalars -/

/-- One character of a string, as it is written. -/
inductive IsChar : JSString → Prop
  | plain {u : UInt16} (hu : 0x20 ≤ u.toNat) (hquote : u ≠ quote) (hbackslash : u ≠ backslash) :
      IsChar [u]
  | escape {u : UInt16} (hu : u ∈ JSString.ofString "\"\\/bfnrt") : IsChar [backslash, u]
  | unicode {a b c d : UInt16} (h : ∀ u ∈ [a, b, c, d], (JSString.digitValue u).isSome) :
      IsChar [backslash, 0x75, a, b, c, d]

/-- The text of a string with these characters. -/
def stringText (chars : List JSString) : JSString := quote :: (chars.flatten ++ [quote])

/-- A string: quotes around characters and escapes. -/
def IsString (s : JSString) : Prop := ∃ chars, (∀ c ∈ chars, IsChar c) ∧ s = stringText chars

/-- The integer part of a number. -/
def IsInteger (s : JSString) : Prop :=
  s = [0x30] ∨ ∃ d ds, s = d :: ds ∧ d ≠ 0x30 ∧ ∀ u ∈ d :: ds, isDigit u = true

/-- A fraction, or none. -/
def IsFraction (s : JSString) : Prop :=
  s = [] ∨ ∃ ds, s = 0x2e :: ds ∧ ds ≠ [] ∧ ∀ u ∈ ds, isDigit u = true

/-- An exponent, or none. -/
def IsExponent (s : JSString) : Prop :=
  s = [] ∨ ∃ e sign ds, s = e :: (sign ++ ds) ∧ (e = 0x65 ∨ e = 0x45) ∧
    (sign = [] ∨ sign = [0x2b] ∨ sign = [0x2d]) ∧ ds ≠ [] ∧ ∀ u ∈ ds, isDigit u = true

/-- A number: an integer with or without a sign, a fraction and an exponent. -/
def IsNumber (s : JSString) : Prop :=
  ∃ minus integer fraction exponent, s = minus ++ (integer ++ (fraction ++ exponent)) ∧
    (minus = [] ∨ minus = [0x2d]) ∧ IsInteger integer ∧ IsFraction fraction ∧ IsExponent exponent

/-- One of the three words of the grammar. -/
def IsLiteral (s : JSString) : Prop :=
  s = JSString.ofString "true" ∨ s = JSString.ofString "false" ∨ s = JSString.ofString "null"

/-! ### Arrays and objects -/

/-- An element with the white space around it. -/
structure Element where
  before : JSString
  value : JSString
  after : JSString

/-- A member with the white space around its parts. -/
structure Member where
  before : JSString
  key : JSString
  beforeColon : JSString
  afterColon : JSString
  value : JSString
  after : JSString

/-- The element as it stands, with the blanks around it. -/
def Element.text (e : Element) : JSString := e.before ++ (e.value ++ e.after)

/-- The member as it stands, with the blanks around its parts. -/
def Member.text (m : Member) : JSString :=
  m.before ++ (m.key ++ (m.beforeColon ++ (colon :: (m.afterColon ++ (m.value ++ m.after)))))

/-- Texts with commas between them. -/
def commaJoin : List JSString → JSString
  | [] => []
  | [s] => s
  | s :: t :: ss => s ++ comma :: commaJoin (t :: ss)

/-- The text of an array; the blanks are all there is in an empty one. -/
def arrayText (es : List Element) (blanks : JSString) : JSString :=
  openBracket :: (commaJoin (es.map Element.text) ++ (blanks ++ [closeBracket]))

/-- The text of an object. -/
def objectText (ms : List Member) (blanks : JSString) : JSString :=
  openBrace :: (commaJoin (ms.map Member.text) ++ (blanks ++ [closeBrace]))

/-- What stands around the value is blank. -/
structure Element.Spaced (e : Element) : Prop where
  before : IsBlanks e.before
  after : IsBlanks e.after

/-- The key is a string and what stands around the parts is blank. -/
structure Member.Spaced (m : Member) : Prop where
  before : IsBlanks m.before
  key : IsString m.key
  beforeColon : IsBlanks m.beforeColon
  afterColon : IsBlanks m.afterColon
  after : IsBlanks m.after

/-- **The text of a value.** -/
inductive IsValue : JSString → Prop
  | string {s : JSString} (hs : IsString s) : IsValue s
  | number {s : JSString} (hs : IsNumber s) : IsValue s
  | literal {s : JSString} (hs : IsLiteral s) : IsValue s
  | array {es : List Element} {blanks : JSString} (hspaced : ∀ e ∈ es, e.Spaced)
      (hvalues : ∀ e ∈ es, IsValue e.value) (hblanks : IsBlanks blanks) :
      IsValue (arrayText es blanks)
  | object {ms : List Member} {blanks : JSString} (hspaced : ∀ m ∈ ms, m.Spaced)
      (hvalues : ∀ m ∈ ms, IsValue m.value) (hblanks : IsBlanks blanks) :
      IsValue (objectText ms blanks)

/-! ### Offsets -/

/-- Where the elements start, the first text being at `start`. -/
def elementOffsets : ℕ → List Element → List ℕ
  | _, [] => []
  | start, e :: es =>
    (start + e.before.length) :: elementOffsets (start + e.text.length + 1) es

/-- A member's name as it is written, without its quotes, and where its name and its value start. -/
structure Place where
  name : JSString
  key : ℕ
  value : ℕ
deriving DecidableEq

/-- A member behind `start`. -/
def Member.place (start : ℕ) (m : Member) : Place where
  name := (m.key.drop 1).dropLast
  key := start + m.before.length
  value := start + (m.before.length + m.key.length + m.beforeColon.length + 1 + m.afterColon.length)

/-- Where the members stand, the first text being at `start`. -/
def memberPlaces : ℕ → List Member → List Place
  | _, [] => []
  | start, m :: ms => m.place start :: memberPlaces (start + m.text.length + 1) ms

/-- An array whose elements are values. -/
structure IsArray (es : List Element) (blanks : JSString) : Prop where
  spaced : ∀ e ∈ es, e.Spaced
  values : ∀ e ∈ es, IsValue e.value
  blanks : IsBlanks blanks

/-- An object whose members are values. -/
structure IsObject (ms : List Member) (blanks : JSString) : Prop where
  spaced : ∀ m ∈ ms, m.Spaced
  values : ∀ m ∈ ms, IsValue m.value
  blanks : IsBlanks blanks

theorem IsArray.isValue {es : List Element} {blanks : JSString} (h : IsArray es blanks) :
    IsValue (arrayText es blanks) := .array h.spaced h.values h.blanks

theorem IsObject.isValue {ms : List Member} {blanks : JSString} (h : IsObject ms blanks) :
    IsValue (objectText ms blanks) := .object h.spaced h.values h.blanks

/-- A value of a text at an offset: the one in the middle of it, or one inside of that. -/
inductive Occurs : JSString → ℕ → JSString → Prop
  | root {before value after : JSString} (hbefore : IsBlanks before) (hvalue : IsValue value)
      (hafter : IsBlanks after) : Occurs (before ++ (value ++ after)) before.length value
  | element {s blanks : JSString} {at' offset : ℕ} {es : List Element} {e : Element}
      (h : Occurs s at' (arrayText es blanks)) (hes : IsArray es blanks)
      (he : (offset, e) ∈ (elementOffsets (at' + 1) es).zip es) : Occurs s offset e.value
  | member {s blanks : JSString} {at' : ℕ} {ms : List Member} {m : Member} {p : Place}
      (h : Occurs s at' (objectText ms blanks)) (hms : IsObject ms blanks)
      (hm : (p, m) ∈ (memberPlaces (at' + 1) ms).zip ms) : Occurs s p.value m.value

/-! ### Joined texts -/

theorem commaJoin_cons (s : JSString) {ss : List JSString} (h : ss ≠ []) :
    commaJoin (s :: ss) = s ++ comma :: commaJoin ss := by
  cases ss with
  | nil => exact absurd rfl h
  | cons t ss => rfl

/-- Behind an element comes a comma or nothing. -/
def CommaOrEnd (s : JSString) : Prop := s = [] ∨ ∃ t, s = comma :: t

/-- An element in its place. -/
theorem commaJoin_element {start offset : ℕ} {es : List Element} {e : Element}
    (he : (offset, e) ∈ (elementOffsets start es).zip es) :
    ∃ front rest, commaJoin (es.map Element.text) = front ++ (e.value ++ (e.after ++ rest)) ∧
      offset = start + front.length ∧ CommaOrEnd rest := by
  induction es generalizing start with
  | nil => cases he
  | cons e' es ih =>
    rw [elementOffsets, List.zip_cons_cons, List.mem_cons] at he
    obtain heq | he := he
    · obtain ⟨rfl, rfl⟩ := Prod.mk.inj heq
      by_cases hes : es = []
      · subst hes
        refine ⟨e.before, [], ?_, rfl, Or.inl rfl⟩
        rw [List.append_nil]
        rfl
      · refine ⟨e.before, comma :: commaJoin (es.map Element.text), ?_, rfl, Or.inr ⟨_, rfl⟩⟩
        rw [List.map_cons, commaJoin_cons _ (by simpa using hes), Element.text]
        simp only [List.append_assoc]
    · obtain ⟨front, rest, hjoin, rfl, hrest⟩ := ih he
      have hes : es ≠ [] := by
        rintro rfl
        cases he
      refine ⟨e'.text ++ comma :: front, rest, ?_, ?_, hrest⟩
      · rw [List.map_cons, commaJoin_cons _ (by simpa using hes), hjoin]
        simp only [List.append_assoc, List.cons_append]
      · rw [List.length_append, List.length_cons]
        omega

/-- The value of a member in its place. -/
theorem commaJoin_member {start : ℕ} {ms : List Member} {m : Member} {p : Place}
    (hm : (p, m) ∈ (memberPlaces start ms).zip ms) :
    ∃ front rest, commaJoin (ms.map Member.text) = front ++ (m.value ++ (m.after ++ rest)) ∧
      p.value = start + front.length ∧ CommaOrEnd rest := by
  induction ms generalizing start with
  | nil => cases hm
  | cons m' ms ih =>
    rw [memberPlaces, List.zip_cons_cons, List.mem_cons] at hm
    obtain heq | hm := hm
    · obtain ⟨rfl, rfl⟩ := Prod.mk.inj heq
      have hlength : (m.place start).value = start +
          (m.before ++ (m.key ++ (m.beforeColon ++ (colon :: m.afterColon)))).length := by
        simp only [List.length_append, List.length_cons, Member.place]
        omega
      by_cases hms : ms = []
      · subst hms
        refine ⟨_, [], ?_, hlength, Or.inl rfl⟩
        change m.text = _
        rw [List.append_nil, Member.text]
        simp only [List.append_assoc, List.cons_append]
      · refine ⟨_, comma :: commaJoin (ms.map Member.text), ?_, hlength, Or.inr ⟨_, rfl⟩⟩
        rw [List.map_cons, commaJoin_cons _ (by simpa using hms), Member.text]
        simp only [List.append_assoc, List.cons_append]
    · obtain ⟨front, rest, hjoin, hvalue, hrest⟩ := ih hm
      have hms : ms ≠ [] := by
        rintro rfl
        cases hm
      refine ⟨m'.text ++ comma :: front, rest, ?_, ?_, hrest⟩
      · rw [List.map_cons, commaJoin_cons _ (by simpa using hms), hjoin]
        simp only [List.append_assoc, List.cons_append]
      · rw [hvalue, List.length_append, List.length_cons]
        omega

end JsonText

end Tvmjs
