import Tvmjs.Base.JsonText
import Tvmjs.Client.MergeWalks

/-!
# The tokens of a valid request body

On the text of JSON values the walks find what the grammar says is there.

* `Skips`, `skips_value` -- the loop of `valueEnd` passes over a whole value at any depth;
* `valueEnd_occurs` -- `valueEnd` gives the offset behind each value of a text;
* `tokensLoop_array`, `membersLoop_object` -- the walks stop at the elements and members;
* `merge_reads_json` -- **the offsets of a valid body**, and that the walks end on every body.
-/

namespace Tvmjs

namespace Merge

open JsonText

/-! ### Characters -/

/-- A unit of a number or a literal. -/
def isPlain (u : UInt16) : Bool := isDigit u || (JSString.ofString "-+.eEtrufalsn").contains u

/-- A unit at which neither a string nor a bracket begins or ends. -/
def isNeutral (u : UInt16) : Bool :=
  u ≠ 0x22 && u ≠ 0x7b && u ≠ 0x5b && u ≠ 0x7d && u ≠ 0x5d

/-- A plain character belongs to a bare token and counts for no depth. -/
private theorem isPlain_spec :
    ∀ u : UInt16, isPlain u = true → isBare u = true ∧ isNeutral u = true := by
  have hdigit : ∀ n < 10, isBare (UInt16.ofNat (0x30 + n)) = true ∧
      isNeutral (UInt16.ofNat (0x30 + n)) = true := by decide
  have hletter : ∀ u ∈ JSString.ofString "-+.eEtrufalsn", (isBare u && isNeutral u) = true :=
    List.all_eq_true.1 (by decide)
  intro u hu
  rw [isPlain, Bool.or_eq_true] at hu
  obtain hu | hu := hu
  · obtain ⟨hlow, hhigh⟩ := of_decide_eq_true hu
    have hback : UInt16.ofNat (0x30 + (u.toNat - 0x30)) = u := by
      rw [show 0x30 + (u.toNat - 0x30) = u.toNat by omega, UInt16.ofNat_toNat]
    rw [← hback]
    exact hdigit _ (by omega)
  · exact (Bool.and_eq_true _ _).mp (hletter u (List.contains_iff_mem.1 hu))

/-- A blank is skipped by both scanners. -/
private theorem isBlank_spec {u : UInt16} (hu : isBlank u = true) :
    JSString.isSpace u = true ∧ isNeutral u = true := by
  obtain rfl | rfl | rfl | rfl := of_decide_eq_true hu
  · decide
  · decide
  · decide
  · decide

/-- Numbers and literals are plain units. -/
private theorem plain_of_number {s : JSString} (h : IsNumber s) :
    s ≠ [] ∧ ∀ u ∈ s, isPlain u = true := by
  obtain ⟨minus, integer, fraction, exponent, rfl, hminus, hinteger, hfraction, hexponent⟩ := h
  have hdigit : ∀ u, isDigit u = true → isPlain u = true := fun u hu => by rw [isPlain, hu]; rfl
  have hm : ∀ u ∈ minus, isPlain u = true := by
    obtain rfl | rfl := hminus
    · exact nofun
    · exact List.all_eq_true.1 (by decide)
  have hi : integer ≠ [] ∧ ∀ u ∈ integer, isPlain u = true := by
    obtain rfl | ⟨d, ds, rfl, -, hds⟩ := hinteger
    · exact ⟨List.cons_ne_nil _ _, List.all_eq_true.1 (by decide)⟩
    · exact ⟨List.cons_ne_nil _ _, fun u hu => hdigit u (hds u hu)⟩
  have hf : ∀ u ∈ fraction, isPlain u = true := by
    obtain rfl | ⟨ds, rfl, -, hds⟩ := hfraction
    · exact nofun
    · intro u hu
      obtain rfl | hu := List.mem_cons.1 hu
      · decide
      · exact hdigit u (hds u hu)
  have he : ∀ u ∈ exponent, isPlain u = true := by
    obtain rfl | ⟨e, sign, ds, rfl, he, hsign, -, hds⟩ := hexponent
    · exact nofun
    · intro u hu
      obtain rfl | hu := List.mem_cons.1 hu
      · obtain rfl | rfl := he
        · decide
        · decide
      · obtain hu | hu := List.mem_append.1 hu
        · obtain rfl | rfl | rfl := hsign
          · cases hu
          · rw [List.mem_singleton.1 hu]
            decide
          · rw [List.mem_singleton.1 hu]
            decide
        · exact hdigit u (hds u hu)
  refine ⟨fun hnil => hi.1 (List.append_eq_nil_iff.1 (List.append_eq_nil_iff.1 hnil).2).1, ?_⟩
  intro u hu
  rw [List.mem_append, List.mem_append, List.mem_append] at hu
  obtain hu | hu | hu | hu := hu
  · exact hm u hu
  · exact hi.2 u hu
  · exact hf u hu
  · exact he u hu

/-- A literal is a bare token. -/
private theorem plain_of_literal {s : JSString} (h : IsLiteral s) :
    s ≠ [] ∧ ∀ u ∈ s, isPlain u = true := by
  obtain rfl | rfl | rfl := h
  · exact ⟨by decide, List.all_eq_true.1 (by decide)⟩
  · exact ⟨by decide, List.all_eq_true.1 (by decide)⟩
  · exact ⟨by decide, List.all_eq_true.1 (by decide)⟩

/-! ### Strings -/

/-- A character of a string that is neither a quote nor an escape. -/
private theorem stringSpan_cons {u : UInt16} (hquote : u ≠ 0x22) (hbackslash : u ≠ 0x5c)
    (rest : JSString) :
    stringSpan (u :: rest) = 1 + stringSpan rest := by
  cases rest with
  | nil =>
    have hlast : stringSpan [u] = if u = 0x22 then 0 else if u = 0x5c then 2 else 1 := rfl
    rw [hlast, if_neg hquote, if_neg hbackslash]
    rfl
  | cons v rest => rw [stringSpan, if_neg hquote, if_neg hbackslash]

/-- The characters of a string are passed over up to its last quote. -/
private theorem stringSpan_chars {chars : List JSString} (h : ∀ c ∈ chars, IsChar c)
    (rest : JSString) :
    stringSpan (chars.flatten ++ 0x22 :: rest) = chars.flatten.length := by
  induction chars with
  | nil =>
    cases rest with
    | nil => rfl
    | cons v rest => rfl
  | cons c chars ih =>
    have htail := ih fun c hc => h c (List.mem_cons_of_mem _ hc)
    rw [List.flatten_cons, List.append_assoc, List.length_append]
    cases h c List.mem_cons_self with
    | plain hu hquote hbackslash =>
      rw [List.singleton_append, stringSpan_cons hquote hbackslash, htail]
      rfl
    | escape hu =>
      change stringSpan (0x5c :: _ :: (chars.flatten ++ 0x22 :: rest)) = _
      rw [stringSpan, if_neg (by decide), if_pos rfl, htail]
      rfl
    | @unicode a b c d hhex =>
      have hdigit : ∀ u ∈ [a, b, c, d], u ≠ 0x22 ∧ u ≠ 0x5c := by
        intro u hu
        have hvalue := hhex u hu
        constructor
        · rintro rfl
          exact absurd hvalue (by decide)
        · rintro rfl
          exact absurd hvalue (by decide)
      have ha := hdigit a (by simp)
      have hb := hdigit b (by simp)
      have hc := hdigit c (by simp)
      have hd := hdigit d (by simp)
      change stringSpan (0x5c :: 0x75 :: a :: b :: c :: d :: (chars.flatten ++ 0x22 :: rest)) = _
      rw [stringSpan, if_neg (by decide), if_pos rfl, stringSpan_cons ha.1 ha.2,
        stringSpan_cons hb.1 hb.2, stringSpan_cons hc.1 hc.2, stringSpan_cons hd.1 hd.2, htail]
      simp only [List.length_cons, List.length_nil]
      omega

/-- A string is read whole. -/
private theorem readToken_string {s : JSString} (h : IsString s) (rest : JSString) :
    readToken (s ++ rest) = ⟨s, true, s.length⟩ := by
  obtain ⟨chars, hchars, rfl⟩ := h
  have hspan := stringSpan_chars hchars rest
  have hlength : (stringText chars).length = 1 + chars.flatten.length + 1 := by
    rw [stringText, List.length_cons, List.length_append, List.length_singleton]
    omega
  have hcons : stringText chars ++ rest = 0x22 :: (chars.flatten ++ 0x22 :: rest) := by
    rw [stringText, List.cons_append, List.append_assoc]
    rfl
  rw [hcons, readToken, hspan, ← hlength, ← hcons, List.take_left' rfl]

/-- Plain units are read up to what cannot be part of a token. -/
private theorem readToken_plain {s rest : JSString} (hne : s ≠ [])
    (hplain : ∀ u ∈ s, isPlain u = true)
    (hrest : ∀ u ∈ rest.head?, isBare u = false) :
    readToken (s ++ rest) = ⟨s, false, s.length⟩ := by
  obtain ⟨u, t, rfl⟩ := List.exists_cons_of_ne_nil hne
  have hu := isPlain_spec u (hplain u List.mem_cons_self)
  have hquote : u ≠ 0x22 := by
    rintro rfl
    exact absurd hu.2 (by decide)
  have hbrace : u ≠ 0x7b := by
    rintro rfl
    exact absurd hu.2 (by decide)
  have htake : ((u :: t) ++ rest).takeWhile isBare = u :: t := by
    rw [List.takeWhile_append_of_pos fun v hv => (isPlain_spec v (hplain v hv)).1]
    have hnil : rest.takeWhile isBare = [] := by
      cases rest with
      | nil => rfl
      | cons v rest => rw [List.takeWhile_cons, hrest v rfl]; rfl
    rw [hnil, List.append_nil]
  rw [readToken, htake]
  · exact fun _ heq => hquote (List.cons.inj heq).1
  · exact fun _ heq => hbrace (List.cons.inj heq).1

/-! ### Whole values -/

/-- The loop of `valueEnd` passes over a text at any depth. -/
def Skips (s : JSString) : Prop :=
  ∀ (rest : JSString) (depth : ℤ), 1 ≤ depth → scan depth (s ++ rest) = s.length + scan depth rest

/-- Nothing is skipped at once. -/
private theorem skips_nil : Skips [] := fun _ _ _ => (Nat.zero_add _).symm

/-- What is skipped may be put together. -/
theorem Skips.append {s t : JSString} (hs : Skips s) (ht : Skips t) : Skips (s ++ t) := by
  intro rest depth hdepth
  rw [List.append_assoc, hs _ _ hdepth, ht _ _ hdepth, List.length_append, Nat.add_assoc]

/-- A neutral character is passed. -/
private theorem scan_neutral {u : UInt16} (hu : isNeutral u = true) (rest : JSString) (depth : ℤ) :
    scan depth (u :: rest) = 1 + scan depth rest := by
  simp only [isNeutral, Bool.and_eq_true, decide_eq_true_eq, ne_eq] at hu
  obtain ⟨⟨⟨⟨hquote, hbrace⟩, hbracket⟩, hclose⟩, hclose'⟩ := hu
  rw [scan, dif_neg hquote, if_neg (not_or.2 ⟨hbrace, hbracket⟩),
    if_neg (not_or.2 ⟨hclose, hclose'⟩)]

/-- Neutral characters are skipped. -/
private theorem skips_neutral {s : JSString} (hs : ∀ u ∈ s, isNeutral u = true) : Skips s := by
  intro rest depth hdepth
  induction s with
  | nil => exact skips_nil rest depth hdepth
  | cons u s ih =>
    rw [List.cons_append, scan_neutral (hs u List.mem_cons_self),
      ih fun v hv => hs v (List.mem_cons_of_mem _ hv), List.length_cons]
    omega

/-- Blanks are skipped. -/
private theorem skips_blanks {s : JSString} (hs : IsBlanks s) : Skips s :=
  skips_neutral fun u hu => (isBlank_spec (hs u hu)).2

/-- A string is skipped, whatever brackets it holds. -/
private theorem skips_string {s : JSString} (hs : IsString s) : Skips s := by
  intro rest depth _
  have hread := readToken_string hs rest
  obtain ⟨chars, -, rfl⟩ := hs
  have hcons : stringText chars ++ rest = 0x22 :: (chars.flatten ++ [0x22] ++ rest) := rfl
  rw [hcons] at hread ⊢
  rw [scan, dif_pos rfl, hread]
  dsimp only
  rw [← hcons, List.drop_left' rfl]

/-- Parts with commas between them are skipped. -/
private theorem skips_commaJoin {ss : List JSString} (h : ∀ s ∈ ss, Skips s) :
    Skips (commaJoin ss) := by
  induction ss with
  | nil => exact skips_nil
  | cons s ss ih =>
    have hs := h s List.mem_cons_self
    have hss := ih fun t ht => h t (List.mem_cons_of_mem _ ht)
    by_cases hnil : ss = []
    · rw [hnil]
      exact hs
    · rw [commaJoin_cons s hnil]
      have hcomma : Skips [comma] := skips_neutral (List.all_eq_true.1 (by decide))
      exact hs.append (hcomma.append hss)

/-- What stands in brackets or braces is closed at its own depth. -/
private theorem scan_brackets {opener closer : UInt16} (hopener : opener = 0x7b ∨ opener = 0x5b)
    (hcloser : closer = 0x7d ∨ closer = 0x5d) {inner : JSString} (hinner : Skips inner)
    (rest : JSString) {depth : ℤ} (hdepth : 0 ≤ depth) :
    scan depth (opener :: (inner ++ [closer]) ++ rest) =
      (opener :: (inner ++ [closer])).length + if depth = 0 then 0 else scan depth rest := by
  have hclose : scan (depth + 1) (closer :: rest) = if depth = 0 then 1
    else 1 + scan depth rest := by
    have hquote : closer ≠ 0x22 := by
      obtain rfl | rfl := hcloser
      · decide
      · decide
    have hopen : ¬(closer = 0x7b ∨ closer = 0x5b) := by
      obtain rfl | rfl := hcloser
      · decide
      · decide
    rw [scan, dif_neg hquote, if_neg hopen, if_pos hcloser, add_sub_cancel_right]
  have hquote : opener ≠ 0x22 := by
    obtain rfl | rfl := hopener
    · decide
    · decide
  rw [List.cons_append, List.append_assoc, scan, dif_neg hquote, if_pos hopener,
    hinner _ _ (by omega), List.singleton_append, hclose, List.length_cons, List.length_append,
    List.length_singleton]
  split
  · omega
  · omega

/-- Brackets around what is skipped are skipped. -/
theorem Skips.brackets {opener closer : UInt16} (hopener : opener = 0x7b ∨ opener = 0x5b)
    (hcloser : closer = 0x7d ∨ closer = 0x5d) {inner : JSString} (hinner : Skips inner) :
    Skips (opener :: (inner ++ [closer])) := by
  intro rest depth hdepth
  rw [scan_brackets hopener hcloser hinner rest (by omega), if_neg (by omega)]

/-- An element is skipped with its blanks. -/
private theorem skips_element {e : Element} (h : e.Spaced) (hvalue : Skips e.value) :
    Skips e.text :=
  (skips_blanks h.before).append (hvalue.append (skips_blanks h.after))

/-- A member is skipped with its key and its blanks. -/
private theorem skips_member {m : JsonText.Member} (h : m.Spaced) (hvalue : Skips m.value) :
    Skips m.text := by
  have hcolon : Skips [colon] := skips_neutral (List.all_eq_true.1 (by decide))
  exact (skips_blanks h.before).append ((skips_string h.key).append
    ((skips_blanks h.beforeColon).append (hcolon.append
      ((skips_blanks h.afterColon).append (hvalue.append (skips_blanks h.after))))))

/-- The elements of an array are skipped. -/
private theorem skips_elements {es : List Element} {blanks : JSString}
    (hspaced : ∀ e ∈ es, e.Spaced)
    (hblanks : IsBlanks blanks) (hvalues : ∀ e ∈ es, Skips e.value) :
    Skips (commaJoin (es.map Element.text) ++ blanks) := by
  refine (skips_commaJoin fun s hs => ?_).append (skips_blanks hblanks)
  obtain ⟨e, he, rfl⟩ := List.mem_map.1 hs
  exact skips_element (hspaced e he) (hvalues e he)

/-- The members of an object are skipped. -/
private theorem skips_members {ms : List JsonText.Member} {blanks : JSString}
    (hspaced : ∀ m ∈ ms, m.Spaced)
    (hblanks : IsBlanks blanks) (hvalues : ∀ m ∈ ms, Skips m.value) :
    Skips (commaJoin (ms.map JsonText.Member.text) ++ blanks) := by
  refine (skips_commaJoin fun s hs => ?_).append (skips_blanks hblanks)
  obtain ⟨m, hm, rfl⟩ := List.mem_map.1 hs
  exact skips_member (hspaced m hm) (hvalues m hm)

/-- **A value is passed over** whole. -/
theorem skips_value {v : JSString} (h : IsValue v) : Skips v := by
  induction h with
  | string hs => exact skips_string hs
  | number hs => exact skips_neutral fun u hu => (isPlain_spec u ((plain_of_number hs).2 u hu)).2
  | literal hs => exact skips_neutral fun u hu => (isPlain_spec u ((plain_of_literal hs).2 u hu)).2
  | @array es blanks hspaced _ hblanks ih =>
    rw [arrayText, ← List.append_assoc]
    exact (skips_elements hspaced hblanks ih).brackets (Or.inr rfl) (Or.inr rfl)
  | @object ms blanks hspaced _ hblanks ih =>
    rw [objectText, ← List.append_assoc]
    exact (skips_members hspaced hblanks ih).brackets (Or.inl rfl) (Or.inl rfl)

/-! ### Where a value ends -/

/-- Behind a value stands nothing that could belong to a token. -/
def Follows (rest : JSString) : Prop := ∀ u ∈ rest.head?, isBare u = false

/-- A space ends a bare token. -/
private theorem isBare_of_isSpace {u : UInt16} (hu : JSString.isSpace u = true) :
    isBare u = false := by
  rw [isBare, hu]
  rfl

/-- Blanks may stand between a token and what ends it. -/
private theorem follows_blanks {s rest : JSString} (hs : IsBlanks s) (hrest : Follows rest) :
    Follows (s ++ rest) := by
  obtain rfl | ⟨u, t, rfl⟩ : s = [] ∨ ∃ u t, s = u :: t := by
    cases s with
    | nil => exact Or.inl rfl
    | cons u t => exact Or.inr ⟨u, t, rfl⟩
  · exact hrest
  · intro v hv
    obtain rfl := Option.some.inj hv
    exact isBare_of_isSpace (isBlank_spec (hs _ List.mem_cons_self)).1

/-- A character of no bare token ends one. -/
private theorem follows_cons {u : UInt16} (hu : isBare u = false) (rest : JSString) :
    Follows (u :: rest) := by
  intro v hv
  obtain rfl := Option.some.inj hv
  exact hu

/-- A value begins with a unit that is no white space, no comma and no closer. -/
private theorem head_of_isValue {v : JSString} (h : IsValue v) :
    ∃ u t, v = u :: t ∧ isBare u = true := by
  have hplain : ∀ s : JSString, (s ≠ [] ∧ ∀ u ∈ s, isPlain u = true) →
      ∃ u t, s = u :: t ∧ isBare u = true := by
    rintro s ⟨hne, hs⟩
    obtain ⟨u, t, rfl⟩ := List.exists_cons_of_ne_nil hne
    exact ⟨u, t, rfl, (isPlain_spec u (hs u List.mem_cons_self)).1⟩
  cases h with
  | string hs =>
    obtain ⟨chars, -, rfl⟩ := hs
    exact ⟨_, _, rfl, by decide⟩
  | number hs => exact hplain _ (plain_of_number hs)
  | literal hs => exact hplain _ (plain_of_literal hs)
  | array => exact ⟨_, _, rfl, by decide⟩
  | object => exact ⟨_, _, rfl, by decide⟩

section Cursor

variable {body : JSString} {index : ℕ}

/-- A cursor behind what it read. -/
private theorem drop_behind {s t : JSString} (h : body.drop index = s ++ t) :
    body.drop (index + s.length) = t := by
  rw [← List.drop_drop, h, List.drop_left' rfl]

/-- The character that stands behind a text. -/
private theorem getElem?_behind {s t : JSString} {u : UInt16} (h : body.drop index = s ++ u :: t) :
    body[index + s.length]? = some u := by
  rw [← List.head?_drop, drop_behind h]
  rfl

/-- The white space is passed over. -/
private theorem search_behind {s t : JSString} {u : UInt16} (hs : IsBlanks s)
    (hu : JSString.isSpace u = false)
    (h : body.drop index = s ++ u :: t) : search body index = some s.length := by
  rw [search, h, List.findIdx?_append, List.findIdx?_eq_none_iff.2, Option.none_or,
    List.findIdx?_cons,
    hu]
  · exact congrArg some (Nat.zero_add _)
  · intro v hv
    rw [(isBlank_spec (hs v hv)).1]
    rfl

/-- **Where a value ends.** -/
theorem valueEnd_behind {v rest : JSString} (hv : IsValue v) (hrest : Follows rest)
    (h : body.drop index = v ++ rest) : valueEnd body index = index + v.length := by
  have hplain : (v ≠ [] ∧ ∀ u ∈ v, isPlain u = true) → valueEnd body index = index + v.length := by
    rintro ⟨hne, hs⟩
    have hhead : ¬((v ++ rest).head? = some 0x7b ∨ (v ++ rest).head? = some 0x5b) := by
      obtain ⟨u, t, rfl⟩ := List.exists_cons_of_ne_nil hne
      have hneutral := (isPlain_spec u (hs u List.mem_cons_self)).2
      rintro (hu | hu)
      · obtain rfl := Option.some.inj hu
        exact absurd hneutral (by decide)
      · obtain rfl := Option.some.inj hu
        exact absurd hneutral (by decide)
    rw [valueEnd, h, if_neg hhead, readToken_plain hne hs hrest]
  have hclosed : ∀ opener closer inner, (opener = 0x7b ∨ opener = 0x5b) →
      (closer = 0x7d ∨ closer = 0x5d) → Skips inner → v = opener :: (inner ++ [closer]) →
      valueEnd body index = index + v.length := by
    rintro opener closer inner hopener hcloser hinner rfl
    have hhead : (opener :: (inner ++ [closer]) ++ rest).head? = some 0x7b ∨
        (opener :: (inner ++ [closer]) ++ rest).head? = some 0x5b := by
      obtain rfl | rfl := hopener
      · exact Or.inl rfl
      · exact Or.inr rfl
    rw [valueEnd, h, if_pos hhead, scan_brackets hopener hcloser hinner rest le_rfl, if_pos rfl,
      Nat.add_zero]
  cases hv with
  | string hs =>
    have hread := readToken_string hs rest
    obtain ⟨chars, -, rfl⟩ := hs
    have hhead : ¬((stringText chars ++ rest).head? = some 0x7b ∨
        (stringText chars ++ rest).head? = some 0x5b) := by
      rintro (hu | hu)
      · exact absurd (Option.some.inj hu) (by decide)
      · exact absurd (Option.some.inj hu) (by decide)
    rw [valueEnd, h, if_neg hhead, hread]
  | number hs => exact hplain (plain_of_number hs)
  | literal hs => exact hplain (plain_of_literal hs)
  | array hspaced hvalues hblanks =>
    refine hclosed _ _ _ (Or.inr rfl) (Or.inr rfl)
      (skips_elements hspaced hblanks fun e he => skips_value (hvalues e he)) ?_
    rw [arrayText, List.append_assoc]
  | object hspaced hvalues hblanks =>
    refine hclosed _ _ _ (Or.inl rfl) (Or.inl rfl)
      (skips_members hspaced hblanks fun m hm => skips_value (hvalues m hm)) ?_
    rw [objectText, List.append_assoc]

end Cursor

/-- The rest of a text behind a value that occurs in it. -/
private theorem drop_occurs {s v : JSString} {index : ℕ} (h : Occurs s index v) :
    IsValue v ∧ ∃ rest, s.drop index = v ++ rest ∧ Follows rest := by
  have hbehind : ∀ {t : JSString}, CommaOrEnd t → ∀ {blanks : JSString}, IsBlanks blanks →
      ∀ {closer : UInt16}, isBare closer = false → ∀ rest : JSString,
      Follows (t ++ (blanks ++ closer :: rest)) := by
    rintro t (rfl | ⟨t, rfl⟩) blanks hblanks closer hcloser rest
    · change Follows (blanks ++ closer :: rest)
      exact follows_blanks hblanks (follows_cons hcloser rest)
    · exact follows_cons (by decide) _
  induction h with
  | @root before value after _ hvalue hafter =>
    refine ⟨hvalue, after, List.drop_left' rfl, ?_⟩
    have hend : Follows (after ++ []) := follows_blanks hafter nofun
    rwa [List.append_nil] at hend
  | @element s blanks at' offset es e _ hes he ih =>
    obtain ⟨-, rest, hdrop, -⟩ := ih
    obtain ⟨front, t, hjoin, rfl, ht⟩ := commaJoin_element he
    have hmem := (List.of_mem_zip he).2
    refine ⟨hes.values e hmem, e.after ++ (t ++ (blanks ++ closeBracket :: rest)), ?_,
      follows_blanks (hes.spaced e hmem).after (hbehind ht hes.blanks (by decide) rest)⟩
    have hlength : at' + 1 + front.length = at' + (openBracket :: front).length := by
      rw [List.length_cons]
      omega
    rw [hlength]
    refine drop_behind (hdrop.trans ?_)
    rw [arrayText, hjoin]
    simp only [List.append_assoc, List.cons_append, List.nil_append]
  | @member s blanks at' ms m p _ hms hm ih =>
    obtain ⟨-, rest, hdrop, -⟩ := ih
    obtain ⟨front, t, hjoin, hvalue, ht⟩ := commaJoin_member hm
    have hmem := (List.of_mem_zip hm).2
    refine ⟨hms.values m hmem, m.after ++ (t ++ (blanks ++ closeBrace :: rest)), ?_,
      follows_blanks (hms.spaced m hmem).after (hbehind ht hms.blanks (by decide) rest)⟩
    have hlength : p.value = at' + (openBrace :: front).length := by
      rw [hvalue, List.length_cons]
      omega
    rw [hlength]
    refine drop_behind (hdrop.trans ?_)
    rw [objectText, hjoin]
    simp only [List.append_assoc, List.cons_append, List.nil_append]

/-- `valueEnd` at every value of a text. -/
theorem valueEnd_occurs {body v : JSString} {index : ℕ} (h : Occurs body index v) :
    valueEnd body index = index + v.length := by
  obtain ⟨hvalue, rest, hdrop, hrest⟩ := drop_occurs h
  exact valueEnd_behind hvalue hrest hdrop

/-! ### The walks -/

/-- A character of a bare token is no space. -/
private theorem isSpace_of_isBare {u : UInt16} (hu : isBare u = true) :
    JSString.isSpace u = false := by
  by_contra hspace
  rw [isBare_of_isSpace (by simpa using hspace)] at hu
  cases hu

section Walks

variable {body blanks rest : JSString}

/-- An offset with text behind it lies in the body. -/
private theorem length_pos_of_drop {index : ℕ} {u : UInt16} {t : JSString}
    (h : body.drop index = u :: t) :
    index < body.length := by
  by_contra hnot
  rw [List.drop_eq_nil_of_le (by omega)] at h
  cases h

/-- The array without elements. -/
private theorem isArray_nil : IsArray [] [] :=
  ⟨fun _ he => absurd he List.not_mem_nil, fun _ he => absurd he List.not_mem_nil,
    fun _ hu => absurd hu List.not_mem_nil⟩

/-- **The elements of an array.** A last element without a comma sends the walk once more to the
bracket behind it. -/
theorem tokensLoop_array {es : List Element} (hes : IsArray es blanks) {fuel index : ℕ}
    (tokens : List MergeToken)
    (hdrop : body.drop index = commaJoin (es.map Element.text) ++ (blanks ++ closeBracket :: rest))
    (hfuel : body.length - index < fuel) :
    tokensLoop body fuel index tokens =
      some (tokens ++ (elementOffsets index es).map (tokenAt body)) := by
  induction fuel generalizing index es blanks tokens with
  | zero => omega
  | succ fuel ih =>
    cases es with
    | nil =>
      have hdrop : body.drop index = blanks ++ closeBracket :: rest := hdrop
      have hlt : index + blanks.length < body.length := length_pos_of_drop (drop_behind hdrop)
      rw [tokensLoop, if_pos (by omega), search_behind hes.blanks (by decide) hdrop]
      dsimp only
      rw [if_pos (getElem?_behind hdrop)]
      exact congrArg some (List.append_nil _).symm
    | cons e es =>
      obtain ⟨hbefore, hafter⟩ := hes.spaced e List.mem_cons_self
      have hvalue := hes.values e List.mem_cons_self
      obtain ⟨u, t, hu, hbare⟩ := head_of_isValue hvalue
      -- the text of the element, and of what follows it
      obtain ⟨next, hnext, hjoin⟩ : ∃ next, (es = [] ∧ next = blanks ++ closeBracket :: rest ∨
          es ≠ [] ∧ next = comma :: (commaJoin (es.map Element.text) ++
            (blanks ++ closeBracket :: rest))) ∧
          body.drop index = e.before ++ (e.value ++ (e.after ++ next)) := by
        by_cases hnil : es = []
        · subst hnil
          refine ⟨_, Or.inl ⟨rfl, rfl⟩, hdrop.trans ?_⟩
          change e.text ++ _ = _
          rw [Element.text, List.append_assoc, List.append_assoc]
        · refine ⟨_, Or.inr ⟨hnil, rfl⟩, hdrop.trans ?_⟩
          rw [List.map_cons, commaJoin_cons _ (by simpa using hnil), Element.text]
          simp only [List.append_assoc, List.cons_append]
      have hat := drop_behind hjoin
      have hstart : body.drop index = e.before ++ u :: (t ++ (e.after ++ next)) := by
        rw [hjoin, hu]
        rfl
      have hlt : index + e.before.length < body.length :=
        length_pos_of_drop (drop_behind hstart)
      have hopen : ¬(some u = some closeBracket) := by
        intro heq
        obtain rfl := Option.some.inj heq
        exact absurd hbare (by decide)
      have hpos : 0 < e.value.length := by
        rw [hu]
        exact Nat.succ_pos _
      have hbehind := drop_behind hat
      rw [tokensLoop, if_pos (by omega), search_behind hbefore (isSpace_of_isBare hbare) hstart]
      dsimp only
      rw [getElem?_behind hstart, if_neg hopen]
      obtain ⟨rfl, rfl⟩ | ⟨hnil, rfl⟩ := hnext
      · have hblanks : IsBlanks (e.after ++ blanks) := by
          intro v hv
          obtain hv | hv := List.mem_append.1 hv
          · exact hafter v hv
          · exact hes.blanks v hv
        rw [← List.append_assoc] at hbehind
        rw [valueEnd_behind hvalue (follows_blanks hafter (follows_blanks hes.blanks
            (follows_cons (by decide) rest))) hat, search_behind hblanks (by decide) hbehind]
        dsimp only
        have hcomma : ¬(some closeBracket = some (0x2c : UInt16)) := by decide
        rw [getElem?_behind hbehind, if_neg hcomma, if_neg (by omega),
          @ih [] [] isArray_nil _ _ (drop_behind hbehind) (by omega)]
        rw [List.append_assoc]
        rfl
      · rw [valueEnd_behind hvalue (follows_blanks hafter (follows_cons (by decide) _)) hat,
          search_behind hafter (by decide) hbehind]
        dsimp only
        rw [getElem?_behind hbehind, if_pos rfl, if_neg (by omega)]
        have hrest : IsArray es blanks := ⟨fun e he => hes.spaced e (List.mem_cons_of_mem _ he),
          fun e he => hes.values e (List.mem_cons_of_mem _ he), hes.blanks⟩
        have hcomma : index + e.before.length + e.value.length + e.after.length + 1 =
            index + e.text.length + 1 := by
          simp only [Element.text, List.length_append]
          omega
        have hdrop' := @drop_behind _ _ [comma] _ (drop_behind hbehind)
        rw [List.length_singleton] at hdrop'
        rw [ih hrest _ hdrop' (by omega), hcomma, List.append_assoc]
        rfl

/-- A name and its colon are read in front of a value. -/
private theorem readPair_member {key beforeColon afterColon value next : JSString} {index : ℕ}
    (hkey : IsString key) (hbeforeColon : IsBlanks beforeColon) (hafterColon : IsBlanks afterColon)
    (hvalue : IsValue value)
    (hdrop : body.drop index = key ++ (beforeColon ++ (colon :: (afterColon ++ (value ++ next))))) :
    body[index]? = some quote ∧
      readPair body index = some (key, ⟨index,
        index + (key.length + beforeColon.length + 1 + afterColon.length)⟩) ∧
      body.drop (index + (key.length + beforeColon.length + 1 + afterColon.length)) =
        value ++ next := by
  obtain ⟨u, t, hu, hbare⟩ := head_of_isValue hvalue
  have hread := readToken_string hkey (beforeColon ++ (colon :: (afterColon ++ (value ++ next))))
  have hname := drop_behind hdrop
  have hcolon := @drop_behind _ _ [colon] _ (drop_behind hname)
  have hstart : body.drop (index + key.length + beforeColon.length + 1) =
      afterColon ++ u :: (t ++ next) := by
    rw [← List.cons_append, ← hu]
    exact hcolon
  refine ⟨?_, ?_, ?_⟩
  · obtain ⟨chars, -, rfl⟩ := hkey
    rw [← List.head?_drop, hdrop]
    rfl
  · rw [readPair, hdrop, hread, Option.bind_eq_bind, search_behind hbeforeColon (by decide) hname,
      Option.bind_some, getElem?_behind hname, if_neg (by decide)]
    dsimp only
    have hsearch := search_behind hafterColon (isSpace_of_isBare hbare) hstart
    rw [Nat.add_assoc _ beforeColon.length] at hsearch
    rw [hsearch, Option.bind_some]
    have hvalueAt : index + key.length + (beforeColon.length + 1) + afterColon.length =
        index + (key.length + beforeColon.length + 1 + afterColon.length) := by omega
    rw [hvalueAt]
  · have hlength : index + (key.length + beforeColon.length + 1 + afterColon.length) =
        index + key.length + beforeColon.length + [colon].length + afterColon.length := by
      rw [List.length_singleton]
      omega
    rw [hlength]
    exact drop_behind hcolon

/-- **The members of an object** are kept under their names, in their order. -/
theorem membersLoop_object {ms : List JsonText.Member} (hms : IsObject ms blanks) {fuel index : ℕ}
    (found : Members)
    (hdrop : body.drop index =
      commaJoin (ms.map JsonText.Member.text) ++ (blanks ++ closeBrace :: rest))
    (hfuel : body.length - index < fuel) :
    membersLoop body fuel index found =
      some ((memberPlaces index ms).foldl
        (fun found p => found.push p.name ⟨p.key, p.value⟩) found) := by
  -- On the fuel, since the loop passes one member in a round; the cases are those of the list.
  induction fuel generalizing index ms found with
  | zero => omega
  | succ fuel ih =>
    cases ms with
    | nil =>
      have hdrop : body.drop index = blanks ++ closeBrace :: rest := hdrop
      rw [membersLoop, search_behind hms.blanks (by decide) hdrop]
      dsimp only
      rw [getElem?_behind hdrop, if_pos (by decide)]
      rfl
    | cons m ms =>
      obtain ⟨hbefore, hkey, hbeforeColon, hafterColon, hafter⟩ := hms.spaced m List.mem_cons_self
      have hvalue := hms.values m List.mem_cons_self
      obtain ⟨u, t, hu, hbare⟩ := head_of_isValue hvalue
      -- what stands behind the member: the closing brace, or a comma and the other members
      obtain ⟨next, hnext, hjoin⟩ : ∃ next, (ms = [] ∧ next = blanks ++ closeBrace :: rest ∨
          ms ≠ [] ∧ next = comma :: (commaJoin (ms.map JsonText.Member.text) ++
            (blanks ++ closeBrace :: rest))) ∧
          body.drop index = m.before ++ (m.key ++ (m.beforeColon ++
            (colon :: (m.afterColon ++ (m.value ++ (m.after ++ next)))))) := by
        by_cases hnil : ms = []
        · subst hnil
          refine ⟨_, Or.inl ⟨rfl, rfl⟩, hdrop.trans ?_⟩
          change m.text ++ _ = _
          rw [JsonText.Member.text]
          simp only [List.append_assoc, List.cons_append]
        · refine ⟨_, Or.inr ⟨hnil, rfl⟩, hdrop.trans ?_⟩
          rw [List.map_cons, commaJoin_cons _ (by simpa using hnil), JsonText.Member.text]
          simp only [List.append_assoc, List.cons_append]
      have hpair := readPair_member hkey hbeforeColon hafterColon hvalue (drop_behind hjoin)
      obtain ⟨hquote, hread, hat⟩ := hpair
      have hbehind := drop_behind hat
      have hkeyed : ∃ v, m.key = quote :: v := by
        obtain ⟨chars, -, hchars⟩ := hkey
        exact ⟨_, hchars⟩
      obtain ⟨v, hv⟩ := hkeyed
      have hstart := hjoin
      rw [hv] at hstart
      have hlt : index + m.before.length < body.length := length_pos_of_drop (drop_behind hstart)
      rw [membersLoop, search_behind hbefore (by decide) hstart]
      dsimp only
      rw [hquote, if_neg (by decide), hread]
      dsimp only
      rw [memberPlaces, List.foldl_cons]
      have hplace : (⟨index + m.before.length, index + m.before.length +
          (m.key.length + m.beforeColon.length + 1 + m.afterColon.length)⟩ : Member) =
          ⟨(m.place index).key, (m.place index).value⟩ := by
        rw [Member.mk.injEq]
        refine ⟨rfl, ?_⟩
        simp only [JsonText.Member.place]
        omega
      -- the scanner jumps over the value, and what it meets there tells whether to go on
      obtain ⟨rfl, rfl⟩ | ⟨hnil, rfl⟩ := hnext
      · rw [← List.append_assoc] at hbehind
        have hblanks : IsBlanks (m.after ++ blanks) := by
          intro v hv
          obtain hv | hv := List.mem_append.1 hv
          · exact hafter v hv
          · exact hms.blanks v hv
        rw [valueEnd_behind hvalue (follows_blanks hafter (follows_blanks hms.blanks
            (follows_cons (by decide) rest))) hat, search_behind hblanks (by decide) hbehind]
        dsimp only
        rw [getElem?_behind hbehind, if_pos (by decide), hplace]
        rfl
      · rw [valueEnd_behind hvalue (follows_blanks hafter (follows_cons (by decide) _)) hat,
          search_behind hafter (by decide) hbehind]
        dsimp only
        rw [getElem?_behind hbehind, if_neg (by decide)]
        have hrest : IsObject ms blanks := ⟨fun m hm => hms.spaced m (List.mem_cons_of_mem _ hm),
          fun m hm => hms.values m (List.mem_cons_of_mem _ hm), hms.blanks⟩
        have hdrop' := @drop_behind _ _ [comma] _ (drop_behind hbehind)
        rw [List.length_singleton] at hdrop'
        have hcomma : index + m.before.length +
            (m.key.length + m.beforeColon.length + 1 + m.afterColon.length) + m.value.length +
              m.after.length + 1 = index + m.text.length + 1 := by
          simp only [JsonText.Member.text, List.length_append, List.length_cons]
          omega
        rw [ih hrest _ hdrop' (by omega), hcomma, hplace]
        rfl

/-- The members of an object are found at their places. -/
private theorem memberOffsets_object {before after : JSString} {ms : List JsonText.Member}
    (hbefore : IsBlanks before) (hms : IsObject ms blanks) {fuel : ℕ}
    (hfuel : (before ++ (objectText ms blanks ++ after)).length < fuel) :
    memberOffsets fuel (before ++ (objectText ms blanks ++ after)) =
      some ((memberPlaces (before.length + 1) ms).foldl
        (fun found p => found.push p.name ⟨p.key, p.value⟩) .empty) := by
  have hstart : (before ++ (objectText ms blanks ++ after)).drop 0 =
      before ++ openBrace :: (commaJoin (ms.map JsonText.Member.text) ++
        (blanks ++ closeBrace :: after)) := by
    rw [List.drop_zero, objectText]
    simp only [List.append_assoc, List.cons_append, List.nil_append]
  have hat := getElem?_behind hstart
  have hinner := @drop_behind _ _ [openBrace] _ (drop_behind hstart)
  rw [Nat.zero_add] at hat hinner
  rw [memberOffsets, search_behind hbefore (by decide) hstart]
  dsimp only
  rw [hat, if_neg (by decide)]
  exact membersLoop_object hms _ hinner (by omega)

/-- The tokens of an array are those of its elements. -/
private theorem tokensAt_array {index : ℕ} {es : List Element} (hes : IsArray es blanks)
    (hoccurs : Occurs body index (arrayText es blanks)) {fuel : ℕ} (hfuel : body.length < fuel) :
    tokensAt fuel body index = some ((elementOffsets (index + 1) es).map (tokenAt body)) := by
  obtain ⟨-, rest, hdrop, -⟩ := drop_occurs hoccurs
  have hstart : body.drop index = [openBracket] ++ (commaJoin (es.map Element.text) ++
      (blanks ++ closeBracket :: rest)) := by
    rw [hdrop, arrayText]
    simp only [List.append_assoc, List.cons_append, List.nil_append]
  have hat : body[index]? = some 0x5b := by
    rw [← List.head?_drop, hstart]
    rfl
  rw [tokensAt, if_neg (not_not.2 hat)]
  exact tokensLoop_array hes [] (drop_behind hstart) (by omega)

end Walks

/-- **What the scanner finds is what the grammar says is there**: the members of an object under
their names as written, the end of every value, and a token at every element of an array.  On any
text at all the walks end. -/
theorem merge_reads_json (body : JSString) :
    (∀ (before after blanks : JSString) (ms : List JsonText.Member), IsBlanks before →
      IsObject ms blanks → IsBlanks after → body = before ++ (objectText ms blanks ++ after) →
      ∀ fuel > body.length, ∃ members, memberOffsets fuel body = some members ∧
        ∀ name, (members.get name).getD [] =
          ((memberPlaces (before.length + 1) ms).filter fun p => p.name = name).map
            fun p => ⟨p.key, p.value⟩) ∧
    (∀ (index : ℕ) (v : JSString), Occurs body index v → valueEnd body index = index + v.length) ∧
    (∀ (index : ℕ) (es : List Element) (blanks : JSString), IsArray es blanks →
      Occurs body index (arrayText es blanks) → ∀ fuel > body.length,
        tokensAt fuel body index = some ((elementOffsets (index + 1) es).map (tokenAt body))) ∧
    (∀ fuel > body.length, (memberOffsets fuel body).isSome ∧
      ∀ start, (nestedMembers fuel body start).isSome ∧ (tokensAt fuel body start).isSome) ∧
    ∀ at' depth, ∀ fuel > body.length + 2 * MAX_NESTING_DEPTH,
      (walkSkipped body fuel at' depth).isSome := by
  refine ⟨?_, fun _ _ => valueEnd_occurs, ?_,
    fun _ hfuel => ⟨memberOffsets_ends hfuel, fun start =>
      ⟨nestedMembers_ends start hfuel, tokensAt_ends start hfuel⟩⟩,
    fun at' depth _ hfuel => walkSkipped_ends at' depth hfuel⟩
  · rintro before after blanks ms hbefore hms - rfl fuel hfuel
    refine ⟨_, memberOffsets_object hbefore hms hfuel, fun name => ?_⟩
    rw [InsertionMap.getD_foldl_push]
    rfl
  · intro index es blanks hes hoccurs fuel hfuel
    exact tokensAt_array hes hoccurs hfuel

/-- A member whose value is an array of two elements. -/
theorem merge_reads_json_member :
    (∃ members, memberOffsets 12 (JSString.ofString "\x7b\"a\":[1,2]\x7d") = some members ∧
      members.get (JSString.ofString "a") = some [⟨1, 5⟩]) ∧
    valueEnd (JSString.ofString "\x7b\"a\":[1,2]\x7d") 5 = 10 ∧
    tokensAt 12 (JSString.ofString "\x7b\"a\":[1,2]\x7d") 5 =
      some ([6, 8].map (tokenAt (JSString.ofString "\x7b\"a\":[1,2]\x7d"))) := by
  have hone : IsValue [0x31] := .number ⟨[], [0x31], [], [], rfl, Or.inl rfl,
    Or.inr ⟨0x31, [], rfl, by decide, List.all_eq_true.1 (by decide)⟩, Or.inl rfl, Or.inl rfl⟩
  have htwo : IsValue [0x32] := .number ⟨[], [0x32], [], [], rfl, Or.inl rfl,
    Or.inr ⟨0x32, [], rfl, by decide, List.all_eq_true.1 (by decide)⟩, Or.inl rfl, Or.inl rfl⟩
  have hes : IsArray [⟨[], [0x31], []⟩, ⟨[], [0x32], []⟩] [] := by
    refine ⟨fun e he => ?_, fun e he => ?_, nofun⟩
    · obtain rfl | he := List.mem_cons.1 he
      · exact ⟨nofun, nofun⟩
      · rw [List.mem_singleton.1 he]
        exact ⟨nofun, nofun⟩
    · obtain rfl | he := List.mem_cons.1 he
      · exact hone
      · rw [List.mem_singleton.1 he]
        exact htwo
  have hname : IsString [0x22, 0x61, 0x22] :=
    ⟨[[0x61]], fun c hc => by
      rw [List.mem_singleton.1 hc]
      exact .plain (by decide) (by decide) (by decide), rfl⟩
  have hms : IsObject [⟨[], [0x22, 0x61, 0x22], [], [],
      arrayText [⟨[], [0x31], []⟩, ⟨[], [0x32], []⟩] [], []⟩] [] := by
    refine ⟨fun m hm => ?_, fun m hm => ?_, nofun⟩
    · rw [List.mem_singleton.1 hm]
      exact ⟨nofun, hname, nofun, nofun, nofun⟩
    · rw [List.mem_singleton.1 hm]
      exact hes.isValue
  have hroot := @Occurs.root [] _ [] nofun hms.isValue nofun
  have harray := hroot.member hms (List.mem_singleton.2 rfl)
  obtain ⟨hmembers, hend, htokens, -, -⟩ :=
    merge_reads_json (JSString.ofString "\x7b\"a\":[1,2]\x7d")
  refine ⟨?_, hend 5 _ harray, htokens 5 _ _ hes harray 12 (by decide)⟩
  obtain ⟨members, hfound, hget⟩ := hmembers [] [] [] _ nofun hms nofun rfl 12 (by decide)
  refine ⟨members, hfound, ?_⟩
  have hlist := hget (JSString.ofString "a")
  cases hmember : members.get (JSString.ofString "a") with
  | none =>
    rw [hmember] at hlist
    exact absurd hlist (by decide)
  | some l =>
    rw [hmember] at hlist
    exact congrArg some (hlist.trans (by decide))

end Merge

end Tvmjs
