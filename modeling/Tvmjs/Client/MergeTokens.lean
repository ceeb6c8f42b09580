import Tvmjs.Base.InsertionMap
import Tvmjs.Base.Text

/-!
# The tokens of a request body

The merge stage reads a request body as text, since what it reports names the token it stopped at.
A cursor stands at an offset of the body, and what is read is read from there on.

* `readToken`, `valueEnd` -- where a token and where a whole value ends;
* `memberOffsets`, `nestedMembers`, `tokensAt`, `walkSkipped` -- the walks over members and
  elements.

The walks run on fuel; one that runs out of it has not ended.  That they end is proved in
`Tvmjs.Client.MergeWalks`.
-/

namespace Tvmjs

open JSString

/-- Where a token stands; lines and columns count from one. -/
structure MergePosition where
  line : ℕ
  column : ℤ
deriving DecidableEq

/-- A token with the place where it was read. -/
structure MergeToken where
  /-- The text as it was written, quotes included for a string. -/
  text : JSString
  quoted : Bool
  position : MergePosition
  /-- The offset in the body. -/
  at' : ℕ
deriving DecidableEq

/-- The merge stage reports where it stopped and what it wanted there. -/
structure MergeError where
  position : MergePosition
  detail : JSString
deriving DecidableEq

namespace Merge

/-! ### Positions -/

/-- `newlinesOf`: the offsets of the line ends. -/
def newlinesOf (body : JSString) : List ℕ :=
  (body.zipIdx.filter fun e => e.1 = 0x0a).map Prod.snd

/-- The search of `positionOf`: how many line ends stand before an offset. -/
def searchNewline (newlines : List ℕ) (at' low high : ℕ) : ℕ :=
  if low < high then
    let mid := (low + high) / 2
    if newlines.getD mid 0 < at' then searchNewline newlines at' (mid + 1) high
    else searchNewline newlines at' low mid
  else low
termination_by high - low

/-- Line and column of an offset, the line found by bisection among the newlines. -/
def positionOf (body : JSString) (at' : ℕ) : MergePosition :=
  let newlines := newlinesOf body
  let low := searchNewline newlines at' 0 newlines.length
  { line := low + 1
    column := at' - if low = 0 then -1 else (newlines.getD (low - 1) 0 : ℤ) }

/-! ### Tokens and values -/

/-- The loop of `readToken` over a string, behind its first quote: how far it is to the last one. -/
def stringSpan : JSString → ℕ
  | [] => 0
  | [ch] => if ch = 0x22 then 0 else if ch = 0x5c then 2 else 1
  | ch :: next :: rest =>
    if ch = 0x22 then 0
    else if ch = 0x5c then 2 + stringSpan rest
    else 1 + stringSpan (next :: rest)

/-- A unit that `[^\s,\]}]` matches. -/
def isBare (ch : UInt16) : Bool := !isSpace ch && ch ≠ 0x2c && ch ≠ 0x5d && ch ≠ 0x7d

/-- What is read at a cursor. -/
structure ReadToken where
  text : JSString
  quoted : Bool
  /-- How far it is to its end. -/
  span : ℕ

/-- `readToken`, at the beginning of the rest of the body. -/
def readToken (rest : JSString) : ReadToken :=
  match rest with
  | 0x22 :: chars =>
    let index := 1 + stringSpan chars
    ⟨rest.take (index + 1), true, index + 1⟩
  -- a scalar field handed an object stops the parser at the brace itself
  | 0x7b :: _ => ⟨[0x7b], false, 1⟩
  | _ =>
    let text := rest.takeWhile isBare
    ⟨text, false, text.length⟩

/-- A string that is read moves the cursor. -/
private theorem readToken_span_pos (chars : JSString) : 0 < (readToken (0x22 :: chars)).span :=
  Nat.succ_pos _

/-- The loop of `valueEnd`: how far it is to the closer that brings the depth to zero. -/
def scan (depth : ℤ) (rest : JSString) : ℕ :=
  match rest with
  | [] => 0
  | ch :: tail =>
    if _h : ch = 0x22 then
      let span := (readToken (0x22 :: tail)).span
      span + scan depth ((0x22 :: tail).drop span)
    else if ch = 0x7b ∨ ch = 0x5b then 1 + scan (depth + 1) tail
    else if ch = 0x7d ∨ ch = 0x5d then
      if depth - 1 = 0 then 1 else 1 + scan (depth - 1) tail
    else 1 + scan depth tail
termination_by rest.length
decreasing_by
  · have hpos := readToken_span_pos tail
    rw [List.length_drop, List.length_cons, List.length_cons]
    omega
  · exact Nat.lt_succ_self _
  · exact Nat.lt_succ_self _
  · exact Nat.lt_succ_self _

/-- `valueEnd`: the offset behind the value at an offset. -/
def valueEnd (body : JSString) (at' : ℕ) : ℕ :=
  let rest := body.drop at'
  if rest.head? = some 0x7b ∨ rest.head? = some 0x5b then at' + scan 0 rest
  else at' + (readToken rest).span

/-- `body.slice(index).search(/\S/)` -/
def search (body : JSString) (index : ℕ) : Option ℕ :=
  (body.drop index).findIdx? fun ch => !isSpace ch

/-! ### Walks -/

/-- The token at an offset. -/
def tokenAt (body : JSString) (at' : ℕ) : MergeToken :=
  let token := readToken (body.drop at')
  ⟨token.text, token.quoted, positionOf body at', at'⟩

/-- The loop of `tokensAt`. -/
def tokensLoop (body : JSString) : ℕ → ℕ → List MergeToken → Option (List MergeToken)
  | 0, _, _ => none
  | fuel + 1, prevAt, tokens =>
    if prevAt < body.length then
      match search body prevAt with
      | none => some tokens
      | some skip =>
        let at' := prevAt + skip
        if body[at']? = some 0x5d then some tokens
        else
          let tokens := tokens ++ [tokenAt body at']
          let at' := valueEnd body at'
          match search body at' with
          | none => some tokens
          | some next =>
            let at' := at' + next
            let at' := if body[at']? = some 0x2c then at' + 1 else at'
            if at' ≤ prevAt then some tokens else tokensLoop body fuel at' tokens
    else some tokens

/-- The tokens of a value: those of the elements of an array, the token itself otherwise. -/
def tokensAt (fuel : ℕ) (body : JSString) (start : ℕ) : Option (List MergeToken) :=
  if body[start]? ≠ some 0x5b then some [tokenAt body start]
  else tokensLoop body fuel (start + 1) []

/-- Where a name starts, and where its value does. -/
structure Member where
  key : ℕ
  value : ℕ
deriving DecidableEq

/-- The members of an object by key, each key with all its occurrences. -/
abbrev Members := InsertionMap JSString (List Member)

/-- A name at the cursor, and where its value starts; none if there is no such pair. -/
def readPair (body : JSString) (index : ℕ) : Option (JSString × Member) := do
  let name := readToken (body.drop index)
  let afterName := index + name.span
  let colon ← search body afterName
  if body[afterName + colon]? ≠ some 0x3a then none
  else
    let afterColon := afterName + (colon + 1)
    let value ← search body afterColon
    some (name.text, ⟨index, afterColon + value⟩)

/-- The loop of `memberOffsets`. -/
def membersLoop (body : JSString) : ℕ → ℕ → Members → Option Members
  | 0, _, _ => none
  | fuel + 1, index, found =>
    match search body index with
    | none => some found
    | some skip =>
      let index := index + skip
      if body[index]? ≠ some 0x22 then some found
      else match readPair body index with
        | none => some found
        | some (name, member) =>
          -- the name is the token's text without its quotes, escapes as written
          let found := found.push ((name.drop 1).dropLast) member
          let index := valueEnd body member.value
          match search body index with
          | none => some found
          | some after =>
            let index := index + after
            if body[index]? ≠ some 0x2c then some found
            else membersLoop body fuel (index + 1) found

/-- The members of the object a body holds; none where it holds something else. -/
def memberOffsets (fuel : ℕ) (body : JSString) : Option Members :=
  match search body 0 with
  | none => some .empty
  | some index =>
    if body[index]? ≠ some 0x7b then some .empty else membersLoop body fuel (index + 1) .empty

/-- A member of a nested object, with its own key. -/
structure NestedMember extends Member where
  field : JSString
deriving DecidableEq

/-- The loop of `nestedMembers`. -/
def nestedLoop (body : JSString) : ℕ → ℕ → List NestedMember → Option (List NestedMember)
  | 0, _, _ => none
  | fuel + 1, index, found =>
    match search body index with
    | none => some found
    | some skip =>
      let index := index + skip
      if body[index]? = some 0x7d then some found
      else if body[index]? ≠ some 0x22 then some found
      else match readPair body index with
        | none => some found
        | some (name, member) =>
          let found := found ++ [⟨member, name.filter fun ch => ch ≠ 0x22 ∧ ch ≠ 0x27⟩]
          let index := valueEnd body member.value
          match search body index with
          | none => some found
          | some after =>
            let index := index + after
            if body[index]? = some 0x7d then some found
            else if body[index]? ≠ some 0x2c then some found
            else nestedLoop body fuel (index + 1) found

/-- The members of a nested object; none where the value is no object. -/
def nestedMembers (fuel : ℕ) (body : JSString) (start : ℕ) : Option (List NestedMember) :=
  if body[start]? ≠ some 0x7b then some [] else nestedLoop body fuel (start + 1) []

/-! ### Integers -/

/-- The digits of a radix. -/
def isDigitOf (radix : ℕ) (ch : UInt16) : Bool :=
  (digitValue ch).any fun d => d < radix

/-- How many digits of a radix one 32-bit word holds. -/
def digitsPerWord (radix : ℕ) : ℕ := if radix = 8 then 10 else if radix = 16 then 7 else 9

/-- `text.lastIndexOf(ch)` -/
def lastIndexOf (text : JSString) (ch : UInt16) : ℤ :=
  match text.reverse.findIdx? fun u => u = ch with
  | none => -1
  | some index => text.length - 1 - index

/-- The message about a number that cannot be parsed. -/
def forInputString (text : JSString) : JSString :=
  ofString "For input string: \"" ++ text ++ ofString "\""

/-- What a failed parse reports: a text of at least sixteen characters is read a word at a time. -/
def integerFailure (numberText : JSString) (radix : ℕ) : JSString :=
  if numberText.length < 16 then forInputString numberText
  else
    let minus := lastIndexOf numberText 0x2d
    let plus := lastIndexOf numberText 0x2b
    if (minus ≥ 0 ∧ (minus ≠ 0 ∨ plus ≥ 0)) ∨
      plus > 0 then ofString "Illegal embedded sign character"
    else
      let per := digitsPerWord radix
      let group := if numberText.length % per = 0 then per else numberText.length % per
      forInputString (numberText.take group)

/-- The number that digits spell. -/
def magnitude (radix : ℕ) (digits : JSString) : ℕ :=
  digits.foldl (fun n ch => radix * n + (digitValue ch).getD 0) 0

/-- Parses an integer with the radix that its digits begin with. -/
def parseMergeInteger (token : MergeToken) (isLong : Bool) : Except MergeError ℤ :=
  let text := token.text
  let negative := startsWith text (ofString "-")
  let unsigned := if negative then text.drop 1 else text
  let radix := if startsWith unsigned (ofString "0x") then 16
    else if startsWith unsigned (ofString "0") then 8 else 10
  let numberText := if radix = 16 then unsigned.drop 2 else unsigned
  if numberText = [] ∨ ¬ numberText.all (isDigitOf radix) then
    .error ⟨token.position, ofString "Couldn't parse integer: " ++ integerFailure numberText radix⟩
  else
    let value : ℤ := if negative then -(magnitude radix numberText : ℤ)
      else magnitude radix numberText
    let width := if isLong then 64 else 32
    if value > 2 ^ (width - 1) - 1 ∨ value < -2 ^ (width - 1) then
      .error ⟨token.position,
        ofString "Couldn't parse integer: Number out of range for " ++
          ofString (if isLong then "64" else "32") ++ ofString "-bit signed integer: " ++ text⟩
    else .ok value

/-- Parses an integer of 64 bits. -/
def parseMergeInt64 (token : MergeToken) : Except MergeError ℤ := parseMergeInteger token true

/-! ### Skipping -/

/-- The depth of nesting at which the reader gives up. -/
def MAX_NESTING_DEPTH : ℕ := 20

/-- A value without members or elements: one of four shapes, chosen by the first character. -/
def skipPrimitive (body : JSString) (at' : ℕ) : Except MergeError ℕ :=
  let token := tokenAt body at'
  let stop := at' + (readToken (body.drop at')).span
  if token.text = ofString "null" ∨ token.text = ofString "true" ∨
    token.text = ofString "false" then
    .ok stop
  else if token.quoted then .ok stop
  else if token.text.head?.any fun ch => ch = 0x2d ∨ ch = 0x2b ∨ isDigitOf 10 ch then do
    let _ ← parseMergeInt64 token
    return stop
  else .error ⟨token.position, ofString "Expected string."⟩

/-- A name and its colon, in front of a value. -/
def skipName (body : JSString) (index : ℕ) : Except MergeError ℕ :=
  if body[index]? ≠ some 0x22 then
    .error ⟨positionOf body index, ofString "Expected identifier. -" ++ (body[index]?).toList⟩
  else
    let index := index + (readToken (body.drop index)).span
    let index := index + (search body index).getD 0
    let index := if body[index]? = some 0x3a then index + 1 else index
    .ok (index + (search body index).getD 0)

mutual

/-- `walkSkipped`: the offset behind a value, which has to follow the walk's own grammar. -/
def walkSkipped (body : JSString) : ℕ → ℕ → ℕ → Option (Except MergeError ℕ)
  | 0, _, _ => none
  | fuel + 1, at', depth =>
    if depth ≥ MAX_NESTING_DEPTH then
      some (.error ⟨positionOf body at', ofString "Hit recursion limit."⟩)
    else if body[at']? = some 0x7b then walkLoop body fuel 0x7b (at' + 1) depth
    else if body[at']? = some 0x5b then walkLoop body fuel 0x5b (at' + 1) depth
    else some (skipPrimitive body at')

/-- The loop of `walkSkipped`. -/
def walkLoop (body : JSString) : ℕ → UInt16 → ℕ → ℕ → Option (Except MergeError ℕ)
  | 0, _, _, _ => none
  | fuel + 1, opener, index, depth =>
    let index := index + (search body index).getD 0
    match if opener = 0x7b then skipName body index else .ok index with
    | .error e => some (.error e)
    | .ok index =>
      match walkSkipped body fuel index (depth + 1) with
      | none => none
      | some (.error e) => some (.error e)
      | some (.ok index) =>
        let index := index + (search body index).getD 0
        if body[index]? = some 0x2c then walkLoop body fuel opener (index + 1) depth
        else
          let closer : UInt16 := if opener = 0x7b then 0x7d else 0x5d
          some (.ok (if body[index]? = some closer then index + 1 else index))

end

end Merge

end Tvmjs
