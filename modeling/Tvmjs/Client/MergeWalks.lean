import Tvmjs.Client.MergeTokens

/-!
# The walks over a request body end

Each round of a walk moves its cursor on, and a walk into a value goes one level deeper, which ends
at the greatest depth.

* `memberOffsets_ends`, `nestedMembers_ends`, `tokensAt_ends`, `walkSkipped_ends` -- on every body.
-/

namespace Tvmjs

namespace Merge

variable {body : JSString}

private theorem search_lt {index skip : ℕ} (h : search body index = some skip) :
    index + skip < body.length := by
  rw [search, List.findIdx?_eq_some_iff_getElem] at h
  obtain ⟨hlt, -⟩ := h
  rw [List.length_drop] at hlt
  omega

private theorem le_valueEnd (body : JSString) (at' : ℕ) : at' ≤ valueEnd body at' := by
  rw [valueEnd]
  split
  · exact Nat.le_add_right _ _
  · exact Nat.le_add_right _ _

/-- A name is read behind its quote. -/
private theorem lt_of_readPair {index : ℕ} {pair : JSString × Member}
    (h : readPair body index = some pair) :
    index < pair.2.value := by
  rw [readPair, Option.bind_eq_bind, Option.bind_eq_some_iff] at h
  obtain ⟨colon, -, h⟩ := h
  split at h
  · cases h
  · obtain ⟨value, -, h⟩ := Option.bind_eq_some_iff.1 h
    obtain rfl := Option.some.inj h
    change index < index + _ + (colon + 1) + value
    omega

private theorem tokensLoop_ends {fuel prevAt : ℕ} (tokens : List MergeToken)
    (hfuel : body.length - prevAt < fuel) : (tokensLoop body fuel prevAt tokens).isSome := by
  induction fuel generalizing prevAt tokens with
  | zero => omega
  | succ fuel ih =>
    rw [tokensLoop]
    by_cases hlt : prevAt < body.length
    · rw [if_pos hlt]
      split
      · rfl
      dsimp only
      split
      · rfl
      split
      · rfl
      split
      · split
        · rfl
        · exact ih _ (by omega)
      · split
        · rfl
        · exact ih _ (by omega)
    · rw [if_neg hlt]
      rfl

private theorem membersLoop_ends {fuel index : ℕ} (found : Members)
    (hfuel : body.length - index < fuel) :
    (membersLoop body fuel index found).isSome := by
  induction fuel generalizing index found with
  | zero => omega
  | succ fuel ih =>
    rw [membersLoop]
    split
    · rfl
    rename_i skip hskip
    have hlt := search_lt hskip
    dsimp only
    split
    · rfl
    split
    · rfl
    rename_i name member hpair
    have hvalue := lt_of_readPair hpair
    have hend := le_valueEnd body member.value
    split
    · rfl
    split
    · rfl
    · exact ih _ (by dsimp only at hvalue; omega)

private theorem nestedLoop_ends {fuel index : ℕ} (found : List NestedMember)
    (hfuel : body.length - index < fuel) : (nestedLoop body fuel index found).isSome := by
  induction fuel generalizing index found with
  | zero => omega
  | succ fuel ih =>
    rw [nestedLoop]
    split
    · rfl
    rename_i skip hskip
    have hlt := search_lt hskip
    dsimp only
    split
    · rfl
    split
    · rfl
    split
    · rfl
    rename_i name member hpair
    have hvalue := lt_of_readPair hpair
    have hend := le_valueEnd body member.value
    split
    · rfl
    split
    · rfl
    split
    · rfl
    · exact ih _ (by dsimp only at hvalue; omega)

/-- What a walk over a skipped value has to give: an end, and no offset before its start. -/
def Ends (at' : ℕ) (result : Option (Except MergeError ℕ)) : Prop :=
  ∃ r, result = some r ∧ ∀ stop, r = .ok stop → at' ≤ stop

private theorem le_skipPrimitive {at' stop : ℕ} (h : skipPrimitive body at' = .ok stop) :
    at' ≤ stop := by
  rw [skipPrimitive] at h
  split at h
  · obtain rfl := Except.ok.inj h
    exact Nat.le_add_right _ _
  split at h
  · obtain rfl := Except.ok.inj h
    exact Nat.le_add_right _ _
  split at h
  · cases hparse : parseMergeInt64 (tokenAt body at') with
    | error e =>
      rw [hparse] at h
      cases h
    | ok value =>
      rw [hparse] at h
      obtain rfl := Except.ok.inj h
      exact Nat.le_add_right _ _
  · cases h

private theorem le_skipName {index stop : ℕ} (h : skipName body index = .ok stop) :
    index ≤ stop := by
  rw [skipName] at h
  split at h
  · cases h
  · dsimp only at h
    split at h
    · obtain rfl := Except.ok.inj h
      omega
    · obtain rfl := Except.ok.inj h
      omega

/-- **A walk over a skipped value ends**: on every path the depth grows or the cursor moves on. -/
theorem walk_ends (body : JSString) (fuel : ℕ) :
    (∀ at' depth, body.length - at' + 2 * (MAX_NESTING_DEPTH - depth) < fuel →
      Ends at' (walkSkipped body fuel at' depth)) ∧
    ∀ opener index depth, depth < MAX_NESTING_DEPTH →
      body.length - index + 2 * (MAX_NESTING_DEPTH - depth) < fuel →
      Ends index (walkLoop body fuel opener index depth) := by
  -- The two walks call each other; a step takes from the body, and a step down from the depth left.
  induction fuel with
  | zero => exact ⟨fun _ _ h => absurd h (Nat.not_lt_zero _),
      fun _ _ _ _ h => absurd h (Nat.not_lt_zero _)⟩
  | succ fuel ih =>
    constructor
    · intro at' depth hfuel
      rw [walkSkipped]
      by_cases hdepth : depth ≥ MAX_NESTING_DEPTH
      · rw [if_pos hdepth]
        exact ⟨_, rfl, nofun⟩
      rw [if_neg hdepth]
      have hloop : ∀ ch opener : UInt16, body[at']? = some ch →
          Ends at' (walkLoop body fuel opener (at' + 1) depth) := by
        intro ch opener hch
        have hlt : at' < body.length := by
          by_contra hnot
          rw [List.getElem?_eq_none (by omega)] at hch
          cases hch
        obtain ⟨r, hr, hle⟩ := ih.2 opener (at' + 1) depth (by omega) (by omega)
        exact ⟨r, hr, fun stop hstop => (Nat.le_succ at').trans (hle stop hstop)⟩
      split
      · rename_i hch
        exact hloop _ _ hch
      split
      · rename_i hch
        exact hloop _ _ hch
      · exact ⟨_, rfl, fun stop hstop => le_skipPrimitive hstop⟩
    · intro opener index depth hdepth hfuel
      rw [walkLoop]
      dsimp only
      -- a name and its colon are passed first, in an object
      have hname : ∀ e, (if opener = 0x7b then skipName body (index + (search body index).getD 0)
          else .ok (index + (search body index).getD 0)) = .ok e → index ≤ e := by
        intro e he
        split at he
        · have hle := le_skipName he
          omega
        · obtain rfl := Except.ok.inj he
          omega
      split
      · exact ⟨_, rfl, nofun⟩
      rename_i start hstart
      have hle := hname start hstart
      obtain ⟨r, hr, hvalue⟩ := ih.1 start (depth + 1) (by omega)
      rw [hr]
      cases r with
      | error e => exact ⟨_, rfl, nofun⟩
      | ok stop =>
        have hstop := hvalue stop rfl
        dsimp only
        split
        · rename_i hcomma
          -- the comma stands inside of the body, so that the next round has less to read
          have hlt : stop + (search body stop).getD 0 < body.length := by
            by_contra hnot
            rw [List.getElem?_eq_none (by omega)] at hcomma
            cases hcomma
          obtain ⟨r', hr', hrest⟩ := ih.2 opener (stop + (search body stop).getD 0 + 1) depth hdepth
            (by omega)
          exact ⟨r', hr', fun e he => by have := hrest e he; omega⟩
        · refine ⟨_, rfl, fun e he => ?_⟩
          obtain rfl := Except.ok.inj he
          have hclosed : ∀ closed : Bool, stop ≤ if closed = true then
              stop + (search body stop).getD 0 + 1 else stop + (search body stop).getD 0 := by
            intro closed
            split
            · omega
            · omega
          have hle' := hclosed (body[stop + (search body stop).getD 0]? =
            some (if opener = 0x7b then 0x7d else 0x5d))
          simp only [decide_eq_true_eq] at hle'
          exact hle.trans (hstop.trans hle')

/-- `memberOffsets` ends. -/
theorem memberOffsets_ends {fuel : ℕ} (hfuel : body.length < fuel) :
    (memberOffsets fuel body).isSome := by
  rw [memberOffsets]
  split
  · rfl
  · split
    · rfl
    · exact membersLoop_ends _ (by omega)

theorem nestedMembers_ends (start : ℕ) {fuel : ℕ} (hfuel : body.length < fuel) :
    (nestedMembers fuel body start).isSome := by
  rw [nestedMembers]
  split
  · rfl
  · exact nestedLoop_ends _ (by omega)

theorem tokensAt_ends (start : ℕ) {fuel : ℕ} (hfuel : body.length < fuel) :
    (tokensAt fuel body start).isSome := by
  rw [tokensAt]
  split
  · rfl
  · exact tokensLoop_ends _ (by omega)

theorem walkSkipped_ends (at' depth : ℕ) {fuel : ℕ}
    (hfuel : body.length + 2 * MAX_NESTING_DEPTH < fuel) :
    (walkSkipped body fuel at' depth).isSome := by
  obtain ⟨r, hr, -⟩ := (walk_ends body fuel).1 at' depth (by omega)
  rw [hr]
  rfl

end Merge

end Tvmjs
