import Tvmjs.Blockchain.GetBlocks

/-!
# Which blocks are missing

Of a list of hashes in the order of their numbers, the ones whose blocks are not stored, by a binary
search that keeps three cursors.

* `selectNeededHashes` -- the search;
* `SearchBounds` -- what holds of the cursors in every round;
* `selectNeededHashes_suffix` -- **it ends on every list**, and returns the hashes that are not
  stored if no stored one comes behind them.
-/

namespace Tvmjs

namespace Blockchain

variable {H : Type}

/-! ### The search -/

/-- The lookup in its `try`: nothing for a hash that is not found in the database. -/
def findNumber (hash : H) : ChainM H (Option ℕ) :=
  Prog.tryCatch
    (do
      let number ← hashToNumber hash
      pure (some number))
    fun e => if e.isNotFound then pure none else Prog.throw e

/-- `hashes[mid]`, looked up.  No key can be built from an entry that is not there. -/
def numberAtCursor (hashes : List H) (mid : ℤ) : ChainM H (Option ℕ) :=
  match if 0 ≤ mid then hashes[mid.toNat]? else none with
  | some hash => findNumber hash
  | none => Prog.throw (.refused "Uint8Array expected")

/-- The loop of `selectNeededHashes`, with where it leaves `min`. -/
def searchLoop (hashes : List H) : ℕ → ℤ → ℤ → ℤ → ChainM H ℤ
  | 0, _, _, _ => Prog.throw .outOfFuel
  | fuel + 1, min, mid, max =>
    if max ≥ min then do
      match ← numberAtCursor hashes mid with
      | some _ =>
        let min := mid + 1
        searchLoop hashes fuel min ((min + max) / 2) max
      | none =>
        let max := mid - 1
        searchLoop hashes fuel min ((min + max) / 2) max
    else pure min

/-- `selectNeededHashes` -/
def selectNeededHashes (fuel : ℕ) (hashes : List H) : ChainM H (List H) := do
  let min ← searchLoop hashes fuel 0 0 (hashes.length - 1)
  pure (hashes.drop min.toNat)

/-! ### The cursors -/

/-- Whether the block of a hash is stored. -/
def Database.isKnown (db : Database H) (hash : H) : Bool := (db.hashToNumber hash).isSome

private theorem run_findNumber (hash : H) (s : Blockchain H) :
    (findNumber hash).run s = (.ok (s.db.hashToNumber hash), s) := by
  rw [findNumber, Prog.run_tryCatch]
  cases h : s.db.hashToNumber hash with
  | none =>
    have hnot : (hashToNumber hash).run s = (.error (.notFound hash), s) := by
      rw [hashToNumber, Prog.run_bind_of_ok (Prog.run_gets _ s), h]
      rfl
    rw [Prog.run_bind_of_error hnot]
    rfl
  | some n =>
    have hfound : (hashToNumber hash).run s = (.ok n, s) := by
      rw [hashToNumber, Prog.run_bind_of_ok (Prog.run_gets _ s), h]
      rfl
    rw [Prog.run_bind_of_ok hfound]
    rfl

/-- The cursors of a round: what is left to search is a part of the list, and the middle is in it
unless nothing is left. -/
structure SearchBounds (length : ℕ) (min mid max : ℤ) : Prop where
  nonneg : 0 ≤ min
  inside : max < length
  width : min ≤ max + 1
  middle : min ≤ max → min ≤ mid ∧ mid ≤ max

variable {hashes : List H} {min mid max : ℤ}

theorem SearchBounds.start (length : ℕ) : SearchBounds length 0 0 (length - 1) where
  nonneg := le_rfl
  inside := by omega
  width := by omega
  middle h := ⟨le_rfl, h⟩

/-- What is left is searched above the middle. -/
theorem SearchBounds.above {length : ℕ} (h : SearchBounds length min mid max) (hle : min ≤ max) :
    SearchBounds length (mid + 1) ((mid + 1 + max) / 2) max := by
  obtain ⟨hlow, hhigh⟩ := h.middle hle
  have hnonneg := h.nonneg
  exact ⟨by omega, h.inside, by omega, fun _ => by omega⟩

/-- What is left is searched below the middle. -/
theorem SearchBounds.below {length : ℕ} (h : SearchBounds length min mid max) (hle : min ≤ max) :
    SearchBounds length min ((min + (mid - 1)) / 2) (mid - 1) := by
  obtain ⟨hlow, hhigh⟩ := h.middle hle
  have hinside := h.inside
  exact ⟨h.nonneg, by omega, by omega, fun _ => by omega⟩

/-- **The loop ends** after as many rounds as there are entries left at most, inside of the list.
If the stored hashes are the first `k` ones, it ends behind them. -/
theorem run_searchLoop {s : Blockchain H} {fuel : ℕ} (h : SearchBounds hashes.length min mid max)
    (hfuel : max + 1 - min < fuel) :
    ∃ stop : ℤ, (searchLoop hashes fuel min mid max).run s = (.ok stop, s) ∧
      min ≤ stop ∧ stop ≤ max + 1 ∧
      ∀ k : ℕ, (∀ i (hi : i < hashes.length), s.db.isKnown hashes[i] = true ↔ i < k) →
        min ≤ k → k ≤ max + 1 → stop = k := by
  induction fuel generalizing min mid max with
  | zero =>
    have hwidth := h.width
    omega
  | succ fuel ih =>
    rw [searchLoop]
    by_cases hle : min ≤ max
    · obtain ⟨hlow, hhigh⟩ := h.middle hle
      have hnonneg := h.nonneg
      have hinside := h.inside
      have hmid : mid.toNat < hashes.length := by omega
      have hrun : (numberAtCursor hashes mid).run s =
          (.ok (s.db.hashToNumber hashes[mid.toNat]), s) := by
        rw [numberAtCursor, if_pos (by omega), List.getElem?_eq_getElem hmid]
        exact run_findNumber _ s
      rw [if_pos hle, Prog.run_bind_of_ok hrun]
      cases hnumber : s.db.hashToNumber hashes[mid.toNat] with
      | some n =>
        obtain ⟨stop, hstop, hmin, hmax, hk⟩ := ih (h.above hle) (by omega)
        refine ⟨stop, hstop, by omega, hmax, fun k hknown _ hkmax => hk k hknown ?_ hkmax⟩
        -- the middle is stored, and so it is one of the first `k`
        have hlt := (hknown mid.toNat hmid).1 (by rw [Database.isKnown, hnumber]; rfl)
        omega
      | none =>
        obtain ⟨stop, hstop, hmin, hmax, hk⟩ := ih (h.below hle) (by omega)
        refine ⟨stop, hstop, hmin, by omega, fun k hknown hkmin _ => hk k hknown hkmin ?_⟩
        have hnot : ¬ mid.toNat < k := by
          intro hlt
          have hsome := (hknown mid.toNat hmid).2 hlt
          rw [Database.isKnown, hnumber] at hsome
          cases hsome
        omega
    · have hwidth := h.width
      rw [if_neg hle]
      exact ⟨min, rfl, le_rfl, hwidth, fun k _ hmin hmax => by omega⟩

/-! ### What is returned -/

/-- Where no stored hash comes behind an unknown one, the unknown ones are a suffix. -/
private theorem filter_unknown {known : H → Bool}
    (h : hashes.Pairwise fun a b => known a = false → known b = false) :
    ∃ k ≤ hashes.length, (∀ i (hi : i < hashes.length), known hashes[i] = true ↔ i < k) ∧
      hashes.drop k = hashes.filter fun hash => !known hash := by
  induction hashes with
  | nil => exact ⟨0, le_rfl, fun i hi => absurd hi (Nat.not_lt_zero i), rfl⟩
  | cons a l ih =>
    obtain ⟨hhead, htail⟩ := List.pairwise_cons.1 h
    cases ha : known a with
    | true =>
      obtain ⟨k, hk, hknown, hdrop⟩ := ih htail
      refine ⟨k + 1, Nat.succ_le_succ hk, fun i hi => ?_, ?_⟩
      · cases i with
        | zero => exact ⟨fun _ => Nat.succ_pos k, fun _ => ha⟩
        | succ i =>
          rw [List.getElem_cons_succ, hknown i (Nat.lt_of_succ_lt_succ hi)]
          exact Nat.succ_lt_succ_iff.symm
      · rw [List.drop_succ_cons, hdrop, List.filter_cons, ha]
        rfl
    | false =>
      have hall : ∀ b ∈ a :: l, known b = false := by
        intro b hb
        obtain rfl | hb := List.mem_cons.1 hb
        · exact ha
        · exact hhead b hb ha
      refine ⟨0, Nat.zero_le _, fun i hi => ?_, ?_⟩
      · rw [hall _ (List.getElem_mem hi)]
        exact ⟨nofun, fun hlt => absurd hlt (Nat.not_lt_zero i)⟩
      · rw [List.drop_zero, List.filter_eq_self.2]
        intro b hb
        rw [hall b hb]
        rfl

/-- **The missing blocks.**  The search ends on every list and leaves the chain as it is; what it
returns is the rest of the list from some place on, and exactly the hashes that are not stored where
no stored one follows an unknown one. -/
theorem selectNeededHashes_suffix (s : Blockchain H) (hashes : List H) (fuel : ℕ)
    (hfuel : hashes.length < fuel) :
    (∃ min ≤ hashes.length,
      (selectNeededHashes fuel hashes).run s = (.ok (hashes.drop min), s)) ∧
    ((hashes.Pairwise fun a b => s.db.isKnown a = false → s.db.isKnown b = false) →
      (selectNeededHashes fuel hashes).run s =
        (.ok (hashes.filter fun hash => !s.db.isKnown hash), s) ∧
      (hashes.filter fun hash => !s.db.isKnown hash) <:+ hashes) := by
  obtain ⟨stop, hrun, hmin, hmax, hk⟩ :=
    @run_searchLoop H hashes 0 0 (hashes.length - 1) s fuel (.start _) (by omega)
  have hselect : (selectNeededHashes fuel hashes).run s = (.ok (hashes.drop stop.toNat), s) :=
    Prog.run_bind_of_ok hrun
  refine ⟨⟨stop.toNat, by omega, hselect⟩, fun hordered => ?_⟩
  obtain ⟨k, hlength, hknown, hdrop⟩ := filter_unknown hordered
  have hstop : stop = k := hk k hknown (by omega) (by omega)
  rw [hselect, hstop, Int.toNat_natCast, hdrop, ← hdrop]
  exact ⟨rfl, List.drop_suffix k hashes⟩

/-- The genesis block is stored, and a block that was never put is not. -/
theorem selectNeededHashes_genesis :
    ((selectNeededHashes 3 [sampleHash sampleEnv.genesis, sampleHash sampleBlock]).run
      (createBlockchain sampleEnv [])).1 = .ok [sampleHash sampleBlock] := by
  have hordered : [sampleHash sampleEnv.genesis, sampleHash sampleBlock].Pairwise fun a b =>
      (createBlockchain sampleEnv []).db.isKnown a = false →
        (createBlockchain sampleEnv []).db.isKnown b = false := by
    decide
  have hrun := ((selectNeededHashes_suffix (createBlockchain sampleEnv [])
    [sampleHash sampleEnv.genesis, sampleHash sampleBlock] 3 (by decide)).2 hordered).1
  rw [hrun]
  decide

end Blockchain

end Tvmjs
