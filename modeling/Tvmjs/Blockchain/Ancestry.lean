import Tvmjs.Blockchain.Moves

/-!
# The walks of a put

A put that moves the head walks over stored headers four times: from the new header down to the
number of the head header, down both branches to their common ancestor, up the canonical numbers
above the new one, and down from the new header to the canonical chain.  Each walk is a relation on
the tables, without fuel.

* `DescendsTo`, `Meets`, `CommonAncestor` -- what `findCommonAncestor` walks over and finds;
* `Clears` -- the canonical numbers that are forgotten;
* `WalksBack` -- what `_rebuildCanonical` collects;
* `ensures_findCommonAncestor`, `yields_findCommonAncestor`, and likewise for the other loops --
  **a loop returns exactly what its walk says**, given fuel enough.
-/

namespace Tvmjs

namespace Blockchain

variable {H : Type}

/-! ### Reads that return -/

section Reads

variable {s : Blockchain H}

theorem yields_hashToNumber {hash : H} {n : ℕ} (h : s.db.hashToNumber hash = some n) :
    (hashToNumber hash).Yields s n s := by
  refine .bind (.gets _ s) ?_
  rw [h]
  exact .pure n s

private theorem yields_getHeader {hash : H} {n : ℤ} {header : Header H}
    (h : s.db.header (asUintN64 n) hash = some header) : (getHeader hash n).Yields s header s := by
  refine .bind (.gets _ s) ?_
  rw [h]
  exact .pure header s

private theorem yields_getCanonicalHeader {n : ℤ} {hash : H} {header : Header H}
    (hindex : s.db.numberToHash (asUintN64 n) = some hash)
    (h : s.db.header (asUintN64 n) hash = some header) :
    (getCanonicalHeader n).Yields s header s := by
  refine .bind (.gets _ s) ?_
  rw [hindex]
  exact yields_getHeader h

private theorem ensures_getCanonicalHeader {n : ℤ} {Q : Header H → Blockchain H → Prop}
    (h : ∀ hash header, s.db.numberToHash (asUintN64 n) = some hash →
      s.db.header (asUintN64 n) hash = some header → Q header s) :
    (getCanonicalHeader n).Ensures Q s := by
  refine .bind (ensures_numberToHash ?_)
  rcases hindex : s.db.numberToHash (asUintN64 n) with _ | hash
  · exact .throw
  · exact ensures_getHeader fun header hheader => h hash header hindex hheader

theorem yields_getTotalDifficulty {hash : H} {n : ℕ} (h : s.db.hashToNumber hash = some n) :
    (getTotalDifficulty hash).Yields s (s.db.td hash) s := by
  rw [Database.td, h]
  exact .bind (yields_hashToNumber h) (.gets _ s)

end Reads

/-! ### The common ancestor -/

/-- Parent by parent from a header down to the number `target`, or to zero: the last header, and the
headers walked. -/
inductive DescendsTo (db : Database H) (target : ℕ) :
    Header H → Header H → List (Header H) → Prop
  | arrived {header : Header H} (hend : ¬ (target ≠ header.number ∧ header.number > 0)) :
      DescendsTo db target header header []
  | parent {header parent last : Header H} {walked : List (Header H)}
      (hgo : target ≠ header.number ∧ header.number > 0)
      (hparent : db.header (asUintN64 (header.number - 1)) header.parentHash = some parent)
      (hrest : DescendsTo db target parent last walked) :
      DescendsTo db target header last (parent :: walked)

/-- A canonical header and another one go down until they meet: where they do, and the headers
walked. -/
inductive Meets (env : Env H) (db : Database H) :
    Header H → Header H → Header H → List (Header H) → Prop
  | met {header newHeader : Header H} (hsame : env.hash header = env.hash newHeader) :
      Meets env db header newHeader header []
  | down {header newHeader canonical parent ancestor : Header H} {hash : H}
      {walked : List (Header H)}
      (hgo : env.hash header ≠ env.hash newHeader ∧ header.number > 0)
      (hindex : db.numberToHash (asUintN64 (header.number - 1)) = some hash)
      (hcanonical : db.header (asUintN64 (header.number - 1)) hash = some canonical)
      (hparent : db.header (asUintN64 (newHeader.number - 1)) newHeader.parentHash = some parent)
      (hrest : Meets env db canonical parent ancestor walked) :
      Meets env db header newHeader ancestor (canonical :: parent :: walked)

/-- The header of the head header hash, found by its number. -/
def IsHead (s : Blockchain H) (head : Header H) : Prop :=
  ∃ n : ℕ, s.db.hashToNumber s.headHeaderHash = some n ∧
    s.db.header (asUintN64 n) s.headHeaderHash = some head

/-- The common ancestor of the canonical chain and a new header, and the headers walked: the walk
down starts at the number which is the smaller one of the new header's and the head's. -/
inductive CommonAncestor (env : Env H) (s : Blockchain H) (newHeader : Header H) :
    Header H → List (Header H) → Prop
  | belowHead {head canonical ancestor : Header H} {hash : H} {walked : List (Header H)}
      (hhead : IsHead s head) (hbelow : head.number > newHeader.number)
      (hindex : s.db.numberToHash (asUintN64 newHeader.number) = some hash)
      (hcanonical : s.db.header (asUintN64 newHeader.number) hash = some canonical)
      (hnumber : canonical.number = newHeader.number)
      (hmeets : Meets env s.db canonical newHeader ancestor walked) :
      CommonAncestor env s newHeader ancestor (canonical :: walked)
  | aboveHead {head last ancestor : Header H} {descended walked : List (Header H)}
      (hhead : IsHead s head) (habove : ¬ head.number > newHeader.number)
      (hdescends : DescendsTo s.db head.number newHeader last descended)
      (hnumber : head.number = last.number) (hmeets : Meets env s.db head last ancestor walked) :
      CommonAncestor env s newHeader ancestor (descended ++ walked)

section Loops

variable [DecidableEq H] {env : Env H} {s : Blockchain H}

omit [DecidableEq H] in
private theorem ensures_descendTo (target fuel : ℕ) (header : Header H)
    (ancestors : List (Header H)) :
    (descendTo target fuel header ancestors).Ensures (fun r t => t = s ∧
      ∃ walked, DescendsTo s.db target header r.1 walked ∧ r.2 = ancestors ++ walked) s := by
  induction fuel generalizing header ancestors with
  | zero => exact .throw
  | succ fuel ih =>
    refine .ite (fun hgo => ?_) fun hend => ?_
    · refine .bind (ensures_getHeader fun parent hparent => ?_)
      refine (ih parent (ancestors ++ [parent])).mono ?_
      rintro r t ⟨rfl, walked, hrest, hr⟩
      refine ⟨rfl, parent :: walked, .parent hgo hparent hrest, ?_⟩
      rw [hr, List.append_assoc, List.singleton_append]
    · exact .pure ⟨rfl, [], .arrived hend, (List.append_nil _).symm⟩

omit [DecidableEq H] in
private theorem yields_descendTo {target : ℕ} {header last : Header H} {walked : List (Header H)}
    (h : DescendsTo s.db target header last walked) : ∃ least, ∀ fuel, least ≤ fuel →
      ∀ ancestors, (descendTo target fuel header ancestors).Yields s
        (last, ancestors ++ walked) s := by
  induction h with
  | arrived hend =>
    refine ⟨1, fun fuel hfuel ancestors => ?_⟩
    obtain ⟨fuel, rfl⟩ := Nat.exists_eq_add_of_le' hfuel
    rw [List.append_nil]
    exact .ite_neg hend (.pure _ s)
  | @parent header parent last walked hgo hparent _ ih =>
    obtain ⟨least, hleast⟩ := ih
    refine ⟨least + 1, fun fuel hfuel ancestors => ?_⟩
    obtain ⟨fuel, rfl⟩ := Nat.exists_eq_add_of_le' (Nat.le_of_add_left_le hfuel)
    have hrest := hleast fuel (by omega) (ancestors ++ [parent])
    rw [List.append_assoc, List.singleton_append] at hrest
    exact .ite_pos hgo (.bind (yields_getHeader hparent) hrest)

private theorem ensures_meet (fuel : ℕ) (header newHeader : Header H)
    (ancestors : List (Header H)) :
    (meet env fuel header newHeader ancestors).Ensures (fun r t => t = s ∧
      (env.hash r.1 = env.hash r.2.1 →
        ∃ walked, Meets env s.db header newHeader r.1 walked ∧ r.2.2 = ancestors ++ walked)) s := by
  induction fuel generalizing header newHeader ancestors with
  | zero => exact .throw
  | succ fuel ih =>
    refine .ite (fun hgo => ?_) fun _ => ?_
    · refine .bind (ensures_getCanonicalHeader fun hash canonical hindex hcanonical => ?_)
      refine .bind (ensures_getHeader fun parent hparent => ?_)
      refine (ih canonical parent (ancestors ++ [canonical, parent])).mono ?_
      rintro r t ⟨rfl, hr⟩
      refine ⟨rfl, fun hsame => ?_⟩
      obtain ⟨walked, hrest, hwalked⟩ := hr hsame
      refine ⟨canonical :: parent :: walked, .down hgo hindex hcanonical hparent hrest, ?_⟩
      rw [hwalked, List.append_assoc]
      rfl
    · exact .pure ⟨rfl, fun hsame => ⟨[], .met hsame, (List.append_nil _).symm⟩⟩

private theorem yields_meet {header newHeader ancestor : Header H} {walked : List (Header H)}
    (h : Meets env s.db header newHeader ancestor walked) :
    ∃ last, env.hash ancestor = env.hash last ∧ ∃ least, ∀ fuel, least ≤ fuel → ∀ ancestors,
      (meet env fuel header newHeader ancestors).Yields s
        (ancestor, last, ancestors ++ walked) s := by
  induction h with
  | @met header newHeader hsame =>
    refine ⟨newHeader, hsame, 1, fun fuel hfuel ancestors => ?_⟩
    obtain ⟨fuel, rfl⟩ := Nat.exists_eq_add_of_le' hfuel
    rw [List.append_nil]
    exact .ite_neg (fun hgo => hgo.1 hsame) (.pure _ s)
  | @down header newHeader canonical parent ancestor hash walked hgo hindex hcanonical hparent _
      ih =>
    obtain ⟨last, hsame, least, hleast⟩ := ih
    refine ⟨last, hsame, least + 1, fun fuel hfuel ancestors => ?_⟩
    obtain ⟨fuel, rfl⟩ := Nat.exists_eq_add_of_le' (Nat.le_of_add_left_le hfuel)
    have hrest := hleast fuel (by omega) (ancestors ++ [canonical, parent])
    rw [List.append_assoc] at hrest
    exact .ite_pos hgo (.bind (yields_getCanonicalHeader hindex hcanonical)
      (.bind (yields_getHeader hparent) hrest))

/-- What `findCommonAncestor` returns is the common ancestor. -/
theorem ensures_findCommonAncestor (fuel : ℕ) (newHeader : Header H) :
    (findCommonAncestor env fuel newHeader).Ensures
      (fun r t => t = s ∧ CommonAncestor env s newHeader r.1 r.2) s := by
  refine .bind (.gets (.bind (.bind (ensures_hashToNumber fun n hn => ?_))))
  refine ensures_getHeader fun head hheader => ?_
  have hhead : IsHead s head := ⟨n, hn, hheader⟩
  -- both branches end in the second loop
  have hjoin (header last : Header H) (descended : List (Header H))
      (hfound : header.number = last.number → ∀ ancestor walked,
        Meets env s.db header last ancestor walked →
        CommonAncestor env s newHeader ancestor (descended ++ walked)) :
      Prog.Ensures (if header.number ≠ last.number then Prog.throw .noAncientHeader
        else meet env fuel header last descended >>= fun met =>
          if env.hash met.1 ≠ env.hash met.2.1 then Prog.throw .noAncientHeader
          else pure (met.1, met.2.2))
        (fun r t => t = s ∧ CommonAncestor env s newHeader r.1 r.2) s := by
    refine .ite (fun _ => .throw) fun hnumber => .bind ((ensures_meet fuel _ _ _).mono ?_)
    rintro met t ⟨rfl, hmet⟩
    refine .ite (fun _ => .throw) fun hsame => .pure ⟨rfl, ?_⟩
    obtain ⟨walked, hmeets, hwalked⟩ := hmet (not_not.1 hsame)
    rw [hwalked]
    exact hfound (not_not.1 hnumber) met.1 walked hmeets
  refine .ite (fun hbelow => ?_) fun habove => ?_
  · refine .bind (ensures_getCanonicalHeader fun hash canonical hindex hcanonical => ?_)
    exact hjoin canonical newHeader [canonical] fun hnumber ancestor walked hmeets =>
      .belowHead hhead hbelow hindex hcanonical hnumber hmeets
  · refine .bind ((ensures_descendTo _ fuel newHeader []).mono ?_)
    rintro ⟨last, descended⟩ t ⟨rfl, walked, hdescends, rfl⟩
    exact hjoin head last _ fun hnumber ancestor walked hmeets =>
      .aboveHead hhead habove hdescends hnumber hmeets

/-- With fuel enough the common ancestor is found. -/
theorem yields_findCommonAncestor {newHeader ancestor : Header H} {walked : List (Header H)}
    (h : CommonAncestor env s newHeader ancestor walked) : ∃ least, ∀ fuel, least ≤ fuel →
      (findCommonAncestor env fuel newHeader).Yields s (ancestor, walked) s := by
  -- both branches end in the second loop
  have hjoin (header last : Header H) (descended walked : List (Header H)) (fuel : ℕ)
    (last' : Header H)
      (hnumber : header.number = last.number) (hsame : env.hash ancestor = env.hash last')
      (hmeet : (meet env fuel header last descended).Yields s
        (ancestor, last', descended ++ walked) s) :
      Prog.Yields (if header.number ≠ last.number then Prog.throw .noAncientHeader
        else meet env fuel header last descended >>= fun met =>
          if env.hash met.1 ≠ env.hash met.2.1 then Prog.throw .noAncientHeader
          else pure (met.1, met.2.2)) s (ancestor, descended ++ walked) s :=
    .ite_neg (not_not.2 hnumber) (.bind hmeet (.ite_neg (not_not.2 hsame) (.pure _ s)))
  cases h with
  | @belowHead head canonical _ hash walked hhead hbelow hindex hcanonical hnumber hmeets =>
    obtain ⟨n, hn, hheader⟩ := hhead
    obtain ⟨last, hsame, least, hleast⟩ := yields_meet hmeets
    refine ⟨least, fun fuel hfuel => ?_⟩
    refine .bind (.gets _ s) (.bind (.bind (yields_hashToNumber hn) (yields_getHeader hheader)) ?_)
    refine .ite_pos hbelow (.bind (yields_getCanonicalHeader hindex hcanonical) ?_)
    exact hjoin canonical newHeader [canonical] walked fuel last hnumber hsame (hleast fuel hfuel _)
  | @aboveHead head last _ descended walked hhead habove hdescends hnumber hmeets =>
    obtain ⟨n, hn, hheader⟩ := hhead
    obtain ⟨last', hsame, least, hleast⟩ := yields_meet hmeets
    obtain ⟨least', hleast'⟩ := yields_descendTo hdescends
    refine ⟨max least least', fun fuel hfuel => ?_⟩
    refine .bind (.gets _ s) (.bind (.bind (yields_hashToNumber hn) (yields_getHeader hheader)) ?_)
    refine .ite_neg habove (.bind (hleast' fuel ((Nat.le_max_right ..).trans hfuel) []) ?_)
    exact hjoin head last descended walked fuel last' hnumber hsame
      (hleast fuel ((Nat.le_max_left ..).trans hfuel) _)

/-- There is one common ancestor at most. -/
theorem CommonAncestor.unique {newHeader a a' : Header H} {w w' : List (Header H)}
    (h : CommonAncestor env s newHeader a w) (h' : CommonAncestor env s newHeader a' w') :
    a = a' ∧ w = w' := by
  obtain ⟨least, hleast⟩ := yields_findCommonAncestor h
  obtain ⟨least', hleast'⟩ := yields_findCommonAncestor h'
  have hone := hleast (max least least') (le_max_left ..)
  have hother := hleast' (max least least') (le_max_right ..)
  exact Prod.ext_iff.1 (hone.unique hother).1

end Loops

/-! ### The numbers that are forgotten -/

/-- The operations that forget the canonical numbers from `n` on, up to the first free one. -/
inductive Clears (db : Database H) : ℤ → List (DBOp H) → Prop
  | done {n : ℤ} (hfree : db.numberToHash (asUintN64 n) = none) : Clears db n []
  | next {n : ℤ} {hash : H} {ops : List (DBOp H)}
      (hindex : db.numberToHash (asUintN64 n) = some hash) (hrest : Clears db (n + 1) ops) :
      Clears db n (.delNumberToHash n :: ops)

/-- Where a number is free, the canonical numbers end. -/
theorem exists_clears {db : Database H} {n : ℤ} {k : ℕ}
    (hfree : db.numberToHash (asUintN64 (n + k)) = none) : ∃ ops, Clears db n ops := by
  induction k generalizing n with
  | zero =>
    have hn : n + (0 : ℕ) = n := by omega
    rw [hn] at hfree
    exact ⟨[], .done hfree⟩
  | succ k ih =>
    rcases hindex : db.numberToHash (asUintN64 n) with _ | hash
    · exact ⟨[], .done hindex⟩
    · have hn : n + (k + 1 : ℕ) = n + 1 + k := by omega
      rw [hn] at hfree
      obtain ⟨ops, hrest⟩ := ih hfree
      exact ⟨_, .next hindex hrest⟩

/-- Forgotten numbers end at a free one. -/
theorem Clears.exists_free {db : Database H} {n : ℤ} {ops : List (DBOp H)} (h : Clears db n ops) :
    ∃ k : ℕ, db.numberToHash (asUintN64 (n + k)) = none := by
  induction h with
  | @done n hfree =>
    have hn : n + (0 : ℕ) = n := by omega
    exact ⟨0, hn.symm ▸ hfree⟩
  | @next n _ _ _ _ ih =>
    obtain ⟨k, hk⟩ := ih
    have hn : n + (k + 1 : ℕ) = n + 1 + k := by omega
    exact ⟨k + 1, hn.symm ▸ hk⟩

section Forgetting

variable [DecidableEq H] {s : Blockchain H}

theorem ensures_deleteCanonicalChainReferences (headHash : H) (fuel : ℕ) (n : ℤ) :
    (deleteCanonicalChainReferences headHash fuel n).Ensures
      (fun ops t => t.db = s.db ∧ Clears s.db n ops ∧ (ops = [] → t = s)) s := by
  induction fuel generalizing n s with
  | zero => exact .throw
  | succ fuel ih =>
    refine .bind (ensures_numberToHash ?_)
    rcases hindex : s.db.numberToHash (asUintN64 n) with _ | hash
    · exact .pure ⟨rfl, .done hindex, fun _ => rfl⟩
    · refine .bind (.modify (.bind ((ih (s := rewind hash headHash s) (n + 1)).mono ?_)))
      rintro ops t ⟨hdb, hclears, -⟩
      exact .pure ⟨hdb, .next hindex hclears, nofun⟩

theorem yields_deleteCanonicalChainReferences {db : Database H} {n : ℤ} {ops : List (DBOp H)}
    (h : Clears db n ops) (headHash : H) : ∃ least, ∀ fuel, least ≤ fuel → ∀ s : Blockchain H,
      s.db = db → ∃ t, (deleteCanonicalChainReferences headHash fuel n).Yields s ops t ∧
        t.db = db := by
  induction h with
  | done hfree =>
    refine ⟨1, fun fuel hfuel s hs => ⟨s, ?_, hs⟩⟩
    obtain ⟨fuel, rfl⟩ := Nat.exists_eq_add_of_le' hfuel
    refine .bind (.gets _ s) ?_
    rw [hs, hfree]
    exact .pure [] s
  | @next n hash ops hindex _ ih =>
    obtain ⟨least, hleast⟩ := ih
    refine ⟨least + 1, fun fuel hfuel s hs => ?_⟩
    obtain ⟨fuel, rfl⟩ := Nat.exists_eq_add_of_le' (Nat.le_of_add_left_le hfuel)
    obtain ⟨t, hrest, ht⟩ := hleast fuel (by omega) (rewind hash headHash s) hs
    refine ⟨t, .bind (.gets _ s) ?_, ht⟩
    rw [hs, hindex]
    exact .bind (.modify _ s) (.bind hrest (.pure _ t))

/-- What the operations leave of the index by number. -/
theorem Clears.batch {db₀ : Database H} {n : ℤ} {ops : List (DBOp H)} (h : Clears db₀ n ops)
    (db : Database H) : ∃ index, db.batch ops = { db with numberToHash := index } ∧
      (∀ k, index k = none ∨ index k = db.numberToHash k) ∧
      (ops ≠ [] → index (asUintN64 n) = none) := by
  induction h generalizing db with
  | done => exact ⟨db.numberToHash, rfl, fun k => .inr rfl, absurd rfl⟩
  | @next n hash ops _ _ ih =>
    obtain ⟨index, hbatch, hkeep, -⟩ := ih (db.apply (.delNumberToHash n))
    have hkey (k : ℕ) : index k = none ∨ index k = Function.update db.numberToHash (asUintN64 n)
      none k := hkeep k
    refine ⟨index, hbatch, fun k => ?_, fun _ => ?_⟩
    · by_cases hk : k = asUintN64 n
      · rcases hkey k with hnone | hsame
        · exact .inl hnone
        · rw [hk, Function.update_self] at hsame
          exact .inl (hk ▸ hsame)
      · rcases hkey k with hnone | hsame
        · exact .inl hnone
        · rw [Function.update_of_ne hk] at hsame
          exact .inr hsame
    · rcases hkey (asUintN64 n) with hnone | hsame
      · exact hnone
      · rwa [Function.update_self] at hsame

end Forgetting

/-! ### The way back to the canonical chain -/

/-- From a header, expected at the number `n`, down to the canonical chain: what is collected. -/
inductive WalksBack (env : Env H) (db : Database H) : Header H → ℤ → Rebuilt H → Prop
  | common {header : Header H} {n : ℤ}
      (hend : db.numberToHash (asUintN64 n) = some (env.hash header) ∨ header.number = 0) :
      WalksBack env db header n ⟨[], [], env.hash header⟩
  | parent {header parent : Header H} {n : ℤ} {rest : Rebuilt H}
      (hgo : ¬ (db.numberToHash (asUintN64 n) = some (env.hash header) ∨ header.number = 0))
      (hparent : db.header (asUintN64 (n - 1)) header.parentHash = some parent)
      (hrest : WalksBack env db parent (n - 1) rest) :
      WalksBack env db header n
        { rest with
          lookups := (env.hash header, header.number) :: rest.lookups
          stale := (db.numberToHash (asUintN64 n)).toList ++ rest.stale }

section Rebuilding

variable [DecidableEq H] {env : Env H} {s : Blockchain H}

theorem ensures_walkBack (fuel : ℕ) (header : Header H) (n : ℤ) :
    (walkBack env fuel header n).Ensures
      (fun rebuilt t => t = s ∧ WalksBack env s.db header n rebuilt) s := by
  induction fuel generalizing header n with
  | zero => exact .throw
  | succ fuel ih =>
    refine .bind (ensures_numberToHash (.ite (fun hend => ?_) fun hgo => ?_))
    · exact .pure ⟨rfl, .common hend⟩
    · refine .bind (ensures_getHeader fun parent hparent => ?_)
      refine .bind ((ih parent (n - 1)).mono ?_)
      rintro rest t ⟨rfl, hrest⟩
      exact .pure ⟨rfl, .parent hgo hparent hrest⟩

theorem yields_walkBack {header : Header H} {n : ℤ} {rebuilt : Rebuilt H}
    (h : WalksBack env s.db header n rebuilt) : ∃ least, ∀ fuel, least ≤ fuel →
      ∀ t : Blockchain H, t.db = s.db → (walkBack env fuel header n).Yields t rebuilt t := by
  induction h with
  | common hend =>
    refine ⟨1, fun fuel hfuel t ht => ?_⟩
    obtain ⟨fuel, rfl⟩ := Nat.exists_eq_add_of_le' hfuel
    refine .bind (.gets _ t) (.ite_pos ?_ (.pure _ t))
    rwa [ht]
  | @parent header parent n rest hgo hparent _ ih =>
    obtain ⟨least, hleast⟩ := ih
    refine ⟨least + 1, fun fuel hfuel t ht => ?_⟩
    obtain ⟨fuel, rfl⟩ := Nat.exists_eq_add_of_le' (Nat.le_of_add_left_le hfuel)
    have hrest := hleast fuel (by omega) t ht
    rw [← ht] at hgo hparent ⊢
    refine .bind (.gets _ t) (.ite_neg hgo ?_)
    exact .bind (yields_getHeader hparent) (.bind hrest (.pure _ t))

/-- The stored headers lie under their own numbers. -/
def Filed (db : Database H) : Prop :=
  ∀ n h header, db.header n h = some header → header.number = n

omit [DecidableEq H] in
/-- Where headers lie under their own numbers, a walk goes down. -/
theorem WalksBack.number_le {db : Database H} (hfiled : Filed db) {header : Header H} {n : ℤ}
    {rebuilt : Rebuilt H} (h : WalksBack env db header n rebuilt) (hn : n = header.number)
    (hbound : header.number < 2 ^ 64) : ∀ l ∈ rebuilt.lookups, l.2 ≤ header.number := by
  induction h with
  | common => exact nofun
  | @parent header parent n rest hgo hparent _ ih =>
    have hpositive : header.number ≠ 0 := fun h0 => hgo (.inr h0)
    have hnumber : parent.number = header.number - 1 := by
      rw [hfiled _ _ _ hparent, hn]
      unfold asUintN64
      omega
    intro l hl
    rcases List.mem_cons.1 hl with rfl | hl
    · exact Nat.le_refl _
    · have hle := ih (by omega) (by omega) l hl
      omega

end Rebuilding

end Blockchain

end Tvmjs
