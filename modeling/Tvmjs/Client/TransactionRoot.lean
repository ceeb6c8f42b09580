import Tvmjs.Base.PairedLevels
import Tvmjs.Client.RawHeader

/-!
# The transaction root

The root a block header carries for its transactions.

* `transactionMerkleRoot` -- the loop over the levels;
* `merkleParents_digits` -- on digits of 32-byte leaves a round is one of `PairedLevels.parents`;
* `transactionMerkleRoot_binds` -- the loop ends, and the root binds the leaves.
-/

namespace Tvmjs

variable (hex : NobleHex) (sha256 : Bytes → Bytes)

/-- The body of the loop, from `i` on; there are no parents where the digits cannot be read. -/
def merkleParents : List HexString → Option (List HexString)
  | left :: right :: level => do
    let bytes ← bytesOf hex (left ++ right)
    let parents ← merkleParents level
    return hex.bytesToHex (sha256 bytes) :: parents
  -- TRON promotes an unpaired leaf unchanged
  | level => some level

/-- How the loop stands after some turns. -/
inductive MerkleProgress where
  | running (level : List HexString)
  | ended (level : List HexString)
  | thrown
deriving DecidableEq, Repr

/-- One turn of `while (level.length > 1)`. -/
def MerkleProgress.turn : MerkleProgress → MerkleProgress
  | running level =>
    if level.length > 1 then
      match merkleParents hex sha256 level with
      | some parents => running parents
      | none => thrown
    else ended level
  | p => p

/-- `transactionMerkleRoot(leaves)`, if its loop ends within `n` turns without throwing. -/
def transactionMerkleRoot (n : ℕ) (leaves : List HexString) : Option HexString :=
  match (MerkleProgress.turn hex sha256)^[n] (.running leaves) with
  | .ended level => some (level.head?.getD (List.replicate 64 '0'))
  | _ => none

/-! ### The loop ends -/

private theorem length_merkleParents {level parents : List HexString}
    (h : merkleParents hex sha256 level = some parents) :
    parents.length = (level.length + 1) / 2 := by
  induction level using PairedLevels.parents.induct generalizing parents with
  | case1 left right level ih =>
    rw [merkleParents, Option.bind_eq_bind, Option.bind_eq_some_iff] at h
    obtain ⟨bytes, -, h⟩ := h
    obtain ⟨rest, hrest, h⟩ := Option.bind_eq_some_iff.1 h
    obtain rfl := Option.some.inj h
    rw [List.length_cons, ih hrest, List.length_cons, List.length_cons]
    omega
  | case2 level hlevel =>
    rcases level with _ | ⟨left, _ | ⟨right, level⟩⟩
    · obtain rfl := Option.some.inj h
      rfl
    · obtain rfl := Option.some.inj h
      simp
    · exact absurd rfl (hlevel left right level)

/-- What still runs after `n` turns has lost a node in each of them. -/
private theorem length_of_running {n : ℕ} {leaves level : List HexString}
    (h : (MerkleProgress.turn hex sha256)^[n] (.running leaves) = .running level) :
    level.length + n ≤ leaves.length := by
  induction n generalizing level with
  | zero =>
    obtain rfl := MerkleProgress.running.inj h
    exact le_rfl
  | succ n ih =>
    rw [Function.iterate_succ_apply'] at h
    rcases hp : (MerkleProgress.turn hex sha256)^[n] (.running leaves) with before | before | _
    · rw [hp, MerkleProgress.turn] at h
      split at h
      · next hlong =>
        have hbound := ih hp
        rcases hparents : merkleParents hex sha256 before with _ | parents
        · rw [hparents] at h
          cases h
        · rw [hparents] at h
          obtain rfl := MerkleProgress.running.inj h
          have hlength := length_merkleParents hex sha256 hparents
          omega
      · cases h
    · rw [hp] at h
      cases h
    · rw [hp] at h
      cases h

/-- An odd last node is promoted unchanged. -/
private theorem merkleParents_append_singleton {level : List HexString} (h : level.length % 2 = 0)
    (last : HexString) : merkleParents hex sha256 (level ++ [last]) =
      (merkleParents hex sha256 level).map (· ++ [last]) := by
  induction level using PairedLevels.parents.induct with
  | case1 left right level ih =>
    have heven : level.length % 2 = 0 := by
      rw [List.length_cons, List.length_cons] at h
      omega
    rw [List.cons_append, List.cons_append, merkleParents, merkleParents, ih heven]
    rcases bytesOf hex (left ++ right) with _ | bytes
    · rfl
    · rcases merkleParents hex sha256 level with _ | parents <;> rfl
  | case2 level hlevel =>
    rcases level with _ | ⟨left, _ | ⟨right, level⟩⟩
    · rfl
    · exact absurd h Nat.one_ne_zero
    · exact absurd rfl (hlevel left right level)

/-! ### Leaves of 32 bytes -/

/-- The digits `digest('hex')` writes. -/
def digits (leaves : List Bytes) : List HexString := leaves.map lowerHex.bytesToHex

/-- The digest of two nodes. -/
def joinLeaves (left right : Bytes) : Bytes := sha256 (left ++ right)

/-- What the loop hashes. -/
def merkleInputs (leaves : List Bytes) : Set Bytes :=
  {b | ∃ n, ∃ p ∈ PairedLevels.joined (joinLeaves sha256) n leaves, p.1 ++ p.2 = b}

private theorem bytesOf_append (left right : Bytes) :
    bytesOf lowerHex (lowerHex.bytesToHex left ++ lowerHex.bytesToHex right) =
      some (left ++ right) := by
  have happend : lowerHex.bytesToHex left ++ lowerHex.bytesToHex right =
      lowerHex.bytesToHex (left ++ right) := List.flatMap_append.symm
  have heven : (lowerHex.bytesToHex (left ++ right)).length % 2 = 0 := by
    rw [lawful_lowerHex.length_bytesToHex]
    exact Nat.mul_mod_right 2 _
  rw [happend, bytesOf, padToEven, if_neg (by omega)]
  exact lawful_lowerHex.hexToBytes_bytesToHex _

/-- A round on digits is a round on bytes. -/
theorem merkleParents_digits (level : List Bytes) :
    merkleParents lowerHex sha256 (digits level) =
      some (digits (PairedLevels.parents (joinLeaves sha256) level)) := by
  induction level using PairedLevels.parents.induct with
  | case1 left right level ih =>
    change (do
      let bytes ← bytesOf lowerHex (lowerHex.bytesToHex left ++ lowerHex.bytesToHex right)
      let parents ← merkleParents lowerHex sha256 (digits level)
      return lowerHex.bytesToHex (sha256 bytes) :: parents) = _
    rw [bytesOf_append, ih]
    rfl
  | case2 level hlevel =>
    rcases level with _ | ⟨left, _ | ⟨right, level⟩⟩
    · rfl
    · rfl
    · exact absurd rfl (hlevel left right level)

/-- The loop runs through the levels, and ends at the first one with no pair. -/
private theorem iterate_turn (n : ℕ) (leaves : List Bytes) :
    (MerkleProgress.turn lowerHex sha256)^[n] (.running (digits leaves)) =
        .running (digits ((PairedLevels.parents (joinLeaves sha256))^[n] leaves)) ∨
      (MerkleProgress.turn lowerHex sha256)^[n] (.running (digits leaves)) =
          .ended (digits ((PairedLevels.parents (joinLeaves sha256))^[n] leaves)) ∧
        ((PairedLevels.parents (joinLeaves sha256))^[n] leaves).length ≤ 1 := by
  induction n with
  | zero => exact Or.inl rfl
  | succ n ih =>
    rw [Function.iterate_succ_apply', Function.iterate_succ_apply']
    generalize (PairedLevels.parents (joinLeaves sha256))^[n] leaves = level at ih ⊢
    obtain hrunning | ⟨hended, hshort⟩ := ih
    · rw [hrunning, MerkleProgress.turn]
      by_cases hlong : (digits level).length > 1
      · rw [if_pos hlong, merkleParents_digits]
        exact Or.inl rfl
      · have hshort : level.length ≤ 1 := by
          rw [digits, List.length_map] at hlong
          omega
        rw [if_neg hlong, PairedLevels.parents_of_length_le_one _ hshort]
        exact Or.inr ⟨rfl, hshort⟩
    · rw [hended, PairedLevels.parents_of_length_le_one _ hshort]
      exact Or.inr ⟨rfl, hshort⟩

/-- The root that is left when the loop has ended. -/
def rootOf (leaves : List Bytes) : HexString :=
  (digits ((PairedLevels.parents (joinLeaves sha256))^[leaves.length] leaves)).head?.getD
    (List.replicate 64 '0')

/-- The loop ends within a turn for every leaf and one more. -/
private theorem transactionMerkleRoot_eq {n : ℕ} {leaves : List Bytes} (hn : leaves.length < n) :
    transactionMerkleRoot lowerHex sha256 n (digits leaves) = some (rootOf sha256 leaves) := by
  have hshort := PairedLevels.length_iterate_parents_le_one (joinLeaves sha256)
    (Nat.le_succ leaves.length)
  have hturn : MerkleProgress.turn lowerHex sha256
      ((MerkleProgress.turn lowerHex sha256)^[leaves.length] (.running (digits leaves))) =
        .ended (digits ((PairedLevels.parents (joinLeaves sha256))^[leaves.length] leaves)) := by
    obtain hrunning | ⟨hended, -⟩ := iterate_turn sha256 leaves.length leaves
    · rw [hrunning, MerkleProgress.turn, if_neg]
      rw [digits, List.length_map]
      omega
    · rw [hended]
      rfl
  obtain ⟨k, rfl⟩ := Nat.exists_eq_add_of_lt hn
  rw [transactionMerkleRoot, show leaves.length + k + 1 = k + (leaves.length + 1) by omega,
    Function.iterate_add_apply, Function.iterate_succ_apply', hturn, Function.iterate_fixed rfl]
  rfl

variable {sha256}

/-- Equal roots of equally many leaves come from equal leaves. -/
private theorem rootOf_inj (hsize : ∀ b, (sha256 b).length = 32) {xs ys : List Bytes}
    (hx : ∀ leaf ∈ xs, leaf.length = 32) (hy : ∀ leaf ∈ ys, leaf.length = 32)
    (hlength : xs.length = ys.length)
    (hfree : Set.InjOn sha256 (merkleInputs sha256 xs ∪ merkleInputs sha256 ys))
    (h : rootOf sha256 xs = rootOf sha256 ys) : xs = ys := by
  have hnode : ∀ left right, (joinLeaves sha256 left right).length = 32 := fun _ _ => hsize _
  refine PairedLevels.iterate_parents_inj hlength ?_ (?_ :
    (PairedLevels.parents (joinLeaves sha256))^[xs.length] xs = _)
  · intro p hp q hq heq
    have hinput : p.1 ++ p.2 = q.1 ++ q.2 :=
      hfree (Or.inl ⟨_, p, hp, rfl⟩) (Or.inr ⟨_, q, hq, rfl⟩) heq
    have hp1 := (PairedLevels.forall_joined hnode xs.length hx p hp).1
    have hq1 := (PairedLevels.forall_joined hnode xs.length hy q hq).1
    obtain ⟨hleft, hright⟩ := List.append_inj hinput (hp1.trans hq1.symm)
    exact Prod.ext hleft hright
  · -- both levels that are left have at most one node, and equally many
    have hcongr := PairedLevels.length_iterate_parents_congr (joinLeaves sha256) xs.length hlength
    have hshort := PairedLevels.length_iterate_parents_le_one (joinLeaves sha256)
      (Nat.le_succ xs.length)
    rw [rootOf, rootOf, ← hlength] at h
    generalize (PairedLevels.parents (joinLeaves sha256))^[xs.length] xs = top at h hcongr hshort ⊢
    generalize (PairedLevels.parents (joinLeaves sha256))^[xs.length] ys = top' at h hcongr ⊢
    obtain _ | ⟨a, _ | ⟨b, top⟩⟩ := top
    · exact (List.length_eq_zero_iff.1 hcongr.symm).symm
    · obtain ⟨a', rfl⟩ := List.length_eq_one_iff.1 hcongr.symm
      exact congrArg (fun leaf => [leaf]) (bytesToUnprefixedHex_injective lawful_lowerHex h)
    · rw [List.length_cons, List.length_cons] at hshort
      omega

/-- **The root binds the leaves.**  For every list the loop ends; an odd last node of a level is
promoted unchanged; and of two lists of equally many 32-byte leaves each has a root, and they are
equal if their roots are, where the digest does not collide on what the two loops hash. -/
theorem transactionMerkleRoot_binds (hsize : ∀ b, (sha256 b).length = 32) :
    (∀ (leaves : List HexString) (n : ℕ), leaves.length < n → ∀ level,
      (MerkleProgress.turn hex sha256)^[n] (.running leaves) ≠ .running level) ∧
    (∀ (level : List HexString) (last : HexString), level.length % 2 = 0 →
      merkleParents hex sha256 (level ++ [last]) =
        (merkleParents hex sha256 level).map (· ++ [last])) ∧
    ∀ xs ys : List Bytes, (∀ leaf ∈ xs, leaf.length = 32) → (∀ leaf ∈ ys, leaf.length = 32) →
      xs.length = ys.length →
      Set.InjOn sha256 (merkleInputs sha256 xs ∪ merkleInputs sha256 ys) →
      ∃ root root',
        (∀ n > xs.length, transactionMerkleRoot lowerHex sha256 n (digits xs) = some root) ∧
        (∀ n > ys.length, transactionMerkleRoot lowerHex sha256 n (digits ys) = some root') ∧
        (root = root' → xs = ys) := by
  refine ⟨fun leaves n hn level h => ?_,
    fun level last h => merkleParents_append_singleton hex sha256 h last, ?_⟩
  · have hbound := length_of_running hex sha256 h
    omega
  · intro xs ys hx hy hlength hfree
    exact ⟨rootOf sha256 xs, rootOf sha256 ys, fun n hn => transactionMerkleRoot_eq sha256 hn,
      fun n hn => transactionMerkleRoot_eq sha256 hn, rootOf_inj hsize hx hy hlength hfree⟩

/-- A leaf of one byte, 32 times. -/
def sampleLeaf (b : UInt8) : Bytes := List.replicate 32 b

/-- The 32 bytes of a number. -/
def sampleBytes (n : ℕ) : Bytes := (List.range 32).map fun i => UInt8.ofNat (n / 256 ^ (31 - i))

/-- The digests of three nodes: of the first two leaves, and of that node with the third leaf or the
fourth one. -/
def sampleDigest : ℕ → Bytes
  | 0 => sampleBytes 0xf818afd37a6dc3bc92fb44731011277006db4efa6e9023cd7468c02335d22a4d
  | 1 => sampleBytes 0x0479d06fbc8bd667d6c53e3ec229858fc27bb8d883015478a292757338576797
  | _ => sampleBytes 0x24273b324101875bcc42cfd4cf34abedde456e5fbaf7602cb9a0e5a094c3a0ab

/-- The digest on the nodes above three leaves. -/
def sampleSha256 (b : Bytes) : Bytes :=
  if b = sampleLeaf 1 ++ sampleLeaf 2 then sampleDigest 0
  else if b = sampleDigest 0 ++ sampleLeaf 3 then sampleDigest 1
  else if b = sampleDigest 0 ++ sampleLeaf 4 then sampleDigest 2
  else sampleLeaf 0

private theorem length_sampleSha256 (b : Bytes) : (sampleSha256 b).length = 32 := by
  unfold sampleSha256
  split
  · decide
  · split
    · decide
    · split <;> decide

private theorem merkleInputs_sample (b : UInt8) :
    merkleInputs sampleSha256 [sampleLeaf 1, sampleLeaf 2, sampleLeaf b] ⊆
      {sampleLeaf 1 ++ sampleLeaf 2, sampleDigest 0 ++ sampleLeaf b} := by
  rintro input ⟨n, p, hp, rfl⟩
  have hmem : ∀ n, ∀ p ∈ PairedLevels.joined (joinLeaves sampleSha256) n
      [sampleLeaf 1, sampleLeaf 2, sampleLeaf b],
      p = (sampleLeaf 1, sampleLeaf 2) ∨ p = (sampleDigest 0, sampleLeaf b) := by
    rintro (_ | _ | n) p hp
    · exact absurd hp List.not_mem_nil
    · exact Or.inl (List.mem_singleton.1 hp)
    · have hjoined := PairedLevels.joined_of_length_le_one (joinLeaves sampleSha256) n
        (show [joinLeaves sampleSha256 (sampleDigest 0) (sampleLeaf b)].length ≤ 1 from le_rfl)
      obtain rfl | hp := List.mem_cons.1 hp
      · exact Or.inl rfl
      · obtain rfl | hp := List.mem_cons.1 hp
        · exact Or.inr rfl
        · exact absurd (hjoined ▸ hp) List.not_mem_nil
  obtain rfl | rfl := hmem n p hp
  · exact Or.inl rfl
  · exact Or.inr rfl

private theorem sampleSha256_injOn : Set.InjOn sampleSha256
    {sampleLeaf 1 ++ sampleLeaf 2, sampleDigest 0 ++ sampleLeaf 3,
      sampleDigest 0 ++ sampleLeaf 4} := by
  have h0 : sampleSha256 (sampleLeaf 1 ++ sampleLeaf 2) = sampleDigest 0 := by decide
  have h1 : sampleSha256 (sampleDigest 0 ++ sampleLeaf 3) = sampleDigest 1 := by decide
  have h2 : sampleSha256 (sampleDigest 0 ++ sampleLeaf 4) = sampleDigest 2 := by decide
  have h01 : sampleDigest 0 ≠ sampleDigest 1 := by decide
  have h02 : sampleDigest 0 ≠ sampleDigest 2 := by decide
  have h12 : sampleDigest 1 ≠ sampleDigest 2 := by decide
  rintro x (rfl | rfl | rfl) y (rfl | rfl | rfl) h <;>
    simp only [h0, h1, h2, h01, h02, h12, h01.symm, h02.symm, h12.symm] at h ⊢

/-- Two lists of three leaves which differ in the last one have different roots. -/
theorem transactionMerkleRoot_binds_sample :
    transactionMerkleRoot lowerHex sampleSha256 4
        (digits [sampleLeaf 1, sampleLeaf 2, sampleLeaf 3]) ≠
      transactionMerkleRoot lowerHex sampleSha256 4
        (digits [sampleLeaf 1, sampleLeaf 2, sampleLeaf 4]) := by
  obtain ⟨-, -, hbinds⟩ := transactionMerkleRoot_binds lowerHex length_sampleSha256
  obtain ⟨root, root', hroot, hroot', hne⟩ :=
    hbinds [sampleLeaf 1, sampleLeaf 2, sampleLeaf 3] [sampleLeaf 1, sampleLeaf 2, sampleLeaf 4]
      (by decide) (by decide) rfl (sampleSha256_injOn.mono (Set.union_subset
        ((merkleInputs_sample 3).trans (by
          rintro x (rfl | rfl)
          · exact Or.inl rfl
          · exact Or.inr (Or.inl rfl)))
        ((merkleInputs_sample 4).trans (by
          rintro x (rfl | rfl)
          · exact Or.inl rfl
          · exact Or.inr (Or.inr rfl)))))
  rw [hroot 4 (by decide), hroot' 4 (by decide)]
  intro heq
  exact absurd (hne (Option.some.inj heq)) (by decide)

end Tvmjs
