import Tvmjs.Client.Energy

/-!
# Charging usage

The bandwidth and energy ledgers of a node, charged by its operations.

* `BandwidthOutcome.Charges` -- what a source which paid did to its ledger;
* `windowedUsage_laws` -- recovery of every ledger, and the charges of a node.
-/

namespace Tvmjs

/-- Staked bandwidth is billed within the quota, or nothing changes. -/
theorem Returns.consumeStakedNet (env : NodeEnv) {c : Chain} (a : Address) (bytes : ℤ) :
    Returns (Tvmjs.consumeStakedNet env a bytes) (fun billed c' =>
      if billed then
        c' = c.setRecord a { c.recordOf a with
          stakedNet := some (charged env (c.recordOf a).stakedNet bytes) } ∧
        stakedUsedOf env c a .bandwidth + bytes ≤ stakedNetLimitOf env c a
      else c' = c) c := by
  refine .bind (.read (.bind (.read (.ite (fun _ => .pure rfl) fun hroom => ?_))))
  exact .bind (.modifyRecord (.pure ⟨rfl, not_lt.1 fun hover => hroom (.inr hover)⟩))

/-- Noting an operation leaves the ledgers and the quotas alone. -/
private theorem Returns.noteOperation_record {c : Chain} (a : Address) :
    Returns (Tvmjs.noteOperation a) (fun _ c' => c'.registers = c.registers ∧
      ∃ stamp, c'.recordOf a = { c.recordOf a with operationAt := some stamp }) c := by
  refine .bind (.modifyRecord (.bind (.headStamp fun stamp => .modifyRecord ⟨rfl, stamp, ?_⟩)))
  rw [Chain.recordOf_setRecord, if_pos rfl, Chain.recordOf_setRecord, if_pos rfl]
  rfl

/-- What a bandwidth source which paid did to its ledger. -/
def BandwidthOutcome.Charges (env : NodeEnv) (before after : AccountRecord) (bytes : ℤ) :
    BandwidthOutcome → Prop
  | .staked => ChargedTo env before.stakedNet bytes after.stakedNet
  | .free => ChargedTo env before.bandwidth bytes after.bandwidth ∧
    decayedUsage env before.bandwidth + bytes ≤ env.params.freeNetLimit
  | .burn _ => True
  | .insufficient _ => True

/-- A transaction's bandwidth is charged to the ledger of the source which pays for it. -/
theorem Returns.consumeBandwidth (env : NodeEnv) {c : Chain} (a : Address) (bytes : ℤ) :
    Returns (Tvmjs.consumeBandwidth env.exact a bytes) (fun outcome c' =>
      outcome.Charges env.exact (c.recordOf a) (c'.recordOf a) bytes) c := by
  refine .bind ((noteOperation_record a).mono fun _ c₁ h₁ => ?_)
  obtain ⟨-, stamp, hrecord⟩ := h₁
  refine .bind ((Returns.consumeStakedNet env.exact a bytes).mono fun billed c₂ h₂ => ?_)
  refine .ite (fun hbilled => .pure ?_) fun hnot => ?_
  · rw [if_pos hbilled] at h₂
    have hafter : (c₂.recordOf a).stakedNet =
        some (charged env.exact (c.recordOf a).stakedNet bytes) := by
      rw [h₂.1, Chain.recordOf_setRecord, if_pos rfl, hrecord]
    rw [BandwidthOutcome.Charges, hafter]
    exact charged_bounds env _ bytes
  · rw [if_neg hnot] at h₂
    subst h₂
    refine .bind (.read (.ite (fun hroom => .bind (.modifyRecord (.pure ⟨?_, ?_⟩))) fun _ => ?_))
    · rw [Chain.recordOf_setRecord, if_pos rfl, hrecord]
      exact charged_bounds env _ bytes
    · rw [hrecord] at hroom
      exact hroom
    · exact .bind fun s done s' _ _ => .ite (fun _ => .pure trivial) fun _ => .pure trivial

/-- Metadata is kept apart from the account records. -/
private theorem Returns.assignAsset_records {c : Chain} (id : ℕ) (f : AssetMeta → AssetMeta) :
    Returns (Tvmjs.assignAsset id f) (fun _ c' => ∀ a, c'.recordOf a = c.recordOf a) c := by
  refine .bind (.read ?_)
  rcases c.registers.assets.byIdMap.get id with _ | before
  · exact .pure fun _ => rfl
  · exact .bind (.recordUndo (.setRegisters fun _ => rfl))

/-- An asset transfer is charged to the holder's ledger of the asset, within its allowance. -/
theorem Returns.consumeAssetNet (env : NodeEnv) {c : Chain} (holder : Address) (assetId : ℕ)
    (bytes : ℤ) :
    Returns (Tvmjs.consumeAssetNet env.exact holder assetId bytes) (fun billed c' =>
      billed = true → ChargedTo env.exact ((c.recordOf holder).assetNet assetId) bytes
        ((c'.recordOf holder).assetNet assetId)) c := by
  refine .bind (.read ?_)
  rcases c.registers.assets.byIdMap.get assetId with _ | issued
  · exact .pure nofun
  · refine .bind (.read ?_)
    refine .ite (fun _ => .pure nofun) fun _ => ?_
    refine .ite (fun _ => .pure nofun) fun _ => ?_
    refine .bind ((Returns.consumeStakedNet env.exact issued.ownerKey bytes).mono
      fun billed c₁ h₁ => ?_)
    refine .ite (fun hbilled => ?_) fun _ => .pure nofun
    refine .bind (.modifyRecord ?_)
    rw [if_pos hbilled] at h₁
    have hsame : (c₁.recordOf holder).assetNet = (c.recordOf holder).assetNet := by
      rw [h₁.1, Chain.recordOf_setRecord]
      split
      · next heq => rw [heq]
      · rfl
    refine .bind ((assignAsset_records assetId _).mono fun _ c₂ h₂ => .pure fun _ => ?_)
    have hafter : (c₂.recordOf holder).assetNet assetId =
        some (charged env.exact ((c.recordOf holder).assetNet assetId) bytes) := by
      rw [h₂, Chain.recordOf_setRecord, if_pos rfl]
      change Function.update (c₁.recordOf holder).assetNet assetId _ assetId = _
      rw [Function.update_self, hsame]
    rw [hafter]
    exact charged_bounds env _ bytes

/-- Staked energy which is billed is what was read, or one more. -/
private theorem Returns.chargeStakedEnergy_exact (env : NodeEnv) {c : Chain} (a : Address)
    (units : ℤ) :
    Returns (Tvmjs.chargeStakedEnergy env.exact a units) (fun _ c' =>
      ChargedTo env.exact (c.recordOf a).energyLedger units (c'.recordOf a).energyLedger) c := by
  refine (Returns.chargeStakedEnergy env.exact a units).mono fun _ c' h => ?_
  rw [h.ledger a, if_pos rfl]
  exact charged_bounds env _ units

/-- **Usage over a window.**  Within a slot a ledger holds exactly what was put in, after a window
nothing; it is never negative, shrinks with the wait and grows with what is held and added; and
every charge stores the reading of the admission check with the amount added, or one more. -/
theorem windowedUsage_laws (env : NodeEnv) :
    (∀ held bytes lastMs nowMs, elapsedSlots lastMs nowMs = 0 →
      windowedUsage held lastMs nowMs bytes = held + bytes) ∧
    (∀ held lastMs nowMs, USAGE_WINDOW_SLOTS ≤ elapsedSlots lastMs nowMs →
      windowedUsage held lastMs nowMs 0 = 0) ∧
    (∀ held bytes lastMs nowMs, 0 ≤ held → 0 ≤ bytes →
      0 ≤ windowedUsage held lastMs nowMs bytes) ∧
    (∀ held bytes lastMs nowMs lastMs' nowMs', 0 ≤ held →
      elapsedSlots lastMs nowMs ≤ elapsedSlots lastMs' nowMs' →
      windowedUsage held lastMs' nowMs' bytes ≤ windowedUsage held lastMs nowMs bytes) ∧
    (∀ held held' bytes bytes' lastMs nowMs, held ≤ held' → bytes ≤ bytes' →
      windowedUsage held lastMs nowMs bytes ≤ windowedUsage held' lastMs nowMs bytes') ∧
    (∀ ledger amount, ChargedTo env.exact ledger amount (some (charged env.exact ledger amount))) ∧
    (∀ (c : Chain) a bytes, Returns (consumeBandwidth env.exact a bytes) (fun outcome c' =>
      outcome.Charges env.exact (c.recordOf a) (c'.recordOf a) bytes) c) ∧
    (∀ (c : Chain) holder assetId bytes, Returns (consumeAssetNet env.exact holder assetId bytes)
      (fun billed c' => billed = true →
        ChargedTo env.exact ((c.recordOf holder).assetNet assetId) bytes
          ((c'.recordOf holder).assetNet assetId)) c) ∧
    (∀ (c : Chain) a units, Returns (chargeStakedEnergy env.exact a units) (fun _ c' =>
      ChargedTo env.exact (c.recordOf a).energyLedger units (c'.recordOf a).energyLedger) c) := by
  refine ⟨?_, ?_, ?_, ?_, ?_, charged_bounds env, ?_, ?_, ?_⟩
  · intro held bytes lastMs nowMs h
    exact windowedUsage_of_elapsed_nonpos h.le held bytes
  · intro held lastMs nowMs h
    exact windowedUsage_of_window h held
  · intro held bytes lastMs nowMs hheld hbytes
    exact windowedUsage_nonneg hheld hbytes lastMs nowMs
  · intro held bytes lastMs nowMs lastMs' nowMs' hheld h
    exact windowedUsage_antitone hheld bytes h
  · intro held held' bytes bytes' lastMs nowMs hheld hbytes
    exact windowedUsage_mono hheld hbytes lastMs nowMs
  · intro c a bytes
    exact Returns.consumeBandwidth env a bytes
  · intro c holder assetId bytes
    exact Returns.consumeAssetNet env holder assetId bytes
  · intro c a units
    exact Returns.chargeStakedEnergy_exact env a units

theorem windowedUsage_laws_sample :
    windowedUsage 279 0 2999 5 = 279 + 5 ∧ windowedUsage 279 0 86400000 0 = 0 ∧
      0 ≤ windowedUsage 279 0 180000 5 ∧
      windowedUsage 279 0 180000 5 ≤ windowedUsage 279 0 2999 5 ∧
      windowedUsage 3 0 180000 5 ≤ windowedUsage 279 0 180000 5 := by
  obtain ⟨hslot, hwindow, hnonneg, hantitone, hmono, -⟩ := windowedUsage_laws sampleEnv
  refine ⟨hslot 279 5 0 2999 (by decide +kernel), hwindow 279 0 86400000 (by decide +kernel),
    hnonneg 279 5 0 180000 (by decide) (by decide), ?_, ?_⟩
  · exact hantitone 279 5 0 2999 0 180000 (by decide) (by decide +kernel)
  · exact hmono 3 279 5 5 0 180000 (by decide) le_rfl

end Tvmjs
