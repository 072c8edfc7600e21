/-
When the wallet calls a record final.

`finalize_and_refresh` takes the depth of a record from the L1 height it carries, and
asks for two blocks on top of that one.  For a record of L1 that is one confirmation
more than the sequencer asks for.  A record of L2 carries the height that the header
of its block declares, and the block is on L1 only from its attestation on.
-/
import Hodlchain.Sequencer.Producer
import Hodlchain.Wallet.Growth

namespace Hodlchain.Wallet

/-- The confirmations of what was mined at a height, under a tip. -/
def confirmationsAt (tip height : UInt32) : ℕ :=
  if height ≤ tip then tip.toNat - height.toNat + 1 else 0

/-- Enough of them for the sequencer. -/
def FinalAt (tip height : UInt32) : Prop :=
  Sequencer.reorgFinalityDepth.toNat ≤ confirmationsAt tip height

instance (tip height : UInt32) : Decidable (FinalAt tip height) :=
  inferInstanceAs (Decidable (_ ≤ _))

/-- The first attestation of a height or one above: its batch has the block. -/
def batchOf (chain : List ChainStep) (l2Height : UInt32) : Option ChainStep :=
  chain.find? fun step => l2Height ≤ step.attestation.height

/-- A record of something that happened on L2. -/
def TxKind.onL2 : TxKind → Bool
  | .l1Deposit => false
  | .l1Reclaim => false
  | .l2MintApply => true
  | .l2TransferSent => true
  | .l2TransferReceived => true

/-- Where a call has a record in a block, on L2 and on L1: as recorded, or as Esplora answers. -/
def placeOf (esplora : EsploraServer) (t : TxRecord) : Option (UInt32 × UInt32) :=
  match t.status with
  | .inBlock l2Height l1Height _ => some (l2Height, l1Height)
  | _ => (confirmedAt esplora t).map fun l1Height => (0, l1Height)

/-- Final means final, of a history and what a call has made of it: a record of L2 has become final
only if the attestation of its block is, and a record of L1 exactly if its transaction is. -/
def FinalMeansFinal (esplora : EsploraServer) (chain : List ChainStep) (tip : UInt32)
    (before after : List TxRecord) : Prop :=
  ∀ (i : ℕ) (t t' : TxRecord), before[i]? = some t → after[i]? = some t' →
    ∀ l2Height l1Height, placeOf esplora t = some (l2Height, l1Height) →
      if t.kind.onL2 then t'.status.isFinalized →
        ∃ step, batchOf chain l2Height = some step ∧ FinalAt tip step.l1Height
      else t'.status.isFinalized = true ↔ FinalAt tip l1Height

/-- No record of L2 is two blocks below the tip while its attestation is not a block below it, and
no record of L1 is exactly a block below it. -/
def OffBoundary (esplora : EsploraServer) (chain : List ChainStep) (tip : UInt32)
    (before : List TxRecord) : Prop :=
  ∀ t ∈ before, ∀ l2Height l1Height, placeOf esplora t = some (l2Height, l1Height) →
    if t.kind.onL2 then l1Height.toNat + 2 ≤ tip.toNat →
      ∃ step, batchOf chain l2Height = some step ∧ step.l1Height < tip
    else tip.toNat ≠ l1Height.toNat + 1

/-! ### Depths -/

theorem finalAt_iff {tip height : UInt32} : FinalAt tip height ↔ height < tip := by
  have hdepth : Sequencer.reorgFinalityDepth.toNat = 2 := rfl
  unfold FinalAt confirmationsAt
  rw [hdepth, UInt32.lt_iff_toNat_lt]
  by_cases hle : height ≤ tip
  · rw [if_pos hle]
    omega
  · rw [if_neg hle]
    rw [UInt32.le_iff_toNat_le] at hle
    omega

/-- The wallet asks for two blocks on top. -/
theorem isFinalized_settle {tip l2Height l1Height : UInt32} {ts : UInt64} :
    (settle tip (.inBlock l2Height l1Height ts)).isFinalized = true ↔
      l1Height.toNat + 2 ≤ tip.toNat := by
  have hdepth : reorgFinalityDepth.toNat = 2 := rfl
  have hdeep : satSub32 tip l1Height ≥ reorgFinalityDepth ↔ l1Height.toNat + 2 ≤ tip.toNat := by
    unfold satSub32
    rw [ge_iff_le, UInt32.le_iff_toNat_le, hdepth]
    by_cases hle : l1Height ≤ tip
    · rw [if_pos hle, UInt32.toNat_sub_of_le _ _ hle]
      rw [UInt32.le_iff_toNat_le] at hle
      omega
    · rw [if_neg hle]
      rw [UInt32.le_iff_toNat_le] at hle
      simp
      omega
  show (if satSub32 tip l1Height ≥ reorgFinalityDepth then TxStatus.finalized l2Height l1Height
    else .inBlock l2Height l1Height ts).isFinalized = true ↔ _
  by_cases hge : satSub32 tip l1Height ≥ reorgFinalityDepth
  · rw [if_pos hge]
    exact ⟨fun _ => hdeep.mp hge, fun _ => rfl⟩
  · rw [if_neg hge]
    exact ⟨nofun, fun h => absurd (hdeep.mpr h) hge⟩

/-! ### The two passes -/

theorem mem_promotions {esplora : EsploraServer} {txs : List TxRecord} {i : ℕ} {h : UInt32} :
    (i, h) ∈ promotions esplora txs ↔ ∃ t, txs[i]? = some t ∧ confirmedAt esplora t = some h := by
  unfold promotions
  simp only [List.mem_filterMap, Prod.exists, Option.map_eq_some_iff, Prod.mk.injEq,
    List.mk_mem_zipIdx_iff_getElem?]
  constructor
  · rintro ⟨t, j, ht, h', hconfirmed, rfl, rfl⟩
    exact ⟨t, ht, hconfirmed⟩
  · rintro ⟨t, ht, hconfirmed⟩
    exact ⟨t, i, ht, h, hconfirmed, rfl, rfl⟩

/-- The assignments of pass 1. -/
def promote (f : UInt32 → ℕ → TxStatus) (promoted : List ((ℕ × UInt32) × ℕ)) (txs : List TxRecord) :
    List TxRecord :=
  promoted.foldl (fun txs ((i, h), k) => txs.modify i fun t => { t with status := f h k }) txs

theorem finalizeAndRefresh_transactions (w : Surroundings) (tip : UInt32) (reading : ℕ)
    (wf : WalletFile) : (finalizeAndRefresh w tip reading wf).2.transactions
      = (promote (fun h k => .inBlock 0 h (w.now (reading + k)))
          (promotions w.esplora wf.transactions).zipIdx wf.transactions).map
        fun t => { t with status := settle tip t.status } := rfl

variable {f : UInt32 → ℕ → TxStatus} {promoted : List ((ℕ × UInt32) × ℕ)} {txs : List TxRecord}
  {i : ℕ} {t : TxRecord}

theorem promote_of_not_mem (h : ∀ p ∈ promoted, p.1.1 ≠ i) :
    (promote f promoted txs)[i]? = txs[i]? := by
  induction promoted generalizing txs with
  | nil => rfl
  | cons p promoted ih =>
      obtain ⟨hp, hrest⟩ := List.forall_mem_cons.mp h
      obtain ⟨⟨j, height⟩, k⟩ := p
      exact (ih hrest).trans (List.getElem?_modify_ne _ _ hp)

/-- A record is assigned the one height it is found at. -/
theorem promote_of_mem {height : UInt32} (hmem : ∃ p ∈ promoted, p.1.1 = i)
    (hheight : ∀ p ∈ promoted, p.1.1 = i → p.1.2 = height) (ht : txs[i]? = some t) :
    ∃ k, (promote f promoted txs)[i]? = some { t with status := f height k } := by
  induction promoted generalizing txs t with
  | nil => simp at hmem
  | cons p promoted ih =>
      obtain ⟨hp, hrest⟩ := List.forall_mem_cons.mp hheight
      obtain ⟨⟨j, h⟩, k⟩ := p
      show ∃ k', (promote f promoted (txs.modify j fun t => { t with status := f h k }))[i]? = _
      by_cases hindex : j = i
      · obtain rfl : h = height := hp hindex
        subst hindex
        have hfirst : (txs.modify j fun t => { t with status := f h k })[j]?
            = some { t with status := f h k } := by
          rw [List.getElem?_modify_eq, ht]
          rfl
        by_cases hlater : ∃ p ∈ promoted, p.1.1 = j
        · exact ih hlater hrest (t := { t with status := f h k }) hfirst
        · exact ⟨k, (promote_of_not_mem fun q hq hqi => hlater ⟨q, hq, hqi⟩).trans hfirst⟩
      · have hlater : ∃ p ∈ promoted, p.1.1 = i := by
          obtain ⟨q, hq, hqi⟩ := hmem
          rcases List.mem_cons.mp hq with rfl | hq
          · exact absurd hqi hindex
          · exact ⟨q, hq, hqi⟩
        exact ih hlater hrest ((List.getElem?_modify_ne _ _ hindex).trans ht)

/-- After both passes, a record that has a place is final exactly if two blocks are on top of it. -/
theorem finalizeAndRefresh_isFinalized {w : Surroundings} {tip : UInt32} {reading : ℕ}
    {wf : WalletFile} {t' : TxRecord} (ht : wf.transactions[i]? = some t)
    (ht' : (finalizeAndRefresh w tip reading wf).2.transactions[i]? = some t')
    {l2Height l1Height : UInt32} (hplace : placeOf w.esplora t = some (l2Height, l1Height)) :
    t'.status.isFinalized = true ↔ l1Height.toNat + 2 ≤ tip.toNat := by
  have hsettled : ∀ {t₁ : TxRecord} {ts : UInt64}, t₁.status = .inBlock l2Height l1Height ts →
      (promote (fun h k => .inBlock 0 h (w.now (reading + k)))
        (promotions w.esplora wf.transactions).zipIdx wf.transactions)[i]? = some t₁ →
      (t'.status.isFinalized = true ↔ l1Height.toNat + 2 ≤ tip.toNat) := by
    intro t₁ ts hstatus hat
    rw [finalizeAndRefresh_transactions, List.getElem?_map, hat] at ht'
    obtain rfl := Option.some.inj ht'
    show (settle tip t₁.status).isFinalized = true ↔ _
    rw [hstatus]
    exact isFinalized_settle
  have hmem : ∀ p ∈ (promotions w.esplora wf.transactions).zipIdx, p.1.1 = i →
      confirmedAt w.esplora t = some p.1.2 := by
    intro p hp hindex
    obtain ⟨⟨j, h⟩, k⟩ := p
    obtain rfl : j = i := hindex
    obtain ⟨t₀, ht₀, hconfirmed⟩ := mem_promotions.mp (List.fst_mem_of_mem_zipIdx hp)
    rw [ht] at ht₀
    rw [Option.some.inj ht₀]
    exact hconfirmed
  unfold placeOf at hplace
  by_cases hin : ∃ l2 l1 ts, t.status = .inBlock l2 l1 ts
  · -- pass 1 leaves it alone
    obtain ⟨l2, l1, ts, hstatus⟩ := hin
    rw [hstatus] at hplace
    obtain ⟨rfl, rfl⟩ := Prod.mk.inj (Option.some.inj hplace)
    refine hsettled hstatus ((promote_of_not_mem fun p hp hindex => ?_).trans ht)
    have hconfirmed := hmem p hp hindex
    unfold confirmedAt at hconfirmed
    rw [hstatus] at hconfirmed
    cases hconfirmed
  · have hconfirmed : (confirmedAt w.esplora t).map (fun l1Height => ((0 : UInt32), l1Height))
        = some (l2Height, l1Height) := by
      cases hstatus : t.status with
      | inBlock l2 l1 ts => exact absurd ⟨l2, l1, ts, hstatus⟩ hin
      | soft ts => simpa [hstatus] using hplace
      | l1Mempool ts => simpa [hstatus] using hplace
      | finalized l2 l1 => simpa [hstatus] using hplace
      | failed reason ts => simpa [hstatus] using hplace
    obtain ⟨h, hh, heq⟩ := Option.map_eq_some_iff.mp hconfirmed
    obtain ⟨rfl, rfl⟩ := Prod.mk.inj heq
    have hheight : ∀ p ∈ (promotions w.esplora wf.transactions).zipIdx, p.1.1 = i → p.1.2 = h := by
      intro p hp hindex
      exact Option.some.inj ((hmem p hp hindex).symm.trans hh)
    have hfound : ∃ p ∈ (promotions w.esplora wf.transactions).zipIdx, p.1.1 = i := by
      obtain ⟨k, hk⟩ := List.mem_iff_getElem?.mp (mem_promotions.mpr ⟨t, ht, hh⟩)
      exact ⟨((i, h), k), List.mk_mem_zipIdx_iff_getElem?.mpr hk, rfl⟩
    obtain ⟨k, hat⟩ := promote_of_mem hfound hheight ht
    exact hsettled rfl hat

/-- What final means of one record, in heights. -/
theorem finalMeans_iff {chain : List ChainStep} {tip l2Height l1Height : UInt32} {onL2 : Bool}
    {finalized : Prop} (h : finalized ↔ l1Height.toNat + 2 ≤ tip.toNat) :
    (if onL2 then finalized →
        ∃ step, batchOf chain l2Height = some step ∧ FinalAt tip step.l1Height
      else finalized ↔ FinalAt tip l1Height) ↔
    (if onL2 then l1Height.toNat + 2 ≤ tip.toNat →
        ∃ step, batchOf chain l2Height = some step ∧ step.l1Height < tip
      else tip.toNat ≠ l1Height.toNat + 1) := by
  simp only [h, finalAt_iff]
  by_cases hon : onL2 = true
  · rw [if_pos hon, if_pos hon]
  · rw [if_neg hon, if_neg hon, UInt32.lt_iff_toNat_lt]
    omega

/-- **The wallet's final is the sequencer's, off the boundary.**  Whatever the history, the chain of
attestations and the tip: a call finalizes a record of L2 only when the attestation of its block is
final, and a record of L1 exactly when its transaction is, if and only if every record of L2 whose
declared height is two blocks below the tip has its attestation below the tip too, and no record of
L1 is exactly a block below it. -/
theorem final_means_final_iff (w : Surroundings) (chain : List ChainStep) (tip : UInt32)
    (reading : ℕ) (wf : WalletFile) :
    FinalMeansFinal w.esplora chain tip wf.transactions
        (finalizeAndRefresh w tip reading wf).2.transactions ↔
      OffBoundary w.esplora chain tip wf.transactions := by
  constructor
  · intro h t hmem l2Height l1Height hplace
    obtain ⟨i, ht⟩ := List.mem_iff_getElem?.mp hmem
    obtain ⟨t', ht', -⟩ := (@finalizeAndRefresh_grown w wf tip
      reading).records.transactions.getElem? ht
    exact (finalMeans_iff (finalizeAndRefresh_isFinalized ht ht' hplace)).mp
      (h i t t' ht ht' l2Height l1Height hplace)
  · intro h i t t' ht ht' l2Height l1Height hplace
    exact (finalMeans_iff (finalizeAndRefresh_isFinalized ht ht' hplace)).mpr
      (h t (List.mem_of_getElem? ht) l2Height l1Height hplace)

/-! ### On the boundary -/

/-- A record in a block. -/
def boundaryRecord (kind : TxKind) (l2Height l1Height : UInt32) : TxRecord where
  id := ""
  kind := kind
  createdTs := 0
  amount := 7
  feeAtoms := none
  feeSat := none
  counterparty := none
  status := .inBlock l2Height l1Height 0
  l1Txid := none
  l2Sighash := none
  bip32Index := none
  note := none

/-- A transfer in L2 block 1, which declares L1 height 5, and a deposit at height 6. -/
def boundaryWallet : WalletFile where
  network := .regtest
  mnemonic := ""
  sequencerUrl := ""
  nodeUrl := none
  esploraUrl := ""
  nextMintIndex := 0
  mints := []
  verifiedHead := none
  transactions := [boundaryRecord .l2TransferReceived 1 5, boundaryRecord .l1Deposit 0 6]
  encryptionCtx := none

/-- The attestation of L2 block 1 is mined at L1 height 7. -/
def boundaryChain : List ChainStep :=
  [⟨.new 1 H256.zero H256.zero, 7, ⟨⟨ByteArr.ofNat 32 0⟩, 1⟩⟩]

/-- At tip 7 the transfer becomes final with one confirmation, and the deposit does not with two. -/
theorem final_on_boundary :
    let after := (finalizeAndRefresh .quiet 7 0 boundaryWallet).2.transactions
    (after[0]?.map (·.status) = some (.finalized 1 5) ∧ confirmationsAt 7 7 = 1) ∧
    (after[1]?.map (·.status) = some (.inBlock 0 6 0) ∧ confirmationsAt 7 6 = 2) ∧
    ¬ FinalMeansFinal Surroundings.quiet.esplora boundaryChain 7
      boundaryWallet.transactions after := by
  intro after
  have htransfer : after[0]?.map (·.status) = some (.finalized 1 5) := by decide +kernel
  have hdeposit : after[1]?.map (·.status) = some (.inBlock 0 6 0) := by decide +kernel
  refine ⟨⟨htransfer, by decide⟩, ⟨hdeposit, by decide⟩, fun h => ?_⟩
  obtain ⟨t', ht', hstatus⟩ := Option.map_eq_some_iff.mp htransfer
  have hfinal := h 0 (boundaryRecord .l2TransferReceived 1 5) t' rfl ht' 1 5 rfl
  obtain ⟨step, hstep, hlate⟩ := hfinal (by rw [hstatus]; rfl)
  rw [← Option.some.inj ((show batchOf boundaryChain 1 = some boundaryChain[0] by decide).symm.trans
    hstep)] at hlate
  exact absurd hlate (by decide)

end Hodlchain.Wallet
