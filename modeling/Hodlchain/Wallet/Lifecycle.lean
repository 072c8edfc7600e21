/-
The life of a history record.

A record is added by the operation that submits, pays in or sees a transaction.  From
then on only its status is written, by the projection of events and by the two passes of
the refresh, and each of them moves it on: into a block, and from there to final.
-/
import Mathlib.Logic.Relation
import Hodlchain.Wallet.Finality
import Hodlchain.Wallet.Projection

namespace Hodlchain.Wallet

open Bytes

/-- A status, less where and when. -/
inductive Stage where
  | soft
  | l1Mempool
  | inBlock
  | finalized
  | failed
deriving DecidableEq, Repr

def TxStatus.stage : TxStatus → Stage
  | .soft _ => .soft
  | .l1Mempool _ => .l1Mempool
  | .inBlock .. => .inBlock
  | .finalized .. => .finalized
  | .failed .. => .failed

/-- Where a status can go. -/
inductive Stage.Step : Stage → Stage → Prop
  | soft : Step .soft .inBlock
  | l1Mempool : Step .l1Mempool .inBlock
  | failed : Step .failed .inBlock
  | inBlock : Step .inBlock .finalized

/-- A record later on: its status has moved along the steps, and it is the same for good once that
is final. -/
structure TxRecord.Lives (t t' : TxRecord) : Prop where
  same : t.Grows t'
  forward : Relation.ReflTransGen Stage.Step t.status.stage t'.status.stage
  final : t.status.isFinalized = true → t' = t

/-- Only L1 records wait in the mempool, and only submissions to L2 are soft. -/
def TxRecord.KindFits (t : TxRecord) : Prop :=
  (t.status.stage = .l1Mempool → t.kind = .l1Reclaim ∨ t.kind = .l1Deposit) ∧
  (t.status.stage = .soft → t.kind = .l2MintApply ∨ t.kind = .l2TransferSent)

instance (t : TxRecord) : Decidable t.KindFits := inferInstanceAs (Decidable (_ ∧ _))

/-- A history later on. -/
structure Lives (txs txs' : List TxRecord) : Prop where
  records : Extends TxRecord.Lives txs txs'
  kinds : (∀ t ∈ txs, t.KindFits) → ∀ t ∈ txs', t.KindFits

namespace TxRecord.Lives

variable {t t' t'' : TxRecord}

theorem refl (t : TxRecord) : t.Lives t := ⟨.refl t, .refl, fun _ => rfl⟩

theorem trans (h : t.Lives t') (h' : t'.Lives t'') : t.Lives t'' where
  same := h.same.trans h'.same
  forward := h.forward.trans h'.forward
  final := by
    intro hfinal
    obtain rfl := h.final hfinal
    exact h'.final hfinal

theorem step {status : TxStatus} (h : Stage.Step t.status.stage status.stage)
    (hfinal : t.status.isFinalized = false) : t.Lives { t with status := status } where
  same := .status t status
  forward := .single h
  final := fun hf => absurd (hfinal.symm.trans hf) Bool.false_ne_true

/-- The stages a record comes to are none of the two that a record starts in. -/
theorem kindFits (h : t.Lives t') (hfits : t.KindFits) : t'.KindFits := by
  have hkind : t'.kind = t.kind := by
    have hsame := h.same
    rw [TxRecord.Grows] at hsame
    rw [← hsame]
  have hstep : ∀ {a b : Stage}, Stage.Step a b → b ≠ .l1Mempool ∧ b ≠ .soft := by
    rintro a b (_ | _ | _ | _) <;> refine ⟨?_, ?_⟩ <;> rintro ⟨⟩
  rcases h.forward.cases_tail with hsame | ⟨b, -, hlast⟩
  · rw [KindFits, hkind, hsame]
    exact hfits
  · obtain ⟨hmempool, hsoft⟩ := hstep hlast
    exact ⟨fun h => absurd h hmempool, fun h => absurd h hsoft⟩

end TxRecord.Lives

namespace Lives

variable {txs txs' txs'' : List TxRecord}

theorem refl (txs : List TxRecord) : Lives txs txs := ⟨.refl TxRecord.Lives.refl txs, id⟩

theorem trans (h : Lives txs txs') (h' : Lives txs' txs'') : Lives txs txs'' :=
  ⟨h.records.trans TxRecord.Lives.trans h'.records, fun hfits => h'.kinds (h.kinds hfits)⟩

theorem append {t : TxRecord} (hfits : t.KindFits) : Lives txs (txs ++ [t]) where
  records := .append TxRecord.Lives.refl txs [t]
  kinds := by
    intro hall t' ht'
    rcases List.mem_append.mp ht' with ht' | ht'
    · exact hall t' ht'
    · rwa [List.mem_singleton.mp ht']

/-- A history of the same length, with each record later on. -/
theorem of_records (hlength : txs'.length = txs.length) (h : Extends TxRecord.Lives txs txs') :
    Lives txs txs' where
  records := h
  kinds := by
    intro hall t' ht'
    obtain ⟨k, hk⟩ := List.mem_iff_getElem?.mp ht'
    have hlt : k < txs.length := hlength ▸ (List.getElem?_eq_some_iff.mp hk).1
    obtain ⟨t'', ht'', hlives⟩ := h.getElem? (List.getElem?_eq_getElem hlt)
    obtain rfl := Option.some.inj (hk.symm.trans ht'')
    exact hlives.kindFits (hall _ (List.getElem_mem hlt))

end Lives

section

variable {prim : Primitives} {libs : Libraries} {w : Surroundings} {txs : List TxRecord}

/-! ### What is written to a status -/

theorem moved_lives (v : Inclusion) (t : TxRecord) : t.Lives (t.moved v) := by
  unfold TxRecord.moved
  cases hstatus : t.status with
  | soft ts => exact .step (by rw [hstatus]; exact .soft) (by rw [hstatus]; rfl)
  | l1Mempool ts => exact .step (by rw [hstatus]; exact .l1Mempool) (by rw [hstatus]; rfl)
  | failed reason ts => exact .step (by rw [hstatus]; exact .failed) (by rw [hstatus]; rfl)
  | finalized l2Height l1Height => exact .refl t
  | inBlock l2Height l1Height ts =>
      -- put in a block again, perhaps another one
      refine ⟨.status t _, ?_, fun hf => ?_⟩
      · rw [hstatus]
        exact .refl
      · rw [hstatus] at hf
        cases hf

theorem settled_lives (l1Tip : UInt32) (t : TxRecord) :
    t.Lives { t with status := settle l1Tip t.status } := by
  by_cases hsame : settle l1Tip t.status = t.status
  · rw [hsame]
    exact .refl t
  · cases hstatus : t.status with
    | inBlock l2Height l1Height ts =>
        rw [hstatus] at hsame
        have hdeep : settle l1Tip (.inBlock l2Height l1Height ts) =
            .finalized l2Height l1Height := by
          unfold settle at hsame ⊢
          by_cases hge : satSub32 l1Tip l1Height ≥ reorgFinalityDepth
          · exact if_pos hge
          · exact absurd (if_neg hge) hsame
        rw [hdeep]
        exact .step (by rw [hstatus]; exact .inBlock) (by rw [hstatus]; rfl)
    | soft ts => exact absurd (by rw [hstatus]; rfl) hsame
    | l1Mempool ts => exact absurd (by rw [hstatus]; rfl) hsame
    | finalized l2Height l1Height => exact absurd (by rw [hstatus]; rfl) hsame
    | failed reason ts => exact absurd (by rw [hstatus]; rfl) hsame

theorem newRecord_kindFits (ev : TxEvent) (i : ℕ) : (newRecord w ev i).KindFits := ⟨nofun, nofun⟩

theorem addAll_lives (es : List (TxEvent × ℕ)) (txs : List TxRecord) :
    Lives txs (addAll w es txs) := by
  induction es generalizing txs with
  | nil => exact .refl txs
  | cons x es ih =>
      refine Lives.trans ?_ (ih (addMissing w txs x))
      cases hx : Recorded txs (TxEvent.entry x.1) with
      | true =>
          rw [addMissing_of_recorded x hx]
          exact .refl txs
      | false =>
          rw [addMissing_of_not x hx]
          exact .append (newRecord_kindFits x.1 x.2)

theorem moves_lives (l : List ((TxKind × String) × Inclusion)) (txs : List TxRecord) :
    Lives txs (moves.run l txs) := by
  induction l generalizing txs with
  | nil => exact .refl txs
  | cons x l ih =>
      refine Lives.trans ?_ (ih (moveFirst x.1 x.2 txs))
      exact .of_records (length_modifyFirst _ _ txs)
        (.modifyFirst TxRecord.Lives.refl fun t _ => moved_lives x.2 t)

/-- Whatever the events. -/
theorem projectEvents_lives (w : Surroundings) (events : List TxEvent) (wf : WalletFile) :
    Lives wf.transactions (projectEvents w events wf).transactions := by
  rw [projectEvents_transactions]
  exact (addAll_lives _ _).trans (moves_lives _ _)

theorem length_promote {f : UInt32 → ℕ → TxStatus} (promoted : List ((ℕ × UInt32) × ℕ)) :
    (promote f promoted txs).length = txs.length := by
  unfold promote
  induction promoted generalizing txs with
  | nil => rfl
  | cons p promoted ih =>
      rw [List.foldl_cons, ih]
      exact List.length_modify _ _ _

/-- Pass 1 writes the records that wait in the mempool. -/
theorem promote_lives {f : UInt32 → ℕ → TxStatus} (hf : ∀ h k, (f h k).stage = .inBlock)
    (esplora : EsploraServer) (txs : List TxRecord) :
    Lives txs (promote f (promotions esplora txs).zipIdx txs) := by
  refine .of_records (length_promote _) (.of_getElem? fun i t ht => ?_)
  have hat : ∀ p ∈ (promotions esplora txs).zipIdx, p.1.1 = i →
      confirmedAt esplora t = some p.1.2 := by
    rintro ⟨⟨j, height⟩, k⟩ hp rfl
    obtain ⟨t₀, ht₀, hconfirmed⟩ := mem_promotions.mp (List.fst_mem_of_mem_zipIdx hp)
    rwa [Option.some.inj (ht.symm.trans ht₀)]
  by_cases hmem : ∃ p ∈ (promotions esplora txs).zipIdx, p.1.1 = i
  · obtain ⟨p, hp, hindex⟩ := hmem
    have hconfirmed := hat p hp hindex
    have hheight : ∀ q ∈ (promotions esplora txs).zipIdx, q.1.1 = i → q.1.2 = p.1.2 := by
      intro q hq hq'
      exact Option.some.inj ((hat q hq hq').symm.trans hconfirmed)
    obtain ⟨k, hk⟩ := promote_of_mem (f := f) ⟨p, hp, hindex⟩ hheight ht
    refine ⟨_, hk, ?_⟩
    cases hstatus : t.status with
    | l1Mempool ts =>
        exact .step (by rw [hstatus, hf]; exact .l1Mempool) (by rw [hstatus]; rfl)
    | soft ts => simp [confirmedAt, hstatus] at hconfirmed
    | inBlock l2Height l1Height ts => simp [confirmedAt, hstatus] at hconfirmed
    | finalized l2Height l1Height => simp [confirmedAt, hstatus] at hconfirmed
    | failed reason ts => simp [confirmedAt, hstatus] at hconfirmed
  · exact ⟨t, (promote_of_not_mem fun p hp hi => hmem ⟨p, hp, hi⟩).trans ht, .refl t⟩

/-- Whatever the tip. -/
theorem finalizeAndRefresh_lives (w : Surroundings) (l1Tip : UInt32) (reading : ℕ)
    (wf : WalletFile) :
    Lives wf.transactions (finalizeAndRefresh w l1Tip reading wf).2.transactions := by
  rw [finalizeAndRefresh_transactions]
  exact (promote_lives (fun _ _ => rfl) w.esplora wf.transactions).trans
    (.of_records (List.length_map _) (.map (settled_lives l1Tip) _))

/-! ### The operations -/

/-- What an operation may do to the history. -/
def After (wf wf' : WalletFile) : Prop := Lives wf.transactions wf'.transactions

instance : Std.Refl After := ⟨fun _ => Lives.refl _⟩

instance : IsTrans WalletFile After := ⟨fun _ _ _ => Lives.trans⟩

theorem After.refl (wf : WalletFile) : After wf wf := Lives.refl _

theorem answered_kindFits {t : TxRecord} {accepted : Bool} {reason : String} {ts : UInt64}
    (hstatus : t.status = if accepted then .soft ts else .failed reason ts)
    (hkind : t.kind = .l2MintApply ∨ t.kind = .l2TransferSent) : t.KindFits := by
  refine ⟨fun h => ?_, fun _ => hkind⟩
  rw [hstatus] at h
  cases accepted <;> cases h

theorem recordFunding_after (addr : String) (index : UInt32) (u : AddressUtxo) (height : UInt32)
    (wf : WalletFile) : After wf (recordFunding w addr index u height wf) := by
  simp only [recordFunding]
  split
  · exact Lives.append ⟨(by rintro ⟨⟩), (by rintro ⟨⟩)⟩
  · exact After.refl wf

theorem recordMint_after (counterparty : String) (index : UInt32) (resp : SubmitMintResponse)
    (wf : WalletFile) : After wf (recordMint w counterparty index resp wf) := by
  have hfits : (mintRecordOf w counterparty index resp).KindFits := answered_kindFits rfl (.inl rfl)
  unfold recordMint
  cases resp.accepted with
  | true => exact Lives.append hfits
  | false => exact Lives.append hfits

theorem recordReclaim_after (dest : L1Address) (input : ReclaimMintInput) (valueSat : UInt64)
    (txid : Txid) (wf : WalletFile) : After wf (recordReclaim w dest input valueSat txid wf) :=
  Lives.append ⟨fun _ => .inl rfl, nofun⟩

end

/-! ### Runs of operations -/

section

variable (prim : Primitives) (libs : Libraries)

theorem mintUtxo_moves (input : MintUtxoInput) : Action.Moves After (mintUtxo prim libs input) := by
  have halloc : Action.Moves After (WalletFile.allocateMintKeypair libs.keys) := by
    unfold WalletFile.allocateMintKeypair
    refine .get_bind fun wf => .lift_bind fun kp => ?_
    split
    · exact .halt _
    · exact .modify_bind (fun wf => After.refl wf) (.pure _)
  unfold mintUtxo
  refine .lift_bind fun _ => .get_bind fun wf => .lift_bind fun _ => .bind (.mapErr _ halloc) ?_
  rintro ⟨kp, index⟩
  exact .lift_bind fun address => .modify_bind (fun wf => After.refl wf) (.pure _)

theorem checkMintFunding_moves (w : Surroundings) (input : CheckMintFundingInput) :
    Action.Moves After (checkMintFunding libs w input) := by
  unfold checkMintFunding
  refine .get_bind fun wf => .lift_bind fun record => ?_
  split
  · exact .pure _
  · refine .lift_bind fun address => .lift_bind fun _ => .lift_bind fun utxos => ?_
    cases utxos with
    | nil => exact .pure _
    | cons u us =>
        cases hheight : u.status.blockHeight with
        | none =>
            simp only [hheight]
            exact .pure _
        | some height =>
            simp only [hheight]
            exact .modify_bind (recordFunding_after _ _ u height) (.pure _)

theorem mintMessage_moves (w : Surroundings) (input : MintMessageInput) :
    Action.Moves After (mintMessage prim libs w input) := by
  unfold mintMessage
  refine .get_bind fun wf => ?_
  repeat refine .lift_bind fun _ => ?_
  exact .modify_bind (recordMint_after _ _ _) (.pure _)

theorem transfer_moves (w : Surroundings) (input : TransferInput) :
    Action.Moves After (transfer prim libs w input) := by
  unfold transfer
  refine .get_bind fun wf => ?_
  repeat refine .lift_bind fun _ => ?_
  exact .modify_bind (fun _ => Lives.append (answered_kindFits rfl (.inr rfl))) (.pure _)

theorem reclaimMint_moves (w : Surroundings) (input : ReclaimMintInput) :
    Action.Moves After (reclaimMint prim libs w input) := by
  unfold reclaimMint
  refine .get_bind fun wf => ?_
  repeat refine .lift_bind fun _ => ?_
  exact .modify_bind (recordReclaim_after _ input _ _) (.pure _)

theorem lightBalance_moves (w : Surroundings) (input : LightBalanceInput) :
    Action.Moves After (lightBalance prim libs w input) := by
  unfold lightBalance
  refine .get_bind fun wf => ?_
  repeat refine .lift_bind fun _ => ?_
  refine .modify_bind (fun wf => After.refl wf) (.lift_bind fun walked => ?_)
  refine .modify_bind (projectEvents_lives w _) (.modify_bind (finalizeAndRefresh_lives w _ _) ?_)
  exact .lift_bind fun read => .modify_bind (fun wf => After.refl wf) (.pure _)

/-- A run of operations, in any order and any surroundings, those that fail included. -/
inductive Operated : WalletFile → WalletFile → Prop
  | none (wf : WalletFile) : Operated wf wf
  | mintUtxo {wf wf' : WalletFile} (h : Operated wf wf') (input : MintUtxoInput) :
      Operated wf (mintUtxo prim libs input wf').2
  | checkMintFunding {wf wf' : WalletFile} (h : Operated wf wf') (w : Surroundings)
      (input : CheckMintFundingInput) : Operated wf (checkMintFunding libs w input wf').2
  | mintMessage {wf wf' : WalletFile} (h : Operated wf wf') (w : Surroundings)
      (input : MintMessageInput) : Operated wf (mintMessage prim libs w input wf').2
  | transfer {wf wf' : WalletFile} (h : Operated wf wf') (w : Surroundings)
    (input : TransferInput) :
      Operated wf (transfer prim libs w input wf').2
  | reclaimMint {wf wf' : WalletFile} (h : Operated wf wf') (w : Surroundings)
      (input : ReclaimMintInput) : Operated wf (reclaimMint prim libs w input wf').2
  | lightBalance {wf wf' : WalletFile} (h : Operated wf wf') (w : Surroundings)
      (input : LightBalanceInput) : Operated wf (lightBalance prim libs w input wf').2

variable {prim libs} {wf wf' : WalletFile}

theorem operated_after (h : Operated prim libs wf wf') : After wf wf' := by
  induction h with
  | none => exact .refl _
  | mintUtxo h input ih => exact ih.trans (mintUtxo_moves prim libs input _)
  | checkMintFunding h w input ih => exact ih.trans (checkMintFunding_moves libs w input _)
  | mintMessage h w input ih => exact ih.trans (mintMessage_moves prim libs w input _)
  | transfer h w input ih => exact ih.trans (transfer_moves prim libs w input _)
  | reclaimMint h w input ih => exact ih.trans (reclaimMint_moves prim libs w input _)
  | lightBalance h w input ih => exact ih.trans (lightBalance_moves prim libs w input _)

/-- **A record only moves forward**: from any wallet and through any run of operations, each record
stays in its place, the same but for its status; the status moves from the mempool, from soft or
from failed into a block and from there to final, and a final record is the same for good.  Where
the mempool is left to L1 records and soft to submissions to L2, as in an empty history, it is
later on. -/
theorem operated_forward (h : Operated prim libs wf wf') :
    (∀ (i : ℕ) (t : TxRecord), wf.transactions[i]? = some t → ∃ t', wf'.transactions[i]? = some t' ∧
      { t' with status := t.status } = t ∧
      Relation.ReflTransGen Stage.Step t.status.stage t'.status.stage ∧
      (t.status.isFinalized = true → t' = t)) ∧
    ((∀ t ∈ wf.transactions, t.KindFits) → ∀ t ∈ wf'.transactions, t.KindFits) := by
  have hafter := operated_after h
  refine ⟨fun i t ht => ?_, hafter.kinds⟩
  obtain ⟨t', ht', hlives⟩ := hafter.records.getElem? ht
  exact ⟨t', ht', hlives.same, hlives.forward, hlives.final⟩

end

/-- A head that nothing has come after. -/
def restingHead : VerifiedHead where
  stateRoot := H256.zero
  accountsRoot := H256.zero
  l2Height := 0
  blockHash := H256.zero
  l1Height := 7
  anchorOutpoint := ⟨⟨ByteArr.ofNat 32 9⟩, 1⟩
  ownAddress := ⟨ByteArr.ofNat 32 7⟩
  ownLeaf := .empty
  ownPath := ∅
  consumedNullifiers := ∅
  totalMintedAtoms := 0
  sequencerFeeAddress := none

def restingWallet : WalletFile := { boundaryWallet with verifiedHead := some restingHead }

/-- The anchor is unspent, and L1 at the tip. -/
def restingL1 (tip : UInt32) : EsploraServer :=
  ⟨⟨fun _ => none⟩, fun _ => some true, fun _ _ => some ⟨false, none, none⟩, some tip⟩

def restingAt (tip : UInt32) : Surroundings :=
  { Surroundings.quiet with
    esplora := restingL1 tip
    light := .all Surroundings.quiet.light.walk (restingL1 tip)
    fuel := 1 }

/-- A refresh at tip 7 makes the transfer final, and one at the lower tip 0 leaves it so. -/
theorem operated_forward_resting :
    let wf := (lightBalance Primitives.counting .sample (restingAt 7) ⟨none⟩ restingWallet).2
    let wf' := (lightBalance Primitives.counting .sample (restingAt 0) ⟨none⟩ wf).2
    wf.transactions.map (·.status) = [.finalized 1 5, .inBlock 0 6 0] ∧
      wf'.transactions[0]? = wf.transactions[0]? ∧
      ∀ t ∈ wf'.transactions, t.KindFits := by
  intro wf wf'
  have hfirst : Operated Primitives.counting .sample restingWallet wf :=
    .lightBalance (.none restingWallet) (restingAt 7) ⟨none⟩
  have hsecond : Operated Primitives.counting .sample wf wf' :=
    .lightBalance (.none wf) (restingAt 0) ⟨none⟩
  have hstatus : wf.transactions.map (·.status) = [.finalized 1 5, .inBlock 0 6 0] := by
    decide +kernel
  have hkinds : ∀ t ∈ wf.transactions, t.KindFits :=
    (operated_forward hfirst).2 (by decide +kernel)
  refine ⟨hstatus, ?_, (operated_forward hsecond).2 hkinds⟩
  have hhead := congrArg (·[0]?) hstatus
  rw [List.getElem?_map] at hhead
  obtain ⟨t, ht, hfinal⟩ := Option.map_eq_some_iff.mp hhead
  obtain ⟨t', ht', -, -, hsame⟩ := (operated_forward hsecond).1 0 t ht
  rw [ht', ht, hsame (by rw [hfinal]; rfl)]

end Hodlchain.Wallet
