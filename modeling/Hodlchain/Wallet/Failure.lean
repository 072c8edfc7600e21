/-
What a failed operation leaves of the wallet.

Most operations change the wallet after their last request, so one that fails has not
touched it.  A light balance takes the head out and writes the history before its last
requests: it leaves the wallet alone where there is no head to lose and the history
already shows what the walk and the refresh would write.
-/
import Hodlchain.Wallet.Lifecycle

namespace Hodlchain.Wallet

section

variable {prim : Primitives} {libs : Libraries} {w : Surroundings} {wf : WalletFile}

/-! ### Operations that change the wallet last -/

theorem checkMintFunding_atomic (w : Surroundings) (input : CheckMintFundingInput) :
    Action.Atomic (checkMintFunding libs w input) := by
  unfold checkMintFunding
  refine .get_bind fun wf => .lift_bind fun record => ?_
  split
  · exact .pure _
  · refine .lift_bind fun address => .lift_bind fun _ => .lift_bind fun utxos => ?_
    cases utxos with
    | nil => exact .pure _
    | cons u us =>
        cases hheight : u.status.blockHeight with
        | none =>
            simp only [hheight]
            exact .pure _
        | some height =>
            simp only [hheight]
            exact .modify_bind_pure _ _

theorem mintMessage_atomic (w : Surroundings) (input : MintMessageInput) :
    Action.Atomic (mintMessage prim libs w input) := by
  unfold mintMessage
  refine .get_bind fun wf => ?_
  repeat refine .lift_bind fun _ => ?_
  exact .modify_bind_pure _ _

theorem transfer_atomic (w : Surroundings) (input : TransferInput) :
    Action.Atomic (transfer prim libs w input) := by
  unfold transfer
  refine .get_bind fun wf => ?_
  repeat refine .lift_bind fun _ => ?_
  exact .modify_bind_pure _ _

theorem reclaimMint_atomic (w : Surroundings) (input : ReclaimMintInput) :
    Action.Atomic (reclaimMint prim libs w input) := by
  unfold reclaimMint
  refine .get_bind fun wf => ?_
  repeat refine .lift_bind fun _ => ?_
  exact .modify_bind_pure _ _

/-! ### Histories that a call leaves alone -/

/-- How far on a status is. -/
def Stage.rank : Stage → ℕ
  | .soft => 0
  | .l1Mempool => 0
  | .failed => 0
  | .inBlock => 1
  | .finalized => 2

theorem Stage.rank_le {a b : Stage} (h : Relation.ReflTransGen Stage.Step a b) :
    a.rank ≤ b.rank := by
  induction h with
  | refl => exact Nat.le_refl _
  | tail h hstep ih =>
      refine Nat.le_trans ih ?_
      cases hstep <;> decide

/-- The refresh has nothing to write to a record. -/
structure TxRecord.Fresh (esplora : EsploraServer) (l1Tip : UInt32) (t : TxRecord) : Prop where
  unconfirmed : confirmedAt esplora t = none
  shallow : ∀ l2Height l1Height ts, t.status = .inBlock l2Height l1Height ts →
    l1Tip.toNat < l1Height.toNat + 2

/-- The history shows the events: each has a record, and the first record of a submission is where
the last event of it has it. -/
structure Shows (w : Surroundings) (events : List TxEvent) (txs : List TxRecord) : Prop where
  recorded : ∀ ev ∈ events, Recorded txs (TxEvent.entry ev) = true
  moved : ∀ e v, Overwrite.IsLast (movesOf w events.zipIdx) (e, v) →
    ∀ t, txs.find? (TxRecord.isFor e.1 e.2) = some t → t.status.isFinalized = true ∨
      t.status = v.status

variable {txs : List TxRecord} {t : TxRecord} {i : ℕ} {l1Tip : UInt32} {reading : ℕ}

theorem TxRecord.moved_eq_self_iff (v : Inclusion) :
    t.moved v = t ↔ t.status.isFinalized = true ∨ t.status = v.status := by
  unfold TxRecord.moved
  by_cases hfinal : t.status.isFinalized = true
  · rw [if_pos hfinal]
    exact iff_of_true rfl (.inl hfinal)
  · rw [if_neg hfinal]
    constructor
    · intro h
      exact .inr (congrArg TxRecord.status h).symm
    · rintro (h | h)
      · exact absurd h hfinal
      · rw [← h]

theorem settle_eq_self_iff {status : TxStatus} : settle l1Tip status = status ↔
    ∀ l2Height l1Height ts, status = .inBlock l2Height l1Height ts →
      l1Tip.toNat < l1Height.toNat + 2 := by
  cases status with
  | inBlock l2Height l1Height ts =>
      have hfinal := @isFinalized_settle l1Tip l2Height l1Height ts
      constructor
      · rintro h _ _ _ ⟨⟩
        rw [h] at hfinal
        exact Nat.not_le.mp fun hdeep => Bool.false_ne_true (hfinal.mpr hdeep)
      · intro h
        have hshallow := h _ _ _ rfl
        by_cases hdeep : satSub32 l1Tip l1Height ≥ reorgFinalityDepth
        · rw [show settle l1Tip (.inBlock l2Height l1Height ts) = _ from if_pos hdeep] at hfinal
          exact absurd (hfinal.mp rfl) (by omega)
        · exact if_neg hdeep
  | soft ts => exact iff_of_true rfl nofun
  | l1Mempool ts => exact iff_of_true rfl nofun
  | finalized l2Height l1Height => exact iff_of_true rfl nofun
  | failed reason ts => exact iff_of_true rfl nofun

theorem rank_settle_inBlock (l1Tip l2Height l1Height : UInt32) (ts : UInt64) :
    Stage.inBlock.rank ≤ (settle l1Tip (.inBlock l2Height l1Height ts)).stage.rank := by
  by_cases hdeep : satSub32 l1Tip l1Height ≥ reorgFinalityDepth
  · rw [show settle l1Tip (.inBlock l2Height l1Height ts) = _ from if_pos hdeep]
    exact show 1 ≤ 2 by decide
  · rw [show settle l1Tip (.inBlock l2Height l1Height ts) = _ from if_neg hdeep]
    exact Nat.le_refl 1

theorem rank_lt_settle {status : TxStatus} (h : settle l1Tip status ≠ status) :
    status.stage.rank < (settle l1Tip status).stage.rank := by
  cases status with
  | inBlock l2Height l1Height ts =>
      by_cases hdeep : satSub32 l1Tip l1Height ≥ reorgFinalityDepth
      · rw [show settle l1Tip (.inBlock l2Height l1Height ts) = _ from if_pos hdeep]
        exact show 1 < 2 by decide
      · exact absurd (if_neg hdeep) h
  | soft ts => exact absurd rfl h
  | l1Mempool ts => exact absurd rfl h
  | finalized l2Height l1Height => exact absurd rfl h
  | failed reason ts => exact absurd rfl h

/-- The refresh leaves a record alone, or moves it on. -/
theorem refresh_record (ht : wf.transactions[i]? = some t) :
    ∃ t', (finalizeAndRefresh w l1Tip reading wf).2.transactions[i]? = some t' ∧
      (t.Fresh w.esplora l1Tip ∧ t' = t ∨ ¬ t.Fresh w.esplora l1Tip ∧
        t.status.stage.rank < t'.status.stage.rank) := by
  rw [finalizeAndRefresh_transactions, List.getElem?_map]
  have hat : ∀ p ∈ (promotions w.esplora wf.transactions).zipIdx, p.1.1 = i →
      confirmedAt w.esplora t = some p.1.2 := by
    rintro ⟨⟨j, height⟩, k⟩ hp rfl
    obtain ⟨t₀, ht₀, hconfirmed⟩ := mem_promotions.mp (List.fst_mem_of_mem_zipIdx hp)
    rwa [Option.some.inj (ht.symm.trans ht₀)]
  cases hconfirmed : confirmedAt w.esplora t with
  | none =>
      rw [promote_of_not_mem fun p hp hi => by simp [hat p hp hi] at hconfirmed, ht]
      refine ⟨_, rfl, ?_⟩
      by_cases hsettled : settle l1Tip t.status = t.status
      · refine .inl ⟨⟨hconfirmed, settle_eq_self_iff.mp hsettled⟩, ?_⟩
        exact congrArg (fun status => { t with status := status }) hsettled
      · exact .inr ⟨fun hfresh => hsettled (settle_eq_self_iff.mpr hfresh.shallow),
          rank_lt_settle hsettled⟩
  | some height =>
      have hmem : ∃ p ∈ (promotions w.esplora wf.transactions).zipIdx, p.1.1 = i := by
        obtain ⟨k, hk⟩ := List.mem_iff_getElem?.mp (mem_promotions.mpr ⟨t, ht, hconfirmed⟩)
        exact ⟨((i, height), k), List.mk_mem_zipIdx_iff_getElem?.mpr hk, rfl⟩
      obtain ⟨k, hk⟩ := promote_of_mem (f := fun h k => .inBlock 0 h (w.now (reading + k))) hmem
        (fun p hp hi => Option.some.inj ((hat p hp hi).symm.trans hconfirmed)) ht
      rw [hk]
      refine ⟨_, rfl, .inr ⟨fun hfresh => by simp [hfresh.unconfirmed] at hconfirmed, ?_⟩⟩
      have hwaits : t.status.stage.rank = 0 := by
        cases hstatus : t.status with
        | l1Mempool ts => rfl
        | soft ts => rfl
        | failed reason ts => rfl
        | inBlock l2Height l1Height ts => simp [confirmedAt, hstatus] at hconfirmed
        | finalized l2Height l1Height => simp [confirmedAt, hstatus] at hconfirmed
      rw [hwaits]
      exact rank_settle_inBlock _ _ _ _

theorem length_refresh : (finalizeAndRefresh w l1Tip reading wf).2.transactions.length
    = wf.transactions.length := by
  rw [finalizeAndRefresh_transactions, List.length_map, length_promote]

/-- The refresh leaves no history as one before it, other than its own. -/
theorem refresh_eq_iff {before : List TxRecord} (hlives : Lives before wf.transactions) :
    (finalizeAndRefresh w l1Tip reading wf).2.transactions = before ↔
      wf.transactions = before ∧ ∀ t ∈ before, t.Fresh w.esplora l1Tip := by
  constructor
  · intro hback
    have hlength : wf.transactions.length = before.length := by rw [← hback, length_refresh]
    have hsame : ∀ (i : ℕ) (t : TxRecord), before[i]? = some t →
        wf.transactions[i]? = some t ∧ t.Fresh w.esplora l1Tip := by
      intro i t ht
      obtain ⟨t', ht', hforward⟩ := hlives.records.getElem? ht
      obtain ⟨t'', ht'', hrefresh⟩ := @refresh_record w wf t' i l1Tip reading ht'
      rw [hback, ht] at ht''
      obtain rfl := Option.some.inj ht''
      rcases hrefresh with ⟨hfresh, rfl⟩ | ⟨-, hlt⟩
      · exact ⟨ht', hfresh⟩
      · exact absurd hlt (Nat.not_lt.mpr (Stage.rank_le hforward.forward))
    refine ⟨List.ext_getElem? fun i => ?_, fun t ht => ?_⟩
    · by_cases hlt : i < before.length
      · rw [(hsame i _ (List.getElem?_eq_getElem hlt)).1, List.getElem?_eq_getElem hlt]
      · rw [List.getElem?_eq_none (by omega), List.getElem?_eq_none (by omega)]
    · obtain ⟨i, hi⟩ := List.mem_iff_getElem?.mp ht
      exact (hsame i t hi).2
  · rintro ⟨rfl, hfresh⟩
    refine List.ext_getElem? fun i => ?_
    by_cases hlt : i < wf.transactions.length
    · have ht := List.getElem?_eq_getElem hlt
      obtain ⟨t', ht', hrefresh⟩ := @refresh_record w wf _ i l1Tip reading ht
      rcases hrefresh with ⟨-, rfl⟩ | ⟨hstale, -⟩
      · rw [ht', ht]
      · exact absurd (hfresh _ (List.getElem_mem hlt)) hstale
    · rw [List.getElem?_eq_none (by rw [length_refresh]; omega), List.getElem?_eq_none (by omega)]

/-- A projection leaves a history alone that shows the events. -/
theorem projectEvents_eq_self_iff {events : List TxEvent} :
    (projectEvents w events wf).transactions = wf.transactions ↔
      Shows w events wf.transactions := by
  constructor
  · intro h
    have hrecorded : ∀ ev ∈ events, Recorded wf.transactions (TxEvent.entry ev) = true := by
      intro ev hev
      rw [← h]
      exact recorded_projectEvents hev
    rw [projectEvents_recorded hrecorded] at h
    refine ⟨hrecorded, fun e v hlast t ht => (TxRecord.moved_eq_self_iff v).mp ?_⟩
    exact modifyFirst_eq_self_iff.mp (Overwrite.run_eq_self_iff.mp h (e, v) hlast) t ht
  · rintro ⟨hrecorded, hmoved⟩
    rw [projectEvents_recorded hrecorded]
    refine Overwrite.run_eq_self_iff.mpr fun e hlast => modifyFirst_eq_self_iff.mpr fun t ht => ?_
    exact (TxRecord.moved_eq_self_iff e.2).mpr (hmoved e.1 e.2 hlast t ht)

/-! ### A light balance that fails -/

/-- The steps before the head is taken: whose wallet it is, and whose balance is asked for. -/
def askedFor (libs : Libraries) (input : LightBalanceInput) (wf : WalletFile) :
    Except OpError (L2Address × L2Address) := do
  let ownAddr ← mapErr .keys (wf.xonlyPubkey libs.keys)
  let target ← addressOr libs ownAddr wf.network input.addr
  mapErr .light (checkTracked ownAddr wf.verifiedHead)
  pure (ownAddr, target)

/-- The steps between the head and the history: the walk, from the persisted head or a first one. -/
def walked (prim : Primitives) (w : Surroundings) (ownAddr : L2Address)
    (persisted : Option VerifiedHead) :
    Except OpError (VerifiedHead × LightBalanceMode × Nat × List TxEvent) :=
  mapErr .light (lightWalk prim w.fuel w.light ownAddr persisted)

/-- The tip that the refresh goes by. -/
def refreshTip (w : Surroundings) (head : VerifiedHead) : UInt32 :=
  w.esplora.tipHeight.getD head.l1Height

/-- The wallet after the history was written. -/
def afterWalk (w : Surroundings) (head : VerifiedHead) (events : List TxEvent) (wf : WalletFile) :
    WalletFile :=
  (finalizeAndRefresh w (refreshTip w head) events.length
    (projectEvents w events { wf with verifiedHead := none })).2

/-- Where a light balance that fails has stopped, and what it leaves there. -/
theorem lightBalance_error {input : LightBalanceInput} {e : OpError}
    (h : (lightBalance prim libs w input wf).1 = .error e) :
    let left := (lightBalance prim libs w input wf).2
    (askedFor libs input wf = .error e ∧ left = wf) ∨
      ∃ own target, askedFor libs input wf = .ok (own, target) ∧
        ((walked prim w own wf.verifiedHead = .error e ∧ left = { wf with verifiedHead := none }) ∨
          ∃ head mode n events, walked prim w own wf.verifiedHead = .ok (head, mode, n, events) ∧
            left = afterWalk w head events wf) := by
  unfold lightBalance at h ⊢
  rw [Action.get_bind_run] at h ⊢
  unfold askedFor walked
  obtain ⟨hown, hleft⟩ | ⟨own, hown, hrun⟩ := Action.lift_bind_halted h
  · exact .inl ⟨bind_error_iff.mpr (.inl hown), hleft⟩
  rw [hrun] at h ⊢
  obtain ⟨htarget, hleft⟩ | ⟨target, htarget, hrun⟩ := Action.lift_bind_halted h
  · exact .inl ⟨bind_error_iff.mpr (.inr ⟨own, hown, bind_error_iff.mpr (.inl htarget)⟩), hleft⟩
  rw [hrun] at h ⊢
  obtain ⟨htracked, hleft⟩ | ⟨u, htracked, hrun⟩ := Action.lift_bind_halted h
  · exact .inl ⟨bind_error_iff.mpr (.inr ⟨own, hown, bind_error_iff.mpr (.inr ⟨target, htarget,
      bind_error_iff.mpr (.inl htracked)⟩)⟩), hleft⟩
  rw [hrun, Action.modify_bind_run] at h ⊢
  refine .inr ⟨own, target, bind_ok_iff.mpr ⟨own, hown, bind_ok_iff.mpr ⟨target, htarget,
    bind_ok_iff.mpr ⟨u, htracked, rfl⟩⟩⟩, ?_⟩
  -- the head is out of the wallet
  obtain ⟨hwalk, hleft⟩ | ⟨⟨head, mode, n, events⟩, hwalk, hrun⟩ := Action.lift_bind_halted h
  · exact .inl ⟨hwalk, hleft⟩
  rw [hrun] at h ⊢
  dsimp only at h ⊢
  rw [Action.modify_bind_run, Action.modify_bind_run] at h ⊢
  refine .inr ⟨head, mode, n, events, hwalk, ?_⟩
  -- and the history is written
  obtain ⟨-, hleft⟩ | ⟨read, -, hrun⟩ := Action.lift_bind_halted h
  · exact hleft
  · rw [hrun] at h
    cases h

theorem afterWalk_verifiedHead (head : VerifiedHead) (events : List TxEvent) :
    (afterWalk w head events wf).verifiedHead = none := by
  unfold afterWalk
  rw [projectEvents_transactions]
  rfl

/-- The history is the only thing it writes, the head apart. -/
theorem afterWalk_eq_self_iff (head : VerifiedHead) (events : List TxEvent) :
    afterWalk w head events wf = wf ↔ wf.verifiedHead = none ∧ Shows w events wf.transactions ∧
      ∀ t ∈ wf.transactions, t.Fresh w.esplora (refreshTip w head) := by
  have hhistory : (afterWalk w head events wf).transactions = wf.transactions ↔
      Shows w events wf.transactions ∧ ∀ t ∈ wf.transactions, t.Fresh w.esplora
        (refreshTip w head) :=
    (refresh_eq_iff (projectEvents_lives w events { wf with verifiedHead := none })).trans
      (and_congr_left' projectEvents_eq_self_iff)
  rw [← hhistory]
  constructor
  · intro h
    exact ⟨by rw [← h, afterWalk_verifiedHead], by rw [h]⟩
  · rintro ⟨hhead, htxs⟩
    have hwrites : afterWalk w head events wf = { wf with
        verifiedHead := none
        transactions := (afterWalk w head events wf).transactions } := by
      unfold afterWalk
      rw [projectEvents_transactions]
      rfl
    rw [hwrites, htxs, ← hhead]

/-- **What a light balance that fails leaves**: the wallet as it was, exactly if it failed before
the head was taken, or if there was no head to lose and it either failed before the history was
written or the history already showed what the walk and the refresh write. -/
theorem lightBalance_atomic_iff {input : LightBalanceInput} {e : OpError}
    (h : (lightBalance prim libs w input wf).1 = .error e) :
    (lightBalance prim libs w input wf).2 = wf ↔
      (∃ cause, askedFor libs input wf = .error cause) ∨
        wf.verifiedHead = none ∧ ∀ own target head mode n events,
          askedFor libs input wf = .ok (own, target) →
          walked prim w own none = .ok (head, mode, n, events) →
            Shows w events wf.transactions ∧
              ∀ t ∈ wf.transactions, t.Fresh w.esplora (refreshTip w head) := by
  obtain ⟨hasked, hleft⟩ | ⟨own, target, hasked,
      ⟨hwalk, hleft⟩ | ⟨head, mode, n, events, hwalk, hleft⟩⟩ :=
    lightBalance_error h
  · exact iff_of_true hleft (.inl ⟨e, hasked⟩)
  · rw [hleft]
    constructor
    · intro hsame
      have hhead : wf.verifiedHead = none := (congrArg WalletFile.verifiedHead hsame).symm
      refine .inr ⟨hhead, fun own' target' head mode n events hasked' hwalk' => ?_⟩
      obtain ⟨rfl, rfl⟩ := Prod.mk.inj (Except.ok.inj (hasked.symm.trans hasked'))
      rw [hhead] at hwalk
      cases hwalk.symm.trans hwalk'
    · rintro (⟨cause, hcause⟩ | ⟨hhead, -⟩)
      · cases hasked.symm.trans hcause
      · rw [← hhead]
  · rw [hleft, afterWalk_eq_self_iff]
    constructor
    · rintro ⟨hhead, hshows⟩
      refine .inr ⟨hhead, fun own' target' head' mode' n' events' hasked' hwalk' => ?_⟩
      obtain ⟨rfl, rfl⟩ := Prod.mk.inj (Except.ok.inj (hasked.symm.trans hasked'))
      rw [hhead] at hwalk
      cases hwalk.symm.trans hwalk'
      exact hshows
    · rintro (⟨cause, hcause⟩ | ⟨hhead, hshows⟩)
      · cases hasked.symm.trans hcause
      · refine ⟨hhead, hshows own target head mode n events hasked ?_⟩
        rw [← hhead]
        exact hwalk

end

/-- A wallet keeps its head and its history when the text it is asked about is no address, and one
without a head keeps its history when no server answers. -/
theorem lightBalance_atomic_iff_kept :
    (lightBalance Primitives.counting .sample .quiet ⟨some "nobody"⟩ restingWallet).2 =
      restingWallet ∧
    (lightBalance Primitives.counting .sample .quiet ⟨none⟩ boundaryWallet).2 = boundaryWallet ∧
    restingWallet.verifiedHead = some restingHead ∧ boundaryWallet.transactions.length = 2 := by
  refine ⟨?_, ?_, rfl, rfl⟩
  · have hasked : ∃ cause, askedFor .sample ⟨some "nobody"⟩ restingWallet = .error cause := ⟨_, rfl⟩
    obtain ⟨cause, hcause⟩ := hasked
    have herror : ∃ e, (lightBalance Primitives.counting .sample .quiet ⟨some "nobody"⟩
      restingWallet).1
        = .error e := ⟨_, rfl⟩
    obtain ⟨e, he⟩ := herror
    exact (lightBalance_atomic_iff he).mpr (.inl ⟨cause, hcause⟩)
  · have herror : (lightBalance Primitives.counting .sample .quiet ⟨none⟩ boundaryWallet).1
        = .error (.light (.coldStart .fetchGenesis)) := by decide
    refine (lightBalance_atomic_iff herror).mpr
      (.inr ⟨rfl, fun own target head mode n events _ hwalk => ?_⟩)
    cases hwalk

/-- A wallet with a head loses it when Esplora does not answer; and a head without a minted total is
lost together with the record that it was written with, when `/balance` does not answer. -/
theorem lightBalance_loses :
    let run := lightBalance Primitives.counting .sample .quiet ⟨none⟩ restingWallet
    let wf := { boundaryWallet with verifiedHead := some { restingHead with l2Height := 1 } }
    let run' := lightBalance Primitives.counting .sample (restingAt 7) ⟨none⟩ wf
    ((∃ e, run.1 = .error e) ∧ run.2.verifiedHead = none ∧ run.2 ≠ restingWallet) ∧
      run'.1 = .error (.light .balanceRequest) ∧ run'.2.verifiedHead = none ∧
        wf.transactions.map (·.status) = [.inBlock 1 5 0, .inBlock 0 6 0] ∧
        run'.2.transactions.map (·.status) = [.finalized 1 5, .inBlock 0 6 0] := by
  intro run wf run'
  have hlost : run.2.verifiedHead = none := by decide
  refine ⟨⟨⟨_, rfl⟩, hlost, fun hsame => ?_⟩, ?_, ?_, ?_, ?_⟩
  · rw [hsame] at hlost
    cases hlost
  all_goals decide

end Hodlchain.Wallet
