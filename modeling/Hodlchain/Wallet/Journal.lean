/-
A history against what it was shown.

Events come to a wallet a walk at a time, with its own submissions in between.  A history
tells a list of events when the records of L2 that stand in a block are records of these
events, at their places, and every event has such a record.  A submission adds a record
that stands in no block, and a refresh moves none.
-/
import Hodlchain.Wallet.Lifecycle

namespace Hodlchain.Wallet

open Bytes

/-- Where a status has a record, on L2 and on L1. -/
def TxStatus.place? : TxStatus → Option (UInt32 × UInt32)
  | .inBlock l2Height l1Height _ => some (l2Height, l1Height)
  | .finalized l2Height l1Height => some (l2Height, l1Height)
  | _ => none

/-- A record of an event, at its place.  A transfer that came in has its amount and its sender. -/
structure TxRecord.Reports (t : TxRecord) (ev : TxEvent) : Prop where
  isFor : t.isFor (TxEvent.entry ev).1 (TxEvent.entry ev).2 = true
  place : t.status.place? = some (ev.l2Height, ev.l1Height)
  received : ∀ sender amount key, ev.kind = .transferIn sender amount key →
    t.amount = amount ∧ t.counterparty = some (hexEncode sender.serialize)

/-- A record that stands in a block. -/
def TxRecord.Placed (t : TxRecord) : Prop := ∃ place, t.status.place? = some place

/-- What the history has in blocks of L2 is what the events show. -/
structure Tells (events : List TxEvent) (txs : List TxRecord) : Prop where
  kinds : ∀ t ∈ txs, t.KindFits
  sound : ∀ t ∈ txs, t.kind.onL2 = true → t.Placed → ∃ ev ∈ events, t.Reports ev
  complete : ∀ ev ∈ events, ∃ t ∈ txs,
    t.isFor (TxEvent.entry ev).1 (TxEvent.entry ev).2 = true ∧ t.Placed
  received : ∀ t ∈ txs, t.kind = .l2TransferReceived → t.Placed
  once : ∀ key, txs.countP (TxRecord.isFor .l2TransferReceived key) ≤ 1

/-- A record that an operation other than a walk may add. -/
structure TxRecord.Submission (t : TxRecord) : Prop where
  kindFits : t.KindFits
  unplaced : t.kind.onL2 = true → ¬ t.Placed
  notReceived : t.kind ≠ .l2TransferReceived

section

variable {w : Surroundings} {events : List TxEvent} {txs : List TxRecord} {t : TxRecord}
  {ev : TxEvent} {i : ℕ}

theorem Tells.nil : Tells [] [] where
  kinds := fun _ h => absurd h List.not_mem_nil
  sound := fun _ h => absurd h List.not_mem_nil
  complete := fun _ h => absurd h List.not_mem_nil
  received := fun _ h => absurd h List.not_mem_nil
  once := fun _ => Nat.zero_le 1

/-! ### Submissions -/

theorem Tells.submit (h : Tells events txs) (ht : t.Submission) : Tells events (txs ++ [t]) where
  kinds := by
    intro t' ht'
    rcases List.mem_append.mp ht' with hold | hnew
    · exact h.kinds t' hold
    · rw [List.mem_singleton.mp hnew]
      exact ht.kindFits
  sound := by
    intro t' ht' hL2 hplaced
    rcases List.mem_append.mp ht' with hold | hnew
    · exact h.sound t' hold hL2 hplaced
    · rw [List.mem_singleton.mp hnew] at hL2 hplaced
      exact absurd hplaced (ht.unplaced hL2)
  complete := by
    intro ev hev
    obtain ⟨t', ht', hfor⟩ := h.complete ev hev
    exact ⟨t', List.mem_append_left _ ht', hfor⟩
  received := by
    intro t' ht' hkind
    rcases List.mem_append.mp ht' with hold | hnew
    · exact h.received t' hold hkind
    · rw [List.mem_singleton.mp hnew] at hkind
      exact absurd hkind ht.notReceived
  once := by
    intro key
    have hnot : ¬ t.isFor .l2TransferReceived key = true := by
      intro hfor
      exact ht.notReceived (of_decide_eq_true hfor).1
    rw [List.countP_append, List.countP_singleton, if_neg hnot]
    exact h.once key

/-! ### Events -/

theorem newRecord_reports (w : Surroundings) (ev : TxEvent) (i : ℕ) :
    (newRecord w ev i).Reports ev where
  isFor := newRecord_isFor w ev i
  place := rfl
  received := by
    intro sender amount key hkind
    unfold newRecord
    rw [hkind]
    exact ⟨rfl, rfl⟩

/-- A record that an event moves is a record of it from then on, unless it was final. -/
theorem TxRecord.moved_reports (hfor : t.isFor (TxEvent.entry ev).1 (TxEvent.entry ev).2 = true)
    (hmove : TxEvent.move? w ev i = some (TxEvent.entry ev, TxEvent.inclusion w ev i)) :
    t.moved (TxEvent.inclusion w ev i) = t ∧ t.status.isFinalized = true ∨
      (t.moved (TxEvent.inclusion w ev i)).Reports ev := by
  by_cases hfinal : t.status.isFinalized = true
  · refine .inl ⟨?_, hfinal⟩
    unfold TxRecord.moved
    rw [if_pos hfinal]
  · refine .inr ⟨(t.moved_isFor _ _ _).trans hfor, ?_, fun sender amount key hkind => ?_⟩
    · unfold TxRecord.moved
      rw [if_neg hfinal]
      rfl
    · unfold TxEvent.move? at hmove
      rw [hkind] at hmove
      cases hmove

theorem TxRecord.placed_of_isFinalized (h : t.status.isFinalized = true) : t.Placed := by
  unfold TxRecord.Placed
  cases hstatus : t.status with
  | finalized l2Height l1Height => exact ⟨(l2Height, l1Height), rfl⟩
  | soft ts => rw [hstatus] at h; cases h
  | l1Mempool ts => rw [hstatus] at h; cases h
  | inBlock l2Height l1Height ts => rw [hstatus] at h; cases h
  | failed reason ts => rw [hstatus] at h; cases h

/-- A move leaves a record in a block, whichever it was in. -/
theorem TxRecord.moved_placed (v : Inclusion) (t : TxRecord) : (t.moved v).Placed := by
  unfold TxRecord.moved
  by_cases hfinal : t.status.isFinalized = true
  · rw [if_pos hfinal]
    exact placed_of_isFinalized hfinal
  · rw [if_neg hfinal]
    exact ⟨(v.l2Height, v.l1Height), rfl⟩

/-- What an event does to a history: it adds its record, finds one that stays, or moves the
first. -/
theorem projectEvent_cases (w : Surroundings) (wf : WalletFile) (ev : TxEvent) (i : ℕ) :
    (Recorded wf.transactions (TxEvent.entry ev) = false ∧
      (projectEvent w wf ev i).transactions = wf.transactions ++ [newRecord w ev i]) ∨
    Recorded wf.transactions (TxEvent.entry ev) = true ∧
      ((TxEvent.entry ev).1 = .l2TransferReceived ∧
          (projectEvent w wf ev i).transactions = wf.transactions ∨
        TxEvent.move? w ev i = some (TxEvent.entry ev, TxEvent.inclusion w ev i) ∧
          (projectEvent w wf ev i).transactions
            = moveFirst (TxEvent.entry ev) (TxEvent.inclusion w ev i) wf.transactions) := by
  rw [projectEvent_transactions]
  cases hrecorded : Recorded wf.transactions (TxEvent.entry ev) with
  | false =>
      refine .inl ⟨rfl, ?_⟩
      rw [addMissing_of_not (ev, i) hrecorded]
      cases hmove : TxEvent.move? w ev i with
      | none => rfl
      | some move =>
          -- the new record is where it would be moved to
          rw [move?_entry hmove]
          show moveFirst _ _ _ = _
          rw [moveFirst, modifyFirst_append_right _ hrecorded, modifyFirst_cons,
            if_pos (newRecord_isFor w ev i), newRecord_moved]
  | true =>
      refine .inr ⟨rfl, ?_⟩
      rw [addMissing_of_recorded (ev, i) hrecorded]
      cases hmove : TxEvent.move? w ev i with
      | none =>
          refine .inl ⟨?_, rfl⟩
          unfold TxEvent.move? at hmove
          unfold TxEvent.entry
          cases hkind : ev.kind with
          | transferIn sender amount key => rfl
          | transferOut recipient amount key => rw [hkind] at hmove; cases hmove
          | mintIn amount key => rw [hkind] at hmove; cases hmove
      | some move =>
          obtain rfl := move?_entry hmove
          exact .inr ⟨rfl, rfl⟩

/-- A record of an event is one of a transfer that came in, or can be moved. -/
theorem Tells.add (h : Tells events txs) (hnot : Recorded txs (TxEvent.entry ev) = false) :
    Tells (events ++ [ev]) (txs ++ [newRecord w ev i]) where
  kinds := by
    intro t ht
    rcases List.mem_append.mp ht with hold | hnew
    · exact h.kinds t hold
    · rw [List.mem_singleton.mp hnew]
      exact newRecord_kindFits ev i
  sound := by
    intro t ht hL2 hplaced
    rcases List.mem_append.mp ht with hold | hnew
    · obtain ⟨ev', hev', hreports⟩ := h.sound t hold hL2 hplaced
      exact ⟨ev', List.mem_append_left _ hev', hreports⟩
    · rw [List.mem_singleton.mp hnew]
      exact ⟨ev, by simp, newRecord_reports w ev i⟩
  complete := by
    intro ev' hev'
    rcases List.mem_append.mp hev' with hold | hnew
    · obtain ⟨t, ht, hfor⟩ := h.complete ev' hold
      exact ⟨t, List.mem_append_left _ ht, hfor⟩
    · rw [List.mem_singleton.mp hnew]
      exact ⟨newRecord w ev i, by simp, newRecord_isFor w ev i, _, (newRecord_reports w ev i).place⟩
  received := by
    intro t ht hkind
    rcases List.mem_append.mp ht with hold | hnew
    · exact h.received t hold hkind
    · rw [List.mem_singleton.mp hnew]
      exact ⟨_, (newRecord_reports w ev i).place⟩
  once := by
    intro key
    rw [List.countP_append, List.countP_singleton]
    by_cases hfor : (newRecord w ev i).isFor .l2TransferReceived key = true
    · -- it is the first of its key
      have hentry : (TxKind.l2TransferReceived, key) = TxEvent.entry ev := by
        by_contra hne
        have hself := newRecord_isFor w ev i
        rw [isFor_exclusive hne hfor] at hself
        cases hself
      have hzero : txs.countP (TxRecord.isFor .l2TransferReceived key) = 0 := by
        rw [List.countP_eq_zero]
        intro t ht hthis
        rw [← hentry] at hnot
        exact Bool.false_ne_true (hnot.symm.trans (List.any_eq_true.mpr ⟨t, ht, hthis⟩))
      rw [if_pos hfor, hzero]
    · rw [if_neg hfor]
      exact h.once key

theorem mem_moveFirst_of_mem {e : TxKind × String} {v : Inclusion} (ht : t ∈ txs) :
    t ∈ moveFirst e v txs ∨ t.moved v ∈ moveFirst e v txs := by
  obtain ⟨k, hk⟩ := List.mem_iff_getElem?.mp ht
  by_cases hfirst : t.isFor e.1 e.2 = true ∧ NoneBefore (TxRecord.isFor e.1 e.2) txs k
  · exact .inr (List.mem_of_getElem? (getElem?_modifyFirst_of_first hk hfirst.1 hfirst.2))
  · exact .inl (List.mem_of_getElem? (getElem?_modifyFirst_of_not hk hfirst))

/-- A record stays in a block when another event moves it, or it. -/
theorem exists_placed_moveFirst {e e' : TxKind × String} {v : Inclusion}
    (h : ∃ t ∈ txs, t.isFor e'.1 e'.2 = true ∧ t.Placed) :
    ∃ t ∈ moveFirst e v txs, t.isFor e'.1 e'.2 = true ∧ t.Placed := by
  obtain ⟨t, ht, hfor, hplaced⟩ := h
  rcases @mem_moveFirst_of_mem _ _ e v ht with hsame | hmoved
  · exact ⟨t, hsame, hfor, hplaced⟩
  · exact ⟨t.moved v, hmoved, (t.moved_isFor _ _ v).trans hfor, t.moved_placed v⟩

/-- The first record of a key is in a block after its event. -/
theorem exists_moved {e : TxKind × String} {v : Inclusion} (h : Recorded txs e = true) :
    ∃ t ∈ moveFirst e v txs, t.isFor e.1 e.2 = true ∧ t.Placed := by
  induction txs with
  | nil => cases h
  | cons t txs ih =>
      unfold moveFirst
      rw [modifyFirst_cons]
      by_cases hfor : t.isFor e.1 e.2 = true
      · rw [if_pos hfor]
        exact ⟨t.moved v, List.mem_cons_self, (t.moved_isFor _ _ v).trans hfor, t.moved_placed v⟩
      · rw [if_neg hfor]
        obtain ⟨t', ht', hplaced⟩ := ih (by
          unfold Recorded at h ⊢
          rw [List.any_cons, Bool.eq_false_iff.mpr hfor, Bool.false_or] at h
          exact h)
        exact ⟨t', List.mem_cons_of_mem _ ht', hplaced⟩

theorem Tells.move (h : Tells events txs) (hrecorded : Recorded txs (TxEvent.entry ev) = true)
    (hmove : TxEvent.move? w ev i = some (TxEvent.entry ev, TxEvent.inclusion w ev i)) :
    Tells (events ++ [ev]) (moveFirst (TxEvent.entry ev) (TxEvent.inclusion w ev i) txs) where
  kinds := (moves_lives [(TxEvent.entry ev, TxEvent.inclusion w ev i)] txs).kinds h.kinds
  sound := by
    have hold : ∀ t ∈ txs, t.kind.onL2 = true → t.Placed → ∃ ev' ∈ events ++ [ev],
        t.Reports ev' := by
      intro t ht hL2 hplaced
      obtain ⟨ev', hev', hreports⟩ := h.sound t ht hL2 hplaced
      exact ⟨ev', List.mem_append_left _ hev', hreports⟩
    intro t ht hL2 hplaced
    rcases mem_modifyFirst ht with hsame | ⟨t₀, ht₀, hfor, rfl⟩
    · exact hold t hsame hL2 hplaced
    · rcases TxRecord.moved_reports hfor hmove with ⟨hsame, hfinal⟩ | hreports
      · rw [hsame] at hL2 ⊢
        exact hold t₀ ht₀ hL2 (TxRecord.placed_of_isFinalized hfinal)
      · exact ⟨ev, by simp, hreports⟩
  complete := by
    intro ev' hev'
    rcases List.mem_append.mp hev' with hold | hnew
    · exact exists_placed_moveFirst (h.complete ev' hold)
    · rw [List.mem_singleton.mp hnew]
      exact exists_moved hrecorded
  received := by
    intro t ht hkind
    rcases mem_modifyFirst ht with hsame | ⟨t₀, -, -, rfl⟩
    · exact h.received t hsame hkind
    · exact t₀.moved_placed _
  once := by
    intro key
    have hcount : (moveFirst (TxEvent.entry ev) (TxEvent.inclusion w ev i) txs).countP
        (TxRecord.isFor .l2TransferReceived key) =
          txs.countP (TxRecord.isFor .l2TransferReceived key) :=
      countP_modifyFirst (fun t => t.moved_isFor _ key _) txs
    rw [hcount]
    exact h.once key

/-- An event of a transfer that came in before is told already. -/
theorem Tells.again (h : Tells events txs) (hrecorded : Recorded txs (TxEvent.entry ev) = true)
    (hkind : (TxEvent.entry ev).1 = .l2TransferReceived) : Tells (events ++ [ev]) txs where
  kinds := h.kinds
  sound := by
    intro t ht hL2 hplaced
    obtain ⟨ev', hev', hreports⟩ := h.sound t ht hL2 hplaced
    exact ⟨ev', List.mem_append_left _ hev', hreports⟩
  complete := by
    intro ev' hev'
    rcases List.mem_append.mp hev' with hold | hnew
    · exact h.complete ev' hold
    · rw [List.mem_singleton.mp hnew]
      obtain ⟨t, ht, hfor⟩ := List.any_eq_true.mp hrecorded
      exact ⟨t, ht, hfor, h.received t ht ((of_decide_eq_true hfor).1.trans hkind)⟩
  received := h.received
  once := h.once

/-- **An event is told from when it is projected.** -/
theorem Tells.projectEvent {wf : WalletFile} (h : Tells events wf.transactions)
    (ev : TxEvent) (i : ℕ) :
    Tells (events ++ [ev]) (projectEvent w wf ev i).transactions := by
  rcases projectEvent_cases w wf ev i with
    ⟨hnot, htxs⟩ | ⟨hrecorded, ⟨hkind, htxs⟩ | ⟨hmove, htxs⟩⟩
  · rw [htxs]
    exact h.add hnot
  · rw [htxs]
    exact h.again hrecorded hkind
  · rw [htxs]
    exact h.move hrecorded hmove

theorem Tells.projectEvents {wf : WalletFile} (h : Tells events wf.transactions)
    (new : List TxEvent) : Tells (events ++ new) (projectEvents w new wf).transactions := by
  have hfold : ∀ (es : List (TxEvent × ℕ)) (events : List TxEvent) (wf : WalletFile),
      Tells events wf.transactions → Tells (events ++ es.map Prod.fst)
        (es.foldl (fun wf e => Wallet.projectEvent w wf e.1 e.2) wf).transactions := by
    intro es
    induction es with
    | nil =>
        intro events wf h
        rw [List.map_nil, List.append_nil]
        exact h
    | cons e es ih =>
        intro events wf h
        rw [List.map_cons, List.append_cons, List.foldl_cons]
        exact ih _ _ (h.projectEvent e.1 e.2)
  have hall := hfold new.zipIdx events wf h
  rw [List.zipIdx_map_fst] at hall
  exact hall

/-! ### The refresh -/

theorem settle_place (l1Tip : UInt32) (status : TxStatus) :
    (settle l1Tip status).place? = status.place? := by
  cases status with
  | inBlock l2Height l1Height ts =>
      show TxStatus.place? (if satSub32 l1Tip l1Height ≥ reorgFinalityDepth then _ else _) = _
      by_cases hdeep : satSub32 l1Tip l1Height ≥ reorgFinalityDepth
      · rw [if_pos hdeep]
        rfl
      · rw [if_neg hdeep]
  | soft ts => rfl
  | l1Mempool ts => rfl
  | finalized l2Height l1Height => rfl
  | failed reason ts => rfl

theorem TxRecord.Grows.kind {t' : TxRecord} (h : t.Grows t') : t'.kind = t.kind := by
  unfold TxRecord.Grows at h
  rw [← h]

theorem TxRecord.Grows.isFor {t' : TxRecord} (h : t.Grows t') (kind : TxKind) (key : String) :
    t'.isFor kind key = t.isFor kind key := by
  unfold TxRecord.Grows at h
  rw [← h]
  rfl

/-- Where only statuses are written, as many records are for a key. -/
theorem countP_grown {txs' : List TxRecord} (h : Extends TxRecord.Grows txs txs')
    (hlength : txs'.length = txs.length) (kind : TxKind) (key : String) :
    txs'.countP (TxRecord.isFor kind key) = txs.countP (TxRecord.isFor kind key) := by
  induction h with
  | nil l' =>
      rw [List.eq_nil_of_length_eq_zero hlength]
  | @cons t t' l l' hgrows _ ih =>
      rw [List.countP_cons, List.countP_cons, hgrows.isFor, ih (Nat.succ.inj hlength)]

/-- A record of L2 does not wait in the mempool: pass 1 leaves it alone. -/
theorem refresh_onL2 {wf : WalletFile} {l1Tip : UInt32} {reading : ℕ}
    (ht : wf.transactions[i]? = some t) (hL2 : t.kind.onL2 = true) (hfits : t.KindFits) :
    (finalizeAndRefresh w l1Tip reading wf).2.transactions[i]?
      = some { t with status := settle l1Tip t.status } := by
  have hconfirmed : confirmedAt w.esplora t = none := by
    unfold confirmedAt
    cases hstatus : t.status with
    | l1Mempool ts =>
        rcases hfits.1 (by rw [hstatus]; rfl) with hkind | hkind
        · rw [hkind] at hL2
          cases hL2
        · rw [hkind] at hL2
          cases hL2
    | soft ts => rfl
    | inBlock l2Height l1Height ts => rfl
    | finalized l2Height l1Height => rfl
    | failed reason ts => rfl
  rw [finalizeAndRefresh_transactions, List.getElem?_map, promote_of_not_mem, ht]
  · rfl
  · rintro ⟨⟨j, height⟩, k⟩ hp rfl
    obtain ⟨t₀, ht₀, hsome⟩ := mem_promotions.mp (List.fst_mem_of_mem_zipIdx hp)
    rw [Option.some.inj (ht₀.symm.trans ht), hconfirmed] at hsome
    cases hsome

/-- **A refresh keeps what is told.** -/
theorem Tells.refresh {wf : WalletFile} (h : Tells events wf.transactions) (l1Tip : UInt32)
    (reading : ℕ) : Tells events (finalizeAndRefresh w l1Tip reading wf).2.transactions := by
  have hlives := finalizeAndRefresh_lives w l1Tip reading wf
  have hgrown : Extends TxRecord.Grows wf.transactions
      (finalizeAndRefresh w l1Tip reading wf).2.transactions :=
    (finalizeAndRefresh_grown l1Tip reading).records.transactions
  have hlength : (finalizeAndRefresh w l1Tip reading wf).2.transactions.length
      = wf.transactions.length := by
    rw [finalizeAndRefresh_transactions, List.length_map, length_promote]
  -- where a record of L2 comes from
  have hback : ∀ t' ∈ (finalizeAndRefresh w l1Tip reading wf).2.transactions,
      t'.kind.onL2 = true →
        ∃ t ∈ wf.transactions, t' = { t with status := settle l1Tip t.status } := by
    intro t' ht' hL2
    obtain ⟨k, hk⟩ := List.mem_iff_getElem?.mp ht'
    have hlt : k < wf.transactions.length := hlength ▸ (List.getElem?_eq_some_iff.mp hk).1
    have ht := List.getElem?_eq_getElem hlt
    obtain ⟨t'', ht'', hgrows⟩ := hgrown.getElem? ht
    obtain rfl := Option.some.inj (hk.symm.trans ht'')
    rw [hgrows.kind] at hL2
    have hmem := List.getElem_mem hlt
    exact ⟨_, hmem, Option.some.inj (hk.symm.trans (refresh_onL2 ht hL2 (h.kinds _ hmem)))⟩
  refine ⟨hlives.kinds h.kinds, fun t' ht' hL2 hplaced => ?_, fun ev hev => ?_,
    fun t' ht' hkind => ?_,
    fun key => ?_⟩
  · obtain ⟨t, ht, rfl⟩ := hback t' ht' hL2
    obtain ⟨place, hplace⟩ := hplaced
    obtain ⟨ev, hev, hreports⟩ := h.sound t ht hL2 ⟨place, (settle_place _ _).symm.trans hplace⟩
    exact ⟨ev, hev, hreports.isFor, (settle_place _ _).trans hreports.place, hreports.received⟩
  · obtain ⟨t, ht, hfor, place, hplace⟩ := h.complete ev hev
    obtain ⟨k, hk⟩ := List.mem_iff_getElem?.mp ht
    have hL2 : t.kind.onL2 = true := by
      rw [(of_decide_eq_true hfor).1]
      unfold TxEvent.entry
      cases ev.kind <;> rfl
    have hk' := @refresh_onL2 w _ _ wf l1Tip reading hk hL2 (h.kinds t ht)
    exact ⟨_, List.mem_of_getElem? hk', hfor, place, (settle_place _ _).trans hplace⟩
  · obtain ⟨t, ht, rfl⟩ := hback t' ht' (by rw [hkind]; rfl)
    obtain ⟨place, hplace⟩ := h.received t ht hkind
    exact ⟨place, (settle_place _ _).trans hplace⟩
  · rw [countP_grown hgrown hlength]
    exact h.once key

/-- So a light balance tells what its walk has shown. -/
theorem Tells.walked {wf : WalletFile} (h : Tells events wf.transactions) (w : Surroundings)
    (new : List TxEvent) (l1Tip : UInt32) (reading : ℕ) : Tells (events ++ new)
      (finalizeAndRefresh w l1Tip reading (Wallet.projectEvents w new wf)).2.transactions :=
  (h.projectEvents new).refresh l1Tip reading

end

/-! ### The operations that submit -/

/-- What every operation but a light balance may do: records are added that stand in no block. -/
structure Submitted (wf wf' : WalletFile) : Prop where
  network : wf'.network = wf.network
  mnemonic : wf'.mnemonic = wf.mnemonic
  verifiedHead : wf'.verifiedHead = wf.verifiedHead
  transactions : ∃ new, wf'.transactions = wf.transactions ++ new ∧ ∀ t ∈ new, t.Submission

section

variable {wf wf' wf'' : WalletFile} {t : TxRecord} {events : List TxEvent}

theorem Submitted.refl (wf : WalletFile) : Submitted wf wf :=
  ⟨rfl, rfl, rfl, [], (List.append_nil _).symm, fun _ h => absurd h List.not_mem_nil⟩

theorem Submitted.trans (h : Submitted wf wf') (h' : Submitted wf' wf'') : Submitted wf wf'' := by
  obtain ⟨new, hnew, hall⟩ := h.transactions
  obtain ⟨more, hmore, hall'⟩ := h'.transactions
  refine ⟨h'.network.trans h.network, h'.mnemonic.trans h.mnemonic,
    h'.verifiedHead.trans h.verifiedHead, new ++ more, ?_, fun t ht => ?_⟩
  · rw [hmore, hnew, List.append_assoc]
  · rcases List.mem_append.mp ht with hold | hlast
    · exact hall t hold
    · exact hall' t hlast

instance : Std.Refl Submitted := ⟨Submitted.refl⟩

instance : IsTrans WalletFile Submitted := ⟨fun _ _ _ => Submitted.trans⟩

theorem Submitted.appendTx (wf : WalletFile) (ht : t.Submission) :
    Submitted wf (wf.appendTx t) := by
  refine ⟨rfl, rfl, rfl, [t], rfl, fun t' ht' => ?_⟩
  rw [List.mem_singleton.mp ht']
  exact ht

/-- Where the history is left alone. -/
theorem Submitted.same (hnetwork : wf'.network = wf.network)
    (hmnemonic : wf'.mnemonic = wf.mnemonic)
    (hhead : wf'.verifiedHead = wf.verifiedHead) (htxs : wf'.transactions = wf.transactions) :
    Submitted wf wf' :=
  ⟨hnetwork, hmnemonic, hhead, [], htxs.trans (List.append_nil _).symm,
    fun _ h => absurd h List.not_mem_nil⟩

theorem Submitted.updateMint (wf : WalletFile) (index : UInt32) (f : MintRecord → MintRecord) :
    Submitted wf (wf.updateMintByIndex index f) := .same rfl rfl rfl rfl

theorem Submitted.tells (h : Submitted wf wf') (htells : Tells events wf.transactions) :
    Tells events wf'.transactions := by
  obtain ⟨new, hnew, hall⟩ := h.transactions
  rw [hnew]
  clear hnew
  induction new using List.reverseRecOn with
  | nil =>
      rw [List.append_nil]
      exact htells
  | append_singleton new t ih =>
      rw [← List.append_assoc]
      exact (ih fun t' ht' => hall t' (List.mem_append_left _ ht')).submit (hall t (by simp))

/-- The identity is a matter of the phrase and the network. -/
theorem xonlyPubkey_congr (hnetwork : wf'.network = wf.network)
    (hmnemonic : wf'.mnemonic = wf.mnemonic)
    (keys : KeyDerivation) : wf'.xonlyPubkey keys = wf.xonlyPubkey keys := by
  unfold WalletFile.xonlyPubkey WalletFile.l2IdentityKeypair WalletFile.masterXpriv
    WalletFile.l2IdentityPath
  rw [hnetwork, hmnemonic]

/-- What the sequencer has answered is soft or failed. -/
theorem answered_submission {accepted : Bool} {reason : String} {ts : UInt64}
    (hstatus : t.status = if accepted then .soft ts else .failed reason ts)
    (hkind : t.kind = .l2MintApply ∨ t.kind = .l2TransferSent) : t.Submission where
  kindFits := answered_kindFits hstatus hkind
  unplaced := by
    intro _ hplaced
    obtain ⟨place, hplace⟩ := hplaced
    rw [hstatus] at hplace
    cases accepted <;> cases hplace
  notReceived := by
    intro hreceived
    rcases hkind with hmint | hsent
    · rw [hreceived] at hmint
      cases hmint
    · rw [hreceived] at hsent
      cases hsent

/-- A record of L1. -/
theorem l1_submission (hkind : t.kind = .l1Deposit ∨ t.kind = .l1Reclaim)
    (hstatus : t.status.stage ≠ .soft) : t.Submission where
  kindFits := ⟨fun _ => hkind.symm, fun h => absurd h hstatus⟩
  unplaced := by
    intro hL2
    rcases hkind with h | h
    · rw [h] at hL2
      cases hL2
    · rw [h] at hL2
      cases hL2
  notReceived := by
    intro hreceived
    rcases hkind with h | h
    · rw [hreceived] at h
      cases h
    · rw [hreceived] at h
      cases h

end

section

variable {w : Surroundings} {wf : WalletFile}

theorem recordFunding_submitted (addr : String) (index : UInt32) (u : AddressUtxo) (height : UInt32)
    (wf : WalletFile) : Submitted wf (recordFunding w addr index u height wf) := by
  simp only [recordFunding]
  split
  · refine (Submitted.updateMint wf _ _).trans (.appendTx _ (l1_submission (.inl rfl) ?_))
    intro h
    cases h
  · exact .updateMint wf _ _

theorem recordMint_submitted (counterparty : String) (index : UInt32) (resp : SubmitMintResponse)
    (wf : WalletFile) : Submitted wf (recordMint w counterparty index resp wf) := by
  have hrecord := @answered_submission (mintRecordOf w counterparty index resp) _ _ _ rfl (.inl rfl)
  unfold recordMint
  cases resp.accepted with
  | true => exact (Submitted.updateMint wf index _).trans (.appendTx _ hrecord)
  | false => exact .appendTx _ hrecord

theorem recordReclaim_submitted (dest : L1Address) (input : ReclaimMintInput) (valueSat : UInt64)
    (txid : Txid) (wf : WalletFile) :
    Submitted wf (recordReclaim w dest input valueSat txid wf) := by
  refine (Submitted.updateMint wf input.bip32Index _).trans
    (.appendTx _ (l1_submission (.inr rfl) ?_))
  intro h
  cases h

variable (prim : Primitives) (libs : Libraries)

theorem mintUtxo_submitted (input : MintUtxoInput) :
    Action.Moves Submitted (mintUtxo prim libs input) := by
  have halloc : Action.Moves Submitted (WalletFile.allocateMintKeypair libs.keys) := by
    unfold WalletFile.allocateMintKeypair
    refine .get_bind fun wf => .lift_bind fun kp => ?_
    split
    · exact .halt _
    · exact .modify_bind (fun wf => .same rfl rfl rfl rfl) (.pure _)
  unfold mintUtxo
  refine .lift_bind fun _ => .get_bind fun wf => .lift_bind fun _ => .bind (.mapErr _ halloc) ?_
  rintro ⟨kp, index⟩
  exact .lift_bind fun address => .modify_bind (fun wf => .same rfl rfl rfl rfl) (.pure _)

theorem checkMintFunding_submitted (w : Surroundings) (input : CheckMintFundingInput) :
    Action.Moves Submitted (checkMintFunding libs w input) := by
  unfold checkMintFunding
  refine .get_bind fun wf => .lift_bind fun record => ?_
  split
  · exact .pure _
  · refine .lift_bind fun address => .lift_bind fun _ => .lift_bind fun utxos => ?_
    cases utxos with
    | nil => exact .pure _
    | cons u us =>
        cases hheight : u.status.blockHeight with
        | none =>
            simp only [hheight]
            exact .pure _
        | some height =>
            simp only [hheight]
            exact .modify_bind (recordFunding_submitted _ _ u height) (.pure _)

theorem mintMessage_submitted (w : Surroundings) (input : MintMessageInput) :
    Action.Moves Submitted (mintMessage prim libs w input) := by
  unfold mintMessage
  refine .get_bind fun wf => ?_
  repeat refine .lift_bind fun _ => ?_
  exact .modify_bind (recordMint_submitted _ _ _) (.pure _)

theorem transfer_submitted (w : Surroundings) (input : TransferInput) :
    Action.Moves Submitted (transfer prim libs w input) := by
  unfold transfer
  refine .get_bind fun wf => ?_
  repeat refine .lift_bind fun _ => ?_
  exact .modify_bind (fun wf => .appendTx wf (answered_submission rfl (.inr rfl))) (.pure _)

theorem reclaimMint_submitted (w : Surroundings) (input : ReclaimMintInput) :
    Action.Moves Submitted (reclaimMint prim libs w input) := by
  unfold reclaimMint
  refine .get_bind fun wf => ?_
  repeat refine .lift_bind fun _ => ?_
  exact .modify_bind (recordReclaim_submitted _ input _ _) (.pure _)

/-- An operation other than a light balance, whatever it is answered and however it ends. -/
inductive Operates (wf : WalletFile) : WalletFile → Prop
  | mintUtxo (input : MintUtxoInput) : Operates wf (mintUtxo prim libs input wf).2
  | checkMintFunding (w : Surroundings) (input : CheckMintFundingInput) :
      Operates wf (checkMintFunding libs w input wf).2
  | mintMessage (w : Surroundings) (input : MintMessageInput) :
      Operates wf (mintMessage prim libs w input wf).2
  | transfer (w : Surroundings) (input : TransferInput) :
    Operates wf (transfer prim libs w input wf).2
  | reclaimMint (w : Surroundings) (input : ReclaimMintInput) :
      Operates wf (reclaimMint prim libs w input wf).2

variable {prim libs}

theorem Operates.submitted {wf' : WalletFile} (h : Operates prim libs wf wf') :
    Submitted wf wf' := by
  cases h with
  | mintUtxo input => exact mintUtxo_submitted prim libs input wf
  | checkMintFunding w input => exact checkMintFunding_submitted libs w input wf
  | mintMessage w input => exact mintMessage_submitted prim libs w input wf
  | transfer w input => exact transfer_submitted prim libs w input wf
  | reclaimMint w input => exact reclaimMint_submitted prim libs w input wf

end

end Hodlchain.Wallet
