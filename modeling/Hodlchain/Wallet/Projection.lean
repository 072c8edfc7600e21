/-
What a projection of events writes.

Projecting a list of events first adds a record for each transaction that has none, and
then moves records: an event that may be of the wallet's own submission puts the first
record of its transaction in a block.  The added records depend on the events that are
new, and the moves are writes where the last one to a transaction counts.
-/
import Hodlchain.Lib.Overwrite
import Hodlchain.Wallet.Growth

namespace Hodlchain.Wallet

open Bytes

/-- The kind of record an event makes, and its key. -/
def TxEvent.entry (ev : TxEvent) : TxKind × String :=
  match ev.kind with
  | .transferIn _ _ key => (.l2TransferReceived, key)
  | .transferOut _ _ key => (.l2TransferSent, key)
  | .mintIn _ key => (.l2MintApply, key)

/-- Where and when an event was seen. -/
structure Inclusion where
  l2Height : UInt32
  l1Height : UInt32
  includedTs : UInt64
deriving DecidableEq, Repr

def Inclusion.status (v : Inclusion) : TxStatus := .inBlock v.l2Height v.l1Height v.includedTs

/-- Where and when the `i`-th event of a list was. -/
def TxEvent.inclusion (w : Surroundings) (ev : TxEvent) (i : Nat) : Inclusion :=
  ⟨ev.l2Height, ev.l1Height, if ev.blockTs ≠ 0 then ev.blockTs else w.now i⟩

/-- The record of the `i`-th event, where there is none. -/
def newRecord (w : Surroundings) (ev : TxEvent) (i : Nat) : TxRecord :=
  { id := newTxId (w.random i)
    kind := (TxEvent.entry ev).1
    createdTs := (TxEvent.inclusion w ev i).includedTs
    amount := match ev.kind with
      | .transferIn _ amount _ => amount
      | .transferOut _ amount _ => amount
      | .mintIn amount _ => amount
    feeAtoms := none
    feeSat := none
    counterparty := match ev.kind with
      | .transferIn sender _ _ => some (hexEncode sender.serialize)
      | .transferOut recipient _ _ => some (hexEncode recipient.serialize)
      | .mintIn _ _ => none
    status := (TxEvent.inclusion w ev i).status
    l1Txid := none
    l2Sighash := some (TxEvent.entry ev).2
    bip32Index := none
    note := none }

/-- What an event moves, and where: a transfer in is never moved. -/
def TxEvent.move? (w : Surroundings) (ev : TxEvent) (i : Nat) :
    Option ((TxKind × String) × Inclusion) :=
  match ev.kind with
  | .transferIn _ _ _ => none
  | _ => some (TxEvent.entry ev, TxEvent.inclusion w ev i)

/-- The history has a record of this kind and key. -/
def Recorded (txs : List TxRecord) (e : TxKind × String) : Bool := txs.any (TxRecord.isFor e.1 e.2)

/-- A record for an event that has none. -/
def addMissing (w : Surroundings) (txs : List TxRecord) (e : TxEvent × Nat) : List TxRecord :=
  if Recorded txs (TxEvent.entry e.1) then txs else txs ++ [newRecord w e.1 e.2]

/-- A record that is not final, put in a block. -/
def TxRecord.moved (v : Inclusion) (t : TxRecord) : TxRecord :=
  if t.status.isFinalized then t else { t with status := v.status }

/-- The first record of this kind and key, put in a block. -/
def moveFirst (e : TxKind × String) (v : Inclusion) (txs : List TxRecord) : List TxRecord :=
  modifyFirst (TxRecord.isFor e.1 e.2) (TxRecord.moved v) txs

section

variable {w : Surroundings} {v v' : Inclusion} {t : TxRecord} {txs : List TxRecord}
  {e e' : TxKind × String}

@[simp] theorem TxRecord.moved_isFor (kind : TxKind) (key : String) (v : Inclusion) (t : TxRecord) :
    TxRecord.isFor kind key (t.moved v) = t.isFor kind key := by
  unfold moved
  by_cases hfinal : t.status.isFinalized = true
  · rw [if_pos hfinal]
  · rw [if_neg hfinal]
    rfl

theorem TxRecord.moved_moved (v v' : Inclusion) (t : TxRecord) :
    (t.moved v').moved v = t.moved v := by
  unfold moved
  by_cases hfinal : t.status.isFinalized = true
  · rw [if_pos hfinal, if_pos hfinal]
  · rw [if_neg hfinal, if_neg hfinal, if_neg (by simp [Inclusion.status, TxStatus.isFinalized])]

theorem isFor_exclusive (hne : e ≠ e') (h : t.isFor e.1 e.2 = true) :
    t.isFor e'.1 e'.2 = false := by
  simp only [TxRecord.isFor, decide_eq_true_eq] at h
  obtain ⟨hkind, hkey⟩ := h
  rw [Bool.eq_false_iff]
  intro h'
  simp only [TxRecord.isFor, decide_eq_true_eq] at h'
  obtain ⟨hkind', hkey'⟩ := h'
  exact hne (Prod.ext (hkind.symm.trans hkind') (Option.some.inj (hkey.symm.trans hkey')))

/-- The moves of records: the last one counts. -/
def moves : Overwrite (TxKind × String) Inclusion (List TxRecord) where
  write := moveFirst
  last e v v' txs := by
    unfold moveFirst
    rw [modifyFirst_modifyFirst fun t => t.moved_isFor _ _ v']
    exact congrArg (modifyFirst _ · txs) (funext fun t => t.moved_moved v v')
  comm hne v v' txs :=
    modifyFirst_comm (fun _ => isFor_exclusive hne) (fun t => t.moved_isFor _ _ v')
      (fun t => t.moved_isFor _ _ v) txs

@[simp] theorem moves_write : moves.write e v txs = moveFirst e v txs := rfl

@[simp] theorem recorded_moveFirst : Recorded (moveFirst e v txs) e' = Recorded txs e' :=
  any_modifyFirst (fun t => t.moved_isFor _ _ v) txs

theorem recorded_append (back : List TxRecord) (h : Recorded txs e = true) :
    Recorded (txs ++ back) e = true := by
  unfold Recorded at *
  rw [List.any_append, h, Bool.true_or]

theorem newRecord_isFor (w : Surroundings) (ev : TxEvent) (i : Nat) :
    (newRecord w ev i).isFor (TxEvent.entry ev).1 (TxEvent.entry ev).2 = true := by
  simp [TxRecord.isFor, newRecord]

theorem newRecord_moved (w : Surroundings) (ev : TxEvent) (i : Nat) :
    (newRecord w ev i).moved (TxEvent.inclusion w ev i) = newRecord w ev i := by
  unfold TxRecord.moved
  exact ite_self _

theorem addMissing_of_recorded (x : TxEvent × Nat) (h : Recorded txs (TxEvent.entry x.1) = true) :
    addMissing w txs x = txs := if_pos h

theorem addMissing_of_not (x : TxEvent × Nat) (h : Recorded txs (TxEvent.entry x.1) = false) :
    addMissing w txs x = txs ++ [newRecord w x.1 x.2] := if_neg (by simp [h])

theorem recorded_addMissing (x : TxEvent × Nat) :
    Recorded (addMissing w txs x) (TxEvent.entry x.1) = true := by
  cases h : Recorded txs (TxEvent.entry x.1) with
  | true => rw [addMissing_of_recorded x h, h]
  | false =>
      rw [addMissing_of_not x h, Recorded, List.any_append, List.any_cons, newRecord_isFor,
        Bool.true_or, Bool.or_true]

theorem recorded_addMissing_of (x : TxEvent × Nat) (h : Recorded txs e = true) :
    Recorded (addMissing w txs x) e = true := by
  cases hx : Recorded txs (TxEvent.entry x.1) with
  | true => rw [addMissing_of_recorded x hx, h]
  | false =>
      rw [addMissing_of_not x hx]
      exact recorded_append _ h

/-- Adding and moving do not see each other, where there is a record to move. -/
theorem addMissing_moveFirst (x : TxEvent × Nat) (h : Recorded txs e = true) :
    addMissing w (moveFirst e v txs) x = moveFirst e v (addMissing w txs x) := by
  cases hx : Recorded txs (TxEvent.entry x.1) with
  | true =>
      rw [addMissing_of_recorded x hx, addMissing_of_recorded x (recorded_moveFirst.trans hx)]
  | false =>
      rw [addMissing_of_not x hx, addMissing_of_not x (recorded_moveFirst.trans hx)]
      exact (modifyFirst_append_left _ h _).symm

/-- **An event adds the record it misses, and moves the first one it is for.** -/
theorem projectEvent_transactions (wf : WalletFile) (ev : TxEvent) (i : Nat) :
    projectEvent w wf ev i =
      { wf with
        transactions :=
          moves.run (TxEvent.move? w ev i).toList (addMissing w wf.transactions (ev, i)) } := by
  -- an observed record is added where there is none, and is then where it would be moved to
  have hobserve : ∀ record : TxRecord, record = newRecord w ev i →
      observe (TxEvent.entry ev).2 record wf = { wf with
        transactions := moveFirst (TxEvent.entry ev) (TxEvent.inclusion w ev i)
          (addMissing w wf.transactions (ev, i)) } := by
    rintro record rfl
    cases h : Recorded wf.transactions (TxEvent.entry ev) with
    | true =>
        rw [addMissing_of_recorded (ev, i) h]
        exact if_pos h
    | false =>
        have hplace : moveFirst (TxEvent.entry ev) (TxEvent.inclusion w ev i)
            (wf.transactions ++ [newRecord w ev i]) = wf.transactions ++ [newRecord w ev i] := by
          rw [moveFirst, modifyFirst_append_right _ h, modifyFirst, if_pos (newRecord_isFor w ev i),
            newRecord_moved]
        rw [addMissing_of_not (ev, i) h, hplace]
        exact if_neg fun hany => Bool.false_ne_true (h.symm.trans hany)
  obtain ⟨l2Height, l1Height, blockTs, kind⟩ := ev
  cases kind with
  | transferIn sender amount key =>
      cases h : Recorded wf.transactions (.l2TransferReceived, key) with
      | true =>
          rw [addMissing_of_recorded _ h]
          exact if_pos h
      | false =>
          rw [addMissing_of_not _ h]
          exact if_neg fun hany => Bool.false_ne_true (h.symm.trans hany)
  | transferOut recipient amount key => exact hobserve _ rfl
  | mintIn amount key => exact hobserve _ rfl

/-! ### A list of events -/

/-- The records that the events add. -/
def addAll (w : Surroundings) (es : List (TxEvent × Nat)) (txs : List TxRecord) : List TxRecord :=
  es.foldl (addMissing w) txs

/-- The moves they make. -/
def movesOf (w : Surroundings) (es : List (TxEvent × Nat)) : List ((TxKind × String) × Inclusion) :=
  es.flatMap fun x => (TxEvent.move? w x.1 x.2).toList

variable {es : List (TxEvent × Nat)}

theorem move?_entry {ev : TxEvent} {i : Nat} {move : (TxKind × String) × Inclusion}
    (h : TxEvent.move? w ev i = some move) :
    move = (TxEvent.entry ev, TxEvent.inclusion w ev i) := by
  obtain ⟨l2Height, l1Height, blockTs, kind⟩ := ev
  cases kind with
  | transferIn _ _ _ => cases h
  | transferOut _ _ _ => exact (Option.some.inj h).symm
  | mintIn _ _ => exact (Option.some.inj h).symm

@[simp] theorem recorded_run (l : List ((TxKind × String) × Inclusion)) :
    Recorded (moves.run l txs) e = Recorded txs e := by
  induction l generalizing txs with
  | nil => rfl
  | cons x l ih => rw [Overwrite.run_cons, ih, moves_write, recorded_moveFirst]

theorem recorded_addAll_of (h : Recorded txs e = true) : Recorded (addAll w es txs) e = true := by
  induction es generalizing txs with
  | nil => exact h
  | cons x es ih => exact ih (recorded_addMissing_of x h)

theorem recorded_addAll {x : TxEvent × Nat} (hx : x ∈ es) :
    Recorded (addAll w es txs) (TxEvent.entry x.1) = true := by
  induction es generalizing txs with
  | nil => cases hx
  | cons y es ih =>
      rcases List.mem_cons.mp hx with rfl | hx
      · rw [addAll, List.foldl_cons, ← addAll]
        exact recorded_addAll_of (recorded_addMissing x)
      · exact ih hx

theorem addAll_of_recorded (h : ∀ x ∈ es, Recorded txs (TxEvent.entry x.1) = true) :
    addAll w es txs = txs := by
  induction es with
  | nil => rfl
  | cons x es ih =>
      rw [addAll, List.foldl_cons, addMissing_of_recorded x (h x (by simp))]
      exact ih fun y hy => h y (List.mem_cons_of_mem x hy)

theorem addAll_moveFirst (h : Recorded txs e = true) :
    addAll w es (moveFirst e v txs) = moveFirst e v (addAll w es txs) := by
  induction es generalizing txs with
  | nil => rfl
  | cons x es ih =>
      rw [addAll, List.foldl_cons, addMissing_moveFirst x h]
      exact ih (recorded_addMissing_of x h)

/-- The moves of one event can wait for what later events add. -/
theorem addAll_run {x : TxEvent × Nat} (h : Recorded txs (TxEvent.entry x.1) = true) :
    addAll w es (moves.run (TxEvent.move? w x.1 x.2).toList txs)
      = moves.run (TxEvent.move? w x.1 x.2).toList (addAll w es txs) := by
  cases hmove : TxEvent.move? w x.1 x.2 with
  | none => rfl
  | some move =>
      rw [move?_entry hmove]
      exact addAll_moveFirst h

/-- **Events first add what is missing and then move what they are for.** -/
theorem projectEvents_transactions (w : Surroundings) (events : List TxEvent) (wf : WalletFile) :
    projectEvents w events wf =
      { wf with
        transactions :=
          moves.run (movesOf w events.zipIdx) (addAll w events.zipIdx wf.transactions) } := by
  have hfold : ∀ (es : List (TxEvent × Nat)) (wf : WalletFile),
      es.foldl (fun wf x => projectEvent w wf x.1 x.2) wf =
        { wf with transactions := moves.run (movesOf w es) (addAll w es wf.transactions) } := by
    intro es
    induction es with
    | nil => intro wf; rfl
    | cons x es ih =>
        intro wf
        rw [List.foldl_cons, ih, projectEvent_transactions]
        refine congrArg (fun txs => { wf with transactions := txs }) ?_
        show moves.run (movesOf w es)
          (addAll w es (moves.run (TxEvent.move? w x.1 x.2).toList
            (addMissing w wf.transactions x))) = _
        have hmoves : movesOf w (x :: es) = (TxEvent.move? w x.1 x.2).toList ++ movesOf w es :=
          List.flatMap_cons
        rw [addAll_run (recorded_addMissing x), hmoves, Overwrite.run_append]
        rfl
  exact hfold events.zipIdx wf

/-! ### What is kept -/

/-- Where blocks are dated, the moves do not depend on the clock, or on the places of the events. -/
theorem movesOf_dated {w' : Surroundings} {events : List TxEvent}
    (h : ∀ ev ∈ events, ev.blockTs ≠ 0) :
    movesOf w events.zipIdx = movesOf w' events.zipIdx := by
  refine List.flatMap_congr fun x hx => ?_
  have hdated := h x.1 (List.fst_mem_of_mem_zipIdx hx)
  obtain ⟨⟨l2Height, l1Height, blockTs, kind⟩, i⟩ := x
  cases kind <;> simp [TxEvent.move?, TxEvent.inclusion, if_pos hdated]

theorem recorded_projectEvents {events : List TxEvent} {wf : WalletFile} {ev : TxEvent}
    (h : ev ∈ events) :
    Recorded (projectEvents w events wf).transactions (TxEvent.entry ev) = true := by
  rw [projectEvents_transactions]
  obtain ⟨i, hi⟩ := List.mem_iff_getElem?.mp h
  exact (recorded_run _).trans (recorded_addAll (List.mk_mem_zipIdx_iff_getElem?.mpr hi))

theorem recorded_projectEvents_of {events : List TxEvent} {wf : WalletFile}
    (h : Recorded wf.transactions e = true) :
    Recorded (projectEvents w events wf).transactions e = true := by
  rw [projectEvents_transactions]
  exact (recorded_run _).trans (recorded_addAll_of h)

/-- Where every event has a record, records are only moved. -/
theorem projectEvents_recorded {events : List TxEvent} {wf : WalletFile}
    (h : ∀ ev ∈ events, Recorded wf.transactions (TxEvent.entry ev) = true) :
    projectEvents w events wf =
      { wf with transactions := moves.run (movesOf w events.zipIdx) wf.transactions } := by
  rw [projectEvents_transactions,
    addAll_of_recorded fun x hx => h x.1 (List.fst_mem_of_mem_zipIdx hx)]

theorem length_run (l : List ((TxKind × String) × Inclusion)) :
    (moves.run l txs).length = txs.length := by
  induction l generalizing txs with
  | nil => rfl
  | cons x l ih =>
      rw [Overwrite.run_cons, ih]
      exact length_modifyFirst _ _ txs

theorem countP_run (l : List ((TxKind × String) × Inclusion)) (kind : TxKind) (key : String) :
    (moves.run l txs).countP (TxRecord.isFor kind key) = txs.countP (TxRecord.isFor kind key) := by
  induction l generalizing txs with
  | nil => rfl
  | cons x l ih =>
      rw [Overwrite.run_cons, ih]
      exact countP_modifyFirst (fun t => t.moved_isFor kind key x.2) txs

/-- A second record of one kind and key is never added. -/
theorem countP_addAll (kind : TxKind) (key : String) :
    (addAll w es txs).countP (TxRecord.isFor kind key) = txs.countP (TxRecord.isFor kind key) ∨
      txs.countP (TxRecord.isFor kind key) = 0 ∧
        (addAll w es txs).countP (TxRecord.isFor kind key) = 1 := by
  induction es generalizing txs with
  | nil => exact .inl rfl
  | cons x es ih =>
      have hrest := @ih (addMissing w txs x)
      rw [addAll, List.foldl_cons, ← addAll]
      cases hx : Recorded txs (TxEvent.entry x.1) with
      | true =>
          rw [addMissing_of_recorded x hx] at hrest ⊢
          exact hrest
      | false =>
          rw [addMissing_of_not x hx] at hrest ⊢
          rw [List.countP_append, List.countP_singleton] at hrest
          by_cases hsame : (newRecord w x.1 x.2).isFor kind key = true
          · -- the record is the first of its kind and key
            have hentry : (kind, key) = TxEvent.entry x.1 := by
              by_contra hne
              have hfor := newRecord_isFor w x.1 x.2
              simp [isFor_exclusive hne hsame] at hfor
            have hzero : txs.countP (TxRecord.isFor kind key) = 0 := by
              rw [List.countP_eq_zero]
              intro t ht hfor
              have hany : Recorded txs (TxEvent.entry x.1) = true := by
                rw [← hentry]
                exact List.any_eq_true.mpr ⟨t, ht, hfor⟩
              exact Bool.false_ne_true (hx.symm.trans hany)
            rw [if_pos hsame, hzero] at hrest
            omega
          · rw [if_neg hsame, Nat.add_zero] at hrest
            exact hrest

/-- A final record stays as it is. -/
theorem projectEvents_final {events : List TxEvent} {wf : WalletFile} {i : Nat}
    (ht : wf.transactions[i]? = some t) (hfinal : t.status.isFinalized = true) :
    (projectEvents w events wf).transactions[i]? = some t := by
  have hmove : ∀ {txs : List TxRecord} (e : TxKind × String) (v : Inclusion), txs[i]? = some t →
      (moveFirst e v txs)[i]? = some t := by
    intro txs e v hat
    by_cases hfirst : t.isFor e.1 e.2 = true ∧ NoneBefore (TxRecord.isFor e.1 e.2) txs i
    · have hmoved := getElem?_modifyFirst_of_first (f := TxRecord.moved v) hat hfirst.1 hfirst.2
      rwa [TxRecord.moved, if_pos hfinal] at hmoved
    · exact getElem?_modifyFirst_of_not hat hfirst
  have hrun : ∀ (l : List ((TxKind × String) × Inclusion)) {txs : List TxRecord}, txs[i]? = some t →
      (moves.run l txs)[i]? = some t := by
    intro l
    induction l with
    | nil => exact id
    | cons x l ih => exact fun hat => ih (hmove x.1 x.2 hat)
  have hadd : ∀ (es : List (TxEvent × Nat)) {txs : List TxRecord}, txs[i]? = some t →
      (addAll w es txs)[i]? = some t := by
    intro es
    induction es with
    | nil => exact id
    | cons x es ih =>
        intro txs hat
        refine ih ?_
        cases hx : Recorded txs (TxEvent.entry x.1) with
        | true => rwa [addMissing_of_recorded x hx]
        | false =>
            rw [addMissing_of_not x hx, List.getElem?_append_left
              (List.getElem?_eq_some_iff.mp hat).1]
            exact hat
  rw [projectEvents_transactions]
  exact hrun _ (hadd _ ht)

theorem countP_projectEvents (w : Surroundings) (events : List TxEvent) (wf : WalletFile)
    (kind : TxKind) (key : String) :
    (projectEvents w events wf).transactions.countP (TxRecord.isFor kind key)
        = wf.transactions.countP (TxRecord.isFor kind key) ∨
      wf.transactions.countP (TxRecord.isFor kind key) = 0 ∧
        (projectEvents w events wf).transactions.countP (TxRecord.isFor kind key) = 1 := by
  rw [projectEvents_transactions]
  rw [countP_run]
  exact countP_addAll kind key

/-! ### Projecting again -/

/-- The lists of events that a wallet has projected, whatever else it did in between. -/
inductive Projected : List (List TxEvent) → WalletFile → Prop
  | start (wf : WalletFile) : Projected [] wf
  | project {lists : List (List TxEvent)} {wf : WalletFile} (h : Projected lists wf)
      (w : Surroundings) (events : List TxEvent) :
      Projected (events :: lists) (projectEvents w events wf)
  | grown {lists : List (List TxEvent)} {wf wf' : WalletFile} (h : Projected lists wf)
      (hgrown : Grown wf wf') : Projected lists wf'

theorem recorded_grown {wf wf' : WalletFile} (hgrown : Grown wf wf')
    (h : Recorded wf.transactions e = true) : Recorded wf'.transactions e = true := by
  obtain ⟨t, ht, hfor⟩ := List.any_eq_true.mp h
  obtain ⟨t', ht', hsame⟩ := hgrown.records.transactions.mem ht
  refine List.any_eq_true.mpr ⟨t', ht', ?_⟩
  rw [TxRecord.Grows] at hsame
  rw [← hsame] at hfor
  exact hfor

theorem Projected.recorded {lists : List (List TxEvent)} {wf : WalletFile} (h : Projected lists wf)
    {events : List TxEvent} (hevents : events ∈ lists) {ev : TxEvent} (hev : ev ∈ events) :
    Recorded wf.transactions (TxEvent.entry ev) = true := by
  induction h with
  | start wf => simp at hevents
  | project h w new ih =>
      rcases List.mem_cons.mp hevents with rfl | hevents
      · exact recorded_projectEvents hev
      · exact recorded_projectEvents_of (ih hevents)
  | grown h hgrown ih => exact recorded_grown hgrown (ih hevents)

/-- **Projecting is idempotent and adds no second record**: dated events change nothing when they
are projected again, whenever that is; a kind and key that the history has gets no second record,
and one that it has not gets one at most, however often the list has it; a final record stays; and
lists that were projected before add nothing when they are projected in one. -/
theorem projectEvents_idempotent (w : Surroundings) (events : List TxEvent) (wf : WalletFile) :
    ((∀ ev ∈ events, ev.blockTs ≠ 0) → ∀ w' : Surroundings,
      projectEvents w' events (projectEvents w events wf) = projectEvents w events wf) ∧
    (∀ (kind : TxKind) (key : String),
      (projectEvents w events wf).transactions.countP (TxRecord.isFor kind key)
          = wf.transactions.countP (TxRecord.isFor kind key) ∨
        wf.transactions.countP (TxRecord.isFor kind key) = 0 ∧
          (projectEvents w events wf).transactions.countP (TxRecord.isFor kind key) = 1) ∧
    (∀ (i : Nat) (t : TxRecord), wf.transactions[i]? = some t → t.status.isFinalized = true →
      (projectEvents w events wf).transactions[i]? = some t) ∧
    (∀ lists again : List (List TxEvent), Projected lists wf → again ⊆ lists →
      events = again.flatten →
      (projectEvents w events wf).transactions.length = wf.transactions.length) := by
  refine ⟨fun hdated w' => ?_, countP_projectEvents w events wf, fun i t => projectEvents_final, ?_⟩
  · rw [projectEvents_recorded fun ev hev => recorded_projectEvents hev,
      projectEvents_transactions w, ← movesOf_dated hdated, Overwrite.run_self]
  · rintro lists again hlists hagain rfl
    have hrecorded : ∀ ev ∈ again.flatten, Recorded wf.transactions (TxEvent.entry ev) = true := by
      intro ev hev
      obtain ⟨l, hl, hev⟩ := List.mem_flatten.mp hev
      exact hlists.recorded (hagain hl) hev
    rw [projectEvents_recorded hrecorded]
    exact length_run _

end

/-- A mint that two blocks report. -/
def twiceSeen : List TxEvent :=
  [⟨1, 5, 600, .mintIn 7 "aa"⟩, ⟨2, 6, 660, .mintIn 7 "aa"⟩]

def unusedWallet : WalletFile where
  network := .regtest
  mnemonic := ""
  sequencerUrl := ""
  nodeUrl := none
  esploraUrl := ""
  nextMintIndex := 0
  mints := []
  verifiedHead := none
  transactions := []
  encryptionCtx := none

theorem projectEvents_idempotent_twiceSeen :
    let once := projectEvents .quiet twiceSeen unusedWallet
    once.transactions.map (·.status) = [.inBlock 2 6 660] ∧
      projectEvents .quiet twiceSeen once = once ∧
      (projectEvents .quiet [twiceSeen, twiceSeen].flatten once).transactions.length = 1 := by
  intro once
  have hlists : Projected [twiceSeen] once := .project (.start unusedWallet) .quiet twiceSeen
  obtain ⟨-, -, -, hnone⟩ :=
    projectEvents_idempotent .quiet [twiceSeen, twiceSeen].flatten once
  refine ⟨by decide +kernel, ?_, ?_⟩
  · exact (projectEvents_idempotent .quiet twiceSeen unusedWallet).1 (by decide) .quiet
  · exact (hnone [twiceSeen] [twiceSeen, twiceSeen] hlists (by simp) rfl).trans (by decide +kernel)

end Hodlchain.Wallet
