/-
What an inclusion resolves.

A submitted mint or transfer is soft in the history until the walk meets it in a block.
The events of a block leave out mints to others, and an event moves the first record
with its key, whatever its status.  A soft record stays behind when its mint went to
somebody else, or when an older record has its key.
-/
import Hodlchain.Wallet.Determinism
import Hodlchain.Wallet.Growth

namespace Hodlchain

open Bytes
open Wallet (TxKind)

/-- What an event, or a transaction, is to the history: the kind of record a submission of it
left, and the key. -/
def ObservedTxKind.submitted? : ObservedTxKind → Option (TxKind × String)
  | .transferIn _ _ _ => none
  | .transferOut _ _ key => some (.l2TransferSent, key)
  | .mintIn _ key => some (.l2MintApply, key)

def L2Tx.submitted (prim : Primitives) : L2Tx → TxKind × String
  | .mint entry => (.l2MintApply, entry.event.nullifierHex)
  | .transfer t => (.l2TransferSent, hexEncode (t.body.sighash prim).raw)

/-- A mint to this address, or a transfer from it. -/
def L2Tx.shownTo (own : L2Address) : L2Tx → Prop
  | .mint entry => entry.event.l2Destination = own
  | .transfer t => t.body.sender = own

/-- The transactions that are shown leave an event with their key. -/
theorem observeTx_submitted {prim : Primitives} {own : L2Address} {height : UInt32}
    {header : L2BlockHeader} {tx : L2Tx} {kind : TxKind} {key : String} :
    (∃ ev ∈ observeTx prim own height header tx, ev.kind.submitted? = some (kind, key)) ↔
      tx.submitted prim = (kind, key) ∧ tx.shownTo own := by
  cases tx with
  | mint entry =>
      unfold observeTx
      by_cases hown : entry.event.l2Destination = own
      · simp [hown, ObservedTxKind.submitted?, L2Tx.submitted, L2Tx.shownTo]
      · simp [hown, L2Tx.shownTo]
  | transfer t =>
      unfold observeTx
      by_cases hown : t.body.sender = own
      · by_cases hin : t.body.recipient = own
        · simp [hown, hin, ObservedTxKind.submitted?, L2Tx.submitted, L2Tx.shownTo]
        · simp [hown, hin, ObservedTxKind.submitted?, L2Tx.submitted, L2Tx.shownTo]
      · by_cases hin : t.body.recipient = own
        · simp [hown, hin, ObservedTxKind.submitted?, L2Tx.shownTo]
        · simp [hown, hin, L2Tx.shownTo]

/-! ### The blocks of a walk -/

/-- The blocks at `n` heights from `h` up. -/
def servedFrom (api : ApiClient) : ℕ → UInt32 → List L2Block
  | 0, _ => []
  | n + 1, h => (api.getBlock h).toList ++ servedFrom api n (h + 1)

/-- What these blocks show the wallet. -/
def observeFrom (prim : Primitives) (own : L2Address) : UInt32 → List L2Block → List TxEvent
  | _, [] => []
  | h, block :: blocks =>
      block.txs.flatMap (observeTx prim own h block.header) ++ observeFrom prim own (h + 1) blocks

theorem servedFrom_add (api : ApiClient) (m n : ℕ) (h : UInt32) :
    servedFrom api (m + n) h = servedFrom api m h ++ servedFrom api n (h + UInt32.ofNat m) := by
  induction m generalizing h with
  | zero =>
      rw [Nat.zero_add, show h + UInt32.ofNat 0 = h from UInt32.add_zero h]
      rfl
  | succ m ih =>
      have hnext : h + UInt32.ofNat (m + 1) = h + 1 + UInt32.ofNat m := by
        rw [UInt32.ofNat_add, UInt32.add_assoc, UInt32.add_comm (UInt32.ofNat m)]
        rfl
      rw [Nat.succ_add, servedFrom, ih, servedFrom, hnext, List.append_assoc]

theorem observeFrom_append (prim : Primitives) (own : L2Address) (h : UInt32)
    (front back : List L2Block) : observeFrom prim own h (front ++ back)
      = observeFrom prim own h front
        ++ observeFrom prim own (h + UInt32.ofNat front.length) back := by
  induction front generalizing h with
  | nil =>
      rw [List.nil_append, List.length_nil, show h + UInt32.ofNat 0 = h from UInt32.add_zero h]
      rfl
  | cons block front ih =>
      have hnext : h + UInt32.ofNat (front.length + 1) = h + 1 + UInt32.ofNat front.length := by
        rw [UInt32.ofNat_add, UInt32.add_assoc, UInt32.add_comm (UInt32.ofNat front.length)]
        rfl
      rw [List.cons_append, observeFrom, ih, observeFrom, List.length_cons, hnext,
        List.append_assoc]

variable {prim : Primitives} {api : ApiServer} {esplora : EsploraServer} {tip : UInt32}

/-- A range has been served whole, and has shown what its blocks show. -/
theorem walkRange_observe {att : Attestation} {n : ℕ} {h : UInt32} {head head' : VerifiedHead}
    {events : List TxEvent}
    (hrun : walkRange prim api esplora tip att n h head = .ok (head', events)) :
    (servedFrom api.toApiClient n h).length = n ∧ head'.ownAddress = head.ownAddress ∧
      events = observeFrom prim head.ownAddress h (servedFrom api.toApiClient n h) ∧
      (n ≠ 0 → head'.l2Height = h + UInt32.ofNat (n - 1)) := by
  induction n generalizing h head events with
  | zero =>
      simp only [walkRange, pure_ok_iff, Prod.mk.injEq] at hrun
      obtain ⟨rfl, rfl⟩ := hrun
      exact ⟨rfl, rfl, rfl, fun h0 => absurd rfl h0⟩
  | succ n ih =>
      obtain ⟨block, mid, shown, rest, hblock, hverified, hrest, rfl⟩ := walkRange_succ hrun
      obtain ⟨hlength, hown, rfl, hheight⟩ := ih hrest
      have hserved : servedFrom api.toApiClient (n + 1) h
          = block :: servedFrom api.toApiClient n (h + 1) := by
        rw [servedFrom, hblock]
        rfl
      rw [hserved]
      refine ⟨by rw [List.length_cons, hlength], hown.trans hverified.ownAddress, ?_, fun _ => ?_⟩
      · rw [hverified.events, hverified.ownAddress]
        rfl
      · cases n with
        | zero =>
            simp only [walkRange, pure_ok_iff, Prod.mk.injEq] at hrest
            rw [← hrest.1, hverified.l2Height]
            exact (UInt32.add_zero h).symm
        | succ n =>
            rw [hheight (Nat.succ_ne_zero n), Nat.add_sub_cancel, Nat.add_sub_cancel,
              UInt32.ofNat_add, UInt32.add_assoc, UInt32.add_comm 1]
            rfl

/-- So has a walk. -/
theorem walkSteps_observe {steps : List ChainStep} {head head' : VerifiedHead} {count : ℕ}
    {events : List TxEvent}
    (hrun : walkSteps prim api esplora tip steps head = .ok (head', count, events)) :
    (servedFrom api.toApiClient count (head.l2Height + 1)).length = count ∧
      events = observeFrom prim head.ownAddress (head.l2Height + 1)
        (servedFrom api.toApiClient count (head.l2Height + 1)) := by
  induction steps generalizing head count events with
  | nil =>
      simp only [walkSteps, pure_ok_iff, Prod.mk.injEq] at hrun
      obtain ⟨-, rfl, rfl⟩ := hrun
      exact ⟨rfl, rfl⟩
  | cons step steps ih =>
      rw [walkSteps] at hrun
      by_cases hpast : step.attestation.height ≤ head.l2Height
      · rw [if_pos hpast] at hrun
        have hrest := ih hrun
        exact hrest
      · rw [if_neg hpast] at hrun
        simp only [bind_ok_iff, pure_ok_iff, Prod.mk.injEq] at hrun
        obtain ⟨⟨mid, shown⟩, hrange, ⟨last, k, rest⟩, hsteps, rfl, rfl, rfl⟩ := hrun
        obtain ⟨hlength, hown, hshown, hheight⟩ := walkRange_observe hrange
        obtain ⟨hlength', hrest⟩ := ih hsteps
        have hlt : head.l2Height.toNat < step.attestation.height.toNat :=
          UInt32.lt_iff_toNat_lt.mp (UInt32.not_le.mp hpast)
        have hpos : step.attestation.height.toNat - head.l2Height.toNat ≠ 0 := by omega
        generalize step.attestation.height.toNat - head.l2Height.toNat = n at *
        have hnext : mid.l2Height + 1 = head.l2Height + 1 + UInt32.ofNat n := by
          obtain ⟨m, rfl⟩ := Nat.exists_eq_succ_of_ne_zero hpos
          rw [hheight hpos, Nat.succ_eq_add_one, Nat.add_sub_cancel, UInt32.ofNat_add,
            UInt32.add_assoc]
          rfl
        dsimp only at hlength' hrest
        rw [hnext] at hlength' hrest
        rw [servedFrom_add, List.length_append, hlength, hlength', observeFrom_append, hlength]
        refine ⟨rfl, ?_⟩
        rw [hshown, hrest, hown]

/-- The blocks a walk of `count` blocks has verified. -/
def verifiedBlocks (api : ApiClient) (head : VerifiedHead) (count : ℕ) : List L2Block :=
  servedFrom api count (head.l2Height + 1)

theorem walkForward_observe {fuel : ℕ} {head head' : VerifiedHead} {count : ℕ}
    {events : List TxEvent}
    (hrun : walkForward prim fuel head api esplora = .ok (head', count, events)) :
    (verifiedBlocks api.toApiClient head count).length = count ∧
      events = observeFrom prim head.ownAddress (head.l2Height + 1)
        (verifiedBlocks api.toApiClient head count) := by
  simp only [walkForward, bind_ok_iff, mapErr_ok_iff] at hrun
  obtain ⟨chain, -, hrun⟩ := hrun
  cases chain with
  | nil =>
      simp only [pure_ok_iff, Prod.mk.injEq] at hrun
      obtain ⟨-, rfl, rfl⟩ := hrun
      exact ⟨rfl, rfl⟩
  | cons step steps =>
      simp only [bind_ok_iff] at hrun
      obtain ⟨tip, -, hrun⟩ := hrun
      exact walkSteps_observe hrun

theorem exists_observeFrom {own : L2Address} {h : UInt32} {blocks : List L2Block} {kind : TxKind}
    {key : String} :
    (∃ ev ∈ observeFrom prim own h blocks, ev.kind.submitted? = some (kind, key)) ↔
      ∃ block ∈ blocks, ∃ tx ∈ block.txs, tx.submitted prim = (kind, key) ∧ tx.shownTo own := by
  induction blocks generalizing h with
  | nil => simp [observeFrom]
  | cons block blocks ih =>
      have hhere : (∃ ev ∈ block.txs.flatMap (observeTx prim own h block.header),
          ev.kind.submitted? = some (kind, key)) ↔
            ∃ tx ∈ block.txs, tx.submitted prim = (kind, key) ∧ tx.shownTo own := by
        constructor
        · rintro ⟨ev, hev, hkey⟩
          obtain ⟨tx, htx, hev⟩ := List.mem_flatMap.mp hev
          exact ⟨tx, htx, observeTx_submitted.mp ⟨ev, hev, hkey⟩⟩
        · rintro ⟨tx, htx, hshown⟩
          obtain ⟨ev, hev, hkey⟩ :=
            (@observeTx_submitted prim own h block.header tx kind key).mpr hshown
          exact ⟨ev, List.mem_flatMap.mpr ⟨tx, htx, hev⟩, hkey⟩
      rw [List.exists_mem_cons_iff, ← hhere, ← @ih (h + 1), observeFrom]
      simp only [List.mem_append, or_and_right, exists_or]

end Hodlchain

namespace Hodlchain.Wallet

open Bytes

variable {prim : Primitives} {w : Surroundings} {wf : WalletFile} {i : ℕ} {t : TxRecord}

/-! ### What an event does to a record -/

def TxStatus.isSoft : TxStatus → Bool
  | .soft _ => true
  | _ => false

/-- The record at `i` is the one that something submitted so moves: it has the kind and the key, and
none before it has. -/
structure FirstFor (txs : List TxRecord) (i : ℕ) (t : TxRecord) (submitted : TxKind × String) :
    Prop where
  isFor : t.isFor submitted.1 submitted.2 = true
  first : NoneBefore (TxRecord.isFor submitted.1 submitted.2) txs i

theorem appendTx_at (ht : wf.transactions[i]? = some t) (record : TxRecord) :
    (wf.appendTx record).transactions[i]? = some t := by
  show (wf.transactions ++ [record])[i]? = some t
  rw [List.getElem?_append_left (List.getElem?_eq_some_iff.mp ht).1]
  exact ht

theorem observe_at (ht : wf.transactions[i]? = some t) (key : String) (record : TxRecord) :
    ∃ t', (observe key record wf).transactions[i]? = some t' ∧
      (FirstFor wf.transactions i t (record.kind, key) →
        t' = if t.status.isFinalized then t else { t with status := record.status }) ∧
      (¬ FirstFor wf.transactions i t (record.kind, key) → t' = t) := by
  unfold observe
  by_cases hany : wf.transactions.any (TxRecord.isFor record.kind key) = true
  · rw [if_pos hany]
    by_cases hfirst : FirstFor wf.transactions i t (record.kind, key)
    · exact ⟨_, getElem?_modifyFirst_of_first ht hfirst.isFor hfirst.first, fun _ => rfl,
        fun hnot => absurd hfirst hnot⟩
    · refine ⟨t, getElem?_modifyFirst_of_not ht fun h => hfirst ⟨h.1, h.2⟩, fun h =>
        absurd h hfirst,
        fun _ => rfl⟩
  · rw [if_neg hany]
    refine ⟨t, appendTx_at ht record, fun hfirst => ?_, fun _ => rfl⟩
    exact absurd (List.any_eq_true.mpr ⟨t, List.mem_of_getElem? ht, hfirst.isFor⟩) hany

/-- A soft record stays so unless the event moves it. -/
theorem projectEvent_at (ht : wf.transactions[i]? = some t) (ev : TxEvent) (k : ℕ) :
    ∃ t', (projectEvent w wf ev k).transactions[i]? = some t' ∧
      (t'.status.isSoft = true ↔ t.status.isSoft = true ∧
        ∀ s, ev.kind.submitted? = some s → ¬ FirstFor wf.transactions i t s) := by
  -- a submission is observed with a record that is in a block
  have hobserve : ∀ (key : String) (record : TxRecord), record.status.isSoft = false →
      ∃ t', (observe key record wf).transactions[i]? = some t' ∧
        (t'.status.isSoft = true ↔ t.status.isSoft = true ∧
          ∀ s, some (record.kind, key) = some s → ¬ FirstFor wf.transactions i t s) := by
    intro key record hrecord
    obtain ⟨t', ht', hmoved, hkept⟩ := observe_at ht key record
    refine ⟨t', ht', ?_⟩
    by_cases hfirst : FirstFor wf.transactions i t (record.kind, key)
    · have hnot : t'.status.isSoft = false := by
        rw [hmoved hfirst]
        by_cases hfinal : t.status.isFinalized = true
        · rw [if_pos hfinal]
          cases hstatus : t.status <;> simp_all [TxStatus.isFinalized, TxStatus.isSoft]
        · rw [if_neg hfinal]
          exact hrecord
      rw [hnot]
      exact ⟨nofun, fun h => absurd hfirst (h.2 _ rfl)⟩
    · rw [hkept hfirst]
      refine ⟨fun hsoft => ⟨hsoft, fun s hs => ?_⟩, And.left⟩
      rw [← Option.some.inj hs]
      exact hfirst
  obtain ⟨l2Height, l1Height, blockTs, kind⟩ := ev
  cases kind with
  | transferIn sender amount key =>
      have hsame : ∃ t', (projectEvent w wf ⟨l2Height, l1Height, blockTs,
          .transferIn sender amount key⟩ k).transactions[i]? = some t' ∧ t' = t := by
        unfold projectEvent
        by_cases hany : wf.transactions.any (TxRecord.isFor .l2TransferReceived key) = true
        · simp only [if_pos hany]
          exact ⟨t, ht, rfl⟩
        · simp only [if_neg hany]
          exact ⟨t, appendTx_at ht _, rfl⟩
      obtain ⟨t', ht', rfl⟩ := hsame
      refine ⟨t', ht', fun hsoft => ⟨hsoft, fun s hs => ?_⟩, And.left⟩
      cases hs
  | transferOut recipient amount key => exact hobserve key _ rfl
  | mintIn amount key => exact hobserve key _ rfl

/-- Who is first for what is submitted does not change. -/
theorem firstFor_grown {wf' : WalletFile} {t' : TxRecord} {s : TxKind × String} (h : Grown wf wf')
    (ht : wf.transactions[i]? = some t) (ht' : wf'.transactions[i]? = some t') :
    FirstFor wf'.transactions i t' s ↔ FirstFor wf.transactions i t s := by
  have hsame : ∀ {j : ℕ} {u u' : TxRecord}, wf.transactions[j]? = some u →
      wf'.transactions[j]? = some u' → u'.isFor s.1 s.2 = u.isFor s.1 s.2 := by
    intro j u u' hu hu'
    obtain ⟨v, hv, hgrows⟩ := h.records.transactions.getElem? hu
    obtain rfl := Option.some.inj (hv.symm.trans hu')
    have hkind := congrArg TxRecord.kind hgrows
    have hkey := congrArg TxRecord.l2Sighash hgrows
    unfold TxRecord.isFor
    rw [show v.kind = u.kind from hkind, show v.l2Sighash = u.l2Sighash from hkey]
  have hlt := (List.getElem?_eq_some_iff.mp ht).1
  constructor
  · rintro ⟨hfor, hfirst⟩
    refine ⟨(hsame ht ht').symm.trans hfor, fun j hj u hu => ?_⟩
    obtain ⟨u', hu', -⟩ := h.records.transactions.getElem? hu
    exact (hsame hu hu').symm.trans (hfirst j hj u' hu')
  · rintro ⟨hfor, hfirst⟩
    refine ⟨(hsame ht ht').trans hfor, fun j hj u' hu' => ?_⟩
    have hu := List.getElem?_eq_getElem (Nat.lt_trans hj hlt)
    exact (hsame hu hu').trans (hfirst j hj _ hu)

/-- What an event adds is in a block. -/
theorem projectEvent_new {ev : TxEvent} {k : ℕ} (hnew : wf.transactions.length ≤ i)
    (ht : (projectEvent w wf ev k).transactions[i]? = some t) : t.status.isSoft = false := by
  have happend : ∀ record : TxRecord, record.status.isSoft = false →
      (wf.appendTx record).transactions[i]? = some t → t.status.isSoft = false := by
    intro record hrecord hat
    have hat' : (wf.transactions ++ [record])[i]? = some t := hat
    rw [List.getElem?_append_right hnew] at hat'
    rw [← List.mem_singleton.mp (List.mem_of_getElem? hat')] at hrecord
    exact hrecord
  have hobserve : ∀ (key : String) (record : TxRecord), record.status.isSoft = false →
      (observe key record wf).transactions[i]? = some t → t.status.isSoft = false := by
    intro key record hrecord hat
    unfold observe at hat
    by_cases hany : wf.transactions.any (TxRecord.isFor record.kind key) = true
    · rw [if_pos hany] at hat
      have hlt := (List.getElem?_eq_some_iff.mp hat).1
      rw [length_modifyFirst] at hlt
      omega
    · rw [if_neg hany] at hat
      exact happend record hrecord hat
  obtain ⟨l2Height, l1Height, blockTs, kind⟩ := ev
  cases kind with
  | transferIn sender amount key =>
      unfold projectEvent at ht
      by_cases hany : wf.transactions.any (TxRecord.isFor .l2TransferReceived key) = true
      · simp only [if_pos hany] at ht
        have hlt := (List.getElem?_eq_some_iff.mp ht).1
        omega
      · simp only [if_neg hany] at ht
        exact happend _ rfl ht
  | transferOut recipient amount key => exact hobserve key _ rfl ht
  | mintIn amount key => exact hobserve key _ rfl ht

/-- **What the events of a walk do to a record.**  It is soft after them if it was before and none
of them moves it, and what they add is not. -/
theorem projectEvents_at (events : List TxEvent) :
    (∀ t, wf.transactions[i]? = some t →
      ∃ t', (projectEvents w events wf).transactions[i]? = some t' ∧
      (t'.status.isSoft = true ↔ t.status.isSoft = true ∧
        ∀ ev ∈ events, ∀ s, ev.kind.submitted? = some s → ¬ FirstFor wf.transactions i t s)) ∧
    (wf.transactions.length ≤ i → ∀ t', (projectEvents w events wf).transactions[i]? = some t' →
      t'.status.isSoft = false) := by
  have hfold : ∀ (es : List (TxEvent × ℕ)) (wf : WalletFile),
      (∀ t, wf.transactions[i]? = some t →
        ∃ t', (es.foldl (fun wf e => projectEvent w wf e.1 e.2) wf).transactions[i]? = some t' ∧
          (t'.status.isSoft = true ↔ t.status.isSoft = true ∧
            ∀ e ∈ es, ∀ s, e.1.kind.submitted? = some s → ¬ FirstFor wf.transactions i t s)) ∧
      (wf.transactions.length ≤ i → ∀ t',
        (es.foldl (fun wf e => projectEvent w wf e.1 e.2) wf).transactions[i]? = some t' →
          t'.status.isSoft = false) := by
    intro es
    induction es with
    | nil =>
        intro wf
        refine ⟨fun t ht => ⟨t, ht, by simp⟩, fun hnew t' ht' => ?_⟩
        have hlt := (List.getElem?_eq_some_iff.mp ht').1
        exact absurd hlt (Nat.not_lt.mpr hnew)
    | cons e es ih =>
        intro wf
        obtain ⟨hold, hadded⟩ := ih (projectEvent w wf e.1 e.2)
        refine ⟨fun t ht => ?_, fun hnew t' ht' => ?_⟩
        · obtain ⟨mid, hmid, hone⟩ := @projectEvent_at w wf i t ht e.1 e.2
          obtain ⟨t', ht', hrest⟩ := hold mid hmid
          refine ⟨t', ht', ?_⟩
          have hgrown := @projectEvent_grown w wf e.1 e.2
          simp only [hrest, hone, firstFor_grown hgrown ht hmid, List.forall_mem_cons, and_assoc]
        · by_cases hlt : i < (projectEvent w wf e.1 e.2).transactions.length
          · obtain ⟨u, hu, hsoft⟩ := hold _ (List.getElem?_eq_getElem hlt)
            obtain rfl := Option.some.inj (hu.symm.trans ht')
            have hmid := projectEvent_new hnew (List.getElem?_eq_getElem hlt)
            rw [Bool.eq_false_iff]
            exact fun h => absurd (hsoft.mp h).1 (by simp [hmid])
          · exact hadded (Nat.not_lt.mp hlt) t' ht'
  obtain ⟨hold, hadded⟩ := hfold events.zipIdx wf
  refine ⟨fun t ht => ?_, hadded⟩
  obtain ⟨t', ht', hsoft⟩ := hold t ht
  refine ⟨t', ht', hsoft.trans (and_congr_right fun _ => ⟨fun h ev hev => ?_, fun h e he => ?_⟩)⟩
  · obtain ⟨k, hk⟩ := List.mem_iff_getElem?.mp hev
    exact h (ev, k) (List.mk_mem_zipIdx_iff_getElem?.mpr hk)
  · exact h e.1 (List.fst_mem_of_mem_zipIdx he)

/-! ### What is resolved -/

/-- What a record was submitted as. -/
def TxRecord.submitted? (t : TxRecord) : Option (TxKind × String) :=
  match t.kind with
  | .l2MintApply => t.l2Sighash.map fun key => (.l2MintApply, key)
  | .l2TransferSent => t.l2Sighash.map fun key => (.l2TransferSent, key)
  | _ => none

theorem isFor_of_submitted? {s : TxKind × String} (h : t.submitted? = some s) :
    t.isFor s.1 s.2 = true := by
  unfold TxRecord.submitted? at h
  cases hkind : t.kind <;> simp only [hkind, Option.map_eq_some_iff, reduceCtorEq] at h
  all_goals
    obtain ⟨key, hkey, rfl⟩ := h
    simp [TxRecord.isFor, hkind, hkey]

/-- What a record was submitted as stays. -/
theorem projectEvents_submitted? {events : List TxEvent} {t' : TxRecord}
    (ht : wf.transactions[i]? = some t)
    (ht' : (projectEvents w events wf).transactions[i]? = some t') :
    t'.submitted? = t.submitted? := by
  have hgrown := @projectEvents_grown w events wf
  obtain ⟨u, hu, hgrows⟩ := hgrown.records.transactions.getElem? ht
  obtain rfl := Option.some.inj (hu.symm.trans ht')
  have hkind := congrArg TxRecord.kind hgrows
  have hkey := congrArg TxRecord.l2Sighash hgrows
  unfold TxRecord.submitted?
  rw [show u.kind = t.kind from hkind, show u.l2Sighash = t.l2Sighash from hkey]

/-- An event that moves a record has been submitted as the record was. -/
theorem moved_iff {events : List TxEvent} {s : TxKind × String} (hs : t.submitted? = some s) :
    (∃ ev ∈ events, ∃ s', ev.kind.submitted? = some s' ∧ FirstFor wf.transactions i t s') ↔
      NoneBefore (TxRecord.isFor s.1 s.2) wf.transactions i ∧
        ∃ ev ∈ events, ev.kind.submitted? = some s := by
  have hfor := isFor_of_submitted? hs
  constructor
  · rintro ⟨ev, hev, s', hs', hfirst⟩
    have hfor' := hfirst.isFor
    simp only [TxRecord.isFor, decide_eq_true_eq] at hfor hfor'
    obtain rfl : s' = s :=
      Prod.ext (hfor'.1.symm.trans hfor.1) (Option.some.inj (hfor'.2.symm.trans hfor.2))
    exact ⟨hfirst.first, ev, hev, hs'⟩
  · rintro ⟨hfirst, ev, hev, hs'⟩
    exact ⟨ev, hev, s, hs', hfor, hfirst⟩

/-- No soft record is of something that is in the blocks. -/
def Resolved (prim : Primitives) (blocks : List L2Block) (txs : List TxRecord) : Prop :=
  ∀ t ∈ txs, t.status.isSoft = true → ∀ s, t.submitted? = some s →
    ¬ ∃ block ∈ blocks, ∃ tx ∈ block.txs, tx.submitted prim = s

/-- Of all that is in the blocks, a soft record is the first of its key, and a transaction with the
key is to be shown to the wallet. -/
def Resolvable (prim : Primitives) (own : L2Address) (blocks : List L2Block) (txs : List TxRecord) :
    Prop :=
  ∀ i t, txs[i]? = some t → t.status.isSoft = true → ∀ s, t.submitted? = some s →
    (∃ block ∈ blocks, ∃ tx ∈ block.txs, tx.submitted prim = s) →
      NoneBefore (TxRecord.isFor s.1 s.2) txs i ∧
        ∃ block ∈ blocks, ∃ tx ∈ block.txs, tx.submitted prim = s ∧ tx.shownTo own

/-- **An inclusion resolves the first record with its key, if it is shown.**  Whatever the history
and the walk: after its events no soft record is of a transaction in a verified block, if and only
if each soft record of such a transaction has no older record with its key and, of the included
transactions with that key, one is a mint to the wallet or a transfer from it. -/
theorem resolved_iff {fuel : ℕ} {head head' : VerifiedHead} {api : ApiServer}
    {esplora : EsploraServer} {count : ℕ} {events : List TxEvent}
    (hrun : walkForward prim fuel head api esplora = .ok (head', count, events)) :
    Resolved prim (verifiedBlocks api.toApiClient head count)
    (projectEvents w events wf).transactions ↔
      Resolvable prim head.ownAddress (verifiedBlocks api.toApiClient head count)
        wf.transactions := by
  have hevents := (walkForward_observe hrun).2
  generalize verifiedBlocks api.toApiClient head count = blocks at hevents ⊢
  have hshown : ∀ s : TxKind × String, (∃ ev ∈ events, ev.kind.submitted? = some s) ↔
      ∃ block ∈ blocks, ∃ tx ∈ block.txs, tx.submitted prim = s ∧ tx.shownTo head.ownAddress := by
    intro s
    rw [hevents]
    exact exists_observeFrom
  constructor
  · intro h i t ht hsoft s hs hincluded
    obtain ⟨t', ht', hstays⟩ := (@projectEvents_at w wf i events).1 t ht
    rw [← hshown s]
    refine moved_iff hs |>.mp ?_
    by_contra hunmoved
    have hsame := projectEvents_submitted? ht ht'
    refine h t' (List.mem_of_getElem? ht') (hstays.mpr ⟨hsoft, fun ev hev s' hs' hfirst => ?_⟩) s
      (hsame.trans hs) hincluded
    exact hunmoved ⟨ev, hev, s', hs', hfirst⟩
  · intro h t' hmem hsoft s hs hincluded
    obtain ⟨i, ht'⟩ := List.mem_iff_getElem?.mp hmem
    obtain ⟨hold, hadded⟩ := @projectEvents_at w wf i events
    by_cases hlt : i < wf.transactions.length
    · have ht := List.getElem?_eq_getElem hlt
      obtain ⟨u, hu, hstays⟩ := hold _ ht
      obtain rfl := Option.some.inj (hu.symm.trans ht')
      obtain ⟨hwas, hunmoved⟩ := hstays.mp hsoft
      have hs₀ := (projectEvents_submitted? ht ht').symm.trans hs
      obtain ⟨hfirst, hshow⟩ := h i _ ht hwas s hs₀ hincluded
      obtain ⟨ev, hev, s', hs', hmoves⟩ := (moved_iff hs₀).mpr ⟨hfirst, (hshown s).mpr hshow⟩
      exact hunmoved ev hev s' hs' hmoves
    · have hnot := hadded (Nat.not_lt.mp hlt) t' ht'
      rw [hnot] at hsoft
      cases hsoft

/-! ### A mint for somebody else -/

/-- The attestation of `firstBlock`. -/
def firstLink : ChainStep where
  attestation := .new 1 (firstBlock.hash Primitives.counting) firstBlock.header.stateRoot
  l1Height := 150
  newAnchor := ⟨firstAttestation, 1⟩

/-- An L1 with it and the funding of the mint. -/
def firstL1 : EsploraServer where
  getTx txid := if txid = firstAttestation
    then some ⟨[⟨hexEncode firstLink.attestation.toScript, 0⟩, ⟨"", 330⟩], ⟨some 150⟩⟩
    else firstEsplora.getTx txid
  txExists _ := some true
  getOutspend txid _ := if txid = firstAnchor.txid
    then some ⟨true, some firstAttestation.toStr, some 150⟩ else some ⟨false, none, none⟩
  tipHeight := some 150

def firstServer : ApiServer := { firstApi with balance := fun _ => none, getNullifiers := none }

theorem firstL1_walk :
    walkAttestationChain firstL1 2 firstHead.anchorOutpoint = .ok [firstLink] := by
  have hread := Attestation.tryFromScript_toScript
    (show firstLink.attestation.version = attestationVersion from rfl)
  have hne : firstAttestation ≠ firstAnchor.txid := by decide
  have hanchor : firstHead.anchorOutpoint = firstAnchor := rfl
  rw [hanchor]
  simp only [walkAttestationChain, walkFrom, readChainStep, firstL1, bind_ok_iff, ensure_ok_iff,
    okOr_ok_iff, mapErr_ok_iff, Option.some.injEq, exists_eq_left', if_true, if_neg hne,
    Bool.not_true, Bool.not_false, Bool.false_eq_true, if_false, Txid.fromStr_toStr,
    hexDecode_hexEncode, hread, Except.ok.injEq, pure_ok_iff]
  exact ⟨(), trivial, rfl⟩

/-- Any wallet at the first block walks over the mint for key 1. -/
theorem first_walk {head : VerifiedHead} (hagrees : Agrees Primitives.counting LedgerState.new head)
    (hheight : head.l2Height = 0) (hblock : head.blockHash = H256.zero)
    (hanchor : head.anchorOutpoint = firstAnchor) : ∃ head' events,
    walkForward Primitives.counting 2 head firstServer firstL1 = .ok (head', 1, events) := by
  have hview : SameL1View firstL1.toEsploraClient 150 firstBlock.txs firstView := by
    refine ⟨rfl, fun entry hentry => ?_⟩
    have hmint : entry = firstMint := by simpa [firstBlock] using hentry
    have hfunding : firstL1.getTx entry.witness.outpoint.txid
        = firstEsplora.getTx entry.witness.outpoint.txid := by
      refine if_neg ?_
      rw [hmint]
      decide
    show (firstEsplora.output 150 entry.witness.outpoint).toOption = _
    unfold EsploraClient.output
    rw [hfunding]
  have hfits : HeaderFits Primitives.counting head (head.l2Height + 1) (some firstLink.attestation)
      firstBlock := by
    refine ⟨by rw [hheight]; rfl, fun att hatt => ?_, rfl, hblock.symm⟩
    rw [← Option.some.inj hatt]
    exact ⟨rfl, rfl⟩
  obtain ⟨mid, events, hverify, -⟩ := @verifyOneL2Block_accepts _ _ _ _ _ _ _
    firstServer.toApiClient
    firstL1.toEsploraClient _ _ rfl rfl hagrees hview hfits firstBlock_mints firstBlock_replay rfl
  have hchain : walkAttestationChain firstL1 2 head.anchorOutpoint = .ok [firstLink] := by
    rw [hanchor]
    exact firstL1_walk
  exact ⟨_, events, walkForward_one (by rw [hheight]; rfl) (by rw [hheight]; rfl)
    hchain rfl hverify⟩

/-- The histories of a wallet that only submits. -/
inductive Submits (prim : Primitives) (libs : Libraries) : WalletFile → Prop
  | new {wf : WalletFile} (h : wf.transactions = []) : Submits prim libs wf
  | mintMessage {wf : WalletFile} (h : Submits prim libs wf) (w : Surroundings)
      (input : MintMessageInput) : Submits prim libs (mintMessage prim libs w input wf).2
  | transfer {wf : WalletFile} (h : Submits prim libs wf) (w : Surroundings)
    (input : TransferInput) :
      Submits prim libs (transfer prim libs w input wf).2

/-- A key is a number, and its signatures are those that `Primitives.sample` accepts. -/
def numberedKeypair (n : ℕ) : Keypair where
  xOnlyPublicKey := ⟨ByteArr.ofNat 32 n⟩
  signSchnorr _ digest := ⟨(digest.bytes ++ ByteArr.ofNat 32 n).cast Primitives.digest_and_key⟩
  signSchnorrNoAuxRand digest :=
    ⟨(digest.bytes ++ ByteArr.ofNat 32 n).cast Primitives.digest_and_key⟩

/-- The key of the identity, and key 1 for every mint. -/
def identityKeys (identity : ℕ) : Libraries :=
  { Libraries.sample with
    keys :=
      { Libraries.sample.keys with
        derivePriv := fun _ path =>
          some (numberedKeypair (if .hardened 1 ∈ path then identity else 1)) } }

def twoKeys : Libraries := identityKeys 2

/-- The wallet with the funded mint of `firstMint`. -/
def fundedWallet : WalletFile where
  network := .regtest
  mnemonic := ""
  sequencerUrl := ""
  nodeUrl := none
  esploraUrl := ""
  nextMintIndex := 1
  mints :=
    [{ mintAddress := ""
       lockBlocks := 1000
       bip32Index := 0
       outpoint := some (showOutpoint ⟨ByteArr.ofNat 32 7⟩ 0)
       valueSat := some 1000000
       fundedAtHeight := some 100
       minted := false
       reclaimed := false }]
  verifiedHead := none
  transactions := []
  encryptionCtx := none

/-- A sequencer that accepts it. -/
def acceptingMint : Surroundings :=
  { Surroundings.quiet with
    esplora := firstL1
    submitMint := fun _ _ => some
      ⟨true, none, some 7629, some firstMint.event.nullifierHex, none⟩ }

/-- The mint goes to key 1. -/
def mintForKeyOne : MintMessageInput :=
  ⟨0, some (Address.encode twoKeys.bech32 ⟨ByteArr.ofNat 32 1⟩ .regtest)⟩

def giftedWallet : WalletFile :=
  (mintMessage Primitives.counting twoKeys acceptingMint mintForKeyOne fundedWallet).2

theorem giftedWallet_transactions :
    giftedWallet.transactions.map (fun t => (t.submitted?, t.status))
    = [(some (.l2MintApply, firstMint.event.nullifierHex), .soft 0)] := by decide +kernel

theorem included_firstMint : ∃ block ∈ verifiedBlocks firstServer.toApiClient firstHead 1,
    ∃ tx ∈ block.txs, tx.submitted Primitives.counting
      = (.l2MintApply, firstMint.event.nullifierHex) :=
  ⟨firstBlock, List.mem_cons_self, .mint firstMint, List.mem_cons_self, rfl⟩

/-- A wallet with key 1 that has submitted the mint for itself. -/
def ownMintWallet : WalletFile :=
  (mintMessage Primitives.counting (identityKeys 1) acceptingMint ⟨0, none⟩ fundedWallet).2

/-- The head of an empty ledger, for it. -/
def ownMintHead : VerifiedHead :=
  let own := LedgerState.new.accountInclusionProof Primitives.counting ⟨ByteArr.ofNat 32 1⟩
  { firstHead with
    ownAddress := ⟨ByteArr.ofNat 32 1⟩
    ownLeaf := own.leaf
    ownPath := own.siblings }

theorem ownMintWallet_transactions : ownMintWallet.transactions.map
    (fun t => (t.submitted?, t.status)) =
    [(some (.l2MintApply, firstMint.event.nullifierHex), .soft 0)] := by
  decide +kernel

/-- Its mint is in the block that it verifies, and its record is resolved. -/
theorem resolved_first : ∃ head' events,
    walkForward Primitives.counting 2 ownMintHead firstServer firstL1 = .ok (head', 1, events) ∧
    Resolved Primitives.counting (verifiedBlocks firstServer.toApiClient ownMintHead 1)
      (projectEvents .quiet events ownMintWallet).transactions := by
  have hagrees : Agrees Primitives.counting LedgerState.new ownMintHead := by
    constructor <;> simp only [ownMintHead, firstHead, LedgerState.new]
  obtain ⟨head', events, hwalk⟩ := first_walk hagrees rfl rfl rfl
  refine ⟨head', events, hwalk, (resolved_iff hwalk).mpr fun i t ht hsoft s hs _ => ?_⟩
  have hone : ownMintWallet.transactions.length = 1 := by
    have hlength := congrArg List.length ownMintWallet_transactions
    rwa [List.length_map] at hlength
  obtain rfl : i = 0 := by
    have hlt := (List.getElem?_eq_some_iff.mp ht).1
    omega
  have hkey := congrArg (·[0]?) ownMintWallet_transactions
  simp only [List.getElem?_map, ht, Option.map_some] at hkey
  obtain rfl : s = (.l2MintApply, firstMint.event.nullifierHex) :=
    Option.some.inj (hs.symm.trans (Prod.mk.inj (Option.some.inj hkey)).1)
  exact ⟨fun j hj => absurd hj (Nat.not_lt_zero j), firstBlock, List.mem_cons_self, .mint firstMint,
    List.mem_cons_self, rfl, rfl⟩

/-- The mint that the wallet has submitted for key 1 is in a block that it has verified, and its
record is soft for ever. -/
theorem gift_unresolved : ∃ head' events, Submits Primitives.counting twoKeys giftedWallet ∧
    giftedWallet.xonlyPubkey twoKeys.keys = .ok firstHead.ownAddress ∧
    walkForward Primitives.counting 2 firstHead firstServer firstL1 = .ok (head', 1, events) ∧
    ¬ Resolved Primitives.counting (verifiedBlocks firstServer.toApiClient firstHead 1)
      (projectEvents .quiet events giftedWallet).transactions := by
  obtain ⟨head', events, hwalk⟩ := first_walk agrees_firstHead rfl rfl rfl
  refine ⟨head', events, .mintMessage (.new rfl) _ _, rfl, hwalk, fun h => ?_⟩
  have hfirst := congrArg List.head? giftedWallet_transactions
  rw [List.head?_map] at hfirst
  obtain ⟨t, ht, hpair⟩ := Option.map_eq_some_iff.mp hfirst
  obtain ⟨hs, hstatus⟩ := Prod.mk.inj hpair
  rw [List.head?_eq_getElem?] at ht
  obtain ⟨t', ht', hstays⟩ := (@projectEvents_at .quiet giftedWallet 0 events).1 t ht
  have hsoft : t'.status.isSoft = true := by
    refine hstays.mpr ⟨by rw [hstatus]; rfl, fun ev hev s hkey hmoves => ?_⟩
    obtain ⟨-, hshown⟩ := (moved_iff hs).mp ⟨ev, hev, s, hkey, hmoves⟩
    rw [(walkForward_observe hwalk).2, exists_observeFrom] at hshown
    obtain ⟨block, hblock, tx, htx, -, hown⟩ := hshown
    obtain rfl : block = firstBlock := List.mem_singleton.mp hblock
    obtain rfl : tx = .mint firstMint := List.mem_singleton.mp htx
    exact absurd hown (show ¬ firstMint.event.l2Destination = firstHead.ownAddress by decide)
  exact h t' (List.mem_of_getElem? ht') hsoft _ ((projectEvents_submitted? ht ht').trans hs)
    included_firstMint

end Hodlchain.Wallet
