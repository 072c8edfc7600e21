/-
The nonce the sequencer advertises, and the one it accepts.

`get_balance` counts the sender's transfers in the mempool into the nonce it
advertises; `submit_transfer` compares with the ledger, which knows none of them.
The two agree as long as nothing of the sender waits.
-/
import Hodlchain.Core.Accepted
import Hodlchain.Sequencer.Body
import Hodlchain.Sequencer.Mempool
import Hodlchain.Sequencer.Rows

namespace Hodlchain.Sequencer

open LedgerState

/-- What a transfer costs its sender. -/
def charge (t : SignedTransfer) : ℕ := t.body.amount.toNat + (transferFee t.body.amount).toNat

/-- The waiting transfers of a sender. -/
def Mempool.transfersOf (m : Mempool) (sender : L2Address) : List SignedTransfer :=
  m.transfers.filter fun t => t.body.sender = sender

/-- A transfer and the ones of its sender that wait before it. -/
def withPending (app : AppState) (t : SignedTransfer) : List SignedTransfer :=
  app.shared.mempool.transfersOf t.body.sender ++ [t]

/-- The sender's balance covers them all, with fees. -/
def Covered (app : AppState) (t : SignedTransfer) : Prop :=
  ((withPending app t).map charge).sum ≤ (app.shared.state.balanceOf t.body.sender).toNat

/-- The next body has these transfers first of all from their sender, whatever else is submitted
before it is built and whatever L1 shows then. -/
def AllApplied (prim : Primitives) (app : AppState) (sender : L2Address)
    (transfers : List SignedTransfer) : Prop :=
  ∀ (view : Nat → L1View) (moreMints : List MintEntry) (moreTransfers : List SignedTransfer),
    transfers.map L2Tx.transfer <+:
      (buildBody prim view app.shared.state (app.shared.mempool.mints ++ moreMints)
        (app.shared.mempool.transfers ++ moreTransfers)).2.filter fun tx => tx.sender? = some sender

/-- A transfer with the advertised nonce is accepted, and applied with those before it if they
are all covered. -/
structure NonceWorks (prim : Primitives) (app : AppState) (t : SignedTransfer) : Prop where
  accepted : ∀ now, (submitTransfer prim now t app).1.accepted = true
  applied : Covered app t → ∀ now,
    AllApplied prim (submitTransfer prim now t app).2 t.body.sender (withPending app t)

variable {prim : Primitives} {app : AppState} {t : SignedTransfer}

theorem satAdd_eq_left_iff {a b : UInt64} :
    satAdd a b = a ↔ b = 0 ∨ a = UInt64.ofNat (2 ^ 64 - 1) := by
  rw [satAdd]
  split_ifs with hfit
  · rw [UInt64.add_eq_left]
    refine ⟨.inl, ?_⟩
    rintro (h | rfl)
    · exact h
    · rw [UInt64.toNat_ofNat_of_lt' (by decide)] at hfit
      exact UInt64.toNat_inj.mp (by simp; omega)
  · refine ⟨fun h => .inr h.symm, ?_⟩
    rintro (rfl | rfl)
    · have := a.toNat_lt
      simp at hfit
      omega
    · rfl

/-- Whether the advertised nonce is the committed one. -/
private theorem effectiveNonce_eq_iff
    (hlen : app.shared.mempool.transfers.length ≤ vecCapacity) (addr : L2Address) :
    (getBalance prim addr app).effectiveNonce = app.shared.state.nonceOf addr ↔
      app.shared.mempool.transfersOf addr = [] ∨
        app.shared.state.nonceOf addr = UInt64.ofNat (2 ^ 64 - 1) := by
  have hle : (app.shared.mempool.transfersOf addr).length ≤ vecCapacity :=
    (List.length_filter_le _ _).trans hlen
  refine satAdd_eq_left_iff.trans (or_congr_left ?_)
  rw [← List.length_eq_zero_iff, ← UInt64.toNat_inj]
  have hcount : (UInt64.ofNat (app.shared.mempool.pendingFrom addr)).toNat
      = (app.shared.mempool.transfersOf addr).length :=
    UInt64.toNat_ofNat_of_lt' (hle.trans_lt (by decide))
  rw [hcount]
  rfl

private theorem accepted_of_first {front back : List L2Tx} {s : LedgerState}
    (hfront : ∀ tx ∈ front, tx.sender? ≠ some t.body.sender)
    (hadmissible : Admissible prim s t) (hamount : t.body.amount ≠ 0)
    (hparties : t.body.sender ≠ t.body.recipient)
    (hcovered : charge t ≤ (s.balanceOf t.body.sender).toNat) :
    [L2Tx.transfer t] <+:
      (s.accepted prim (front ++ .transfer t :: back)).filter
        fun tx => tx.sender? = some t.body.sender := by
  have hsub : (s.accepted prim front).Sublist front := accepted_sublist s front
  have hothers : ∀ tx ∈ s.accepted prim front, tx.sender? ≠ some t.body.sender :=
    fun tx htx => hfront tx (hsub.subset htx)
  obtain ⟨hnonce, hbalance⟩ := (s.allOk_accepted front).untouched hothers
  rw [UInt64.le_iff_toNat_le] at hbalance
  -- nothing saturates in what the balance covers
  have htotal : (transferTotal t.body.amount).toNat = charge t := by
    have hlt := (s.balanceOf t.body.sender).toNat_lt
    exact toNat_satAdd_of_lt (by rw [charge] at hcovered; omega)
  have hok : (s.applyAll prim (s.accepted prim front)).TransferOk prim t :=
    { amount := hamount
      parties := hparties
      nonce := by rw [hnonce]; exact hadmissible.nonce
      signed := hadmissible.signed
      covered := by rw [UInt64.le_iff_toNat_le, htotal]; omega }
  have hnil : (s.accepted prim front).filter (fun tx => tx.sender? = some t.body.sender) = [] :=
    List.filter_eq_nil_iff.mpr fun tx htx => by simpa using hothers tx htx
  have htx : (s.applyAll prim (s.accepted prim front)).TxOk prim (.transfer t) := hok
  rw [accepted_append, accepted_cons_ok htx, List.filter_append, hnil, List.nil_append,
    List.filter_cons_of_pos (by simp [L2Tx.sender?])]
  exact List.cons_prefix_cons.mpr ⟨rfl, List.nil_prefix⟩

/-- The first transfer of its sender is applied, if the ledger takes transfers like it. -/
private theorem allApplied_iff_of_first (hnone : app.shared.mempool.transfersOf t.body.sender = [])
    (hadmissible : Admissible prim app.shared.state t) (hcovered : Covered app t) :
    AllApplied prim (app.push t) t.body.sender (withPending app t) ↔
      t.body.amount ≠ 0 ∧ t.body.sender ≠ t.body.recipient := by
  have hall : withPending app t = [t] := by rw [withPending, hnone, List.nil_append]
  rw [hall]
  constructor
  · intro h
    have hahead := h (fun _ => ⟨fun _ => none, 0⟩) [] []
    rw [buildBody_eq] at hahead
    have hmem := (List.filter_sublist.subset (hahead.subset (by simp) :
      L2Tx.transfer t ∈ _) : L2Tx.transfer t ∈ body prim _ _ _ _)
    obtain ⟨s', hok⟩ := (allOk_accepted _ _).mem hmem
    exact ⟨TransferOk.amount hok, TransferOk.parties hok⟩
  · rintro ⟨hamount, hparties⟩ view moreMints moreTransfers
    rw [buildBody_eq]
    have hcandidates : candidates prim view ((app.push t).shared.mempool.mints ++ moreMints)
          ((app.push t).shared.mempool.transfers ++ moreTransfers)
        = (freshMints prim view 0 (app.shared.mempool.mints ++ moreMints)
            ++ app.shared.mempool.transfers.map L2Tx.transfer)
          ++ .transfer t :: moreTransfers.map L2Tx.transfer := by
      simp [candidates, AppState.push, AppState.setMempool]
    simp only [body, hcandidates]
    refine accepted_of_first (fun tx htx hsender => ?_) hadmissible hamount hparties ?_
    · rcases List.mem_append.mp htx with hmint | htransfer
      · rw [sender?_of_mem_freshMints hmint] at hsender
        cases hsender
      · obtain ⟨t', ht', rfl⟩ := List.mem_map.mp htransfer
        have hin : t' ∈ app.shared.mempool.transfersOf t.body.sender :=
          List.mem_filter.mpr ⟨ht', by simpa [L2Tx.sender?] using hsender⟩
        rw [hnone] at hin
        cases hin
    · simp only [Covered, hall, List.map_cons, List.map_nil, List.sum_singleton] at hcovered
      exact hcovered

/-- Of two transfers with one nonce, one is left out. -/
private theorem not_allApplied {t' : SignedTransfer} {rest : List SignedTransfer}
    {transfers : List SignedTransfer} (hfirst : transfers = t' :: rest) (hrest : rest ≠ [])
    (hnonce : ∀ t₁ ∈ transfers, t₁.body.nonce = app.shared.state.nonceOf t.body.sender) :
    ¬ AllApplied prim app t.body.sender transfers := by
  intro h
  obtain ⟨t₂, rest', rfl⟩ := List.exists_cons_of_ne_nil hrest
  have hahead := h (fun _ => ⟨fun _ => none, 0⟩) [] []
  rw [buildBody_eq, hfirst] at hahead
  obtain ⟨suffix, hsuffix⟩ := hahead
  have hsecond : t₂.body.nonce = app.shared.state.nonceOf t.body.sender + UInt64.ofNat 1 :=
    (allOk_accepted app.shared.state _).nonce_getElem (by rw [← body, ← hsuffix]; rfl)
  rw [hnonce t₂ (by simp [hfirst])] at hsecond
  exact absurd (UInt64.left_eq_add.mp hsecond) (by decide)

/-- **The advertised nonce works exactly when nothing of the sender waits.**  In every state the
sequencer can be in, for a correctly signed transfer with the advertised nonce: it is accepted,
and applied with those before it if covered, if and only if it is the sender's first in the
mempool and not one the ledger refuses anyway; or the nonce is at its end, where it is accepted
without being covered. -/
theorem advertised_nonce_iff (h : Reachable prim app)
    (hsigned : prim.verifySchnorr t.signature (t.body.sighash prim) t.body.sender = true)
    (hnonce : t.body.nonce = (getBalance prim t.body.sender app).effectiveNonce) :
    NonceWorks prim app t ↔
      (app.shared.mempool.transfersOf t.body.sender = [] ∧
        (Covered app t → t.body.amount ≠ 0 ∧ t.body.sender ≠ t.body.recipient)) ∨
      (app.shared.mempool.transfersOf t.body.sender ≠ [] ∧
        app.shared.state.nonceOf t.body.sender = UInt64.ofNat (2 ^ 64 - 1) ∧ ¬ Covered app t) := by
  have hadmitted := admitted_of_reachable h
  have heffective := @effectiveNonce_eq_iff prim _ hadmitted.room t.body.sender
  rw [← hnonce] at heffective
  have haccepted : (∀ now, (submitTransfer prim now t app).1.accepted = true) ↔
      t.body.nonce = app.shared.state.nonceOf t.body.sender :=
    ⟨fun hacc => (submitTransfer_accepted_iff.mp (hacc 0)).nonce,
      fun heq now => submitTransfer_accepted_iff.mpr ⟨hsigned, heq⟩⟩
  have hpush : t.body.nonce = app.shared.state.nonceOf t.body.sender →
      ∀ now, (submitTransfer prim now t app).2 = app.push t := by
    intro heq now
    rcases submitTransfer_cases prim now t app with ⟨-, -, hsnd⟩ | ⟨hno, -, -⟩
    · exact hsnd
    · exact absurd ⟨hsigned, heq⟩ hno
  by_cases hnone : app.shared.mempool.transfersOf t.body.sender = []
  · -- the sender's first: accepted, and applied like any transfer
    have heq := heffective.mpr (.inl hnone)
    simp only [hnone, true_and, ne_eq, not_true_eq_false, false_and, or_false]
    constructor
    · intro hworks hcovered
      have happlied := hworks.applied hcovered 0
      rw [hpush heq] at happlied
      exact (allApplied_iff_of_first hnone ⟨hsigned, heq⟩ hcovered).mp happlied
    · intro htaken
      refine ⟨haccepted.mpr heq, fun hcovered now => ?_⟩
      rw [hpush heq]
      exact (allApplied_iff_of_first hnone ⟨hsigned, heq⟩ hcovered).mpr (htaken hcovered)
  · simp only [hnone, false_and, false_or, ne_eq, not_false_eq_true, true_and]
    by_cases hend : app.shared.state.nonceOf t.body.sender = UInt64.ofNat (2 ^ 64 - 1)
    · -- the count saturates: accepted, but with a nonce that is taken
      have heq := heffective.mpr (.inr hend)
      simp only [hend, true_and]
      refine ⟨fun hworks hcovered => ?_, fun hcovered => ⟨haccepted.mpr heq,
        fun hcov => absurd hcov hcovered⟩⟩
      have happlied := hworks.applied hcovered 0
      rw [hpush heq] at happlied
      obtain ⟨t', rest, hrest⟩ := List.exists_cons_of_ne_nil hnone
      have hwaiting : withPending app t = t' :: (rest ++ [t]) := by
        rw [withPending, hrest, List.cons_append]
      refine not_allApplied hwaiting (by simp) (fun t₁ ht₁ => ?_) happlied
      rcases List.mem_append.mp ht₁ with hold | hnew
      · obtain ⟨hmem, hsender⟩ := List.mem_filter.mp hold
        have hsame : t₁.body.sender = t.body.sender := by simpa using hsender
        rw [(hadmitted.transfers t₁ hmem).nonce, hsame]
        rfl
      · rw [List.mem_singleton.mp hnew]
        exact heq
    · simp only [hend, false_and, iff_false]
      intro hworks
      rcases heffective.mp (haccepted.mp hworks.accepted) with hempty | hmax
      · exact hnone hempty
      · exact hend hmax

/-- A transfer of 500 atoms with a nonce, signed. -/
def smallTransfer (nonce : UInt64) : SignedTransfer :=
  let key : XOnlyPublicKey := ⟨ByteArr.ofNat 32 1⟩
  let body : TransferBody := ⟨key, ⟨ByteArr.ofNat 32 2⟩, 500, nonce⟩
  { body := body
    signature := ⟨((body.sighash Primitives.sample).bytes ++ key.bytes).cast
      Primitives.digest_and_key⟩ }

/-- With one transfer waiting, the next one, with the advertised nonce, is refused. -/
theorem advertised_nonce_refused : ∃ app, Reachable Primitives.sample app ∧
    Primitives.sample.verifySchnorr (smallTransfer 1).signature
      ((smallTransfer 1).body.sighash Primitives.sample) (smallTransfer 1).body.sender = true ∧
    (smallTransfer 1).body.nonce
      = (getBalance Primitives.sample (smallTransfer 1).body.sender app).effectiveNonce ∧
    (∀ now, (submitTransfer Primitives.sample now (smallTransfer 1) app).1.accepted = false) ∧
    ¬ NonceWorks Primitives.sample app (smallTransfer 1) := by
  obtain ⟨app, hstarted, hstate, hmempool, -⟩ := exists_started Primitives.sample sampleIdentity
  have hfirst : Admissible Primitives.sample app.shared.state (smallTransfer 0) := by
    rw [hstate]
    exact ⟨by decide +kernel, by decide⟩
  have hstep : Step Primitives.sample (fun _ _ => True) app
      (submitTransfer Primitives.sample 0 (smallTransfer 0) app).2 :=
    .submitTransfer 0 _ (by rw [hmempool]; decide)
  have hpush : (submitTransfer Primitives.sample 0 (smallTransfer 0) app).2
      = app.push (smallTransfer 0) := by
    rcases submitTransfer_cases Primitives.sample 0 (smallTransfer 0) app with
      ⟨-, -, heq⟩ | ⟨hno, -, -⟩
    · exact heq
    · exact absurd hfirst hno
  rw [hpush] at hstep
  have hrefused : ∀ now,
      (submitTransfer Primitives.sample now (smallTransfer 1)
        (app.push (smallTransfer 0))).1.accepted
        = false := by
    intro now
    rcases submitTransfer_cases Primitives.sample now (smallTransfer 1)
      (app.push (smallTransfer 0)) with ⟨hok, -, -⟩ | ⟨-, hacc, -⟩
    · have hnonce := hok.nonce
      rw [show (app.push (smallTransfer 0)).shared.state = app.shared.state from rfl,
        hstate] at hnonce
      exact absurd hnonce (by decide)
    · exact hacc
  refine ⟨app.push (smallTransfer 0), .step (.init hstarted) hstep, by decide +kernel, ?_, hrefused,
    fun h => ?_⟩
  · have heffective : (getBalance Primitives.sample (smallTransfer 1).body.sender
        (app.push (smallTransfer 0))).effectiveNonce
        = satAdd (app.shared.state.nonceOf (smallTransfer 1).body.sender)
            (UInt64.ofNat ((Mempool.mk app.shared.mempool.mints
              (app.shared.mempool.transfers ++ [smallTransfer 0])
              app.shared.mempool.pendingNullifiers).pendingFrom
            (smallTransfer 1).body.sender)) := rfl
    rw [heffective, hstate, hmempool]
    decide
  · have hacc := h.accepted 0
    rw [hrefused] at hacc
    cases hacc

/-- The first transfer of a sender, for which the nonce does work. -/
theorem advertised_nonce_first : ∃ app, Reachable Primitives.sample app ∧
    NonceWorks Primitives.sample app (smallTransfer 0) := by
  obtain ⟨app, hstarted, hstate, hmempool, -⟩ := exists_started Primitives.sample sampleIdentity
  have hnone : app.shared.mempool.transfersOf (smallTransfer 0).body.sender = [] := by
    rw [hmempool]
    rfl
  have heffective : (getBalance Primitives.sample (smallTransfer 0).body.sender app).effectiveNonce
      = satAdd (app.shared.state.nonceOf (smallTransfer 0).body.sender)
          (UInt64.ofNat (app.shared.mempool.pendingFrom (smallTransfer 0).body.sender)) := rfl
  refine ⟨app, .init hstarted, (advertised_nonce_iff (.init hstarted) (by decide +kernel) ?_).mpr
    (.inl ⟨hnone, fun _ => by decide⟩)⟩
  rw [heffective, hstate, hmempool]
  decide

end Hodlchain.Sequencer
