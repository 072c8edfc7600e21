/-
What a block body touches.

`touched_addresses` is what a light client fetches proofs for, so it has to be right
in both directions: everything a body reads or writes is in it, and everything in it
is there once the body is applied.  Two ledgers that agree on it cannot tell each
other apart while the body is applied to them.
-/
import Hodlchain.Core.Supply

namespace Hodlchain

namespace LedgerState

variable {prim : Primitives}

/-- The loop of `replayFrom` with the ledger it leaves, also where it stops. -/
def applyEach (prim : Primitives) :
    Nat → LedgerState → List L2Tx → Except (Nat × ApplyError) Unit × LedgerState
  | _, s, [] => (.ok (), s)
  | i, s, tx :: txs =>
      match s.apply prim tx with
      | (.error e, s') => (.error (i, e), s')
      | (.ok (), s') => applyEach prim (i + 1) s' txs

theorem applyEach_cons_ok {i : Nat} {s : LedgerState} {tx : L2Tx} {txs : List L2Tx}
    (h : s.TxOk prim tx) :
    applyEach prim i s (tx :: txs) = applyEach prim (i + 1) (s.after tx) txs := by
  rw [applyEach, apply_of_ok h]

theorem applyEach_cons_rejected {i : Nat} {s : LedgerState} {tx : L2Tx} {txs : List L2Tx}
    {e : ApplyError} (h : (s.apply prim tx).1 = .error e) :
    applyEach prim i s (tx :: txs) = (.error (i, e), s) := by
  have hsame := apply_of_error h
  rw [applyEach]
  rcases happly : s.apply prim tx with ⟨r, s'⟩
  rw [happly] at h hsame
  obtain rfl : r = .error e := h
  obtain rfl : s' = s := hsame
  rfl

/-- It answers what `replayFrom` does. -/
theorem replayFrom_eq_applyEach {i : Nat} {s : LedgerState} {txs : List L2Tx} :
    s.replayFrom prim i txs
      = (applyEach prim i s txs).1.map fun _ => (applyEach prim i s txs).2 := by
  induction txs generalizing i s with
  | nil => rfl
  | cons tx txs ih =>
      rw [replayFrom, applyEach]
      rcases s.apply prim tx with ⟨r, s'⟩
      cases r with
      | error e => rfl
      | ok _ => exact ih

theorem applyEach_eq_of_replayFrom {i : Nat} {s s' : LedgerState} {txs : List L2Tx}
    (h : s.replayFrom prim i txs = .ok s') : applyEach prim i s txs = (.ok (), s') := by
  rw [replayFrom_eq_applyEach] at h
  rcases happly : applyEach prim i s txs with ⟨r, s₁⟩
  rw [happly] at h
  cases r with
  | error e => cases h
  | ok _ =>
      obtain rfl : s₁ = s' := Except.ok.inj h
      rfl

/-! ### Presence -/

theorem mem_accounts_iff {s : LedgerState} {a : L2Address} :
    a ∈ s.accounts ↔ s.accounts[a]?.isSome = true := Std.ExtTreeMap.mem_iff_isSome_getElem?

/-- An update leaves every account there, and makes its own. -/
@[simp] theorem mem_updateAccount {s : LedgerState} {addr a : L2Address} {f : Account → Account} :
    a ∈ (s.updateAccount addr f).accounts ↔ addr = a ∨ a ∈ s.accounts := by
  rw [mem_accounts_iff, mem_accounts_iff, updateAccount_get]
  by_cases heq : addr = a
  · simp [heq]
  · simp [heq]

theorem mem_payFee {s : LedgerState} {fee : Amount} {a : L2Address} :
    a ∈ (s.payFee fee).accounts ↔ s.sequencerFeeAddress = some a ∨ a ∈ s.accounts := by
  unfold payFee
  cases s.sequencerFeeAddress with
  | none => simp
  | some feeAddr => simp [credit]

/-- **An accepted transaction makes present what it touches, and nothing else.** -/
theorem mem_after {s : LedgerState} {tx : L2Tx} {a : L2Address} :
    a ∈ (s.after tx).accounts ↔ tx.Touches s.sequencerFeeAddress a ∨ a ∈ s.accounts := by
  cases tx with
  | mint entry =>
      show a ∈ (s.credit entry.event.l2Destination entry.event.amount).accounts ↔ _
      unfold credit
      rw [mem_updateAccount, L2Tx.Touches, eq_comm]
  | transfer t =>
      show a ∈ (s.transferred t).accounts ↔ _
      unfold transferred
      rw [mem_payFee]
      simp only [credit, debit, mem_updateAccount, updateAccount_sequencerFeeAddress, L2Tx.Touches,
        eq_comm (a := a)]
      tauto

/-! ### Whole bodies -/

/-- An applied body leaves present everything that was or that it touches. -/
theorem mem_applyEach {i : Nat} {s : LedgerState} {txs : List L2Tx}
    (hok : (applyEach prim i s txs).1 = .ok ()) {a : L2Address} :
    a ∈ (applyEach prim i s txs).2.accounts ↔
      (∃ tx ∈ txs, tx.Touches s.sequencerFeeAddress a) ∨ a ∈ s.accounts := by
  induction txs generalizing i s with
  | nil => simp [applyEach]
  | cons tx txs ih =>
      rcases apply_cases prim s tx with ⟨htx, -⟩ | ⟨-, e, herror⟩
      · have hfee := apply_sequencerFeeAddress prim s tx
        rw [apply_of_ok htx] at hfee
        rw [applyEach_cons_ok htx] at hok ⊢
        rw [ih hok, hfee, mem_after]
        simp only [List.mem_cons, exists_eq_or_imp]
        exact or_left_comm.trans or_assoc.symm
      · rw [applyEach_cons_rejected (congrArg Prod.fst herror)] at hok
        cases hok

/-- **One body, two ledgers**: agreeing on what it touches, they stop at one place or not at all,
and agree again. -/
theorem AgreeOn.applyEach {r : L2Address → Prop} {s t : LedgerState} {i : Nat} {txs : List L2Tx}
    (h : AgreeOn r s t) (htouch : ∀ tx ∈ txs, ∀ a, tx.Touches s.sequencerFeeAddress a → r a) :
    (applyEach prim i s txs).1 = (applyEach prim i t txs).1 ∧
      AgreeOn r (applyEach prim i s txs).2 (applyEach prim i t txs).2 := by
  induction txs generalizing i s t with
  | nil => exact ⟨rfl, h⟩
  | cons tx txs ih =>
      obtain ⟨hres, hagree⟩ := @AgreeOn.apply prim _ _ _ h tx (htouch tx List.mem_cons_self)
      have hfee := apply_sequencerFeeAddress prim s tx
      rcases apply_cases prim s tx with ⟨htx, happly⟩ | ⟨-, e, herror⟩
      · have htx' : t.TxOk prim tx := apply_ok_iff.mp (hres ▸ congrArg Prod.fst happly)
        rw [apply_of_ok htx, apply_of_ok htx'] at hagree
        rw [apply_of_ok htx] at hfee
        rw [applyEach_cons_ok htx, applyEach_cons_ok htx']
        refine ih hagree fun tx' hin a ha => ?_
        rw [hfee] at ha
        exact htouch tx' (List.mem_cons_of_mem _ hin) a ha
      · have herror' : (s.apply prim tx).1 = .error e := congrArg Prod.fst herror
        rw [applyEach_cons_rejected herror', applyEach_cons_rejected (hres ▸ herror')]
        exact ⟨rfl, h⟩

/-- An account that a body does not touch keeps its value. -/
theorem applyEach_get_of_untouched {i : Nat} {s : LedgerState} {txs : List L2Tx} {a : L2Address}
    (h : ∀ tx ∈ txs, ¬ tx.Touches s.sequencerFeeAddress a) :
    (applyEach prim i s txs).2.accounts[a]? = s.accounts[a]? := by
  induction txs generalizing i s with
  | nil => rfl
  | cons tx txs ih =>
      have hget : (s.apply prim tx).2.accounts[a]? = s.accounts[a]? :=
        apply_get_of_untouched (h tx List.mem_cons_self)
      have hfee := apply_sequencerFeeAddress prim s tx
      rcases apply_cases prim s tx with ⟨htx, -⟩ | ⟨-, e, herror⟩
      · rw [apply_of_ok htx] at hget hfee
        rw [applyEach_cons_ok htx, ih, hget]
        intro tx' hin
        rw [hfee]
        exact h tx' (List.mem_cons_of_mem _ hin)
      · rw [applyEach_cons_rejected (congrArg Prod.fst herror)]

/-- **Two ledgers that agree on what a body touches replay it alike.** -/
theorem replayFrom_agree {r : L2Address → Prop} {s t s' : LedgerState} {i : Nat} {txs : List L2Tx}
    (h : AgreeOn r s t) (htouch : ∀ tx ∈ txs, ∀ a, tx.Touches s.sequencerFeeAddress a → r a)
    (hs : s.replayFrom prim i txs = .ok s') :
    ∃ t', t.replayFrom prim i txs = .ok t' ∧ AgreeOn r s' t' := by
  obtain ⟨hres, hagree⟩ := @AgreeOn.applyEach prim _ _ _ i _ h htouch
  rw [applyEach_eq_of_replayFrom hs] at hres hagree
  refine ⟨(applyEach prim i t txs).2, ?_, hagree⟩
  rw [replayFrom_eq_applyEach, ← hres]
  rfl

theorem replayFrom_get_of_untouched {s s' : LedgerState} {i : Nat} {txs : List L2Tx}
    {a : L2Address} (h : ∀ tx ∈ txs, ¬ tx.Touches s.sequencerFeeAddress a)
    (hs : s.replayFrom prim i txs = .ok s') : s'.accounts[a]? = s.accounts[a]? := by
  have hsame := @applyEach_get_of_untouched prim i _ _ _ h
  rwa [applyEach_eq_of_replayFrom hs] at hsame

/-- **`touched_addresses` covers what a body reads and writes, and no more.**  Two ledgers that
agree on it, on the nullifiers, the total and the fee address answer alike and agree again; neither
changes an account outside it; and when the body is applied in full all of it is there. -/
theorem touched_covers (prim : Primitives) (txs : List L2Tx) {s t : LedgerState}
    (h : AgreeOn (· ∈ touchedAddresses txs s.sequencerFeeAddress) s t) :
    (applyEach prim 0 s txs).1 = (applyEach prim 0 t txs).1 ∧
    AgreeOn (· ∈ touchedAddresses txs s.sequencerFeeAddress)
      (applyEach prim 0 s txs).2 (applyEach prim 0 t txs).2 ∧
    ∀ u, u = s ∨ u = t →
      (∀ a, a ∉ touchedAddresses txs s.sequencerFeeAddress →
        (applyEach prim 0 u txs).2.accounts[a]? = u.accounts[a]?) ∧
      ((applyEach prim 0 u txs).1 = .ok () →
        ∀ a ∈ touchedAddresses txs s.sequencerFeeAddress,
          a ∈ (applyEach prim 0 u txs).2.accounts) := by
  have hagree := @AgreeOn.applyEach prim _ s t 0 txs h
    fun tx htx a ha => mem_touchedAddresses.mpr ⟨tx, htx, ha⟩
  refine ⟨hagree.1, hagree.2, fun u hu => ?_⟩
  have hfee : u.sequencerFeeAddress = s.sequencerFeeAddress := by
    rcases hu with rfl | rfl
    · rfl
    · exact h.sequencerFeeAddress.symm
  constructor
  · intro a ha
    refine applyEach_get_of_untouched fun tx htx hc => ha ?_
    rw [hfee] at hc
    exact mem_touchedAddresses.mpr ⟨tx, htx, hc⟩
  · intro hok a ha
    refine (mem_applyEach hok).mpr (.inl ?_)
    rw [hfee]
    exact mem_touchedAddresses.mp ha

/-- A ledger with one account, and the same with an account that the body does not touch. -/
theorem touched_covers_stranger :
    let s := (start (some ⟨ByteArr.ofNat 32 3⟩)).after (.mint thousandMint)
    let txs := [L2Tx.transfer (sampleTransfer 1 2 100 0)]
    (applyEach Primitives.sample 0 s txs).1 = .ok () ∧
      (applyEach Primitives.sample 0 (s.credit ⟨ByteArr.ofNat 32 9⟩ 5) txs).1 = .ok () := by
  intro s txs
  have hagree : AgreeOn (· ∈ touchedAddresses txs s.sequencerFeeAddress) s
      (s.credit ⟨ByteArr.ofNat 32 9⟩ 5) := by
    refine ⟨fun a ha => ?_, rfl, rfl, rfl⟩
    obtain ⟨tx, htx, htouch⟩ := mem_touchedAddresses.mp ha
    obtain rfl := List.mem_singleton.mp htx
    unfold credit
    rw [updateAccount_get, if_neg]
    rintro rfl
    revert htouch
    unfold L2Tx.Touches
    decide
  have hok : (applyEach Primitives.sample 0 s txs).1 = .ok () := by decide +kernel
  exact ⟨hok, (touched_covers Primitives.sample txs hagree).1.symm.trans hok⟩

end LedgerState

end Hodlchain
