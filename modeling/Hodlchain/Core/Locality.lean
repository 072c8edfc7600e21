/-
A transaction reads and writes only the accounts it touches.

A light client replays a block in a ledger that holds only the touched accounts,
so everything it concludes rests on this: two ledgers that agree on the touched
accounts, the nullifiers and the fee address give one transaction one verdict and
agree again afterwards, and an account that is not touched keeps its value.
-/
import Hodlchain.Core.Witness

namespace Hodlchain

namespace LedgerState

/-! ### Reading after a write -/

@[simp] theorem updateAccount_get (s : LedgerState) (addr a : L2Address) (f : Account → Account) :
    (s.updateAccount addr f).accounts[a]?
      = if addr = a then some (f (s.accounts[addr]?.getD ⟨0, 0⟩)) else s.accounts[a]? := by
  simp only [updateAccount, Std.ExtTreeMap.getElem?_insert, Std.compare_eq_iff_eq]

@[simp] theorem updateAccount_consumedNullifiers (s : LedgerState) (addr : L2Address)
    (f : Account → Account) :
    (s.updateAccount addr f).consumedNullifiers = s.consumedNullifiers := rfl

@[simp] theorem updateAccount_totalMintedAtoms (s : LedgerState) (addr : L2Address)
    (f : Account → Account) :
    (s.updateAccount addr f).totalMintedAtoms = s.totalMintedAtoms := rfl

@[simp] theorem updateAccount_sequencerFeeAddress (s : LedgerState) (addr : L2Address)
    (f : Account → Account) :
    (s.updateAccount addr f).sequencerFeeAddress = s.sequencerFeeAddress := rfl

/-! ### Agreement -/

/-- Two ledgers that agree on the accounts of `r` and on everything else a
transaction reads. -/
structure AgreeOn (r : L2Address → Prop) (s t : LedgerState) : Prop where
  accounts : ∀ a, r a → s.accounts[a]? = t.accounts[a]?
  consumedNullifiers : s.consumedNullifiers = t.consumedNullifiers
  totalMintedAtoms : s.totalMintedAtoms = t.totalMintedAtoms
  sequencerFeeAddress : s.sequencerFeeAddress = t.sequencerFeeAddress

theorem AgreeOn.symm {r : L2Address → Prop} {s t : LedgerState} (h : AgreeOn r s t) :
    AgreeOn r t s :=
  ⟨fun a ha => (h.accounts a ha).symm, h.consumedNullifiers.symm, h.totalMintedAtoms.symm,
    h.sequencerFeeAddress.symm⟩

theorem AgreeOn.balanceOf {r : L2Address → Prop} {s t : LedgerState} (h : AgreeOn r s t)
    {a : L2Address} (ha : r a) : s.balanceOf a = t.balanceOf a := by
  rw [LedgerState.balanceOf, LedgerState.balanceOf, h.accounts a ha]

theorem AgreeOn.nonceOf {r : L2Address → Prop} {s t : LedgerState} (h : AgreeOn r s t)
    {a : L2Address} (ha : r a) : s.nonceOf a = t.nonceOf a := by
  rw [LedgerState.nonceOf, LedgerState.nonceOf, h.accounts a ha]

theorem AgreeOn.updateAccount {r : L2Address → Prop} {s t : LedgerState} (h : AgreeOn r s t)
    {addr : L2Address} (haddr : r addr) (f : Account → Account) :
    AgreeOn r (s.updateAccount addr f) (t.updateAccount addr f) where
  accounts a ha := by
    rw [updateAccount_get, updateAccount_get, h.accounts addr haddr, h.accounts a ha]
  consumedNullifiers := h.consumedNullifiers
  totalMintedAtoms := h.totalMintedAtoms
  sequencerFeeAddress := h.sequencerFeeAddress

theorem AgreeOn.credit {r : L2Address → Prop} {s t : LedgerState} (h : AgreeOn r s t)
    {addr : L2Address} (haddr : r addr) (amount : Amount) :
    AgreeOn r (s.credit addr amount) (t.credit addr amount) := h.updateAccount haddr _

theorem AgreeOn.applyMint {r : L2Address → Prop} {s t : LedgerState} (h : AgreeOn r s t)
    {entry : MintEntry} (hdest : r entry.event.l2Destination) :
    (s.applyMint entry).1 = (t.applyMint entry).1
      ∧ AgreeOn r (s.applyMint entry).2 (t.applyMint entry).2 := by
  simp only [LedgerState.applyMint, h.consumedNullifiers]
  by_cases hzero : entry.event.amount = 0
  · simp only [if_pos hzero, true_and]
    exact h
  · simp only [if_neg hzero]
    by_cases hseen : entry.event.nullifierHex ∈ t.consumedNullifiers
    · simp only [if_pos hseen, true_and]
      exact h
    · simp only [if_neg hseen, true_and]
      -- the nullifier goes in first, then the credit, then the running total
      have hset : AgreeOn r
          { s with consumedNullifiers := t.consumedNullifiers.insert entry.event.nullifierHex }
          { t with consumedNullifiers := t.consumedNullifiers.insert entry.event.nullifierHex } :=
        ⟨h.accounts, rfl, h.totalMintedAtoms, h.sequencerFeeAddress⟩
      have hcredit := hset.credit hdest entry.event.amount
      refine ⟨hcredit.accounts, hcredit.consumedNullifiers, ?_, hcredit.sequencerFeeAddress⟩
      show satAdd s.totalMintedAtoms _ = satAdd t.totalMintedAtoms _
      rw [h.totalMintedAtoms]

theorem AgreeOn.applyTransfer {prim : Primitives} {r : L2Address → Prop} {s t : LedgerState}
    (h : AgreeOn r s t) {tr : SignedTransfer} (hsender : r tr.body.sender)
    (hrecipient : r tr.body.recipient) (hfee : ∀ a, s.sequencerFeeAddress = some a → r a) :
    (s.applyTransfer prim tr).1 = (t.applyTransfer prim tr).1
      ∧ AgreeOn r (s.applyTransfer prim tr).2 (t.applyTransfer prim tr).2 := by
  simp only [LedgerState.applyTransfer, h.nonceOf hsender, h.balanceOf hsender]
  split_ifs
  · exact ⟨rfl, h⟩
  · exact ⟨rfl, h⟩
  · exact ⟨rfl, h⟩
  · exact ⟨rfl, h⟩
  · exact ⟨rfl, h⟩
  · have hpaid := (h.updateAccount hsender fun a =>
        { balance := a.balance - satAdd tr.body.amount (transferFee tr.body.amount)
          nonce := a.nonce + 1 }).credit hrecipient tr.body.amount
    have hs : ∀ (u : LedgerState) (f : Account → Account),
        ((u.updateAccount tr.body.sender f).credit tr.body.recipient
          tr.body.amount).sequencerFeeAddress = u.sequencerFeeAddress := fun _ _ => rfl
    simp only [hs]
    rw [← h.sequencerFeeAddress]
    cases hf : s.sequencerFeeAddress with
    | none => exact ⟨rfl, hpaid⟩
    | some feeAddr => exact ⟨rfl, hpaid.credit (hfee feeAddr hf) _⟩

/-- **One transaction, two ledgers**: agreeing on what it touches, they give it one
verdict and agree again. -/
theorem AgreeOn.apply {prim : Primitives} {r : L2Address → Prop} {s t : LedgerState}
    (h : AgreeOn r s t) {tx : L2Tx} (htx : ∀ a, tx.Touches s.sequencerFeeAddress a → r a) :
    (s.apply prim tx).1 = (t.apply prim tx).1
      ∧ AgreeOn r (s.apply prim tx).2 (t.apply prim tx).2 := by
  cases tx with
  | mint entry => exact h.applyMint (htx _ rfl)
  | transfer tr =>
      exact h.applyTransfer (htx _ (Or.inl rfl)) (htx _ (Or.inr (Or.inl rfl)))
        fun a ha => htx _ (Or.inr (Or.inr ha))

/-! ### What a transaction leaves alone -/

/-- The fee address never changes. -/
@[simp] theorem apply_sequencerFeeAddress (prim : Primitives) (s : LedgerState) (tx : L2Tx) :
    (s.apply prim tx).2.sequencerFeeAddress = s.sequencerFeeAddress := by
  cases tx with
  | mint entry =>
      simp only [LedgerState.apply, LedgerState.applyMint]
      split_ifs <;> rfl
  | transfer tr =>
      simp only [LedgerState.apply, LedgerState.applyTransfer]
      split_ifs <;> try rfl
      split <;> rfl

/-- **An untouched account keeps its value.** -/
theorem apply_get_of_untouched {prim : Primitives} {s : LedgerState} {tx : L2Tx} {a : L2Address}
    (h : ¬ tx.Touches s.sequencerFeeAddress a) :
    (s.apply prim tx).2.accounts[a]? = s.accounts[a]? := by
  cases tx with
  | mint entry =>
      have hdest : entry.event.l2Destination ≠ a := fun hc => h hc.symm
      simp only [LedgerState.apply, LedgerState.applyMint]
      split_ifs
      · rfl
      · rfl
      · simp only [credit, updateAccount_get, if_neg hdest]
  | transfer tr =>
      obtain ⟨hsender, hrecipient, hfee⟩ : tr.body.sender ≠ a ∧ tr.body.recipient ≠ a
          ∧ s.sequencerFeeAddress ≠ some a :=
        ⟨fun hc => h (Or.inl hc.symm), fun hc => h (Or.inr (Or.inl hc.symm)),
          fun hc => h (Or.inr (Or.inr hc))⟩
      simp only [LedgerState.apply, LedgerState.applyTransfer]
      split_ifs <;> try rfl
      split
      · rename_i feeAddr hf
        have hne : feeAddr ≠ a := by
          rintro rfl
          exact hfee hf
        simp only [credit, updateAccount_get, if_neg hne, if_neg hrecipient, if_neg hsender]
      · simp only [credit, updateAccount_get, if_neg hrecipient, if_neg hsender]

/-! ### Whole bodies -/

@[simp] theorem replayFrom_nil_ok {prim : Primitives} {i : Nat} {s s' : LedgerState} :
    s.replayFrom prim i [] = .ok s' ↔ s = s' := by simp [replayFrom]

/-- A body is replayed one accepted transaction at a time. -/
theorem replayFrom_cons_ok {prim : Primitives} {i : Nat} {s s' : LedgerState} {tx : L2Tx}
    {txs : List L2Tx} :
    s.replayFrom prim i (tx :: txs) = .ok s' ↔
      (s.apply prim tx).1 = .ok () ∧ (s.apply prim tx).2.replayFrom prim (i + 1) txs = .ok s' := by
  rw [replayFrom]
  rcases s.apply prim tx with ⟨res, s1⟩
  cases res with
  | error e => simp
  | ok u => simp

end LedgerState

end Hodlchain
