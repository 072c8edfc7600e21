/-
What one transaction does to the ledger, said once.

An accepted mint passes two checks and makes one credit; an accepted transfer
passes five and makes a debit, a credit and the fee's credit, in that order and
on accounts that may coincide.  A rejected transaction changes nothing.  Every
invariant of the ledger is derived from these and none of them unfolds `apply`
again.
-/
import Hodlchain.Core.Locality

namespace Hodlchain

namespace LedgerState

/-- The sender's side of a transfer: `from.balance -= total; from.nonce += 1`. -/
def debit (s : LedgerState) (addr : L2Address) (total : Amount) : LedgerState :=
  s.updateAccount addr fun a => { balance := a.balance - total, nonce := a.nonce + 1 }

/-- The fee's side of a transfer. -/
def payFee (s : LedgerState) (fee : Amount) : LedgerState :=
  match s.sequencerFeeAddress with
  | some feeAddr => s.credit feeAddr fee
  | none => s

/-- What a sender is charged. -/
def transferTotal (amount : Amount) : Amount := satAdd amount (transferFee amount)

/-- The checks an accepted mint passes. -/
structure MintOk (s : LedgerState) (entry : MintEntry) : Prop where
  amount : entry.event.amount ≠ 0
  fresh : entry.event.nullifierHex ∉ s.consumedNullifiers

/-- The checks an accepted transfer passes. -/
structure TransferOk (prim : Primitives) (s : LedgerState) (t : SignedTransfer) : Prop where
  amount : t.body.amount ≠ 0
  parties : t.body.sender ≠ t.body.recipient
  nonce : t.body.nonce = s.nonceOf t.body.sender
  signed : prim.verifySchnorr t.signature (t.body.sighash prim) t.body.sender = true
  covered : transferTotal t.body.amount ≤ s.balanceOf t.body.sender

/-- A mint's credit and its two records. -/
def minted (s : LedgerState) (entry : MintEntry) : LedgerState :=
  let ev := entry.event
  { s.credit ev.l2Destination ev.amount with
    consumedNullifiers := s.consumedNullifiers.insert ev.nullifierHex
    totalMintedAtoms := satAdd s.totalMintedAtoms ev.amount }

/-- A transfer's three updates. -/
def transferred (s : LedgerState) (t : SignedTransfer) : LedgerState :=
  ((s.debit t.body.sender (transferTotal t.body.amount)).credit t.body.recipient
    t.body.amount).payFee (transferFee t.body.amount)

/-- The checks an accepted transaction passes. -/
def TxOk (prim : Primitives) (s : LedgerState) : L2Tx → Prop
  | .mint entry => s.MintOk entry
  | .transfer t => s.TransferOk prim t

/-- What an accepted transaction leaves. -/
def after (s : LedgerState) : L2Tx → LedgerState
  | .mint entry => s.minted entry
  | .transfer t => s.transferred t

variable {prim : Primitives}

private theorem applyMint_cases (s : LedgerState) (entry : MintEntry) :
    (s.MintOk entry ∧ s.applyMint entry = (.ok (), s.minted entry)) ∨
      (¬ s.MintOk entry ∧ ∃ e, s.applyMint entry = (.error e, s)) := by
  simp only [applyMint]
  split_ifs with h0 hdup
  · exact .inr ⟨fun h => h.amount h0, _, rfl⟩
  · exact .inr ⟨fun h => h.fresh hdup, _, rfl⟩
  · exact .inl ⟨⟨h0, hdup⟩, rfl⟩

private theorem payFee_eq (s : LedgerState) (fee : Amount) :
    (match s.sequencerFeeAddress with
      | some feeAddr => ((.ok (), s.credit feeAddr fee) : Except ApplyError Unit × LedgerState)
      | none => (.ok (), s)) = (.ok (), s.payFee fee) := by
  rw [payFee]
  cases s.sequencerFeeAddress <;> rfl

private theorem applyTransfer_cases (s : LedgerState) (t : SignedTransfer) :
    (s.TransferOk prim t ∧ s.applyTransfer prim t = (.ok (), s.transferred t)) ∨
      (¬ s.TransferOk prim t ∧ ∃ e, s.applyTransfer prim t = (.error e, s)) := by
  simp only [applyTransfer]
  split_ifs with h0 hself hnonce hsig hbal
  · exact .inr ⟨fun h => h.amount h0, _, rfl⟩
  · exact .inr ⟨fun h => h.parties hself, _, rfl⟩
  · exact .inr ⟨fun h => hnonce h.nonce, _, rfl⟩
  · refine .inr ⟨fun h => ?_, _, rfl⟩
    simp [h.signed] at hsig
  · exact .inr ⟨fun h => UInt64.not_lt.mpr h.covered hbal, _, rfl⟩
  · exact .inl ⟨⟨h0, hself, not_not.mp hnonce, by simpa using hsig, UInt64.not_lt.mp hbal⟩,
      payFee_eq _ _⟩

/-- **A step either passes its checks and does its updates, or changes nothing.** -/
theorem apply_cases (prim : Primitives) (s : LedgerState) (tx : L2Tx) :
    (s.TxOk prim tx ∧ s.apply prim tx = (.ok (), s.after tx)) ∨
      (¬ s.TxOk prim tx ∧ ∃ e, s.apply prim tx = (.error e, s)) := by
  cases tx with
  | mint entry => exact applyMint_cases s entry
  | transfer t => exact applyTransfer_cases s t

theorem apply_ok_iff {s : LedgerState} {tx : L2Tx} :
    (s.apply prim tx).1 = .ok () ↔ s.TxOk prim tx := by
  rcases apply_cases prim s tx with ⟨hok, heq⟩ | ⟨hno, e, heq⟩
  · simp [heq, hok]
  · simp [heq, hno]

theorem apply_of_ok {s : LedgerState} {tx : L2Tx} (h : s.TxOk prim tx) :
    s.apply prim tx = (.ok (), s.after tx) := by
  rcases apply_cases prim s tx with ⟨_, heq⟩ | ⟨hno, _⟩
  · exact heq
  · exact absurd h hno

/-- A rejected transaction changes nothing. -/
theorem apply_of_error {s : LedgerState} {tx : L2Tx} {e : ApplyError}
    (h : (s.apply prim tx).1 = .error e) : (s.apply prim tx).2 = s := by
  rcases apply_cases prim s tx with ⟨_, heq⟩ | ⟨_, e', heq⟩
  · simp [heq] at h
  · rw [heq]

/-! ### Reading balances and nonces after an update -/

@[simp] theorem updateAccount_balanceOf (s : LedgerState) (addr a : L2Address)
    (f : Account → Account) :
    (s.updateAccount addr f).balanceOf a
      = if addr = a then (f (s.accounts[addr]?.getD ⟨0, 0⟩)).balance else s.balanceOf a := by
  simp only [balanceOf, updateAccount_get]
  split_ifs <;> simp

@[simp] theorem updateAccount_nonceOf (s : LedgerState) (addr a : L2Address)
    (f : Account → Account) :
    (s.updateAccount addr f).nonceOf a
      = if addr = a then (f (s.accounts[addr]?.getD ⟨0, 0⟩)).nonce else s.nonceOf a := by
  simp only [nonceOf, updateAccount_get]
  split_ifs <;> simp

theorem getD_balance (s : LedgerState) (a : L2Address) :
    (s.accounts[a]?.getD ⟨0, 0⟩).balance = s.balanceOf a := by
  simp only [balanceOf]
  cases s.accounts[a]? <;> rfl

theorem getD_nonce (s : LedgerState) (a : L2Address) :
    (s.accounts[a]?.getD ⟨0, 0⟩).nonce = s.nonceOf a := by
  simp only [nonceOf]
  cases s.accounts[a]? <;> rfl

@[simp] theorem credit_balanceOf (s : LedgerState) (addr a : L2Address) (amount : Amount) :
    (s.credit addr amount).balanceOf a
      = if addr = a then satAdd (s.balanceOf a) amount else s.balanceOf a := by
  simp only [credit, updateAccount_balanceOf, getD_balance]
  split_ifs with h
  · rw [h]
  · rfl

@[simp] theorem credit_nonceOf (s : LedgerState) (addr a : L2Address) (amount : Amount) :
    (s.credit addr amount).nonceOf a = s.nonceOf a := by
  simp only [credit, updateAccount_nonceOf, getD_nonce]
  split_ifs with h
  · rw [h]
  · rfl

@[simp] theorem debit_balanceOf (s : LedgerState) (addr a : L2Address) (total : Amount) :
    (s.debit addr total).balanceOf a
      = if addr = a then s.balanceOf a - total else s.balanceOf a := by
  simp only [debit, updateAccount_balanceOf, getD_balance]
  split_ifs with h
  · rw [h]
  · rfl

@[simp] theorem debit_nonceOf (s : LedgerState) (addr a : L2Address) (total : Amount) :
    (s.debit addr total).nonceOf a = if addr = a then s.nonceOf a + 1 else s.nonceOf a := by
  simp only [debit, updateAccount_nonceOf, getD_nonce]
  split_ifs with h
  · rw [h]
  · rfl

@[simp] theorem payFee_nonceOf (s : LedgerState) (fee : Amount) (a : L2Address) :
    (s.payFee fee).nonceOf a = s.nonceOf a := by
  rw [payFee]
  cases s.sequencerFeeAddress <;> simp

@[simp] theorem payFee_totalMintedAtoms (s : LedgerState) (fee : Amount) :
    (s.payFee fee).totalMintedAtoms = s.totalMintedAtoms := by
  rw [payFee]
  cases s.sequencerFeeAddress <;> rfl

theorem transferred_totalMintedAtoms (s : LedgerState) (t : SignedTransfer) :
    (s.transferred t).totalMintedAtoms = s.totalMintedAtoms := by
  unfold transferred
  rw [payFee_totalMintedAtoms]
  rfl

@[simp] theorem payFee_consumedNullifiers (s : LedgerState) (fee : Amount) :
    (s.payFee fee).consumedNullifiers = s.consumedNullifiers := by
  rw [payFee]
  cases s.sequencerFeeAddress <;> rfl

end LedgerState

end Hodlchain
