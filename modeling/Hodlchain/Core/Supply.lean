/-
Supply: what the balances of a ledger add up to, over a whole run.

Each update of the ledger changes one account, and moves the sum of all balances
by what it adds to or takes from that account; three of them in a row need no case
for accounts that coincide.  That the sums fit is where the bound on the mints
comes in: it keeps every balance below `u64::MAX`, so a saturated total is more
than any sender has.
-/
import Hodlchain.Core.Effect
import Hodlchain.Core.Proof
import Hodlchain.Lib.Table

namespace Hodlchain

open Bytes

namespace LedgerState

/-- The exact sum of all account balances. -/
def supply (s : LedgerState) : ℕ := tableSum (fun a => a.balance.toNat) s.accounts

/-- `apply` on each transaction in turn, whatever it answers. -/
def applyAll (prim : Primitives) (s : LedgerState) (txs : List L2Tx) : LedgerState :=
  txs.foldl (fun s tx => (s.apply prim tx).2) s

/-- What a transaction mints, if it is accepted. -/
def acceptedMint (prim : Primitives) (s : LedgerState) (tx : L2Tx) : ℕ :=
  match tx, (s.apply prim tx).1 with
  | .mint entry, .ok () => entry.event.amount.toNat
  | _, _ => 0

/-- The fee a transaction pays, if it is accepted. -/
def acceptedFee (prim : Primitives) (s : LedgerState) (tx : L2Tx) : ℕ :=
  match tx, (s.apply prim tx).1 with
  | .transfer t, .ok () => (transferFee t.body.amount).toNat
  | _, _ => 0

/-- The amounts of the accepted mints of a run, summed. -/
def mintSum (prim : Primitives) : LedgerState → List L2Tx → ℕ
  | _, [] => 0
  | s, tx :: txs => s.acceptedMint prim tx + mintSum prim (s.apply prim tx).2 txs

/-- The fees of the accepted transfers of a run, summed. -/
def feeSum (prim : Primitives) : LedgerState → List L2Tx → ℕ
  | _, [] => 0
  | s, tx :: txs => s.acceptedFee prim tx + feeSum prim (s.apply prim tx).2 txs

/-! ### The ledger in checked arithmetic -/

/-- `u64::checked_add`. -/
def checkedAdd (a b : UInt64) : Option UInt64 :=
  if a.toNat + b.toNat < 2 ^ 64 then some (a + b) else none

/-- `u64::checked_sub`. -/
def checkedSub (a b : UInt64) : Option UInt64 := if b ≤ a then some (a - b) else none

/-- `credit`, unless the addition would saturate. -/
def creditChecked (s : LedgerState) (addr : L2Address) (amount : Amount) : Option LedgerState :=
  (checkedAdd (s.balanceOf addr) amount).map fun balance =>
    s.updateAccount addr fun a => { a with balance := balance }

/-- `debit`, unless the subtraction would underflow. -/
def debitChecked (s : LedgerState) (addr : L2Address) (total : Amount) : Option LedgerState :=
  (checkedSub (s.balanceOf addr) total).map fun balance =>
    s.updateAccount addr fun a => { balance := balance, nonce := a.nonce + 1 }

/-- `apply_mint` with each of its additions checked. -/
def applyMintChecked (s : LedgerState) (entry : MintEntry) :
    Option (Except ApplyError Unit × LedgerState) :=
  let ev := entry.event
  if ev.amount = 0 then some (.error .zeroAmount, s)
  else if ev.nullifierHex ∈ s.consumedNullifiers then some (.error .doubleMint, s)
  else
    let s := { s with consumedNullifiers := s.consumedNullifiers.insert ev.nullifierHex }
    (s.creditChecked ev.l2Destination ev.amount).bind fun s =>
      (checkedAdd s.totalMintedAtoms ev.amount).map fun totalMinted =>
        (.ok (), { s with totalMintedAtoms := totalMinted })

/-- `apply_transfer` with each of its additions, and its subtraction, checked. -/
def applyTransferChecked (prim : Primitives) (s : LedgerState) (t : SignedTransfer) :
    Option (Except ApplyError Unit × LedgerState) :=
  if t.body.amount = 0 then some (.error .zeroAmount, s)
  else if t.body.sender = t.body.recipient then some (.error .selfTransfer, s)
  else
    let expectedNonce := s.nonceOf t.body.sender
    if t.body.nonce ≠ expectedNonce then some (.error (.badNonce expectedNonce t.body.nonce), s)
    else if !prim.verifySchnorr t.signature (t.body.sighash prim) t.body.sender then
      some (.error .badSignature, s)
    else
      let fee := transferFee t.body.amount
      (checkedAdd t.body.amount fee).bind fun total =>
        if s.balanceOf t.body.sender < total then some (.error .insufficientBalance, s)
        else
          (s.debitChecked t.body.sender total).bind fun s =>
            (s.creditChecked t.body.recipient t.body.amount).bind fun s =>
              match s.sequencerFeeAddress with
              | some feeAddr => (s.creditChecked feeAddr fee).map fun s => (.ok (), s)
              | none => some (.ok (), s)

/-- `LedgerState::apply` in checked arithmetic: `none` where an addition would
saturate or the subtraction underflow. -/
def applyChecked (prim : Primitives) (s : LedgerState) (tx : L2Tx) :
    Option (Except ApplyError Unit × LedgerState) :=
  match tx with
  | .mint entry => s.applyMintChecked entry
  | .transfer t => s.applyTransferChecked prim t

theorem checkedAdd_of_lt {a b : UInt64} (h : a.toNat + b.toNat < 2 ^ 64) :
    checkedAdd a b = some (satAdd a b) := by
  rw [checkedAdd, satAdd, if_pos h, if_pos h]

theorem toNat_satAdd_of_lt {a b : UInt64} (h : a.toNat + b.toNat < 2 ^ 64) :
    (satAdd a b).toNat = a.toNat + b.toNat := by
  rw [satAdd, if_pos h, UInt64.toNat_add, Nat.mod_eq_of_lt h]

theorem toNat_satAdd (a b : UInt64) :
    (satAdd a b).toNat = min (a.toNat + b.toNat) (2 ^ 64 - 1) := by
  unfold satAdd
  by_cases hfit : a.toNat + b.toNat < 2 ^ 64
  · rw [if_pos hfit, UInt64.toNat_add, Nat.mod_eq_of_lt hfit]
    omega
  · rw [if_neg hfit, UInt64.toNat_ofNat_of_lt' (by decide)]
    omega

/-- A saturated sum is `u64::MAX`. -/
theorem lt_of_satAdd_lt {a b : UInt64} (h : (satAdd a b).toNat < 2 ^ 64 - 1) :
    a.toNat + b.toNat < 2 ^ 64 := by
  by_contra hge
  rw [satAdd, if_neg hge] at h
  simp at h

/-! ### One update -/

theorem balanceOf_le_supply (s : LedgerState) (a : L2Address) :
    (s.balanceOf a).toNat ≤ s.supply := by
  have h := le_tableSum (fun acct : Account => acct.balance.toNat) s.accounts a
  simp only [balanceOf, supply]
  cases hacct : s.accounts[a]? with
  | none => simp
  | some acct => simpa [hacct] using h

private theorem supply_updateAccount (s : LedgerState) (addr : L2Address) (f : Account → Account) :
    (s.updateAccount addr f).supply + (s.balanceOf addr).toNat
      = s.supply + (f (s.accounts[addr]?.getD ⟨0, 0⟩)).balance.toNat := by
  have h := tableSum_insert (fun acct : Account => acct.balance.toNat) s.accounts addr
    (f (s.accounts[addr]?.getD ⟨0, 0⟩))
  have hold : (s.accounts[addr]?.map fun acct : Account => acct.balance.toNat).getD 0
      = (s.balanceOf addr).toNat := by
    rw [balanceOf]
    cases s.accounts[addr]? <;> rfl
  rw [hold] at h
  exact h

/-- A credit that fits adds its amount, whichever account it is to. -/
theorem supply_credit {s : LedgerState} {addr : L2Address} {amount : Amount}
    (hfit : s.supply + amount.toNat < 2 ^ 64) :
    (s.credit addr amount).supply = s.supply + amount.toNat := by
  have hle := s.balanceOf_le_supply addr
  have h := s.supply_updateAccount addr fun a => { a with balance := satAdd a.balance amount }
  simp only [getD_balance] at h
  rw [toNat_satAdd_of_lt (by omega)] at h
  rw [credit]
  omega

/-- A covered debit takes its total away. -/
theorem supply_debit {s : LedgerState} {addr : L2Address} {total : Amount}
    (hcov : total ≤ s.balanceOf addr) : (s.debit addr total).supply + total.toNat = s.supply := by
  have h := s.supply_updateAccount addr fun a =>
    { balance := a.balance - total, nonce := a.nonce + 1 }
  simp only [getD_balance] at h
  rw [UInt64.toNat_sub_of_le _ _ hcov] at h
  have hle := UInt64.le_iff_toNat_le.mp hcov
  rw [debit]
  omega

theorem creditChecked_eq {s : LedgerState} {addr : L2Address} {amount : Amount}
    (hfit : s.supply + amount.toNat < 2 ^ 64) :
    s.creditChecked addr amount = some (s.credit addr amount) := by
  have hle := s.balanceOf_le_supply addr
  rw [creditChecked, checkedAdd_of_lt (by omega), Option.map_some, credit, updateAccount,
    updateAccount, getD_balance]

theorem debitChecked_eq {s : LedgerState} {addr : L2Address} {total : Amount}
    (hcov : total ≤ s.balanceOf addr) : s.debitChecked addr total = some (s.debit addr total) := by
  rw [debitChecked, checkedSub, if_pos hcov, Option.map_some, debit, updateAccount,
    updateAccount, getD_balance]

/-- What the fee adds to the supply: nothing when it is burned. -/
def creditedFee (s : LedgerState) (fee : Amount) : ℕ :=
  if s.sequencerFeeAddress.isSome then fee.toNat else 0

theorem supply_payFee {s : LedgerState} {fee : Amount} (hfit : s.supply + fee.toNat < 2 ^ 64) :
    (s.payFee fee).supply = s.supply + s.creditedFee fee := by
  rw [payFee, creditedFee]
  cases haddr : s.sequencerFeeAddress with
  | none => rfl
  | some feeAddr => exact supply_credit hfit

/-! ### One step -/

variable {prim : Primitives}

/-- What an accepted transfer moves: its total is exact and the sender has it. -/
theorem TransferOk.moves {s : LedgerState} {t : SignedTransfer} (h : s.TransferOk prim t)
    (hs : s.supply < 2 ^ 64 - 1) :
    t.body.amount.toNat + (transferFee t.body.amount).toNat < 2 ^ 64 ∧
      (transferTotal t.body.amount).toNat
        = t.body.amount.toNat + (transferFee t.body.amount).toNat ∧
      (transferTotal t.body.amount).toNat ≤ s.supply := by
  have hcov := UInt64.le_iff_toNat_le.mp h.covered
  have hle := s.balanceOf_le_supply t.body.sender
  have hfit := lt_of_satAdd_lt (a := t.body.amount) (b := transferFee t.body.amount)
    (show (transferTotal t.body.amount).toNat < 2 ^ 64 - 1 by omega)
  exact ⟨hfit, toNat_satAdd_of_lt hfit, by omega⟩

/-- An accepted mint adds its amount. -/
theorem supply_minted {s : LedgerState} {entry : MintEntry}
    (hfit : s.supply + entry.event.amount.toNat < 2 ^ 64) :
    (s.minted entry).supply = s.supply + entry.event.amount.toNat :=
  supply_credit hfit

/-- An accepted transfer moves its amount, and its fee leaves the balances only when
it is burned. -/
theorem supply_transferred {s : LedgerState} {t : SignedTransfer} (h : s.TransferOk prim t)
    (hs : s.supply < 2 ^ 64 - 1) :
    (s.transferred t).supply + (transferFee t.body.amount).toNat
      = s.supply + s.creditedFee (transferFee t.body.amount) := by
  obtain ⟨hfit, htotal, hle⟩ := h.moves hs
  have hdebit := supply_debit h.covered
  have hcredit : ((s.debit t.body.sender (transferTotal t.body.amount)).credit t.body.recipient
      t.body.amount).supply
      = (s.debit t.body.sender (transferTotal t.body.amount)).supply + t.body.amount.toNat :=
    supply_credit (by omega)
  have hfee := @supply_payFee ((s.debit t.body.sender (transferTotal t.body.amount)).credit
    t.body.recipient t.body.amount) (transferFee t.body.amount) (by omega)
  have haddr : creditedFee ((s.debit t.body.sender (transferTotal t.body.amount)).credit
      t.body.recipient t.body.amount) (transferFee t.body.amount)
      = s.creditedFee (transferFee t.body.amount) := rfl
  rw [transferred]
  omega

/-- The books of a run: what was minted so far is what the ledger says, and is in
the balances or was burned. -/
structure Books (s : LedgerState) (mints fees : ℕ) : Prop where
  total : s.totalMintedAtoms.toNat = mints
  supply : s.supply + (if s.sequencerFeeAddress.isSome then 0 else fees) = mints

theorem Books.supply_le {s : LedgerState} {mints fees : ℕ} (h : s.Books mints fees) :
    s.supply ≤ mints := by
  have := h.supply
  omega

/-- **A step keeps the books.** -/
theorem Books.step {s : LedgerState} {mints fees : ℕ} {tx : L2Tx} (h : s.Books mints fees)
    (hlt : mints + s.acceptedMint prim tx < 2 ^ 64 - 1) :
    Books (s.apply prim tx).2 (mints + s.acceptedMint prim tx) (fees + s.acceptedFee prim tx) := by
  have hle := h.supply_le
  rcases apply_cases prim s tx with ⟨hok, heq⟩ | ⟨_, e, heq⟩
  · cases tx with
    | mint entry =>
        have hmint : s.acceptedMint prim (.mint entry) = entry.event.amount.toNat := by
          simp [acceptedMint, heq]
        have hfee : s.acceptedFee prim (.mint entry) = 0 := by simp [acceptedFee]
        rw [hmint] at hlt
        rw [heq, hmint, hfee]
        constructor
        · have htotal := h.total
          exact (toNat_satAdd_of_lt (by omega)).trans (by omega)
        · have hsupply := @supply_minted s entry (by omega)
          have hold := h.supply
          have haddr : (s.minted entry).sequencerFeeAddress = s.sequencerFeeAddress := rfl
          simp only [after, haddr]
          split_ifs at hold ⊢ <;> omega
    | transfer t =>
        have hmint : s.acceptedMint prim (.transfer t) = 0 := by simp [acceptedMint]
        have hfee : s.acceptedFee prim (.transfer t) = (transferFee t.body.amount).toNat := by
          simp [acceptedFee, heq]
        rw [hmint] at hlt
        have haddr : (s.transferred t).sequencerFeeAddress = s.sequencerFeeAddress := by
          have := apply_sequencerFeeAddress prim s (.transfer t)
          rwa [heq] at this
        have htotal := transferred_totalMintedAtoms s t
        rw [heq, hmint, hfee]
        constructor
        · exact (congrArg UInt64.toNat htotal).trans h.total
        · have hsupply := supply_transferred hok (by omega)
          have hold := h.supply
          simp only [after, haddr]
          simp only [creditedFee] at hsupply
          split_ifs at hold hsupply ⊢ <;> omega
  · have hmint : s.acceptedMint prim tx = 0 := by cases tx <;> simp [acceptedMint, heq]
    have hfee : s.acceptedFee prim tx = 0 := by cases tx <;> simp [acceptedFee, heq]
    rw [heq, hmint, hfee]
    exact h

/-- The step in checked arithmetic is the step of the code. -/
def Exact (prim : Primitives) (s : LedgerState) (tx : L2Tx) : Prop :=
  s.applyChecked prim tx = some (s.apply prim tx)

/-- A transfer whose `amount + fee` saturates, refused as more than the sender has. -/
def RefusedOverflow (prim : Primitives) (s : LedgerState) (tx : L2Tx) : Prop :=
  ∃ t, tx = .transfer t ∧ 2 ^ 64 ≤ t.body.amount.toNat + (transferFee t.body.amount).toNat ∧
    s.apply prim tx = (.error .insufficientBalance, s)

private theorem applyMintChecked_eq {s : LedgerState} {entry : MintEntry}
    (hfit : s.MintOk entry → s.supply + entry.event.amount.toNat < 2 ^ 64 ∧
      s.totalMintedAtoms.toNat + entry.event.amount.toNat < 2 ^ 64) :
    s.applyMintChecked entry = some (s.applyMint entry) := by
  simp only [applyMintChecked, applyMint]
  split_ifs with h0 hdup
  · rfl
  · rfl
  · obtain ⟨hcredit, htotal⟩ := hfit ⟨h0, hdup⟩
    have hchecked := @creditChecked_eq
      { s with consumedNullifiers := s.consumedNullifiers.insert entry.event.nullifierHex }
      entry.event.l2Destination entry.event.amount hcredit
    rw [hchecked, Option.bind_some]
    simp only [credit, updateAccount_totalMintedAtoms]
    rw [checkedAdd_of_lt htotal, Option.map_some]

private theorem applyTransferChecked_eq {s : LedgerState} {t : SignedTransfer}
    (hs : s.supply < 2 ^ 64 - 1)
    (hfit : t.body.amount.toNat + (transferFee t.body.amount).toNat < 2 ^ 64) :
    s.applyTransferChecked prim t = some (s.applyTransfer prim t) := by
  simp only [applyTransferChecked, applyTransfer]
  rw [checkedAdd_of_lt hfit, Option.bind_some]
  split_ifs with h0 hself hnonce hsig hbal
  · rfl
  · rfl
  · rfl
  · rfl
  · rfl
  · have hok : s.TransferOk prim t :=
      ⟨h0, hself, not_not.mp hnonce, by simpa using hsig, UInt64.not_lt.mp hbal⟩
    obtain ⟨_, htotal, hle⟩ := hok.moves hs
    have hdebit := supply_debit hok.covered
    have hcredit := @supply_credit (s.debit t.body.sender (transferTotal t.body.amount))
      t.body.recipient t.body.amount (by omega)
    have hchecked := @creditChecked_eq (s.debit t.body.sender (transferTotal t.body.amount))
      t.body.recipient t.body.amount (by omega)
    have hfee := fun feeAddr =>
      @creditChecked_eq ((s.debit t.body.sender (transferTotal t.body.amount)).credit
        t.body.recipient t.body.amount) feeAddr (transferFee t.body.amount) (by omega)
    have hsame := debitChecked_eq hok.covered
    simp only [transferTotal] at hsame hchecked hfee
    rw [hsame, Option.bind_some, hchecked, Option.bind_some]
    simp only [debit, credit, updateAccount_sequencerFeeAddress] at hfee ⊢
    cases s.sequencerFeeAddress with
    | none => rfl
    | some feeAddr => simp only [hfee feeAddr, Option.map_some]

/-- **A step of a run computes exactly**, unless it is a transfer refused for a total
beyond `u64`. -/
theorem Books.exact {s : LedgerState} {mints fees : ℕ} {tx : L2Tx} (h : s.Books mints fees)
    (hlt : mints + s.acceptedMint prim tx < 2 ^ 64 - 1) :
    s.Exact prim tx ∨ s.RefusedOverflow prim tx := by
  have hle := h.supply_le
  cases tx with
  | mint entry =>
      refine .inl (applyMintChecked_eq fun hok => ?_)
      have hmint : s.acceptedMint prim (.mint entry) = entry.event.amount.toNat := by
        simp [acceptedMint, @apply_of_ok prim s (.mint entry) hok]
      have htotal := h.total
      rw [hmint] at hlt
      omega
  | transfer t =>
      by_cases hfit : t.body.amount.toNat + (transferFee t.body.amount).toNat < 2 ^ 64
      · exact .inl (applyTransferChecked_eq (by omega) hfit)
      · simp only [Exact, RefusedOverflow, applyChecked, apply, applyTransferChecked,
          applyTransfer]
        split_ifs with h0 hself hnonce hsig hbal
        · exact .inl rfl
        · exact .inl rfl
        · exact .inl rfl
        · exact .inl rfl
        · exact .inr ⟨t, rfl, by omega, by simp only⟩
        · have hok : s.TransferOk prim t :=
            ⟨h0, hself, not_not.mp hnonce, by simpa using hsig, UInt64.not_lt.mp hbal⟩
          exact absurd (hok.moves (by omega)).1 hfit

/-! ### Whole runs -/

/-- The ledger of a new chain with the fee address `fee`. -/
def start (fee : Option L2Address) : LedgerState :=
  { LedgerState.new with sequencerFeeAddress := fee }

theorem start_books (fee : Option L2Address) : (start fee).Books 0 0 := by
  refine ⟨rfl, ?_⟩
  have hempty : (start fee).supply = 0 := tableSum_empty _
  simp [hempty]

theorem mintSum_append (s : LedgerState) (front back : List L2Tx) :
    s.mintSum prim (front ++ back)
      = s.mintSum prim front + (s.applyAll prim front).mintSum prim back := by
  induction front generalizing s with
  | nil => simp [mintSum, applyAll]
  | cons tx front ih =>
      simp only [List.cons_append, mintSum, ih]
      rw [Nat.add_assoc]
      rfl

/-- The books are kept over a run. -/
theorem Books.applyAll {s : LedgerState} {mints fees : ℕ} {txs : List L2Tx}
    (h : s.Books mints fees) (hlt : mints + s.mintSum prim txs < 2 ^ 64 - 1) :
    Books (s.applyAll prim txs) (mints + s.mintSum prim txs) (fees + s.feeSum prim txs) := by
  induction txs generalizing s mints fees with
  | nil => exact h
  | cons tx txs ih =>
      simp only [mintSum] at hlt
      have hrest := ih (@Books.step prim _ _ _ tx h (by omega)) (by omega)
      simp only [mintSum, feeSum, ← Nat.add_assoc]
      exact hrest

@[simp] theorem applyAll_sequencerFeeAddress (s : LedgerState) (txs : List L2Tx) :
    (s.applyAll prim txs).sequencerFeeAddress = s.sequencerFeeAddress := by
  induction txs generalizing s with
  | nil => rfl
  | cons tx txs ih => exact (ih _).trans (apply_sequencerFeeAddress prim s tx)

/-- **The supply is conserved over whole runs.**  While the accepted mints add up to
less than `u64::MAX`, the balances add up to all that was minted, less the fees when
they are burned; and every step computes exactly, but for a transfer refused because
its own total does not fit. -/
theorem supply_conserved (prim : Primitives) (fee : Option L2Address) (txs : List L2Tx)
    (hmints : (start fee).mintSum prim txs < 2 ^ 64 - 1) :
    (fee.isSome → ((start fee).applyAll prim txs).supply
      = ((start fee).applyAll prim txs).totalMintedAtoms.toNat) ∧
    (fee = none → ((start fee).applyAll prim txs).supply + (start fee).feeSum prim txs
      = ((start fee).applyAll prim txs).totalMintedAtoms.toNat) ∧
    ∀ front tx back, txs = front ++ tx :: back →
      ((start fee).applyAll prim front).Exact prim tx ∨
        ((start fee).applyAll prim front).RefusedOverflow prim tx := by
  have hbooks := @Books.applyAll prim _ _ _ txs (start_books fee) (by omega)
  have htotal := hbooks.total
  have hsupply := hbooks.supply
  have haddr : ((start fee).applyAll prim txs).sequencerFeeAddress = fee :=
    applyAll_sequencerFeeAddress _ _
  rw [haddr] at hsupply
  refine ⟨fun hsome => ?_, fun hnone => ?_, fun front tx back heq => ?_⟩
  · rw [if_pos hsome] at hsupply
    omega
  · rw [if_neg (by simp [hnone])] at hsupply
    omega
  · rw [heq, mintSum_append, mintSum] at hmints
    exact (@Books.applyAll prim _ _ _ front (start_books fee) (by omega)).exact (by omega)

/-- A transfer of `u64::MAX` atoms, signed by its sender. -/
def maxTransfer : SignedTransfer :=
  let key : XOnlyPublicKey := ⟨ByteArr.ofNat 32 1⟩
  let body : TransferBody := ⟨key, ⟨ByteArr.ofNat 32 2⟩, UInt64.ofNat (2 ^ 64 - 1), 0⟩
  { body := body
    signature := ⟨((body.sighash Primitives.sample).bytes ++ key.bytes).cast
      Primitives.digest_and_key⟩ }

/-- A transfer that its sender has signed. -/
def sampleTransfer (sender recipient : Nat) (amount : Amount) (nonce : UInt64) : SignedTransfer :=
  let key : XOnlyPublicKey := ⟨ByteArr.ofNat 32 sender⟩
  let body : TransferBody := ⟨key, ⟨ByteArr.ofNat 32 recipient⟩, amount, nonce⟩
  { body := body
    signature := ⟨((body.sighash Primitives.sample).bytes ++ key.bytes).cast
      Primitives.digest_and_key⟩ }

/-- A mint of 1000 atoms for that sender. -/
def thousandMint : MintEntry :=
  let outpoint : OutPoint := ⟨⟨ByteArr.ofNat 32 7⟩, 0⟩
  { event :=
      { nullifierHex := hexEncode (OutpointProof.outpointNullifier outpoint)
        amount := 1000
        l2Destination := ⟨ByteArr.ofNat 32 1⟩
        l1CreateHeight := 1
        lockBlocks := 1
        l1ValueSat := 1000000 }
    witness := .v0Outpoint
      { outpoint := outpoint
        userXonlyPubkey := ⟨ByteArr.ofNat 32 1⟩
        lockBlocks := 1
        claimedBlockHeight := 1
        signature := ⟨ByteArr.ofNat 64 0⟩ } }

/-- A mint and the transfer of `u64::MAX` atoms: the mints stay far below the bound, and
`amount + fee` saturates all the same, before the balance is looked at. -/
theorem amount_plus_fee_saturates :
    (start none).mintSum Primitives.sample [.mint thousandMint, .transfer maxTransfer] = 1000 ∧
      2 ^ 64 ≤ maxTransfer.body.amount.toNat + (transferFee maxTransfer.body.amount).toNat ∧
      satAdd maxTransfer.body.amount (transferFee maxTransfer.body.amount)
        = UInt64.ofNat (2 ^ 64 - 1) ∧
      ((start none).applyAll Primitives.sample [.mint thousandMint]).applyChecked
        Primitives.sample (.transfer maxTransfer) = none ∧
      (((start none).applyAll Primitives.sample [.mint thousandMint]).apply
        Primitives.sample (.transfer maxTransfer)).1 = .error .insufficientBalance := by
  decide +kernel

/-- That run, of which the supply is the one mint. -/
theorem supply_conserved_maxTransfer :
    (((start none).applyAll Primitives.sample [.mint thousandMint, .transfer maxTransfer]).supply
      + (start none).feeSum Primitives.sample [.mint thousandMint, .transfer maxTransfer]
      = ((start none).applyAll Primitives.sample
          [.mint thousandMint, .transfer maxTransfer]).totalMintedAtoms.toNat) :=
  (supply_conserved Primitives.sample none [.mint thousandMint, .transfer maxTransfer]
    (by decide +kernel)).2.1 rfl

end LedgerState

end Hodlchain
