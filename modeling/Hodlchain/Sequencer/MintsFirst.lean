/-
Mints first.

A block has the drained mints before the drained transfers, whatever the order they
came in.  A mint moved ahead of a transfer finds what it needs: its nullifier is still
free, and nobody else looks at nullifiers.  The transfer finds no less than it had.
What both leave is the same as long as the mint's credit does not saturate, which the
sender's debit would have made room for.
-/
import Hodlchain.Core.Touched
import Hodlchain.Sequencer.Daemon

namespace Hodlchain

/-- The transfer a transaction is. -/
def L2Tx.transfer? : L2Tx → Option SignedTransfer
  | .mint _ => none
  | .transfer t => some t

/-- The transfers among transactions. -/
def transfersOf (txs : List L2Tx) : List SignedTransfer := txs.filterMap L2Tx.transfer?

/-- All mints in their order, then all transfers in theirs. -/
def mintsFirst (txs : List L2Tx) : List L2Tx :=
  (mintsOf txs).map .mint ++ (transfersOf txs).map .transfer

namespace LedgerState

/-- `u64::MAX` is not reached. -/
def Below (s : LedgerState) : Prop :=
  s.totalMintedAtoms.toNat < 2 ^ 64 - 1 ∧ ∀ e ∈ s.accounts.toList, e.2.balance.toNat < 2 ^ 64 - 1

instance (s : LedgerState) : Decidable s.Below :=
  inferInstanceAs (Decidable (_ ∧ ∀ e ∈ s.accounts.toList, e.2.balance.toNat < 2 ^ 64 - 1))

/-- Balances and the total stay below `u64::MAX` while a list is applied. -/
def StaysBelow (prim : Primitives) : LedgerState → List L2Tx → Prop
  | s, [] => s.Below
  | s, tx :: txs => s.Below ∧ StaysBelow prim (s.apply prim tx).2 txs

instance decidableStaysBelow (prim : Primitives) :
    (s : LedgerState) → (txs : List L2Tx) → Decidable (s.StaysBelow prim txs)
  | s, [] => inferInstanceAs (Decidable s.Below)
  | s, tx :: txs =>
      have := decidableStaysBelow prim (s.apply prim tx).2 txs
      inferInstanceAs (Decidable (s.Below ∧ StaysBelow prim (s.apply prim tx).2 txs))

variable {prim : Primitives}

theorem below_iff {s : LedgerState} : s.Below ↔
    s.totalMintedAtoms.toNat < 2 ^ 64 - 1 ∧ ∀ a, (s.balanceOf a).toNat < 2 ^ 64 - 1 := by
  unfold Below
  refine and_congr_right fun _ => ⟨fun h a => ?_, fun h e he => ?_⟩
  · unfold balanceOf
    cases hacct : s.accounts[a]? with
    | none => simp
    | some acct => exact h (a, acct) (Std.ExtTreeMap.mem_toList_iff_getElem?_eq_some.mpr hacct)
  · have hget := Std.ExtTreeMap.mem_toList_iff_getElem?_eq_some.mp he
    have hbal := h e.1
    unfold balanceOf at hbal
    rw [hget] at hbal
    exact hbal

theorem StaysBelow.below {s : LedgerState} {txs : List L2Tx} (h : s.StaysBelow prim txs) :
    s.Below := by
  cases txs with
  | nil => exact h
  | cons tx txs => exact h.1

theorem staysBelow_append {s : LedgerState} {front back : List L2Tx} :
    s.StaysBelow prim (front ++ back) ↔
      s.StaysBelow prim front ∧ (s.applyAll prim front).StaysBelow prim back := by
  induction front generalizing s with
  | nil => exact ⟨fun h => ⟨h.below, h⟩, And.right⟩
  | cons tx front ih =>
      show s.Below ∧ StaysBelow prim (s.apply prim tx).2 (front ++ back) ↔ _
      rw [ih, ← and_assoc]
      rfl

/-! ### What a mint and a transfer leave, either way round -/

/-- Two ledgers that have the same accounts and answer alike are one. -/
theorem ext_of_reads {s t : LedgerState} (hmem : ∀ a, a ∈ s.accounts ↔ a ∈ t.accounts)
    (hbalance : ∀ a, s.balanceOf a = t.balanceOf a) (hnonce : ∀ a, s.nonceOf a = t.nonceOf a)
    (hconsumed : s.consumedNullifiers = t.consumedNullifiers)
    (htotal : s.totalMintedAtoms = t.totalMintedAtoms)
    (hfee : s.sequencerFeeAddress = t.sequencerFeeAddress) : s = t := by
  have haccounts : s.accounts = t.accounts := by
    refine Std.ExtTreeMap.ext_getElem? fun a => ?_
    have hbal := hbalance a
    have hnon := hnonce a
    have hpresent := hmem a
    rw [mem_accounts_iff, mem_accounts_iff] at hpresent
    unfold balanceOf at hbal
    unfold nonceOf at hnon
    cases hs : s.accounts[a]? with
    | none => cases ht : t.accounts[a]? with
        | none => rfl
        | some acct => simp [hs, ht] at hpresent
    | some acct => cases ht : t.accounts[a]? with
        | none => simp [hs, ht] at hpresent
        | some acct' =>
            rw [hs, ht] at hbal hnon
            obtain ⟨balance, nonce⟩ := acct
            obtain ⟨balance', nonce'⟩ := acct'
            obtain rfl : balance = balance' := hbal
            obtain rfl : nonce = nonce' := hnon
            rfl
  cases s
  cases t
  simp_all

theorem satAdd_right_comm (a b c : UInt64) : satAdd (satAdd a b) c = satAdd (satAdd a c) b := by
  refine UInt64.toNat_inj.mp ?_
  simp only [toNat_satAdd]
  omega

/-- What is taken from a sum that fits can be taken from its first part. -/
theorem satAdd_sub {a b total : UInt64} (hfit : a.toNat + b.toNat < 2 ^ 64) (hle : total ≤ a) :
    satAdd a b - total = satAdd (a - total) b := by
  have hle' := UInt64.le_iff_toNat_le.mp hle
  have hsum : total ≤ satAdd a b := by
    rw [UInt64.le_iff_toNat_le, toNat_satAdd_of_lt hfit]
    omega
  refine UInt64.toNat_inj.mp ?_
  rw [UInt64.toNat_sub_of_le _ _ hsum, toNat_satAdd_of_lt hfit, toNat_satAdd,
    UInt64.toNat_sub_of_le _ _ hle]
  have := a.toNat_lt
  omega

theorem payFee_balanceOf (s : LedgerState) (fee : Amount) (a : L2Address) :
    (s.payFee fee).balanceOf a = if s.sequencerFeeAddress = some a then satAdd (s.balanceOf a) fee
      else s.balanceOf a := by
  unfold payFee
  cases s.sequencerFeeAddress with
  | none => simp
  | some feeAddr => simp

theorem minted_balanceOf (s : LedgerState) (entry : MintEntry) (a : L2Address) :
    (s.minted entry).balanceOf a = if entry.event.l2Destination = a
      then satAdd (s.balanceOf a) entry.event.amount else s.balanceOf a :=
  credit_balanceOf s entry.event.l2Destination a entry.event.amount

theorem transferred_balanceOf (s : LedgerState) (t : SignedTransfer) (a : L2Address) :
    (s.transferred t).balanceOf a =
      let afterDebit := if t.body.sender = a then s.balanceOf a - transferTotal t.body.amount
        else s.balanceOf a
      let afterCredit :=
        if t.body.recipient = a then satAdd afterDebit t.body.amount else afterDebit
      if s.sequencerFeeAddress = some a then satAdd afterCredit (transferFee t.body.amount)
        else afterCredit := by
  unfold transferred
  rw [payFee_balanceOf, credit_balanceOf, debit_balanceOf]
  rfl

theorem transferred_consumedNullifiers (s : LedgerState) (t : SignedTransfer) :
    (s.transferred t).consumedNullifiers = s.consumedNullifiers := by
  unfold transferred
  rw [payFee_consumedNullifiers]
  rfl

theorem transferred_sequencerFeeAddress (s : LedgerState) (t : SignedTransfer) :
    (s.transferred t).sequencerFeeAddress = s.sequencerFeeAddress := by
  unfold transferred payFee
  cases ((s.debit t.body.sender _).credit t.body.recipient _).sequencerFeeAddress <;> rfl

theorem minted_nonceOf (s : LedgerState) (entry : MintEntry) (a : L2Address) :
    (s.minted entry).nonceOf a = s.nonceOf a := by
  have hafter := after_nonceOf s (.mint entry) a
  rw [show L2Tx.sender? (.mint entry) = none from rfl, if_neg nofun, UInt64.add_zero] at hafter
  exact hafter

/-- A transfer frees no nullifier. -/
theorem MintOk.of_transferred {s : LedgerState} {t : SignedTransfer} {entry : MintEntry}
    (h : (s.transferred t).MintOk entry) : s.MintOk entry := by
  refine ⟨h.amount, fun hc => h.fresh ?_⟩
  rw [transferred_consumedNullifiers]
  exact hc

/-- **A mint moves ahead of a transfer**, where its credit fits. -/
theorem transfer_mint_swap {s : LedgerState} {t : SignedTransfer} {entry : MintEntry}
    (htransfer : s.TransferOk prim t)
    (hfit : (s.balanceOf entry.event.l2Destination).toNat + entry.event.amount.toNat < 2 ^ 64) :
    (s.minted entry).TransferOk prim t ∧
      (s.minted entry).transferred t = (s.transferred t).minted entry := by
  refine ⟨?_, ?_⟩
  · refine ⟨htransfer.amount, htransfer.parties, ?_, htransfer.signed, ?_⟩
    · rw [minted_nonceOf]
      exact htransfer.nonce
    · have hmore := @le_after_balanceOf s (.mint entry) t.body.sender nofun
      exact UInt64.le_trans htransfer.covered hmore
  · refine ext_of_reads (fun a => ?_) (fun a => ?_) (fun a => ?_) ?_ ?_ ?_
    · have hfirst := @mem_after (s.minted entry) (.transfer t) a
      have hsecond := @mem_after (s.transferred t) (.mint entry) a
      have hmint := @mem_after s (.mint entry) a
      have htransfer := @mem_after s (.transfer t) a
      refine hfirst.trans (Iff.trans ?_ hsecond.symm)
      rw [show (s.minted entry).accounts = (s.after (.mint entry)).accounts from rfl,
        show (s.transferred t).accounts = (s.after (.transfer t)).accounts from rfl,
          hmint, htransfer]
      exact or_left_comm
    · -- the credit passes the fee, the other credit and the debit
      rw [transferred_balanceOf, minted_balanceOf, minted_balanceOf, transferred_balanceOf]
      have hsame : (s.minted entry).sequencerFeeAddress = s.sequencerFeeAddress := rfl
      by_cases hdest : entry.event.l2Destination = a
      · have hdebit : (if t.body.sender = a then
              satAdd (s.balanceOf a) entry.event.amount - transferTotal t.body.amount
              else satAdd (s.balanceOf a) entry.event.amount)
            = satAdd (if t.body.sender = a then s.balanceOf a - transferTotal t.body.amount
              else s.balanceOf a) entry.event.amount := by
          by_cases hsender : t.body.sender = a
          · rw [if_pos hsender, if_pos hsender]
            refine satAdd_sub (hdest ▸ hfit) ?_
            rw [← hsender]
            exact htransfer.covered
          · rw [if_neg hsender, if_neg hsender]
        simp only [if_pos hdest, hdebit, hsame]
        split_ifs <;> simp only [satAdd_right_comm _ entry.event.amount]
      · simp only [if_neg hdest, hsame]
    · have hfirst := after_nonceOf (s.minted entry) (.transfer t) a
      have hsecond := after_nonceOf s (.transfer t) a
      rw [minted_nonceOf] at hfirst ⊢
      exact hfirst.trans hsecond.symm
    · rw [transferred_consumedNullifiers]
      show s.consumedNullifiers.insert _ = (s.transferred t).consumedNullifiers.insert _
      rw [transferred_consumedNullifiers]
    · rw [transferred_totalMintedAtoms]
      show satAdd s.totalMintedAtoms _ = satAdd (s.transferred t).totalMintedAtoms _
      rw [transferred_totalMintedAtoms]
    · rw [transferred_sequencerFeeAddress]
      exact (transferred_sequencerFeeAddress s t).symm

/-! ### Whole lists -/

/-- A mint takes nothing away. -/
theorem le_apply_mint (s : LedgerState) (entry : MintEntry) :
    (∀ a, s.balanceOf a ≤ (s.apply prim (.mint entry)).2.balanceOf a) ∧
      s.totalMintedAtoms ≤ (s.apply prim (.mint entry)).2.totalMintedAtoms := by
  rcases apply_cases prim s (.mint entry) with ⟨-, happly⟩ | ⟨-, e, happly⟩
  · rw [happly]
    refine ⟨fun a => le_after_balanceOf nofun, ?_⟩
    show s.totalMintedAtoms ≤ satAdd s.totalMintedAtoms entry.event.amount
    rw [UInt64.le_iff_toNat_le, toNat_satAdd]
    have := s.totalMintedAtoms.toNat_lt
    omega
  · rw [happly]
    exact ⟨fun a => UInt64.le_refl _, UInt64.le_refl _⟩

/-- What is below after some mints was below all along. -/
theorem Below.staysBelow_mints {s : LedgerState} {mints : List MintEntry}
    (h : (s.applyAll prim (mints.map .mint)).Below) : s.StaysBelow prim (mints.map .mint) := by
  induction mints generalizing s with
  | nil => exact h
  | cons entry mints ih =>
      have hrest := ih h
      obtain ⟨hbalance, htotal⟩ := @le_apply_mint prim s entry
      obtain ⟨htotal', hbalance'⟩ := below_iff.mp hrest.below
      refine ⟨below_iff.mpr ⟨?_, fun a => ?_⟩, hrest⟩
      · exact Nat.lt_of_le_of_lt (UInt64.le_iff_toNat_le.mp htotal) htotal'
      · exact Nat.lt_of_le_of_lt (UInt64.le_iff_toNat_le.mp (hbalance a)) (hbalance' a)

/-- Mints move ahead of a transfer. -/
theorem transfer_mints_swap {s : LedgerState} {t : SignedTransfer} {mints : List MintEntry}
    (htransfer : s.TransferOk prim t) (hmints : (s.transferred t).AllOk prim (mints.map .mint))
    (hbelow : s.StaysBelow prim (mints.map .mint)) :
    s.AllOk prim (mints.map .mint) ∧ (s.applyAll prim (mints.map .mint)).TransferOk prim t ∧
      (s.applyAll prim (mints.map .mint)).transferred t
        = (s.transferred t).applyAll prim (mints.map .mint) := by
  induction mints generalizing s with
  | nil => exact ⟨trivial, htransfer, rfl⟩
  | cons entry mints ih =>
      obtain ⟨hentry, hrest⟩ := hmints
      obtain ⟨-, hbelow'⟩ := hbelow
      have hok : s.TxOk prim (.mint entry) := MintOk.of_transferred hentry
      rw [apply_of_ok hentry] at hrest
      rw [apply_of_ok hok] at hbelow'
      have hfit : (s.balanceOf entry.event.l2Destination).toNat + entry.event.amount.toNat
          < 2 ^ 64 := by
        have hbal := (below_iff.mp hbelow'.below).2 entry.event.l2Destination
        rw [show s.after (.mint entry) = s.minted entry from rfl, minted_balanceOf,
          if_pos rfl] at hbal
        exact lt_of_satAdd_lt hbal
      obtain ⟨htransfer', hsame⟩ := transfer_mint_swap htransfer hfit
      have hrest' : ((s.minted entry).transferred t).AllOk prim (mints.map .mint) := by
        rw [hsame]
        exact hrest
      obtain ⟨hall, hlast, heq⟩ := ih htransfer' hrest' hbelow'
      rw [List.map_cons, applyAll_cons_ok hok, applyAll_cons_ok hentry]
      refine ⟨⟨hok, ?_⟩, hlast, heq.trans ?_⟩
      · rw [apply_of_ok hok]
        exact hall
      · rw [hsame]
        rfl

/-- Mints only look at the nullifiers. -/
theorem AllOk.mints_congr {s u : LedgerState} {mints : List MintEntry}
    (h : s.AllOk prim (mints.map .mint)) (hsame : s.consumedNullifiers = u.consumedNullifiers) :
    u.AllOk prim (mints.map .mint) := by
  induction mints generalizing s u with
  | nil => trivial
  | cons entry mints ih =>
      obtain ⟨hok, hrest⟩ := h
      have hok' : u.TxOk prim (.mint entry) := ⟨MintOk.amount hok, hsame ▸ MintOk.fresh hok⟩
      rw [apply_of_ok hok] at hrest
      refine ⟨hok', ?_⟩
      rw [apply_of_ok hok']
      refine ih hrest ?_
      show s.consumedNullifiers.insert _ = u.consumedNullifiers.insert _
      rw [hsame]

/-- The mints of a run can do without its transfers. -/
theorem AllOk.mints {s : LedgerState} {txs : List L2Tx} (h : s.AllOk prim txs) :
    s.AllOk prim ((mintsOf txs).map .mint) := by
  induction txs generalizing s with
  | nil => trivial
  | cons tx txs ih =>
      obtain ⟨hok, hrest⟩ := h
      have hmints := ih hrest
      rw [apply_of_ok hok] at hmints
      cases tx with
      | mint entry =>
          refine ⟨hok, ?_⟩
          rw [apply_of_ok hok]
          exact hmints
      | transfer t => exact hmints.mints_congr (transferred_consumedNullifiers s t)

/-- **All mints move ahead of all transfers.** -/
theorem AllOk.mintsFirst {s : LedgerState} {txs : List L2Tx} (h : s.AllOk prim txs)
    (hbelow : s.StaysBelow prim (mintsFirst txs)) :
    s.AllOk prim (mintsFirst txs) ∧
      s.applyAll prim (mintsFirst txs) = s.applyAll prim txs := by
  induction txs generalizing s with
  | nil => exact ⟨trivial, rfl⟩
  | cons tx txs ih =>
      obtain ⟨hok, hrest⟩ := h
      rw [apply_of_ok hok] at hrest
      rw [applyAll_cons_ok hok]
      cases tx with
      | mint entry =>
          have hbelow' : s.StaysBelow prim (.mint entry :: Hodlchain.mintsFirst txs) := hbelow
          obtain ⟨-, hbelow'⟩ := hbelow'
          rw [apply_of_ok hok] at hbelow'
          obtain ⟨hall, heq⟩ := ih hrest hbelow'
          show s.AllOk prim (.mint entry :: Hodlchain.mintsFirst txs) ∧
            s.applyAll prim (.mint entry :: Hodlchain.mintsFirst txs) = _
          rw [applyAll_cons_ok hok]
          refine ⟨⟨hok, ?_⟩, heq⟩
          rw [apply_of_ok hok]
          exact hall
      | transfer t =>
          have hsplit : Hodlchain.mintsFirst (.transfer t :: txs) = (mintsOf txs).map .mint ++
              .transfer t :: (transfersOf txs).map .transfer := rfl
          rw [hsplit] at hbelow ⊢
          obtain ⟨hmints, -, htransfers⟩ := staysBelow_append.mp hbelow
          obtain ⟨hallMints, hcovered, heq⟩ := transfer_mints_swap hok hrest.mints hmints
          have htransfer : (s.applyAll prim ((mintsOf txs).map .mint)).TxOk prim (.transfer t) :=
            hcovered
          rw [apply_of_ok htransfer] at htransfers
          -- after the transfer and the mints the ledger is the same either way round
          have hstate : (s.applyAll prim ((mintsOf txs).map .mint)).after (.transfer t)
              = (s.after (.transfer t)).applyAll prim ((mintsOf txs).map .mint) := heq
          rw [hstate] at htransfers
          obtain ⟨hall, hlast⟩ := ih hrest
            (staysBelow_append.mpr ⟨htransfers.below.staysBelow_mints, htransfers⟩)
          obtain ⟨-, hallTransfers⟩ := allOk_append.mp hall
          rw [allOk_append, applyAll_append, applyAll_cons_ok htransfer, hstate]
          refine ⟨⟨hallMints, htransfer, ?_⟩, ?_⟩
          · rw [apply_of_ok htransfer, hstate]
            exact hallTransfers
          · rw [← hlast]
            exact (applyAll_append _ _ _).symm

/-- A list that replays is such a run. -/
theorem allOk_of_isOk {s : LedgerState} {txs : List L2Tx}
    (h : (s.replayFrom prim 0 txs).isOk = true) : s.AllOk prim txs := by
  cases hreplay : s.replayFrom prim 0 txs with
  | error e => simp [hreplay, Except.isOk, Except.toBool] at h
  | ok s' => exact (replayFrom_ok_iff.mp hreplay).1

/-- Of a run of accepted transactions all is accepted. -/
theorem AllOk.accepted_eq {s : LedgerState} {txs : List L2Tx} (h : s.AllOk prim txs) :
    s.accepted prim txs = txs := by
  induction txs generalizing s with
  | nil => rfl
  | cons tx txs ih =>
      obtain ⟨hok, hrest⟩ := h
      rw [apply_of_ok hok] at hrest
      rw [accepted_cons_ok hok, ih hrest]

/-! ### Ledgers of a chain -/

theorem mintsOf_mintsFirst (txs : List L2Tx) :
    mintsOf (Hodlchain.mintsFirst txs) = mintsOf txs := by
  unfold Hodlchain.mintsFirst
  have hmints : ∀ mints : List MintEntry, mintsOf (mints.map .mint) = mints := by
    intro mints
    unfold mintsOf
    rw [List.filterMap_map]
    exact List.filterMap_some
  have htransfers : ∀ transfers : List SignedTransfer, mintsOf (transfers.map .transfer) = [] := by
    intro transfers
    unfold mintsOf
    rw [List.filterMap_map]
    exact List.filterMap_none transfers
  rw [show mintsOf ((mintsOf txs).map .mint ++ (transfersOf txs).map .transfer)
      = mintsOf ((mintsOf txs).map .mint) ++ mintsOf ((transfersOf txs).map .transfer) from
    List.filterMap_append, hmints, htransfers, List.append_nil]

/-- A list mints at most what its mints say. -/
theorem mintSum_le (s : LedgerState) (txs : List L2Tx) :
    s.mintSum prim txs ≤ ((mintsOf txs).map (·.event.amount.toNat)).sum := by
  induction txs generalizing s with
  | nil => exact le_refl _
  | cons tx txs ih =>
      have hrest := ih (s.apply prim tx).2
      unfold mintSum
      cases tx with
      | mint entry =>
          have hfirst : s.acceptedMint prim (.mint entry) ≤ entry.event.amount.toNat := by
            unfold acceptedMint
            cases (s.apply prim (.mint entry)).1 <;> simp
          rw [show mintsOf (.mint entry :: txs) = entry :: mintsOf txs from rfl, List.map_cons,
            List.sum_cons]
          exact Nat.add_le_add hfirst hrest
      | transfer t =>
          rw [show s.acceptedMint prim (.transfer t) = 0 from rfl, Nat.zero_add]
          exact hrest

/-- While the total is below, so are the balances. -/
theorem Books.below {s : LedgerState} {mints fees : ℕ} (h : s.Books mints fees)
    (hlt : mints < 2 ^ 64 - 1) : s.Below := by
  have hsupply := h.supply_le
  refine below_iff.mpr ⟨?_, fun a => ?_⟩
  · rw [h.total]
    exact hlt
  · exact Nat.lt_of_le_of_lt ((s.balanceOf_le_supply a).trans hsupply) hlt

theorem Books.staysBelow {s : LedgerState} {mints fees : ℕ} {txs : List L2Tx}
    (h : s.Books mints fees) (hlt : mints + s.mintSum prim txs < 2 ^ 64 - 1) :
    s.StaysBelow prim txs := by
  induction txs generalizing s mints fees with
  | nil => exact h.below hlt
  | cons tx txs ih =>
      unfold mintSum at hlt
      have hstep := @Books.step prim _ _ _ tx h (by omega)
      exact ⟨h.below (by omega), ih hstep (by omega)⟩

/-- On the ledgers of a chain that minted less than `u64::MAX`, the reordering needs nothing
else. -/
theorem AllOk.mintsFirst_of_start {fee : Option L2Address} {front txs : List L2Tx}
    (h : ((start fee).applyAll prim front).AllOk prim txs)
    (hmints : (start fee).mintSum prim (front ++ txs) < 2 ^ 64 - 1) :
    ((start fee).applyAll prim front).AllOk prim (Hodlchain.mintsFirst txs) ∧
      ((start fee).applyAll prim front).applyAll prim (Hodlchain.mintsFirst txs)
        = ((start fee).applyAll prim front).applyAll prim txs := by
  rw [mintSum_append, h.mintSum_eq] at hmints
  have hbooks := @Books.applyAll prim _ _ _ front (start_books fee) (by omega)
  have hle := @mintSum_le prim ((start fee).applyAll prim front) (Hodlchain.mintsFirst txs)
  rw [mintsOf_mintsFirst] at hle
  exact h.mintsFirst (hbooks.staysBelow (by omega))

end LedgerState

namespace Sequencer

/-! ### As the sequencer reorders -/

/-- The mempool after transactions have been pushed, in their order. -/
def Mempool.pushAll (mempool : Mempool) : List L2Tx → Except String Mempool
  | [] => .ok mempool
  | tx :: txs => do
      let mempool ← pushToMempool mempool tx
      mempool.pushAll txs

/-- Mints of different nullifiers, none of them pending, are all taken. -/
theorem Mempool.pushAll_ok {m : Mempool} {txs : List L2Tx}
    (hnodup : ((mintsOf txs).map (·.event.nullifierHex)).Nodup)
    (hfresh : ∀ entry ∈ mintsOf txs, entry.event.nullifierHex ∉ m.pendingNullifiers) :
    ∃ m', m.pushAll txs = .ok m' ∧ m'.mints = m.mints ++ mintsOf txs ∧
      m'.transfers = m.transfers ++ transfersOf txs := by
  induction txs generalizing m with
  | nil => exact ⟨m, rfl, (List.append_nil _).symm, (List.append_nil _).symm⟩
  | cons tx txs ih =>
      cases tx with
      | mint entry =>
          rw [show mintsOf (.mint entry :: txs) = entry :: mintsOf txs from rfl] at hnodup hfresh ⊢
          obtain ⟨hnew, hnodup⟩ := List.nodup_cons.mp hnodup
          obtain ⟨hentry, hfresh⟩ := List.forall_mem_cons.mp hfresh
          obtain ⟨m', hpush, hmints, htransfers⟩ :=
            @ih { m with
                  pendingNullifiers := m.pendingNullifiers.insert entry.event.nullifierHex
                  mints := m.mints ++ [entry] } hnodup (fun e he hc => by
              rcases Std.ExtTreeSet.mem_insert.mp hc with heq | hc
              · rw [Std.compare_eq_iff_eq] at heq
                exact hnew (List.mem_map.mpr ⟨e, he, heq.symm⟩)
              · exact hfresh e he hc)
          refine ⟨m', ?_, ?_, htransfers⟩
          · have hfirst : pushToMempool m (.mint entry) = .ok
                { m with
                  pendingNullifiers := m.pendingNullifiers.insert entry.event.nullifierHex
                  mints := m.mints ++ [entry] } := if_neg hentry
            unfold Mempool.pushAll
            rw [hfirst]
            exact hpush
          · rw [hmints]
            exact List.append_assoc _ _ _
      | transfer t =>
          obtain ⟨m', hpush, hmints, htransfers⟩ :=
            @ih { m with transfers := m.transfers ++ [t] } hnodup hfresh
          refine ⟨m', hpush, hmints, ?_⟩
          rw [htransfers]
          exact List.append_assoc _ _ _

/-- **Mints first is harmless.**  Transactions that all apply in the order they came in are all
taken by an empty mempool.  Drained, they are offered mints first, and when nothing overflows in
that order all of them apply and leave the ledger, and the root, of the order they came in. -/
theorem mints_first_harmless {prim : Primitives} {s : LedgerState} {txs : List L2Tx}
    (h : s.AllOk prim txs) (hbelow : s.StaysBelow prim (mintsFirst txs)) :
    ∃ m, Mempool.empty.pushAll txs = .ok m ∧
      m.mints.map .mint ++ m.transfers.map .transfer = mintsFirst txs ∧
      s.AllOk prim (mintsFirst txs) ∧ s.applyAll prim (mintsFirst txs) = s.applyAll prim txs ∧
      (s.applyAll prim (mintsFirst txs)).stateRoot prim = (s.applyAll prim txs).stateRoot prim ∧
      -- the block, when every mint still verifies as what it was taken for
      ∀ view, freshMints prim view 0 m.drain.1.1 = m.mints.map .mint →
        buildBody prim view s m.drain.1.1 m.drain.1.2 = (s.applyAll prim txs, mintsFirst txs) := by
  obtain ⟨hnodup, -⟩ := h.nodup
  obtain ⟨m, hpush, hmints, htransfers⟩ := @Mempool.pushAll_ok .empty txs hnodup
    (fun _ _ => Std.ExtTreeSet.not_mem_empty)
  have horder : m.mints.map L2Tx.mint ++ m.transfers.map .transfer = mintsFirst txs := by
    rw [hmints, htransfers]
    rfl
  obtain ⟨hall, hsame⟩ := h.mintsFirst hbelow
  refine ⟨m, hpush, horder, hall, hsame, by rw [hsame], fun view hfresh => ?_⟩
  have hcandidates : candidates prim view m.mints m.transfers = mintsFirst txs := by
    unfold candidates
    rw [show freshMints prim view 0 m.mints = m.mints.map .mint from hfresh]
    exact horder
  show buildBody prim view s m.mints m.transfers = _
  rw [buildBody_eq, body, hcandidates, hall.accepted_eq, hsame]

/-- A mint for account 1, which sends some of it, and a second mint after that. -/
def mintAfterTransfer : List L2Tx :=
  let second : MintEntry :=
    { LedgerState.thousandMint with
      event := { LedgerState.thousandMint.event with nullifierHex := "00", amount := 500 } }
  [.mint LedgerState.thousandMint, .transfer (LedgerState.sampleTransfer 1 2 500 0), .mint second]

theorem mints_first_harmless_mintAfterTransfer :
    mintsFirst mintAfterTransfer ≠ mintAfterTransfer ∧
      ∃ m, Mempool.empty.pushAll mintAfterTransfer = .ok m ∧
        m.mints.map .mint ++ m.transfers.map .transfer = mintsFirst mintAfterTransfer := by
  have hok : (LedgerState.start none).AllOk Primitives.sample mintAfterTransfer :=
    LedgerState.allOk_of_isOk (by decide +kernel)
  have hbelow : (LedgerState.start none).StaysBelow Primitives.sample
      (mintsFirst mintAfterTransfer) := by decide +kernel
  obtain ⟨m, hpush, horder, -⟩ := mints_first_harmless hok hbelow
  refine ⟨fun heq => ?_, m, hpush, horder⟩
  have hlast := congrArg (fun txs => (txs.getLast?.bind L2Tx.mint?).isSome) heq
  exact absurd hlast (by decide)

/-- An account one atom below `u64::MAX`, which no chain mints. -/
def almostFull : LedgerState :=
  (LedgerState.start none).credit ⟨ByteArr.ofNat 32 1⟩ (UInt64.ofNat (2 ^ 64 - 2))

/-- Its owner makes room and then has 1000 atoms minted. -/
def roomThenMint : List L2Tx :=
  [.transfer (LedgerState.sampleTransfer 1 2 1000000 0), .mint LedgerState.thousandMint]

/-- The order they came in is below the bound all along.  Mints first, the credit saturates. -/
theorem mints_first_saturates :
    (almostFull.AllOk Primitives.sample roomThenMint ∧
      almostFull.StaysBelow Primitives.sample roomThenMint) ∧
    almostFull.applyAll Primitives.sample (mintsFirst roomThenMint)
      ≠ almostFull.applyAll Primitives.sample roomThenMint := by
  refine ⟨⟨LedgerState.allOk_of_isOk (by decide +kernel), by decide +kernel⟩, fun heq => ?_⟩
  have hbalance := congrArg (LedgerState.balanceOf · ⟨ByteArr.ofNat 32 1⟩) heq
  exact absurd hbalance (by decide +kernel)

end Sequencer

end Hodlchain
