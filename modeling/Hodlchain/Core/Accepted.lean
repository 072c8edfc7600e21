/-
Runs of accepted transactions.

A replayed block body is such a run; a built one is what is accepted of a list.  What
a run leaves is said by its mints and by its senders: the nullifiers consumed are
those of the mints, each once, and a nonce goes up by one for each transfer from its
account.  Nobody but the holder lowers a balance.
-/
import Hodlchain.Core.Supply

namespace Hodlchain

variable {prim : Primitives}

namespace LedgerState

/-- Every transaction passes its checks when its turn comes. -/
def AllOk (prim : Primitives) : LedgerState → List L2Tx → Prop
  | _, [] => True
  | s, tx :: txs => s.TxOk prim tx ∧ AllOk prim (s.apply prim tx).2 txs

theorem replayFrom_ok_iff {s s' : LedgerState} {txs : List L2Tx} {i : Nat} :
    s.replayFrom prim i txs = .ok s' ↔ s.AllOk prim txs ∧ s.applyAll prim txs = s' := by
  induction txs generalizing s i with
  | nil => simp [replayFrom, AllOk, applyAll]
  | cons tx txs ih =>
      rw [replayFrom_cons_ok, apply_ok_iff, ih, AllOk, and_assoc]
      rfl

theorem allOk_append {s : LedgerState} {front back : List L2Tx} :
    s.AllOk prim (front ++ back) ↔ s.AllOk prim front ∧
      (s.applyAll prim front).AllOk prim back := by
  induction front generalizing s with
  | nil => simp [AllOk, applyAll]
  | cons tx front ih =>
      simp only [List.cons_append, AllOk, ih, and_assoc]
      rfl

theorem applyAll_append (s : LedgerState) (front back : List L2Tx) :
    s.applyAll prim (front ++ back) = (s.applyAll prim front).applyAll prim back :=
  List.foldl_append

/-! ### What is accepted of a list -/

/-- The transactions of a list that are accepted, each on what the ones before it leave. -/
def accepted (prim : Primitives) : LedgerState → List L2Tx → List L2Tx
  | _, [] => []
  | s, tx :: txs =>
      match s.apply prim tx with
      | (.ok (), s') => tx :: accepted prim s' txs
      | (.error _, s') => accepted prim s' txs

theorem accepted_cons_ok {s : LedgerState} {tx : L2Tx} {txs : List L2Tx} (h : s.TxOk prim tx) :
    s.accepted prim (tx :: txs) = tx :: (s.after tx).accepted prim txs := by
  rw [accepted, apply_of_ok h]

theorem accepted_cons_rejected {s : LedgerState} {tx : L2Tx} {txs : List L2Tx}
    (h : ¬ s.TxOk prim tx) : s.accepted prim (tx :: txs) = s.accepted prim txs := by
  rcases apply_cases prim s tx with ⟨hok, -⟩ | ⟨-, e, heq⟩
  · exact absurd hok h
  · rw [accepted, heq]

theorem applyAll_cons_ok {s : LedgerState} {tx : L2Tx} {txs : List L2Tx} (h : s.TxOk prim tx) :
    s.applyAll prim (tx :: txs) = (s.after tx).applyAll prim txs := by
  rw [applyAll, List.foldl_cons, apply_of_ok h]
  rfl

theorem allOk_accepted (s : LedgerState) (txs : List L2Tx) :
    s.AllOk prim (s.accepted prim txs) := by
  induction txs generalizing s with
  | nil => trivial
  | cons tx txs ih =>
      by_cases hok : s.TxOk prim tx
      · rw [accepted_cons_ok hok]
        exact ⟨hok, by rw [apply_of_ok hok]; exact ih _⟩
      · rw [accepted_cons_rejected hok]
        exact ih s

theorem accepted_sublist (s : LedgerState) (txs : List L2Tx) :
    (s.accepted prim txs).Sublist txs := by
  induction txs generalizing s with
  | nil => exact List.Sublist.refl _
  | cons tx txs ih =>
      by_cases hok : s.TxOk prim tx
      · rw [accepted_cons_ok hok]
        exact (ih _).cons_cons tx
      · rw [accepted_cons_rejected hok]
        exact (ih s).cons tx

theorem accepted_append (s : LedgerState) (front back : List L2Tx) :
    s.accepted prim (front ++ back) = s.accepted prim front
      ++ (s.applyAll prim (s.accepted prim front)).accepted prim back := by
  induction front generalizing s with
  | nil => rfl
  | cons tx front ih =>
      by_cases hok : s.TxOk prim tx
      · rw [List.cons_append, accepted_cons_ok hok, accepted_cons_ok hok, ih, applyAll_cons_ok hok,
          List.cons_append]
      · rw [List.cons_append, accepted_cons_rejected hok, accepted_cons_rejected hok, ih]

/-- Nothing is accepted of a list when none of it is acceptable now. -/
theorem accepted_eq_nil_iff {s : LedgerState} {txs : List L2Tx} :
    s.accepted prim txs = [] ↔ ∀ tx ∈ txs, ¬ s.TxOk prim tx := by
  induction txs with
  | nil => simp [accepted]
  | cons tx txs ih =>
      by_cases hok : s.TxOk prim tx
      · simp [accepted_cons_ok hok, hok]
      · rw [accepted_cons_rejected hok, ih, List.forall_mem_cons]
        exact (and_iff_right hok).symm

end LedgerState

/-! ### Mints -/

/-- The mint a transaction is. -/
def L2Tx.mint? : L2Tx → Option MintEntry
  | .mint entry => some entry
  | .transfer _ => none

@[simp] theorem L2Tx.mint?_eq_some {tx : L2Tx} {entry : MintEntry} :
    tx.mint? = some entry ↔ tx = .mint entry := by
  cases tx <;> simp [L2Tx.mint?]

/-- The mints among transactions. -/
def mintsOf (txs : List L2Tx) : List MintEntry := txs.filterMap L2Tx.mint?

namespace LedgerState

/-- A run consumes the nullifiers of its mints and no others. -/
theorem AllOk.consumed {s : LedgerState} {txs : List L2Tx} (h : s.AllOk prim txs) (n : String) :
    n ∈ (s.applyAll prim txs).consumedNullifiers ↔
      n ∈ s.consumedNullifiers ∨ ∃ entry ∈ mintsOf txs, entry.event.nullifierHex = n := by
  induction txs generalizing s with
  | nil => simp [applyAll, mintsOf]
  | cons tx txs ih =>
      obtain ⟨hok, hrest⟩ := h
      refine (ih hrest).trans ?_
      rw [apply_of_ok hok]
      cases tx with
      | mint entry =>
          simp only [after, minted, mintsOf, L2Tx.mint?, List.filterMap_cons, List.mem_cons,
            Std.ExtTreeSet.mem_insert, Std.compare_eq_iff_eq]
          constructor
          · rintro ((heq | hold) | ⟨e, he, hn⟩)
            · exact .inr ⟨entry, .inl rfl, heq⟩
            · exact .inl hold
            · exact .inr ⟨e, .inr he, hn⟩
          · rintro (hold | ⟨e, rfl | he, hn⟩)
            · exact .inl (.inr hold)
            · exact .inl (.inl hn)
            · exact .inr ⟨e, he, hn⟩
      | transfer t =>
          simp only [after, transferred, payFee_consumedNullifiers, credit, debit,
            updateAccount_consumedNullifiers, mintsOf, L2Tx.mint?, List.filterMap_cons]

/-- **No nullifier is minted twice.** -/
theorem AllOk.nodup {s : LedgerState} {txs : List L2Tx} (h : s.AllOk prim txs) :
    ((mintsOf txs).map (·.event.nullifierHex)).Nodup ∧
      ∀ entry ∈ mintsOf txs, entry.event.nullifierHex ∉ s.consumedNullifiers := by
  induction txs generalizing s with
  | nil => simp [mintsOf]
  | cons tx txs ih =>
      obtain ⟨hok, hrest⟩ := h
      obtain ⟨hnodup, hfresh⟩ := ih hrest
      rw [apply_of_ok hok] at hfresh
      cases tx with
      | mint entry =>
          simp only [after, minted, Std.ExtTreeSet.mem_insert, Std.compare_eq_iff_eq,
            not_or] at hfresh
          refine ⟨?_, ?_⟩
          · refine List.nodup_cons.mpr ⟨fun hmem => ?_, hnodup⟩
            obtain ⟨e, he, heq⟩ := List.mem_map.mp hmem
            exact (hfresh e he).1 heq.symm
          · intro e he
            rcases List.mem_cons.mp he with rfl | hin
            · exact hok.fresh
            · exact (hfresh e hin).2
      | transfer t =>
          simp only [after, transferred, payFee_consumedNullifiers, credit, debit,
            updateAccount_consumedNullifiers] at hfresh
          exact ⟨hnodup, hfresh⟩

/-- What a run of accepted transactions mints. -/
theorem AllOk.mintSum_eq {s : LedgerState} {txs : List L2Tx} (h : s.AllOk prim txs) :
    s.mintSum prim txs = ((mintsOf txs).map (·.event.amount.toNat)).sum := by
  induction txs generalizing s with
  | nil => rfl
  | cons tx txs ih =>
      obtain ⟨hok, hrest⟩ := h
      rw [mintSum, ih hrest]
      cases tx with
      | mint entry => simp [acceptedMint, apply_of_ok hok, mintsOf, L2Tx.mint?]
      | transfer t => simp [acceptedMint, mintsOf, List.filterMap_cons, L2Tx.mint?]

/-- The minted total of a run goes up by its mints, as far as `u64::MAX`. -/
theorem AllOk.totalMintedAtoms {s : LedgerState} {txs : List L2Tx} (h : s.AllOk prim txs) :
    (s.applyAll prim txs).totalMintedAtoms.toNat
      = min (s.totalMintedAtoms.toNat + ((mintsOf txs).map (·.event.amount.toNat)).sum)
        (2 ^ 64 - 1) := by
  induction txs generalizing s with
  | nil =>
      have hbound := s.totalMintedAtoms.toNat_lt
      simp only [applyAll, List.foldl_nil, mintsOf, List.filterMap_nil, List.map_nil, List.sum_nil]
      omega
  | cons tx txs ih =>
      obtain ⟨hok, hrest⟩ := h
      rw [applyAll_cons_ok hok]
      rw [apply_of_ok hok] at hrest
      rw [ih hrest]
      cases tx with
      | mint entry =>
          have hminted : ((s.after (.mint entry)).totalMintedAtoms).toNat
              = min (s.totalMintedAtoms.toNat + entry.event.amount.toNat) (2 ^ 64 - 1) :=
            toNat_satAdd _ _
          simp only [hminted, mintsOf, L2Tx.mint?, List.filterMap_cons, List.map_cons,
            List.sum_cons]
          omega
      | transfer t =>
          have hsame : (s.after (.transfer t)).totalMintedAtoms = s.totalMintedAtoms :=
            transferred_totalMintedAtoms s t
          rw [hsame]
          rfl

end LedgerState

/-! ### Senders -/

/-- Whose transfer a transaction is. -/
def L2Tx.sender? : L2Tx → Option L2Address
  | .mint _ => none
  | .transfer t => some t.body.sender

namespace LedgerState

theorem after_nonceOf (s : LedgerState) (tx : L2Tx) (a : L2Address) :
    (s.after tx).nonceOf a = s.nonceOf a + if tx.sender? = some a then 1 else 0 := by
  cases tx with
  | mint entry =>
      have hrecords : (s.minted entry).nonceOf a
          = (s.credit entry.event.l2Destination entry.event.amount).nonceOf a := rfl
      simp [after, hrecords, L2Tx.sender?]
  | transfer t =>
      simp only [after, transferred, payFee_nonceOf, credit_nonceOf, debit_nonceOf, L2Tx.sender?,
        Option.some.injEq]
      split_ifs <;> simp

private theorem le_satAdd (a b : UInt64) : a ≤ satAdd a b := by
  rw [satAdd]
  split_ifs with hfit
  · rw [UInt64.le_iff_toNat_le, UInt64.toNat_add, Nat.mod_eq_of_lt hfit]
    omega
  · rw [UInt64.le_iff_toNat_le, UInt64.toNat_ofNat_of_lt' (by decide)]
    have := a.toNat_lt
    omega

theorem le_credit_balanceOf (s : LedgerState) (addr a : L2Address) (amount : Amount) :
    s.balanceOf a ≤ (s.credit addr amount).balanceOf a := by
  rw [credit_balanceOf]
  split_ifs
  · exact le_satAdd _ _
  · exact UInt64.le_refl _

theorem le_payFee_balanceOf (s : LedgerState) (fee : Amount) (a : L2Address) :
    s.balanceOf a ≤ (s.payFee fee).balanceOf a := by
  rw [payFee]
  cases s.sequencerFeeAddress with
  | some addr => exact s.le_credit_balanceOf addr a fee
  | none => exact UInt64.le_refl _

/-- Nobody else lowers a balance. -/
theorem le_after_balanceOf {s : LedgerState} {tx : L2Tx} {a : L2Address}
    (h : tx.sender? ≠ some a) : s.balanceOf a ≤ (s.after tx).balanceOf a := by
  cases tx with
  | mint entry => exact s.le_credit_balanceOf _ a _
  | transfer t =>
      have hne : t.body.sender ≠ a := fun heq => h (by rw [L2Tx.sender?, heq])
      refine UInt64.le_trans ?_ (le_payFee_balanceOf _ _ a)
      refine UInt64.le_trans ?_ (le_credit_balanceOf _ _ a _)
      rw [debit_balanceOf, if_neg hne]
      exact UInt64.le_refl _

/-- **A nonce counts its holder's transfers.** -/
theorem AllOk.nonceOf {s : LedgerState} {txs : List L2Tx} (h : s.AllOk prim txs) (a : L2Address) :
    (s.applyAll prim txs).nonceOf a
      = s.nonceOf a + UInt64.ofNat (txs.countP fun tx => tx.sender? = some a) := by
  induction txs generalizing s with
  | nil => simp [applyAll]
  | cons tx txs ih =>
      obtain ⟨hok, hrest⟩ := h
      have hstep := ih hrest
      rw [apply_of_ok hok] at hstep
      rw [applyAll_cons_ok hok, hstep, after_nonceOf, List.countP_cons, UInt64.ofNat_add,
        UInt64.add_assoc]
      congr 1
      by_cases hsent : tx.sender? = some a
      · simp [hsent, UInt64.add_comm]
      · simp [hsent]

/-- The transfers of one account carry its nonces in order. -/
theorem AllOk.nonce_getElem {s : LedgerState} {txs : List L2Tx} (h : s.AllOk prim txs)
    {a : L2Address} {i : Nat} {t : SignedTransfer}
    (hi : (txs.filter fun tx => tx.sender? = some a)[i]? = some (.transfer t)) :
    t.body.nonce = s.nonceOf a + UInt64.ofNat i := by
  induction txs generalizing s i with
  | nil => simp at hi
  | cons tx txs ih =>
      obtain ⟨hok, hrest⟩ := h
      rw [apply_of_ok hok] at hrest
      have hnonce := after_nonceOf s tx a
      by_cases hsent : tx.sender? = some a
      · rw [List.filter_cons_of_pos (by simpa using hsent)] at hi
        cases i with
        | zero =>
            obtain rfl : tx = .transfer t := by simpa using hi
            obtain rfl : t.body.sender = a := Option.some.inj hsent
            simpa using (show s.TransferOk prim t from hok).nonce
        | succ i =>
            rw [if_pos hsent] at hnonce
            rw [ih hrest (by simpa using hi), hnonce, UInt64.add_assoc, Nat.add_comm,
              UInt64.ofNat_add]
            rfl
      · rw [List.filter_cons_of_neg (by simpa using hsent)] at hi
        rw [if_neg hsent, UInt64.add_zero] at hnonce
        rw [ih hrest hi, hnonce]

/-- What was accepted passed its checks on some ledger. -/
theorem AllOk.mem {s : LedgerState} {txs : List L2Tx} (h : s.AllOk prim txs) {tx : L2Tx}
    (htx : tx ∈ txs) : ∃ s' : LedgerState, s'.TxOk prim tx := by
  induction txs generalizing s with
  | nil => cases htx
  | cons tx' txs ih =>
      rcases List.mem_cons.mp htx with rfl | hin
      · exact ⟨s, h.1⟩
      · exact ih h.2 hin

/-- Over a run without transfers from an account, its nonce stays and its balance does not
drop. -/
theorem AllOk.untouched {s : LedgerState} {txs : List L2Tx} (h : s.AllOk prim txs)
    {a : L2Address} (hnone : ∀ tx ∈ txs, tx.sender? ≠ some a) :
    (s.applyAll prim txs).nonceOf a = s.nonceOf a ∧
      s.balanceOf a ≤ (s.applyAll prim txs).balanceOf a := by
  refine ⟨?_, ?_⟩
  · have hcount : (txs.countP fun tx => tx.sender? = some a) = 0 := by
      simpa [List.countP_eq_zero] using hnone
    rw [h.nonceOf, hcount]
    exact UInt64.add_zero _
  · induction txs generalizing s with
    | nil => exact UInt64.le_refl _
    | cons tx txs ih =>
        obtain ⟨hok, hrest⟩ := h
        rw [apply_of_ok hok] at hrest
        rw [applyAll_cons_ok hok]
        refine UInt64.le_trans (le_after_balanceOf (hnone tx (by simp)))
          (ih hrest fun tx' hin => ?_)
        exact hnone tx' (by simp [hin])

/-- A run with a transaction in it leaves another ledger. -/
theorem AllOk.eq_nil {s : LedgerState} {txs : List L2Tx} (h : s.AllOk prim txs)
    (hlen : ∀ a, (txs.countP fun tx => tx.sender? = some a) < 2 ^ 64)
    (hsame : s.applyAll prim txs = s) : txs = [] := by
  match txs with
  | [] => rfl
  | .mint entry :: txs =>
      have hconsumed := (h.consumed entry.event.nullifierHex).mpr
        (.inr ⟨entry, by simp [mintsOf, L2Tx.mint?], rfl⟩)
      rw [hsame] at hconsumed
      exact absurd hconsumed (h.nodup.2 entry (by simp [mintsOf, L2Tx.mint?]))
  | .transfer t :: txs =>
      have hnonce := h.nonceOf t.body.sender
      have hbound := hlen t.body.sender
      rw [hsame] at hnonce
      have hzero := congrArg UInt64.toNat (UInt64.left_eq_add.mp hnonce)
      rw [UInt64.toNat_ofNat_of_lt' hbound] at hzero
      simp [L2Tx.sender?] at hzero

end LedgerState

end Hodlchain
