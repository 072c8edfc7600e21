/-
Replay protection.

An account's nonce counts the transfers accepted from it and nothing else, so the
transfers accepted from it carry 0, 1, 2, … in order, and a transfer body cannot be
accepted a second time: the nonce it names has gone by.
-/
import Hodlchain.Core.Rejected

namespace Hodlchain

/-- The transfer body of a transaction. -/
def L2Tx.body? : L2Tx → Option TransferBody
  | .mint _ => none
  | .transfer t => some t.body

/-- The transfer bodies among transactions. -/
def bodiesOf (txs : List L2Tx) : List TransferBody := txs.filterMap L2Tx.body?

theorem mem_bodiesOf {txs : List L2Tx} {b : TransferBody} :
    b ∈ bodiesOf txs ↔ ∃ t : SignedTransfer, L2Tx.transfer t ∈ txs ∧ t.body = b := by
  unfold bodiesOf
  rw [List.mem_filterMap]
  constructor
  · rintro ⟨tx, htx, hbody⟩
    cases tx with
    | mint entry => cases hbody
    | transfer t => exact ⟨t, htx, Option.some.inj hbody⟩
  · rintro ⟨t, ht, rfl⟩
    exact ⟨_, ht, rfl⟩

/-- The transactions an account sent. -/
def sentBy (a : L2Address) (txs : List L2Tx) : List L2Tx :=
  txs.filter fun tx => tx.sender? = some a

theorem length_sentBy (a : L2Address) (txs : List L2Tx) :
    (sentBy a txs).length = txs.countP fun tx => tx.sender? = some a :=
  List.countP_eq_length_filter.symm

namespace LedgerState

variable {prim : Primitives}

/-- A transfer further on in a run has a nonce that its sender has not passed. -/
theorem AllOk.nonce_le {s : LedgerState} {txs : List L2Tx} (h : s.AllOk prim txs)
    {t : SignedTransfer} (ht : L2Tx.transfer t ∈ txs)
    (hfit : (s.nonceOf t.body.sender).toNat + txs.length < 2 ^ 64) :
    (s.nonceOf t.body.sender).toNat ≤ t.body.nonce.toNat := by
  have hmem : L2Tx.transfer t ∈ sentBy t.body.sender txs := by
    refine List.mem_filter.mpr ⟨ht, ?_⟩
    simp [L2Tx.sender?]
  obtain ⟨i, hi⟩ := List.mem_iff_getElem?.mp hmem
  obtain ⟨hlt, -⟩ := List.getElem?_eq_some_iff.mp hi
  have hle : (sentBy t.body.sender txs).length ≤ txs.length := List.length_filter_le _ _
  have hnonce : t.body.nonce = s.nonceOf t.body.sender + UInt64.ofNat i := h.nonce_getElem hi
  rw [hnonce, UInt64.toNat_add, UInt64.toNat_ofNat_of_lt' (show i < 2 ^ 64 by omega),
    Nat.mod_eq_of_lt (by omega)]
  exact Nat.le_add_right _ _

/-- **No transfer body is accepted twice** while no nonce comes round again. -/
theorem AllOk.nodup_bodiesOf {s : LedgerState} {txs : List L2Tx} (h : s.AllOk prim txs)
    (hfit : ∀ a, (s.nonceOf a).toNat + txs.length < 2 ^ 64) : (bodiesOf txs).Nodup := by
  induction txs generalizing s with
  | nil => exact List.nodup_nil
  | cons tx txs ih =>
      obtain ⟨hok, hrest⟩ := h
      rw [apply_of_ok hok] at hrest
      have hup : ∀ a, ((s.after tx).nonceOf a).toNat
          = (s.nonceOf a).toNat + if tx.sender? = some a then 1 else 0 := by
        intro a
        have hbound := hfit a
        rw [List.length_cons] at hbound
        rw [after_nonceOf]
        by_cases hsent : tx.sender? = some a
        · rw [if_pos hsent, if_pos hsent, UInt64.toNat_add, UInt64.toNat_one,
            Nat.mod_eq_of_lt (by omega)]
        · rw [if_neg hsent, if_neg hsent, UInt64.add_zero, Nat.add_zero]
      have hfit' : ∀ a, ((s.after tx).nonceOf a).toNat + txs.length < 2 ^ 64 := by
        intro a
        have hbound := hfit a
        rw [List.length_cons] at hbound
        rw [hup]
        split_ifs <;> omega
      have hnodup := ih hrest hfit'
      cases tx with
      | mint entry => exact hnodup
      | transfer t =>
          refine List.nodup_cons.mpr ⟨fun hmem => ?_, hnodup⟩
          obtain ⟨t', ht', hbody⟩ := mem_bodiesOf.mp hmem
          have hnext := hrest.nonce_le ht' (hfit' _)
          have hnonce : t.body.nonce = s.nonceOf t.body.sender := TransferOk.nonce hok
          rw [hbody, hup, if_pos (show L2Tx.sender? (.transfer t) = some t.body.sender from rfl),
            hnonce] at hnext
          omega

theorem nonceOf_start (fee : Option L2Address) (a : L2Address) : (start fee).nonceOf a = 0 := by
  unfold nonceOf start new
  simp

/-- **Replay protection.**  Over any run from an empty ledger, of fewer than 2^64 transactions: at
every point the nonce of an account is the number of transfers accepted from it, these carry the
nonces 0, 1, 2, … in order, and no transfer body is accepted twice. -/
theorem replay_protected (prim : Primitives) (fee : Option L2Address) (txs : List L2Tx)
    (hlen : txs.length < 2 ^ 64) :
    (∀ front back, txs = front ++ back → ∀ a : L2Address,
      (((start fee).applyAll prim front).nonceOf a).toNat
        = (sentBy a ((start fee).accepted prim front)).length) ∧
    (∀ (a : L2Address) (i : Nat) (t : SignedTransfer),
      (sentBy a ((start fee).accepted prim txs))[i]? = some (.transfer t) →
        t.body.nonce.toNat = i) ∧
    (bodiesOf ((start fee).accepted prim txs)).Nodup := by
  have hok : ∀ txs, (start fee).AllOk prim ((start fee).accepted prim txs) := allOk_accepted _
  have hle : ∀ a txs, (sentBy a ((start fee).accepted prim txs)).length ≤ txs.length := by
    intro a txs
    exact (List.length_filter_le _ _).trans ((start fee).accepted_sublist txs).length_le
  refine ⟨fun front back heq a => ?_, fun a i t hi => ?_, ?_⟩
  · have hbound := hle a front
    rw [heq, List.length_append] at hlen
    rw [← applyAll_accepted, (hok front).nonceOf, nonceOf_start, UInt64.zero_add, ← length_sentBy,
      UInt64.toNat_ofNat_of_lt' (show _ < 2 ^ 64 by omega)]
  · obtain ⟨hlt, -⟩ := List.getElem?_eq_some_iff.mp hi
    have hbound := hle a txs
    have hnonce : t.body.nonce = (start fee).nonceOf a + UInt64.ofNat i :=
      (hok txs).nonce_getElem hi
    rw [hnonce, nonceOf_start, UInt64.zero_add, UInt64.toNat_ofNat_of_lt'
      (show i < 2 ^ 64 by omega)]
  · refine (hok txs).nodup_bodiesOf fun a => ?_
    have hlen' := (@accepted_sublist prim (start fee) txs).length_le
    rw [nonceOf_start]
    show 0 + _ < 2 ^ 64
    omega

/-- A mint, a transfer and the same transfer again, which is rejected. -/
theorem replay_protected_resubmitted :
    let transfer := L2Tx.transfer (sampleTransfer 1 2 100 0)
    let txs := [.mint thousandMint, transfer, transfer]
    ((start none).accepted Primitives.sample txs).length = 2 ∧
      (bodiesOf ((start none).accepted Primitives.sample txs)).Nodup :=
  ⟨by decide +kernel, (replay_protected Primitives.sample none
    [.mint thousandMint, .transfer (sampleTransfer 1 2 100 0), .transfer (sampleTransfer 1 2 100 0)]
    (by decide)).2.2⟩

end LedgerState

end Hodlchain
