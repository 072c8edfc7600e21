/-
The body of a built block.

The two loops offer transactions to the ledger, one after another: first each
drained mint that verifies again, with the event its witness authorises now, then
the transfers.  What is accepted of them is the body.
-/
import Hodlchain.Core.Accepted
import Hodlchain.Sequencer.Producer

namespace Hodlchain.Sequencer

variable {prim : Primitives}

/-- The mints that verify again, from the `i`-th on. -/
def freshMints (prim : Primitives) (view : Nat → L1View) : Nat → List MintEntry → List L2Tx
  | _, [] => []
  | i, entry :: mints =>
      match freshMint prim (view i) entry with
      | .error _ => freshMints prim view (i + 1) mints
      | .ok tx => tx :: freshMints prim view (i + 1) mints

/-- All that is offered to the ledger. -/
def candidates (prim : Primitives) (view : Nat → L1View) (mints : List MintEntry)
    (transfers : List SignedTransfer) : List L2Tx :=
  freshMints prim view 0 mints ++ transfers.map L2Tx.transfer

/-- The body built on a ledger. -/
def body (prim : Primitives) (view : Nat → L1View) (s : LedgerState) (mints : List MintEntry)
    (transfers : List SignedTransfer) : List L2Tx :=
  s.accepted prim (candidates prim view mints transfers)

theorem pushMints_eq {view : Nat → L1View} {i : Nat} {acc : LedgerState × List L2Tx}
    {mints : List MintEntry} :
    pushMints prim view i acc mints = (freshMints prim view i mints).foldl (pushTx prim) acc := by
  induction mints generalizing i acc with
  | nil => rfl
  | cons entry mints ih =>
      rw [pushMints, ih, freshMints, pushMint]
      cases freshMint prim (view i) entry <;> rfl

theorem foldl_pushTx {s : LedgerState} {front : List L2Tx} {txs : List L2Tx} :
    txs.foldl (pushTx prim) (s, front)
      = (s.applyAll prim (s.accepted prim txs), front ++ s.accepted prim txs) := by
  induction txs generalizing s front with
  | nil => simp [LedgerState.accepted, LedgerState.applyAll]
  | cons tx txs ih =>
      rw [List.foldl_cons, pushTx]
      rcases LedgerState.apply_cases prim s tx with ⟨hok, heq⟩ | ⟨hno, e, heq⟩
      · rw [heq, LedgerState.accepted_cons_ok hok, LedgerState.applyAll_cons_ok hok]
        simp only [ih, List.append_assoc, List.cons_append, List.nil_append]
      · rw [heq, LedgerState.accepted_cons_rejected hno]
        exact ih

/-- **A built body is what is accepted of the candidates.** -/
theorem buildBody_eq (view : Nat → L1View) (s : LedgerState) (mints : List MintEntry)
    (transfers : List SignedTransfer) : buildBody prim view s mints transfers
      = (s.applyAll prim (body prim view s mints transfers), body prim view s mints transfers) := by
  have hall : buildBody prim view s mints transfers
      = (candidates prim view mints transfers).foldl (pushTx prim) (s, []) := by
    rw [buildBody, pushMints_eq, candidates, List.foldl_append, pushTransfers, List.foldl_map]
  rw [hall, foldl_pushTx, body, List.nil_append]

/-- A built body replays to the ledger it was built with. -/
theorem replay_body (view : Nat → L1View) (s : LedgerState) (mints : List MintEntry)
    (transfers : List SignedTransfer) : s.replay prim (body prim view s mints transfers)
      = .ok (s.applyAll prim (body prim view s mints transfers)) :=
  LedgerState.replayFrom_ok_iff.mpr ⟨s.allOk_accepted _, rfl⟩

theorem mem_freshMints {view : Nat → L1View} {i : Nat} {mints : List MintEntry} {tx : L2Tx} :
    tx ∈ freshMints prim view i mints ↔
      ∃ k entry, mints[k]? = some entry ∧ freshMint prim (view (i + k)) entry = .ok tx := by
  induction mints generalizing i with
  | nil => simp [freshMints]
  | cons entry mints ih =>
      have hrest : (∃ k e, (entry :: mints)[k]? = some e ∧ freshMint prim (view (i + k)) e = .ok tx)
          ↔ freshMint prim (view i) entry = .ok tx ∨ tx ∈ freshMints prim view (i + 1) mints := by
        rw [ih]
        constructor
        · rintro ⟨k, e, hk, hfresh⟩
          cases k with
          | zero =>
              obtain rfl : entry = e := by simpa using hk
              exact .inl hfresh
          | succ k => exact .inr ⟨k, e, by simpa using hk, by rwa [Nat.add_right_comm]⟩
        · rintro (hfresh | ⟨k, e, hk, hfresh⟩)
          · exact ⟨0, entry, rfl, hfresh⟩
          · exact ⟨k + 1, e, by simpa using hk, by rwa [Nat.add_right_comm] at hfresh⟩
      rw [hrest, freshMints]
      cases freshMint prim (view i) entry with
      | error e => simp
      | ok tx' => simp [eq_comm]

/-- A fresh mint is nobody's transfer. -/
theorem sender?_of_mem_freshMints {view : Nat → L1View} {i : Nat} {mints : List MintEntry}
    {tx : L2Tx} (h : tx ∈ freshMints prim view i mints) : tx.sender? = none := by
  obtain ⟨k, entry, -, hfresh⟩ := mem_freshMints.mp h
  rw [freshMint] at hfresh
  cases hverify : entry.witness.verify prim (view (i + k)) entry.event.l2Destination with
  | error e => simp [hverify] at hfresh
  | ok credit =>
      simp only [hverify, Except.ok.injEq] at hfresh
      rw [← hfresh]
      rfl

end Hodlchain.Sequencer
