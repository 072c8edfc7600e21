/-
Rejected transactions leave no trace.

A block producer offers the ledger everything it has drained and keeps what is
accepted; a validator only ever sees what was kept.  They reach the same ledger
because a rejected transaction changes nothing: a run with rejected transactions
put in anywhere answers everything after them as the run without them does.
-/
import Hodlchain.Core.Accepted

namespace Hodlchain

namespace LedgerState

variable {prim : Primitives}

/-- `txs'` is `txs` with rejected transactions put in: each is rejected by the ledger
that the run of `txs'` has when it comes to it. -/
inductive Padded (prim : Primitives) : LedgerState → List L2Tx → List L2Tx → Prop
  | nil {s : LedgerState} : Padded prim s [] []
  | keep {s : LedgerState} {tx : L2Tx} {txs txs' : List L2Tx} :
      Padded prim (s.apply prim tx).2 txs txs' → Padded prim s (tx :: txs) (tx :: txs')
  | put {s : LedgerState} {tx : L2Tx} {e : ApplyError} {txs txs' : List L2Tx} :
      (s.apply prim tx).1 = .error e → Padded prim (s.apply prim tx).2 txs txs' →
        Padded prim s txs (tx :: txs')

/-- The ledger after a padded run is the ledger after the run. -/
theorem Padded.applyAll_eq {s : LedgerState} {txs txs' : List L2Tx} (h : Padded prim s txs txs') :
    s.applyAll prim txs' = s.applyAll prim txs := by
  induction h with
  | nil => rfl
  | keep _ ih => exact ih
  | @put s tx e txs txs' hrejected _ ih =>
      rw [apply_of_error hrejected] at ih
      show (s.apply prim tx).2.applyAll prim txs' = _
      rw [apply_of_error hrejected]
      exact ih

/-- What is offered is what is accepted of it, padded. -/
theorem padded_accepted (s : LedgerState) (txs : List L2Tx) :
    Padded prim s (s.accepted prim txs) txs := by
  induction txs generalizing s with
  | nil => exact .nil
  | cons tx txs ih =>
      unfold accepted
      rcases happly : s.apply prim tx with ⟨r, s'⟩
      have hrest : Padded prim (s.apply prim tx).2 (s'.accepted prim txs) txs := by
        rw [happly]
        exact ih s'
      cases r with
      | ok _ => exact .keep hrest
      | error e => exact .put (by rw [happly]) hrest

theorem applyAll_accepted (s : LedgerState) (txs : List L2Tx) :
    s.applyAll prim (s.accepted prim txs) = s.applyAll prim txs :=
  (padded_accepted s txs).applyAll_eq.symm

/-- **A transaction is applied as a whole or not at all.**  A rejected one leaves the ledger as it
was; put in anywhere before another, it changes neither the answer to that one nor what it leaves;
and a validator that replays what a producer kept reaches the producer's ledger. -/
theorem apply_atomic (prim : Primitives) (s : LedgerState) :
    (∀ tx e, (s.apply prim tx).1 = .error e → (s.apply prim tx).2 = s) ∧
    (∀ txs txs' tx, Padded prim s txs txs' →
      (s.applyAll prim txs').apply prim tx = (s.applyAll prim txs).apply prim tx) ∧
    ∀ txs, s.replay prim (s.accepted prim txs) = .ok (s.applyAll prim txs) := by
  refine ⟨fun tx e hrejected => apply_of_error hrejected, ?_, ?_⟩
  · intro txs txs' tx hpadded
    rw [hpadded.applyAll_eq]
  · intro txs
    exact replayFrom_ok_iff.mpr ⟨s.allOk_accepted txs, applyAll_accepted s txs⟩

end LedgerState

end Hodlchain
