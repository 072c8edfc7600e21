/-
What is in the mempool.

A transfer gets there with a good signature and with the nonce its sender has in the
ledger.  Only a call that drains the mempool changes that ledger, so in any state the
sequencer can be in every waiting transfer still has its sender's nonce.
-/
import Hodlchain.Sequencer.Run

namespace Hodlchain.Sequencer

variable {prim : Primitives} {app app' : AppState}

/-- What `submit_transfer` asks of a transfer. -/
structure Admissible (prim : Primitives) (state : LedgerState) (t : SignedTransfer) : Prop where
  signed : prim.verifySchnorr t.signature (t.body.sighash prim) t.body.sender = true
  nonce : t.body.nonce = state.nonceOf t.body.sender

/-- The mempool, with one more transfer. -/
def AppState.push (app : AppState) (t : SignedTransfer) : AppState :=
  app.setMempool
    { app.shared.mempool with transfers := app.shared.mempool.transfers ++ [t] }

theorem submitTransfer_cases (prim : Primitives) (now : UInt64) (t : SignedTransfer)
    (app : AppState) :
    (Admissible prim app.shared.state t ∧ (submitTransfer prim now t app).1.accepted = true ∧
      (submitTransfer prim now t app).2 = app.push t) ∨
    (¬ Admissible prim app.shared.state t ∧ (submitTransfer prim now t app).1.accepted = false ∧
      (submitTransfer prim now t app).2 = app) := by
  simp only [submitTransfer]
  split_ifs with hsig hnonce
  · refine .inr ⟨fun h => ?_, rfl, rfl⟩
    simp [h.signed] at hsig
  · exact .inr ⟨fun h => hnonce h.nonce, rfl, rfl⟩
  · exact .inl ⟨⟨by simpa using hsig, not_not.mp hnonce⟩, rfl, rfl⟩

/-- A transfer is accepted exactly when it is admissible. -/
theorem submitTransfer_accepted_iff {now : UInt64} {t : SignedTransfer} :
    (submitTransfer prim now t app).1.accepted = true ↔ Admissible prim app.shared.state t := by
  rcases submitTransfer_cases prim now t app with ⟨hok, hacc, -⟩ | ⟨hno, hacc, -⟩
  · exact iff_of_true hacc hok
  · exact iff_of_false (by simp [hacc]) hno

/-- A mint submitted changes the mempool at most, and none of its transfers. -/
theorem submitMint_snd (prim : Primitives) (l1 : L1View) (now : UInt64)
    (proof : MintProofEnvelope) (l2Destination : L2Address) (app : AppState) :
    ∃ mempool, (submitMint prim l1 now proof l2Destination app).2 = app.setMempool mempool ∧
      mempool.transfers = app.shared.mempool.transfers := by
  have hsame : app = app.setMempool app.shared.mempool := rfl
  unfold submitMint
  split
  · exact ⟨_, hsame, rfl⟩
  · dsimp only
    split_ifs
    · exact ⟨_, hsame, rfl⟩
    · exact ⟨_, hsame, rfl⟩
    · exact ⟨_, rfl, rfl⟩

/-- What does not look at the mempool outlives a mint submitted. -/
theorem submitMint_keeps {I : AppState → Prop} (hI : ∀ mempool, I app → I (app.setMempool mempool))
    (l1 : L1View) (now : UInt64) (proof : MintProofEnvelope) (l2Destination : L2Address)
    (happ : I app) : I (submitMint prim l1 now proof l2Destination app).2 := by
  obtain ⟨mempool, heq, -⟩ := submitMint_snd prim l1 now proof l2Destination app
  rw [heq]
  exact hI mempool happ

/-- And a transfer. -/
theorem submitTransfer_keeps {I : AppState → Prop}
    (hI : ∀ mempool, I app → I (app.setMempool mempool)) (now : UInt64) (t : SignedTransfer)
    (happ : I app) : I (submitTransfer prim now t app).2 := by
  rcases submitTransfer_cases prim now t app with ⟨-, -, heq⟩ | ⟨-, -, heq⟩
  · rw [heq]
    exact hI _ happ
  · rw [heq]
    exact happ

/-- Every waiting transfer is one `submit_transfer` would still accept. -/
structure Admitted (prim : Primitives) (app : AppState) : Prop where
  room : app.shared.mempool.transfers.length ≤ vecCapacity
  transfers : ∀ t ∈ app.shared.mempool.transfers, Admissible prim app.shared.state t

theorem admitted_of_empty (h : app.shared.mempool.transfers = []) : Admitted prim app :=
  ⟨by simp [h], by simp [h]⟩

private theorem admitted_push {t : SignedTransfer} (h : Admitted prim app)
    (hroom : app.shared.mempool.transfers.length < vecCapacity)
    (ht : Admissible prim app.shared.state t) : Admitted prim (app.push t) := by
  refine ⟨?_, fun t' ht' => ?_⟩
  · simp only [AppState.push, AppState.setMempool, List.length_append, List.length_singleton]
    omega
  · rcases List.mem_append.mp ht' with hold | hnew
    · exact h.transfers t' hold
    · rw [List.mem_singleton.mp hnew]
      exact ht

/-- **Waiting transfers stay admissible**, in every state the sequencer can be in. -/
theorem admitted_of_reachable (h : Reachable prim app) : Admitted prim app := by
  refine StepKeeps.reachable (P := fun _ => True) (I := Admitted prim) ?_ (fun app h => ?_) h
  · refine ⟨fun h happ => ⟨?_, ?_⟩, fun _ _ => trivial, fun _ => trivial, ?_, ?_, ?_, ?_⟩
    · rw [h.shared]
      exact happ.room
    · rw [h.shared]
      exact happ.transfers
    · intro app l1 now proof l2Destination _ happ
      obtain ⟨mempool, heq, htransfers⟩ := submitMint_snd prim l1 now proof l2Destination app
      rw [heq]
      refine ⟨?_, ?_⟩
      · simp only [AppState.setMempool, htransfers]
        exact happ.room
      · simp only [AppState.setMempool, htransfers]
        exact happ.transfers
    · intro app now transfer hroom happ
      rcases submitTransfer_cases prim now transfer app with ⟨hok, -, heq⟩ | ⟨-, -, heq⟩
      · rw [heq]
        exact admitted_push happ hroom hok
      · rw [heq]
        exact happ
    · intro env app r app' _ _ hrun happ
      refine ⟨trivial, fun _ => ?_⟩
      cases produceBlock_ends hrun with
      | noTip => exact happ
      | unwritten => exact admitted_of_empty rfl
      | behind => exact admitted_of_empty rfl
      | done => exact admitted_of_empty rfl
    · intro app app' _ hrestart
      unfold restart at hrestart
      split at hrestart
      · rw [← Option.some.inj hrestart]
        exact admitted_of_empty rfl
      · cases hrestart
  · obtain ⟨identity, l1BlockHash, l1GenesisHeight, now, anchor0, hstart⟩ := h
    simp only [coldStart, bind_ok_iff, pure_ok_iff] at hstart
    obtain ⟨store, -, rfl⟩ := hstart
    exact admitted_of_empty rfl

end Hodlchain.Sequencer
