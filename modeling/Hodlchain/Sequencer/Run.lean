/-
The sequencer as a system.

It starts from a new store, or from the latest row of an old one.  Between two calls
of the producer it answers requests; a call may fail at any call to the store and go
on, or stop there and start again from what is persisted.
-/
import Hodlchain.Lib.System
import Hodlchain.Sequencer.Production

namespace Hodlchain.Sequencer

section

variable (prim : Primitives)

/-! ### Starting -/

/-- `bootstrap`, when the store has a snapshot. -/
def resume (store : Store) : Except StoreError (Option (LedgerState × HeadInfo)) :=
  match store.loadLatestState with
  | none => .ok none
  | some (height, state) =>
      match store.getBlock height with
      | none => .error (.snapshotWithoutBlock height)
      | some block => .ok (some (state, headOf prim block))

/-- `bootstrap`, when it has none: the genesis block over the L1 block at
`l1GenesisHeight`, with the wallet's largest output as its anchor. -/
def coldStart (identity : Keypair) (l1BlockHash : H256) (l1GenesisHeight : UInt32) (now : UInt64)
    (anchor0 : OutPoint) (store : Store) : Except StoreError AppState := do
  let identityPubkey := identity.xOnlyPublicKey
  let block := genesis prim l1BlockHash l1GenesisHeight now anchor0 (some identityPubkey)
    (some identityPubkey)
  let state := { LedgerState.new with sequencerFeeAddress := some identityPubkey }
  let witness := BlockWitness.build prim state block.txs 0
  let store ← store.writeBlockAndState block state witness
  let head : HeadInfo :=
    { height := 0
      blockHash := block.hash prim
      stateRoot := block.header.stateRoot
      l1Height := l1GenesisHeight
      l1BlockHash := l1BlockHash }
  pure ⟨Shared.new state head identity, (store.setL1Cursor l1GenesisHeight).setAnchor anchor0⟩

/-- A new process over the same store. -/
def restart (app : AppState) : Option AppState :=
  match resume prim app.store with
  | .ok (some (state, head)) => some ⟨Shared.new state head app.shared.identity, app.store⟩
  | _ => none

/-- How the sequencer goes on after a call of the producer. -/
def settle : Except Halt Unit × AppState → Option AppState
  | (.error .stopped, app) => restart prim app
  | (_, app) => some app

/-! ### Steps -/

/-- `isize::MAX`, which bounds the length of a `Vec`. -/
def vecCapacity : Nat := 2 ^ 63 - 1

/-- `check_and_attest` gets to producing a block. -/
def Attests (env : AttestEnv) (app : AppState) : Prop :=
  ∃ tip last, env.blockCount = some tip ∧ (lastAttested env.faults app).1 = .ok last ∧ ¬ tip ≤ last

/-- One step, in which every call of `produce_block` is an allowed one. -/
inductive Step (allowed : BlockEnv → AppState → Prop) (app : AppState) : AppState → Prop
  | submitMint (l1 : L1View) (now : UInt64) (proof : MintProofEnvelope) (l2Destination : L2Address)
      (room : app.shared.mempool.mints.length < vecCapacity) :
      Step allowed app (submitMint prim l1 now proof l2Destination app).2
  | submitTransfer (now : UInt64) (transfer : SignedTransfer)
      (room : app.shared.mempool.transfers.length < vecCapacity) :
      Step allowed app (submitTransfer prim now transfer app).2
  | produceBlock {env : BlockEnv} {app' : AppState} (hallowed : allowed env app)
      (h : settle prim (produceBlock prim env app) = some app') : Step allowed app app'
  | checkAndAttest {env : AttestEnv} {app' : AppState}
      (hallowed : Attests env app → allowed env.block app)
      (h : settle prim (checkAndAttest prim env app) = some app') : Step allowed app app'
  | monitorPending {env : MonitorEnv} {app' : AppState}
      (h : settle prim (monitorPending env app) = some app') : Step allowed app app'
  | restart {app' : AppState} (h : restart prim app = some app') : Step allowed app app'

/-- A sequencer that has just bootstrapped a new store. -/
def Started (app : AppState) : Prop :=
  ∃ identity l1BlockHash l1GenesisHeight now anchor0,
    coldStart prim identity l1BlockHash l1GenesisHeight now anchor0 .empty = .ok app

/-- The sequencer, with the calls of `produce_block` that are allowed. -/
def system (allowed : BlockEnv → AppState → Prop) : System AppState :=
  ⟨Started prim, Step prim allowed⟩

/-- The states the sequencer can be in. -/
abbrev Reachable (app : AppState) : Prop := (system prim fun _ _ => True).Reachable app

variable {prim}

theorem Step.mono {allowed allowed' : BlockEnv → AppState → Prop} {app app' : AppState}
    (h : Step prim allowed app app') (hle : ∀ env app, allowed env app → allowed' env app) :
    Step prim allowed' app app' := by
  cases h with
  | submitMint l1 now proof l2Destination room =>
      exact .submitMint l1 now proof l2Destination room
  | submitTransfer now transfer room => exact .submitTransfer now transfer room
  | produceBlock hallowed h => exact .produceBlock (hle _ _ hallowed) h
  | checkAndAttest hallowed h => exact .checkAndAttest (fun ha => hle _ _ (hallowed ha)) h
  | monitorPending h => exact .monitorPending h
  | restart h => exact .restart h

/-- What a restricted run reaches is a state the sequencer can be in. -/
theorem reachable_of_allowed {allowed : BlockEnv → AppState → Prop} {app : AppState}
    (h : (system prim allowed).Reachable app) : Reachable prim app := by
  have hinit : ∀ app, (system prim allowed).init app → (system prim fun _ _ => True).init app :=
    fun _ hstarted => hstarted
  exact h.mono hinit fun _ _ hstep => Step.mono hstep fun _ _ _ => trivial

end

/-! ### What attesting and monitoring leave alone -/

/-- The same memory, blocks, states and witnesses. -/
structure SameCore (app app' : AppState) : Prop where
  shared : app'.shared = app.shared
  blocks : app'.store.blocks = app.store.blocks
  stateSnapshots : app'.store.stateSnapshots = app.store.stateSnapshots
  blockWitnesses : app'.store.blockWitnesses = app.store.blockWitnesses

theorem SameCore.refl (app : AppState) : SameCore app app := ⟨rfl, rfl, rfl, rfl⟩

variable {prim : Primitives} {app app' : AppState} {r : Except Halt Unit}

theorem keeps_storeCall {I : AppState → Prop} (faults : StoreCall → Option Fault)
    (site : StoreCall) : Action.Keeps I (storeCall faults site) := by
  intro app happ
  rw [storeCall_run]
  cases faults site <;> exact happ

theorem keeps_setStore {I : AppState → Prop} (faults : StoreCall → Option Fault) (site : StoreCall)
    {f : Store → Store} (hf : ∀ app, I app → I { app with store := f app.store }) :
    Action.Keeps I (setStore faults site f) :=
  (keeps_storeCall faults site).bind fun _ => .modify hf

private theorem keeps_recordAttestation (faults : StoreCall → Option Fault)
    (tip l2HeadHeight : UInt32) (spentAnchor : OutPoint) (txid : Txid) :
    Action.Keeps (SameCore app) (recordAttestation faults tip l2HeadHeight spentAnchor txid) := by
  refine (keeps_setStore _ _ fun _ h => ⟨h.1, h.2, h.3, h.4⟩).bind fun _ => ?_
  refine (keeps_setStore _ _ fun _ h => ⟨h.1, h.2, h.3, h.4⟩).bind fun _ => ?_
  refine (keeps_storeCall _ _).bind fun _ => ?_
  refine Action.Triple.bind (Q := fun _ => SameCore app) (.get fun _ h => h) fun _ => ?_
  exact keeps_setStore _ _ fun _ h => ⟨h.1, h.2, h.3, h.4⟩

private theorem keeps_attestHead (env : AttestEnv) (tip : UInt32) :
    Action.Keeps (SameCore app) (attestHead env tip) := by
  refine Action.Triple.bind (Q := fun _ => SameCore app) (.get fun _ h => h) fun app' => ?_
  refine (keeps_storeCall _ _).bind fun _ => ?_
  cases app'.store.anchor with
  | none => exact .halt fun _ h => h
  | some anchor =>
      cases hpost : env.post (Attestation.new app'.shared.head.height app'.shared.head.blockHash
          app'.shared.head.stateRoot) anchor with
      | none =>
          simp only [hpost]
          exact .pure fun _ h => h
      | some txid =>
          simp only [hpost]
          exact keeps_recordAttestation _ _ _ _ _

/-- Reading the attested height changes nothing. -/
theorem lastAttested_snd (faults : StoreCall → Option Fault) (app : AppState) :
    (lastAttested faults app).2 = app := by
  simp only [lastAttested, Action.bind_run, storeCall_run]
  cases faults .lastAttestedL1Height with
  | some f => rfl
  | none =>
      simp only [Action.get_run]
      cases app.store.lastAttestedL1Height with
      | some h => rfl
      | none =>
          cases faults .l1Cursor with
          | none => rfl
          | some f => cases f <;> rfl

/-- Once the tip and the attested height are read, a call is the comparison and what follows. -/
theorem checkAndAttest_run {env : AttestEnv} {tip last : UInt32} (htip : env.blockCount = some tip)
    (hread : (lastAttested env.faults app).1 = .ok last) : checkAndAttest prim env app
      = (if tip ≤ last then pure ()
        else produceBlock prim env.block >>= fun _ => attestHead env tip : Act Unit) app := by
  have hlast : lastAttested env.faults app = (.ok last, app) :=
    Prod.ext hread (lastAttested_snd env.faults app)
  unfold checkAndAttest
  have hfirst : (Action.lift (okOr env.blockCount (Halt.error .blockCount)) : Act UInt32) app
      = (.ok tip, app) := by
    rw [htip]
    rfl
  exact (Action.bind_run_ok hfirst).trans (Action.bind_run_ok hlast)

/-- An attestation either leaves memory and tables alone, or is a call of `produce_block` and
then leaves them alone. -/
theorem checkAndAttest_cases {env : AttestEnv} (h : checkAndAttest prim env app = (r, app')) :
    app' = app ∨ (Attests env app ∧ ∃ r₁ app₁, produceBlock prim env.block app = (r₁, app₁) ∧
      SameCore app₁ app' ∧ (r₁ ≠ .ok () → r = r₁)) := by
  cases htip : env.blockCount with
  | none =>
      simp only [checkAndAttest, Action.bind_run, Action.lift_run, htip] at h
      exact .inl (Prod.mk.inj h).2.symm
  | some tip =>
      have hsame := lastAttested_snd env.faults app
      cases hread : (lastAttested env.faults app).1 with
      | error halt =>
          have hlast : lastAttested env.faults app = (.error halt, app) := Prod.ext hread hsame
          simp only [checkAndAttest, Action.bind_run, Action.lift_run, htip, okOr, hlast] at h
          exact .inl (Prod.mk.inj h).2.symm
      | ok last =>
          rw [checkAndAttest_run htip hread] at h
          by_cases hle : tip ≤ last
          · rw [if_pos hle] at h
            exact .inl (Prod.mk.inj h).2.symm
          · rw [if_neg hle] at h
            refine .inr ⟨⟨tip, last, htip, hread, hle⟩, ?_⟩
            rcases hproduce : produceBlock prim env.block app with ⟨r₁, app₁⟩
            refine ⟨r₁, app₁, rfl, ?_⟩
            cases r₁ with
            | error halt =>
                rw [Action.bind_run_error hproduce] at h
                obtain ⟨rfl, rfl⟩ := Prod.mk.inj h
                exact ⟨.refl _, fun _ => rfl⟩
            | ok u =>
                rw [Action.bind_run_ok hproduce] at h
                have hkept := (keeps_attestHead env tip).run (SameCore.refl app₁)
                rw [h] at hkept
                exact ⟨hkept, fun hne => absurd rfl hne⟩

/-- Monitoring leaves memory and tables alone. -/
theorem monitorPending_core {env : MonitorEnv} (h : monitorPending env app = (r, app')) :
    SameCore app app' := by
  have hkeeps : Action.Keeps (SameCore app) (monitorPending env) := by
    refine (keeps_storeCall _ _).bind fun _ => ?_
    refine Action.Triple.bind (Q := fun _ => SameCore app) (.get fun _ h => h) fun app' => ?_
    dsimp only
    by_cases hnone : app'.store.pendingAttestations = []
    · rw [if_pos hnone]
      exact .pure fun _ h => h
    · rw [if_neg hnone]
      refine Action.Triple.bind (Q := fun _ => SameCore app) (.lift (fun _ _ _ h => h)
        fun _ _ _ h => h) fun acc => ?_
      refine (keeps_setStore _ _ fun _ h => ⟨h.1, h.2, h.3, h.4⟩).bind fun _ => ?_
      cases acc.anchorToRevert with
      | none => exact .pure fun _ h => h
      | some revertTo =>
          refine (keeps_setStore _ _ fun _ h => ⟨h.1, h.2, h.3, h.4⟩).bind fun _ => ?_
          refine (keeps_storeCall _ _).bind fun _ => ?_
          by_cases hlast : app'.store.lastAttestedL1Height.getD 0 > 0
          · rw [if_pos hlast]
            exact keeps_setStore _ _ fun _ h => ⟨h.1, h.2, h.3, h.4⟩
          · rw [if_neg hlast]
            exact .pure fun _ h => h
  have hrun := hkeeps.run (SameCore.refl app)
  rwa [h] at hrun

/-! ### Invariants -/

/-- What it takes for `I` to be kept by every step, with `P` what is left of it when the process
stops. -/
structure StepKeeps (prim : Primitives) (allowed : BlockEnv → AppState → Prop)
    (P I : AppState → Prop) : Prop where
  core : ∀ {app app'}, SameCore app app' → I app → I app'
  coreStop : ∀ {app app'}, SameCore app app' → P app → P app'
  weaken : ∀ {app}, I app → P app
  submitMint : ∀ {app} l1 now proof l2Destination, app.shared.mempool.mints.length < vecCapacity →
    I app → I (submitMint prim l1 now proof l2Destination app).2
  submitTransfer : ∀ {app} now transfer, app.shared.mempool.transfers.length < vecCapacity →
    I app → I (submitTransfer prim now transfer app).2
  produceBlock : ∀ {env app r app'}, (system prim allowed).Reachable app → allowed env app →
    produceBlock prim env app = (r, app') → I app → P app' ∧ (r ≠ .error .stopped → I app')
  restart : ∀ {app app'}, P app → restart prim app = some app' → I app'

theorem settle_cases (h : settle prim (r, app) = some app') :
    (r = .error .stopped ∧ restart prim app = some app') ∨ (r ≠ .error .stopped ∧ app = app') := by
  cases r with
  | ok u => exact .inr ⟨nofun, Option.some.inj h⟩
  | error halt =>
      cases halt with
      | error e => exact .inr ⟨nofun, Option.some.inj h⟩
      | stopped => exact .inl ⟨rfl, h⟩

namespace StepKeeps

variable {allowed : BlockEnv → AppState → Prop} {P I : AppState → Prop}

/-- A call that may have stopped, and what the sequencer goes on with. -/
private theorem settled (hI : StepKeeps prim allowed P I) (hP : P app)
    (hkept : r ≠ .error .stopped → I app) (h : settle prim (r, app) = some app') : I app' := by
  rcases settle_cases h with ⟨-, hrestart⟩ | ⟨hne, rfl⟩
  · exact hI.restart hP hrestart
  · exact hkept hne

theorem step (hI : StepKeeps prim allowed P I) (hreach : (system prim allowed).Reachable app)
    (happ : I app) (h : Step prim allowed app app') : I app' := by
  cases h with
  | submitMint l1 now proof l2Destination room =>
      exact hI.submitMint l1 now proof l2Destination room happ
  | submitTransfer now transfer room => exact hI.submitTransfer now transfer room happ
  | @produceBlock env _ hallowed h =>
      rcases hrun : Sequencer.produceBlock prim env app with ⟨r, app₁⟩
      rw [hrun] at h
      obtain ⟨hP, hkept⟩ := hI.produceBlock hreach hallowed hrun happ
      exact hI.settled hP hkept h
  | @checkAndAttest env _ hallowed h =>
      rcases hrun : Sequencer.checkAndAttest prim env app with ⟨r, app₂⟩
      rw [hrun] at h
      rcases checkAndAttest_cases hrun with rfl | ⟨hattests, r₁, app₁, hproduce, hcore, hsame⟩
      · exact hI.settled (hI.weaken happ) (fun _ => happ) h
      · obtain ⟨hP, hkept⟩ :=
          hI.produceBlock hreach (hallowed hattests) hproduce happ
        refine hI.settled (hI.coreStop hcore hP) (fun hne => hI.core hcore (hkept ?_)) h
        rintro rfl
        exact hne (hsame nofun)
  | @monitorPending env _ h =>
      rcases hrun : Sequencer.monitorPending env app with ⟨r, app₁⟩
      rw [hrun] at h
      have hcore := monitorPending_core hrun
      exact hI.settled (hI.coreStop hcore (hI.weaken happ)) (fun _ => hI.core hcore happ) h
  | restart h => exact hI.restart (hI.weaken happ) h

theorem reachable (hI : StepKeeps prim allowed P I) (hinit : ∀ app, Started prim app → I app)
    (h : (system prim allowed).Reachable app) : I app :=
  h.invariant (I := I) hinit fun _ _ hreach happ hstep => hI.step hreach happ hstep

end StepKeeps

end Hodlchain.Sequencer
