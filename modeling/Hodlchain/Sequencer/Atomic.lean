/-
When a failed block leaves nothing behind.

`produceBlock` swaps the ledger before the write and moves the head after it.  A
failure in between leaves a ledger that no block accounts for, or a block that the
head does not know; the transactions it drained are gone in the first case.  What
makes a failure harmless is that nothing was drained yet, or nothing that matters.
-/
import Hodlchain.Node.MintReplay
import Hodlchain.Sequencer.Rows

namespace Hodlchain.Sequencer

open Bytes

/-- The latest state, its height, and its block. -/
def Store.latest (s : Store) : Option (UInt32 × LedgerState × Option L2Block) :=
  s.loadLatestState.map fun row => (row.1, row.2, s.getBlock row.1)

/-- A mint is in a persisted block, with the event its witness authorised when it was built. -/
def Store.HoldsMint (s : Store) (entry : MintEntry) : Prop :=
  ∃ height block fresh, s.getBlock height = some block ∧ L2Tx.mint fresh ∈ block.txs ∧
    fresh.witness = entry.witness ∧ fresh.event.l2Destination = entry.event.l2Destination

/-- A transfer is in a persisted block. -/
def Store.HoldsTransfer (s : Store) (t : SignedTransfer) : Prop :=
  ∃ height block, s.getBlock height = some block ∧ L2Tx.transfer t ∈ block.txs

/-- Memory and the latest row are as before, and nothing that waited is lost. -/
structure AllOrNothing (app app' : AppState) : Prop where
  state : app'.shared.state = app.shared.state
  head : app'.shared.head = app.shared.head
  latest : app'.store.latest = app.store.latest
  mints : ∀ entry ∈ app.shared.mempool.mints,
    entry ∈ app'.shared.mempool.mints ∨ app'.store.HoldsMint entry
  transfers : ∀ t ∈ app.shared.mempool.transfers,
    t ∈ app'.shared.mempool.transfers ∨ app'.store.HoldsTransfer t

/-- What waits is in persisted blocks already, and the ledger takes none of it again. -/
structure NothingWaits (prim : Primitives) (env : BlockEnv) (app : AppState) : Prop where
  mints : ∀ entry ∈ app.shared.mempool.mints, app.store.HoldsMint entry
  transfers : ∀ t ∈ app.shared.mempool.transfers, app.store.HoldsTransfer t
  refused : ∀ tx ∈ candidates prim env.view app.shared.mempool.mints app.shared.mempool.transfers,
    ¬ app.shared.state.TxOk prim tx

/-- A call whose failure changes nothing: L1 does not answer, or the write is refused while
nothing waits. -/
def Harmless (prim : Primitives) (env : BlockEnv) (app : AppState) : Prop :=
  (∃ e, env.l1Tip = .error e) ∨ (¬ Writable env app ∧ NothingWaits prim env app)

/-- A call that returns an error is a harmless one. -/
def FailsHarmlessly (prim : Primitives) (env : BlockEnv) (app : AppState) : Prop :=
  ∀ e app', produceBlock prim env app = (.error (.error e), app') → Harmless prim env app

/-- What a restart would load is what is in memory. -/
def Synced (prim : Primitives) (app : AppState) : Prop :=
  resume prim app.store = .ok (some (app.shared.state, app.shared.head))

/-- The persisted block on top of the persisted head, with the ledger its replay gives. -/
structure Successor (prim : Primitives) (app app' : AppState) (prev block : L2Block) : Prop where
  before : Latest app.store app.shared.state prev
  after : Latest app'.store app'.shared.state block
  height : block.header.height.toNat = prev.header.height.toNat + 1
  prevHash : block.header.prevHash = prev.hash prim
  txsRoot : block.header.txsRoot = computeTxsRoot prim block.txs
  stateRoot : block.header.stateRoot = app'.shared.state.stateRoot prim
  replay : app.shared.state.replay prim block.txs = .ok app'.shared.state
  head : app'.shared.head = headOf prim block

variable {prim : Primitives} {env : BlockEnv} {app app' : AppState} {r : Except Halt Unit}

/-! ### One call -/

/-- The built ledger is the old one exactly when nothing is accepted. -/
private theorem nextState_eq_iff (hadmitted : Admitted prim app) :
    env.nextState prim app = app.shared.state ↔
      ∀ tx ∈ candidates prim env.view app.shared.mempool.mints app.shared.mempool.transfers,
        ¬ app.shared.state.TxOk prim tx := by
  refine ⟨fun hsame => LedgerState.accepted_eq_nil_iff.mp ?_, fun hrefused => ?_⟩
  · refine (app.shared.state.allOk_accepted _).eq_nil (fun a => ?_) hsame
    have hmints : (freshMints prim env.view 0 app.shared.mempool.mints).countP
        (fun tx => tx.sender? = some a) = 0 := by
      refine List.countP_eq_zero.mpr fun tx htx => ?_
      simp [sender?_of_mem_freshMints htx]
    have hcandidates : (candidates prim env.view app.shared.mempool.mints
        app.shared.mempool.transfers).countP (fun tx => tx.sender? = some a)
        ≤ app.shared.mempool.transfers.length := by
      rw [candidates, List.countP_append, hmints, Nat.zero_add]
      refine List.countP_le_length.trans ?_
      rw [List.length_map]
    refine ((app.shared.state.accepted_sublist _).countP_le.trans hcandidates).trans_lt ?_
    exact hadmitted.room.trans_lt (by decide)
  · have hnil : env.body prim app = [] := LedgerState.accepted_eq_nil_iff.mpr hrefused
    rw [BlockEnv.nextState, hnil]
    rfl

/-- **A failed call leaves nothing behind exactly when it is harmless.** -/
theorem ProduceEnds.allOrNothing_iff {e : ProducerError} (hrowed : Rowed app)
    (hadmitted : Admitted prim app) (hend : ProduceEnds prim env app (.error (.error e)) app') :
    AllOrNothing app app' ↔ Harmless prim env app := by
  generalize hr : (Except.error (Halt.error e) : Except Halt Unit) = r at hend
  cases hend with
  | noTip htip =>
      exact iff_of_true ⟨rfl, rfl, rfl, fun _ h => .inl h, fun _ h => .inl h⟩ (.inl ⟨_, htip⟩)
  | unwritten htip hwrite =>
      have hok : ¬ ∃ e, env.l1Tip = .error e := by
        rintro ⟨e, he⟩
        rw [htip] at he
        cases he
      constructor
      · intro h
        refine .inr ⟨hwrite, fun entry hentry => ?_, fun t ht => ?_,
          (nextState_eq_iff hadmitted).mp h.state⟩
        · exact (h.mints entry hentry).resolve_left nofun
        · exact (h.transfers t ht).resolve_left nofun
      · rintro (htip' | ⟨-, hnothing⟩)
        · exact absurd htip' hok
        · exact ⟨(nextState_eq_iff hadmitted).mpr hnothing.refused, rfl, rfl,
            fun entry hentry => .inr (hnothing.mints entry hentry),
            fun t ht => .inr (hnothing.transfers t ht)⟩
  | @behind tip f htip hwrite _ =>
      -- the new row is there, and it is the latest
      refine iff_of_false (fun h => ?_) ?_
      · obtain ⟨hrows, hnext⟩ := @Rowed.next prim _ _ tip hrowed hwrite
        obtain ⟨state, block, hlatest, hheight⟩ := hrows.latest
        have hwritten := (@Rowed.written prim _ _ tip hrowed hwrite).2.state
        have hsame := h.latest
        simp only [Store.latest, hlatest.state,
          show (env.stored prim tip app).store = env.written prim tip app from rfl, hwritten,
          Option.map_some, Option.some.injEq, Prod.mk.injEq] at hsame
        rw [hsame.1, hheight] at hnext
        omega
      · rintro (⟨e, he⟩ | ⟨hno, -⟩)
        · rw [htip] at he
          cases he
        · exact hno hwrite
  | done => cases hr

/-! ### Whole runs -/

theorem synced_restart (h : restart prim app = some app') :
    Synced prim app' := by
  obtain ⟨state, head, hresume, rfl⟩ := restart_eq_some_iff.mp h
  exact hresume

/-- A call that succeeds puts everything in place. -/
theorem ProduceEnds.successor (hrowed : Rowed app) (hsynced : Synced prim app)
    (hend : ProduceEnds prim env app (.ok ()) app') :
    ∃ prev block, Successor prim app app' prev block := by
  generalize hr : (Except.ok () : Except Halt Unit) = r at hend
  cases hend with
  | noTip => cases hr
  | unwritten => cases hr
  | behind => cases hr
  | @done tip _ hwrite _ =>
      obtain ⟨height, prev, hload, hblock, hhead⟩ := resume_eq_some_iff.mp hsynced
      obtain ⟨hrows, hnext⟩ := @Rowed.next prim _ _ tip hrowed hwrite
      have hheight : prev.header.height = height := hrows.height height prev hblock
      have hwritten := (@Rowed.written prim _ _ tip hrowed hwrite).2
      rw [hhead] at hnext
      subst hheight
      exact ⟨prev, env.nextBlock prim tip app,
        { before := ⟨hload, hblock⟩
          after := ⟨hwritten.state, hwritten.block⟩
          height := hnext
          prevHash := congrArg HeadInfo.blockHash hhead
          txsRoot := rfl
          stateRoot := rfl
          replay := replay_body _ _ _ _
          head := rfl }⟩

theorem Successor.synced {prev block : L2Block} (h : Successor prim app app' prev block) :
    Synced prim app' := by
  rw [Synced, h.head]
  exact h.after.resume

/-- A harmless failure keeps memory and store in step. -/
theorem ProduceEnds.synced {e : ProducerError} (hadmitted : Admitted prim app)
    (hsynced : Synced prim app) (hend : ProduceEnds prim env app (.error (.error e)) app')
    (hharmless : Harmless prim env app) : Synced prim app' := by
  generalize hr : (Except.error (Halt.error e) : Except Halt Unit) = r at hend
  cases hend with
  | noTip => exact hsynced
  | unwritten htip _ =>
      rcases hharmless with ⟨e, he⟩ | ⟨-, hnothing⟩
      · rw [htip] at he
        cases he
      · have hstate := (nextState_eq_iff hadmitted).mpr hnothing.refused
        have hshared : resume prim app.store
            = .ok (some (env.nextState prim app, app.shared.head)) := by
          rw [hstate]
          exact hsynced
        exact hshared
  | behind htip hwrite _ =>
      rcases hharmless with ⟨e, he⟩ | ⟨hno, -⟩
      · rw [htip] at he
        cases he
      · exact absurd hwrite hno
  | done => cases hr

/-- In a run whose failures are harmless, memory is always what a restart would load. -/
theorem synced_of_reachable (h : (system prim (FailsHarmlessly prim)).Reachable app) :
    Synced prim app := by
  refine StepKeeps.reachable (P := fun _ => True) (I := Synced prim) ?_ (fun app h => ?_) h
  · refine ⟨?_, fun _ _ => trivial, fun _ => trivial, ?_, ?_, ?_, fun _ => synced_restart⟩
    · intro app app' hsame hsynced
      obtain ⟨height, block, hload, hblock, hhead⟩ := resume_eq_some_iff.mp hsynced
      rw [Store.loadLatestState, ← hsame.stateSnapshots] at hload
      rw [Store.getBlock, ← hsame.blocks] at hblock
      rw [Synced, hsame.shared]
      exact resume_eq_some_iff.mpr ⟨height, block, hload, hblock, hhead⟩
    · intro app l1 now proof l2Destination _ hsynced
      exact submitMint_keeps (fun _ h => h) l1 now proof l2Destination hsynced
    · intro app now transfer _ hsynced
      exact submitTransfer_keeps (fun _ h => h) now transfer hsynced
    · intro env app r app' happ hallowed hrun hsynced
      refine ⟨trivial, fun hne => ?_⟩
      have hreach := reachable_of_allowed happ
      have hend := produceBlock_ends hrun
      rcases r with (e | _) | _
      · exact hend.synced (admitted_of_reachable hreach) hsynced (hallowed e app' hrun)
      · exact absurd rfl hne
      · obtain ⟨prev, block, hsuccessor⟩ := hend.successor (rowed_of_reachable hreach) hsynced
        exact hsuccessor.synced
  · obtain ⟨identity, l1BlockHash, l1GenesisHeight, now, anchor0, hstart⟩ := h
    obtain ⟨block, -, hlatest, hhead, -⟩ := coldStart_latest hstart
    rw [Synced, hhead]
    exact hlatest.resume

/-- **Block production is all or nothing exactly for harmless failures.**  In any state the
sequencer can be in, a failed call leaves memory, the latest row and everything that waited as
they were if and only if it is harmless.  In a run all of whose failures are harmless, memory is
what a restart would load, and a call that succeeds persists a valid successor of the persisted
head. -/
theorem production_atomic (prim : Primitives) :
    (∀ app, Reachable prim app → ∀ env e app',
      produceBlock prim env app = (.error (.error e), app') →
        (AllOrNothing app app' ↔ Harmless prim env app)) ∧
    ∀ app, (system prim (FailsHarmlessly prim)).Reachable app → Synced prim app ∧
      ∀ env app', produceBlock prim env app = (.ok (), app') →
        ∃ prev block, Successor prim app app' prev block := by
  refine ⟨fun app h env e app' hrun => ?_, fun app h => ⟨synced_of_reachable h, ?_⟩⟩
  · exact (produceBlock_ends hrun).allOrNothing_iff (rowed_of_reachable h) (admitted_of_reachable h)
  · intro env app' hrun
    exact (produceBlock_ends hrun).successor (rowed_of_reachable (reachable_of_allowed h))
      (synced_of_reachable h)

/-- The mint `shortMint`, waiting. -/
def AppState.withShortMint (app : AppState) : AppState :=
  app.setMempool ⟨[shortMint], [], (∅ : NullifierSet).insert shortMint.event.nullifierHex⟩

private theorem withShortMint_store (app : AppState) : app.withShortMint.store = app.store := rfl

/-- It verifies on the chain that holds its lock. -/
theorem shortMint_verify : ∃ credit, shortMint.witness.verify Primitives.sample
    (NodeL1.view lockChain) shortMint.event.l2Destination = .ok credit ∧
      credit.event = shortMint.event := by
  have hverify : (shortMint.witness.verify Primitives.sample (NodeL1.view lockChain)
      shortMint.event.l2Destination).map (·.event) = .ok shortMint.event := by decide +kernel
  exact map_ok_iff.mp hverify

/-- A new sequencer takes it, under any hash that it verifies under. -/
theorem submitMint_verified {prim : Primitives} {credit : MintCredit}
    (hcredit : shortMint.witness.verify prim (NodeL1.view lockChain) shortMint.event.l2Destination
      = .ok credit) (hevent : credit.event = shortMint.event)
    (hstate : app.shared.state = LedgerState.start (some sampleIdentity.xOnlyPublicKey))
    (hmempool : app.shared.mempool = .empty) :
    (submitMint prim (NodeL1.view lockChain) 0 shortMint.witness
      shortMint.event.l2Destination app).2 = app.withShortMint := by
  have hfresh : shortMint.event.nullifierHex ∉ app.shared.state.consumedNullifiers := by
    simp [hstate, LedgerState.start, LedgerState.new]
  have hwaits : shortMint.event.nullifierHex ∉ app.shared.mempool.pendingNullifiers := by
    simp [hmempool, Mempool.empty]
  simp only [submitMint, hcredit, hevent, hfresh, hwaits, if_false]
  rw [hmempool]
  rfl

theorem submitMint_shortMint
    (hstate : app.shared.state = LedgerState.start (some sampleIdentity.xOnlyPublicKey))
    (hmempool : app.shared.mempool = .empty) :
    (submitMint Primitives.sample (NodeL1.view lockChain) 0 shortMint.witness
      shortMint.event.l2Destination app).2 = app.withShortMint := by
  obtain ⟨credit, hcredit, hevent⟩ := shortMint_verify
  exact submitMint_verified hcredit hevent hstate hmempool

/-- The block over a new ledger has its seven atoms. -/
theorem shortMint_minted {env : BlockEnv} (hview : env.view = fun _ => NodeL1.view lockChain)
    (hstate : app.shared.state = LedgerState.start (some sampleIdentity.xOnlyPublicKey))
    (hmints : app.shared.mempool.mints = [shortMint])
    (htransfers : app.shared.mempool.transfers = []) :
    (env.nextState Primitives.sample app).totalMintedAtoms = 7 := by
  have hnext : env.nextState Primitives.sample app
      = app.shared.state.applyAll Primitives.sample (body Primitives.sample env.view
          app.shared.state app.shared.mempool.mints app.shared.mempool.transfers) := rfl
  rw [hnext, hmints, htransfers, hview, hstate]
  decide +kernel

/-- L1 answers, and the write of the block fails. -/
def failingEnv : BlockEnv where
  blockCount := some 1
  blockHashHex _ := some (hexEncode H256.zero.raw)
  view _ := NodeL1.view lockChain
  now := 0
  faults site := if site = .writeBlockAndState then some .fail else none

/-- A call of it stops behind the swap. -/
theorem failingEnv_run {prim : Primitives} (app : AppState) :
    ∃ e, produceBlock prim failingEnv app = (.error (.error e), failingEnv.swapped prim app) := by
  have htip : failingEnv.l1Tip.toOption = some (1, H256.zero) := by decide
  have hrefused : ¬ Writable failingEnv app := fun h => by
    simpa [failingEnv] using h.call
  rcases hrun : produceBlock prim failingEnv app with ⟨r, app'⟩
  cases produceBlock_ends hrun with
  | noTip h =>
      rw [h] at htip
      cases htip
  | behind _ hwrite => exact absurd hwrite hrefused
  | done _ hwrite => exact absurd hwrite hrefused
  | @unwritten _ halt _ _ hstop =>
      cases halt with
      | stopped => simpa [failingEnv] using hstop rfl
      | error e => exact ⟨e, rfl⟩

/-- A mint waits, the write of the block fails: the ledger in memory has the mint's seven atoms,
the one a restart would load has none, and the mint is nowhere. -/
theorem production_not_atomic : ∃ app e app', Reachable Primitives.sample app ∧
    produceBlock Primitives.sample failingEnv app = (.error (.error e), app') ∧
    app'.shared.state.totalMintedAtoms = 7 ∧
    (∃ state head, resume Primitives.sample app'.store = .ok (some (state, head)) ∧
      state.totalMintedAtoms = 0) ∧
    (∃ entry ∈ app.shared.mempool.mints,
      entry ∉ app'.shared.mempool.mints ∧ ¬ app'.store.HoldsMint entry) ∧
    ¬ AllOrNothing app app' := by
  obtain ⟨app, hstarted, hstate, hmempool, hsynced, hblocks⟩ :=
    exists_started Primitives.sample sampleIdentity
  have hstep : Step Primitives.sample (fun _ _ => True) app
      (submitMint Primitives.sample (NodeL1.view lockChain) 0 shortMint.witness
        shortMint.event.l2Destination app).2 :=
    .submitMint _ _ _ _ (by rw [hmempool]; decide)
  rw [submitMint_shortMint hstate hmempool] at hstep
  have hminted := @shortMint_minted app.withShortMint failingEnv rfl hstate rfl rfl
  have hlost : ¬ (failingEnv.swapped Primitives.sample app.withShortMint).store.HoldsMint
      shortMint := by
    rw [swapped_store, withShortMint_store]
    rintro ⟨height, block, fresh, hblock, hin, -⟩
    rw [hblocks height block hblock] at hin
    cases hin
  have hwaits : shortMint ∈ app.withShortMint.shared.mempool.mints := by
    simp only [AppState.withShortMint, AppState.setMempool, List.mem_singleton]
  have hdrained : shortMint ∉
      (failingEnv.swapped Primitives.sample app.withShortMint).shared.mempool.mints := by
    rw [swapped_mempool]
    exact List.not_mem_nil
  have hempty : ∃ state head, resume Primitives.sample
      (failingEnv.swapped Primitives.sample app.withShortMint).store
        = .ok (some (state, head)) ∧ state.totalMintedAtoms = 0 := by
    rw [swapped_store, withShortMint_store]
    exact ⟨_, _, hsynced, by rw [hstate]; rfl⟩
  have hchanged : ¬ AllOrNothing app.withShortMint
      (failingEnv.swapped Primitives.sample app.withShortMint) :=
    fun h => hlost ((h.mints shortMint hwaits).resolve_left hdrained)
  obtain ⟨e, hrun⟩ := @failingEnv_run Primitives.sample app.withShortMint
  exact ⟨app.withShortMint, e, _, .step (.init hstarted) hstep, hrun, hminted, hempty,
    ⟨shortMint, hwaits, hdrained, hlost⟩, hchanged⟩

/-- A new sequencer can write its next block. -/
theorem Started.writable {prim : Primitives} {app : AppState} {env : BlockEnv}
    (h : Started prim app) (hcall : env.faults .writeBlockAndState = none) :
    app.shared.head.height = 0 ∧ Writable env app := by
  obtain ⟨identity, l1BlockHash, l1GenesisHeight, now, anchor0, hstart⟩ := h
  simp only [coldStart, bind_ok_iff, Store.writeBlockAndState_ok_iff, pure_ok_iff] at hstart
  obtain ⟨store, ⟨-, rfl⟩, rfl⟩ := hstart
  have hfree : ∀ {β : Type} {v : β},
      (0 : UInt32) + 1 ∉ (∅ : Std.ExtTreeMap UInt32 β).insert 0 v := by
    intro β v hmem
    rcases Std.ExtTreeMap.mem_insert.mp hmem with heq | hold
    · exact absurd (Std.compare_eq_iff_eq.mp heq) (by decide)
    · exact absurd hold Std.ExtTreeMap.not_mem_empty
  exact ⟨rfl, hcall, hfree, hfree, hfree⟩

/-- L1 answers, and everything is written. -/
def steadyEnv : BlockEnv := { failingEnv with faults := fun _ => none }

theorem steadyEnv_l1Tip : ∃ tip, steadyEnv.l1Tip = .ok tip := by
  have hsome : steadyEnv.l1Tip.toOption = some (1, H256.zero) := by decide +kernel
  exact ⟨_, toOption_eq_some_iff.mp hsome⟩

/-- L1 does not answer. -/
def silentEnv : BlockEnv := { failingEnv with blockCount := none }

/-- A mint waits while L1 is silent: the failed call leaves all as it was, and the next one puts
the mint's seven atoms in a valid successor. -/
theorem production_atomic_silent : ∃ app app' app'',
    app.shared.mempool.mints = [shortMint] ∧
    produceBlock Primitives.sample silentEnv app = (.error (.error .blockCount), app') ∧
    AllOrNothing app app' ∧ Synced Primitives.sample app' ∧
    produceBlock Primitives.sample steadyEnv app' = (.ok (), app'') ∧
    app''.shared.state.totalMintedAtoms = 7 ∧
    ∃ prev block, Successor Primitives.sample app' app'' prev block := by
  obtain ⟨app, hstarted, hstate, hmempool, -, -⟩ :=
    exists_started Primitives.sample sampleIdentity
  obtain ⟨hcall, hrun⟩ := production_atomic Primitives.sample
  have hsubmit : ∀ allowed, Step Primitives.sample allowed app app.withShortMint := by
    intro allowed
    rw [← submitMint_shortMint hstate hmempool]
    exact .submitMint _ _ _ _ (by rw [hmempool]; decide)
  -- the call that fails is allowed, and changes nothing
  have hsilent : produceBlock Primitives.sample silentEnv app.withShortMint
      = (.error (.error .blockCount), app.withShortMint) := rfl
  have hharmless : Harmless Primitives.sample silentEnv app.withShortMint := .inl ⟨_, rfl⟩
  have hfailed : Step Primitives.sample (FailsHarmlessly Primitives.sample) app.withShortMint
      app.withShortMint :=
    .produceBlock (fun _ _ _ => hharmless) (by rw [hsilent]; rfl)
  -- the next one builds the block
  obtain ⟨-, hwrite⟩ := @Started.writable _ _ steadyEnv hstarted rfl
  obtain ⟨tip, htip⟩ := steadyEnv_l1Tip
  have hsteady := @produceBlock_done Primitives.sample steadyEnv app.withShortMint tip htip
    ⟨hwrite.call, hwrite.blocks, hwrite.stateSnapshots, hwrite.blockWitnesses⟩ rfl
  have hminted := @shortMint_minted app.withShortMint steadyEnv rfl hstate rfl rfl
  obtain ⟨hsynced, hsuccessor⟩ := hrun _ (.step (.step (.init hstarted) (hsubmit _)) hfailed)
  exact ⟨_, _, _, rfl, hsilent,
    (hcall _ (.step (.init hstarted) (hsubmit _)) _ _ _ hsilent).mpr hharmless, hsynced, hsteady,
    hminted, hsuccessor _ _ hsteady⟩

end Hodlchain.Sequencer
