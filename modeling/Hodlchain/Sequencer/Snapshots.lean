/-
Balances of one block.

An answer of `get_balance` takes its values from the ledger and its height from the head.
On both daemons the ledger is replaced first and the head last, so in between, and after
a write that failed, an answer has the height of one block and the values of another.
-/
import Hodlchain.Node.Sections
import Hodlchain.Sequencer.Promises

namespace Hodlchain.Sequencer

open LedgerState

def Stage.phase : Stage → Phase
  | .swapped _ block _ => .swapped block
  | .written block => .written block
  | _ => .idle

/-- What a reader reads. -/
def Daemon.cells (d : Daemon) : Cells :=
  ⟨d.app.store.row, d.app.shared.state, d.app.shared.head.height, d.bodies.drop d.settled,
    d.build.phase⟩

section

variable {prim : Primitives} {d d' : Daemon} {e : Event} {start : LedgerState}

theorem Store.row_eq_none {s : Store} {k : UInt32} (h : k ∉ s.blocks) : s.row k = none := by
  cases hrow : s.row k with
  | none => rfl
  | some r =>
      have hblock := (Store.row_eq_some_iff.mp hrow).1
      exact absurd (Std.ExtTreeMap.isSome_getElem?_iff_mem.mp (Option.isSome_of_eq_some hblock)) h

/-- Rows are written under the lock of the store, and the cursor after them. -/
private theorem write_rows {job : Job} {block : L2Block} {witness : BlockWitness}
    (hbuild : d.build = .swapped job block witness)
    (hfree : block.header.height ∉ d.app.store.blocks) :
    CellStep prim d.cells { d.cells with
      rows := (d.app.store.insertBlock block d.app.shared.state witness).row
      phase := .written block } := by
  refine .write ?_ (Store.row_eq_none hfree) fun k =>
    Store.row_insertBlock d.app.store block d.app.shared.state witness k
  show d.build.phase = _
  rw [hbuild]
  rfl

/-- An event is a step of the commit, or none, or the write and the end of a call whose cursor was
not written. -/
theorem Moves.cells (hmoves : Moves prim d e d') (hledgers : Ledgers prim start d)
    (hsettled : d.settled ≤ d.bodies.length) : CellRun prim d.cells d'.cells := by
  have hphase : d.cells.phase = d.build.phase := rfl
  have hfollows := hledgers.follows
  cases hmoves with
  | drain hidle =>
      unfold Daemon.cells
      rw [hidle]
      exact .refl
  | build hbuild =>
      unfold Daemon.cells
      rw [hbuild]
      exact .refl
  | readHead hbuild =>
      unfold Daemon.cells
      rw [hbuild]
      exact .refl
  | @swap job state block witness hbuild =>
      rw [hbuild] at hphase hfollows
      obtain ⟨-, hstate, hroot⟩ := hfollows
      have hdrop : (d.bodies ++ [block.txs]).drop d.settled
          = d.bodies.drop d.settled ++ [block.txs] := List.drop_append_of_le_length hsettled
      have hstep : CellStep prim d.cells _ := .swap hphase hstate hroot
      unfold Daemon.cells
      rw [hdrop]
      exact .single hstep
  | write hbuild hrun =>
      obtain ⟨hfree, rfl⟩ := writeRows_ok hrun
      exact .single (write_rows hbuild hfree)
  | fail hbuild hrun =>
      rcases writeRows_error hrun with rfl | ⟨hfree, rfl⟩
      · exact .single .leave
      · exact .tail (.single (write_rows hbuild hfree)) .leave
  | @setHead block hbuild =>
      rw [hbuild] at hphase
      have hstep : CellStep prim d.cells _ := .setHead hphase
      unfold Daemon.cells
      rw [List.drop_length]
      exact .single hstep
  | _ => exact .refl

/-- The head is not ahead of the bodies. -/
theorem Moves.settled (hmoves : Moves prim d e d') (h : d.settled ≤ d.bodies.length) :
    d'.settled ≤ d'.bodies.length := by
  cases hmoves with
  | swap =>
      rw [List.length_append]
      exact Nat.le_add_right_of_le h
  | setHead => exact le_refl _
  | _ => exact h

/-- A new sequencer. -/
theorem sound_boot {app : AppState} (h : Started prim app) :
    (Daemon.boot app).cells.Sound prim := by
  obtain ⟨identity, l1BlockHash, l1GenesisHeight, now, anchor0, hstart⟩ := h
  simp only [coldStart, bind_ok_iff, Store.writeBlockAndState_ok_iff, pure_ok_iff] at hstart
  obtain ⟨store, ⟨-, rfl⟩, rfl⟩ := hstart
  let producer := some identity.xOnlyPublicKey
  let block := genesis prim l1BlockHash l1GenesisHeight now anchor0 producer producer
  let state := { LedgerState.new with sequencerFeeAddress := producer }
  -- the row of the genesis block, and no other
  have hrows := Store.row_insertBlock .empty block state (BlockWitness.build prim state block.txs 0)
  have hnone : ∀ k, Store.empty.row k = none :=
    fun k => Store.row_eq_none Std.ExtTreeMap.not_mem_empty
  refine ⟨fun k r hr => ?_, ⟨_, (hrows 0).trans (if_pos rfl), rfl⟩, trivial⟩
  have hr' := (hrows k).symm.trans hr
  rw [hnone] at hr'
  split_ifs at hr' with hk
  rw [← Option.some.inj hr']
  exact ⟨hk, rfl⟩

theorem sound_of_daemons (h : (daemons prim).Reachable d) :
    d.settled ≤ d.bodies.length ∧ d.cells.Sound prim := by
  refine h.invariant (I := fun d => d.settled ≤ d.bodies.length ∧ d.cells.Sound prim) ?_ ?_
  · rintro d ⟨app, hstarted, rfl⟩
    exact ⟨le_refl _, sound_boot hstarted⟩
  · rintro d d' hreach ⟨hsettled, hsound⟩ (⟨e, rfl⟩ | ⟨app, hrestart, rfl⟩)
    · obtain ⟨start, hledgers⟩ := ledgers_of_reachable hreach
      have hmoves := @Daemon.moves prim d e
      exact ⟨hmoves.settled hsettled, hsound.run (hmoves.cells hledgers hsettled)⟩
    · obtain ⟨state, head, hresume, rfl⟩ := restart_eq_some_iff.mp hrestart
      obtain ⟨height, block, hload, hblock, rfl⟩ := resume_eq_some_iff.mp hresume
      have hrow : d.cells.rows height = some ⟨block, state⟩ :=
        Store.row_eq_some_iff.mpr ⟨hblock, (lastRow?_eq_some_iff.mp hload).1⟩
      exact ⟨le_refl _, hsound.step (.restart hrow)⟩

end

/-- Every answer of a sequencer is about the block at its head. -/
def Daemon.Snapshot (prim : Primitives) (d : Daemon) : Prop :=
  ∀ addr, ∃ r, d.app.store.row d.app.shared.head.height = some r ∧
    (getBalance prim addr d.app).Of prim r

/-- Every answer of a node is about the block at its head. -/
def NodeSnapshot (prim : Primitives) (d : Follower) : Prop :=
  ∀ addr, ∃ r, d.node.store.row d.node.head.height = some r ∧
    (d.node.getBalance prim addr).Of prim r

/-- **Balances are those of one block while only empty bodies are ahead of the head.**  At every
point of every run of a sequencer or a node, an answer has the state root of the block at its
height, and the values of the ledger after it, when the bodies that were swapped in since the head
was set are all empty. -/
theorem balance_snapshots (prim : Primitives) :
    (∀ d, (daemons prim).Reachable d → (∀ body ∈ d.bodies.drop d.settled, body = []) →
      d.Snapshot prim) ∧
    ∀ d, (followers prim).Reachable d → (∀ body ∈ d.since, body = []) → NodeSnapshot prim d := by
  refine ⟨fun d hreach hempty addr => ?_, fun d hreach hempty addr => ?_⟩
  · exact (sound_of_daemons hreach).2.answer hempty addr _
  · exact (sound_of_followers hreach).cells.answer hempty addr _

/-- The block over a new ledger that has taken `shortMint` has its seven atoms. -/
theorem minted_over_boot {app : AppState}
    (hstate : app.shared.state = LedgerState.start (some sampleIdentity.xOnlyPublicKey))
    (hmempool : app.shared.mempool = .empty) (softConf : SoftConf) :
    (steadyEnv.nextState Primitives.sample
      ((Daemon.boot app).withShortMint softConf).app).totalMintedAtoms
      = 7 := by
  have hmints : ((Daemon.boot app).withShortMint softConf).app.shared.mempool.mints =
      [shortMint] := by
    show app.shared.mempool.mints ++ [shortMint] = _
    rw [hmempool]
    rfl
  have htransfers :
      ((Daemon.boot app).withShortMint softConf).app.shared.mempool.transfers = [] := by
    show app.shared.mempool.transfers = []
    rw [hmempool]
    rfl
  exact shortMint_minted rfl hstate hmints htransfers

/-- A node that has started with a sequencer, and has taken the block that it builds first. -/
theorem exists_follower_next {prim : Primitives} {app : AppState} {node : NodeState}
    (hstart : FollowedStart prim ⟨app, [], node⟩) {env : BlockEnv} {l1 : L1View}
    (hview : ∀ i, env.view i = l1) (tip : UInt32 × H256) {after : AppState}
    (hstate : after.shared.state = app.shared.state) (hhead : after.shared.head = app.shared.head) :
    ∃ d : Follower, (followers prim).Reachable d ∧ d.since = [] ∧
      d.node.state = env.nextState prim after ∧ d.node.head.height = node.head.height + 1 := by
  obtain ⟨hnodeState, hnodeHead⟩ := hstart.agree
  obtain ⟨-, -, genesis, -, hboot⟩ := hstart
  obtain ⟨hsynced, -⟩ := bootstrap_synced hboot
  obtain ⟨-, hzero, -⟩ := bootstrap_state hboot
  have hpasses := @nextBlock_passes prim env after tip l1 hview
  have hnext : (env.nextBlock prim tip after).header.height = node.head.height + 1 := by
    rw [hnodeHead, ← hhead]
    rfl
  rw [hstate, hhead, ← hnodeState, ← hnodeHead] at hpasses
  generalize env.nextBlock prim tip after = block at hpasses hnext
  have hend : endAttestation (block.attestation prim) (node.head.height + 1)
      = some (block.attestation prim) := if_pos hnext.symm
  obtain ⟨witness, hcheck⟩ := hpasses _ (List.mem_cons_of_mem _ (List.mem_singleton_self _))
  rw [← hend] at hcheck
  let served : Served := ⟨fun _ => some block, fun _ => l1⟩
  have haccept : acceptNext prim served (block.attestation prim) node = some (block, _) :=
    acceptNext_some_iff.mpr ⟨rfl, hcheck⟩
  have hroom : node.head.height < (block.attestation prim).height := by
    show node.head.height < block.header.height
    rw [hnext, hzero]
    decide
  have hrun := @Follower.reachable_run prim (.boot node)
    [.check served (node.head.height + 1)
      (endAttestation (block.attestation prim) (node.head.height + 1)),
      .commit none, .commit none, .commit none] (.init ⟨_, genesis, node, hboot, rfl⟩)
  have htakes := hsynced.takes haccept hroom
  rw [NodeStore.Takes] at htakes
  rw [@Follower.run_accepted prim (.boot node) rfl served _ _ block _ _ rfl hcheck htakes] at hrun
  exact ⟨_, hrun, rfl, rfl, hnext⟩

/-- A sequencer that has put a mint of seven atoms in block 1, and a node that has taken it. -/
theorem balance_snapshots_shortMint : ∃ (d : Daemon) (d' : Follower),
    d.app.shared.head.height = 1 ∧ d'.node.head.height = 1 ∧
    (∀ addr, (getBalance Primitives.sample addr d.app).totalMintedAtoms = 7 ∧
      (d'.node.getBalance Primitives.sample addr).totalMintedAtoms = 7) ∧
    d.Snapshot Primitives.sample ∧ NodeSnapshot Primitives.sample d' := by
  obtain ⟨app, hstarted, hstate, hmempool, -⟩ := exists_started Primitives.sample sampleIdentity
  obtain ⟨hheight, hwrite⟩ := @Started.writable _ _ steadyEnv hstarted rfl
  obtain ⟨tip, htip⟩ := steadyEnv_l1Tip
  obtain ⟨node, hstart⟩ := exists_followedStart hstarted
  obtain ⟨-, hnodeHead⟩ := hstart.agree
  obtain ⟨hsequencer, hfollower⟩ := balance_snapshots Primitives.sample
  obtain ⟨hfresh, hpending⟩ := fresh_of_start hstate hmempool shortMint.event.nullifierHex
  -- the mint is submitted, and block 1 is built
  obtain ⟨softConf, hsubmit, -⟩ := @run_submitShortMint (.boot app) hfresh hpending
  have hminted := minted_over_boot hstate hmempool softConf
  obtain ⟨d', hnode, hsince, hnodeState, hnodeHeight⟩ :=
    @exists_follower_next _ _ _ hstart steadyEnv _ (fun _ => rfl) tip
      ((Daemon.boot app).withShortMint softConf).app rfl rfl
  have hproduce := @produceBlock_done Primitives.sample steadyEnv
    ((Daemon.boot app).withShortMint softConf).app tip htip
    ⟨hwrite.call, hwrite.blocks, hwrite.stateSnapshots, hwrite.blockWitnesses⟩ rfl
  have hreach := @reachable_run Primitives.sample (fun _ _ => True) _
    (submitShortMint 0 ++ [.produceBlock steadyEnv, .build, .build, .build, .build, .build])
    (.init ⟨app, .init ⟨app, hstarted, rfl⟩, rfl⟩) fun _ _ _ _ => trivial
  rw [Daemon.run_append, show (Daemon.boot app).run _ (submitShortMint 0)
    = (Daemon.boot app).withShortMint softConf from hsubmit, Daemon.run_block rfl htip hproduce]
    at hreach
  have hsettled := hsequencer _ (daemons_of_reachable hreach) (by simp)
  have hone : app.shared.head.height + 1 = 1 := by
    rw [hheight]
    rfl
  refine ⟨_, d', hone, ?_, fun addr => ⟨?_, ?_⟩, hsettled, hfollower d' hnode (by simp [hsince])⟩
  · rw [hnodeHeight, hnodeHead]
    exact hone
  · exact hminted
  · show d'.node.state.totalMintedAtoms = 7
    rw [hnodeState]
    exact hminted

/-- A mint of seven atoms is in the ledger and not under the head yet: an answer for height 0 has
seven atoms in total, and after block 0 there are none. -/
theorem balance_torn : ∃ d : Daemon, (daemons Primitives.sample).Reachable d ∧
    (∀ addr, (getBalance Primitives.sample addr d.app).l2Height = 0 ∧
      (getBalance Primitives.sample addr d.app).totalMintedAtoms = 7) ∧
    (∃ r, d.app.store.row 0 = some r ∧ r.state.totalMintedAtoms = 0) ∧
    ¬ d.Snapshot Primitives.sample := by
  obtain ⟨app, hstarted, hstate, hmempool, -⟩ := exists_started Primitives.sample sampleIdentity
  obtain ⟨hheight, -⟩ := @Started.writable _ _ steadyEnv hstarted rfl
  obtain ⟨tip, htip⟩ := steadyEnv_l1Tip
  obtain ⟨genesis, hrow⟩ := Started.row hstarted
  obtain ⟨hfresh, hpending⟩ := fresh_of_start hstate hmempool shortMint.event.nullifierHex
  -- the mint is submitted, and the call runs up to the swap
  obtain ⟨softConf, hsubmit, -⟩ := @run_submitShortMint (.boot app) hfresh hpending
  let d := (Daemon.boot app).withShortMint softConf
  have hswap := @Daemon.run_swap Primitives.sample d rfl steadyEnv tip htip
  have hreach := @reachable_run Primitives.sample (fun _ _ => True) _
    (submitShortMint 0 ++ [.produceBlock steadyEnv, .build, .build, .build])
    (.init ⟨app, .init ⟨app, hstarted, rfl⟩, rfl⟩) fun _ _ _ _ => trivial
  rw [Daemon.run_append, show (Daemon.boot app).run _ (submitShortMint 0) = d from hsubmit, hswap]
    at hreach
  have hminted := minted_over_boot hstate hmempool softConf
  have hzero : (LedgerState.start genesis.header.sequencerFeeAddress).totalMintedAtoms = 0 := rfl
  refine ⟨_, daemons_of_reachable hreach, fun addr => ⟨hheight, hminted⟩, ⟨_, hrow, hzero⟩,
    fun hsnapshot => ?_⟩
  obtain ⟨r, hr, hof⟩ := hsnapshot sampleIdentity.xOnlyPublicKey
  have hr' : app.store.row app.shared.head.height = some r := hr
  rw [hheight, hrow] at hr'
  have hseven : (7 : Amount) = r.state.totalMintedAtoms := hminted.symm.trans hof.totalMintedAtoms
  rw [← Option.some.inj hr', hzero] at hseven
  exact absurd hseven (by decide)

end Hodlchain.Sequencer
