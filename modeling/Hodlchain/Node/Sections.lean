/-
The node, one critical section at a time.

`apply_one_l2_block` checks a block against the ledger and the head, which nobody else
writes, and then commits it: it locks the ledger, the store and the head, one after
another.  `get_balance` reads the ledger and the head at any point in between.  Run back
to back, the sections are the function of `Follower`.
-/
import Hodlchain.Lib.System
import Hodlchain.Node.Snapshot

namespace Hodlchain

/-- How far a call of `apply_one_l2_block` is. -/
inductive FollowStage where
  | idle
  | checked (block : L2Block) (next : Accepted)
  | swapped (block : L2Block) (next : Accepted)
  | written (block : L2Block) (next : Accepted)

/-- A running node; `since` is there for the statements only. -/
structure Follower where
  node : NodeState
  stage : FollowStage
  /-- The bodies swapped in since the head was set. -/
  since : List (List L2Tx)

inductive FollowEvent where
  /-- A block is fetched for a height, and checked. -/
  | check (served : Served) (height : UInt32) (endAttestation : Option Attestation)
  /-- The call runs its next section; the write meets the fault. -/
  | commit (fault : Option Fault)
  | setAnchor (anchor : OutPoint)
  | recordAnchorSpend (adv : ChainAdvance)
  | setL1Cursor (h : Nat)

/-- `get_balance`. -/
def NodeState.getBalance (prim : Primitives) (addr : L2Address) (n : NodeState) : BalanceResponse :=
  n.state.balanceResponse prim n.head.height addr (n.state.nonceOf addr)

section

variable (prim : Primitives)

namespace Follower

/-- A process that has started. -/
def boot (n : NodeState) : Follower := ⟨n, .idle, []⟩

/-- A block fetched and checked, when no call runs. -/
def check (d : Follower) (served : Served) (height : UInt32)
    (endAttestation : Option Attestation) : Follower :=
  match d.stage, served.block height with
  | .idle, some block =>
      match checkL2Block prim (served.view height) d.node.state d.node.head height endAttestation
          block with
      | .ok next => { d with stage := .checked block next }
      | .error _ => d
  | _, _ => d

/-- The next section of a call. -/
def commit (d : Follower) (fault : Option Fault) : FollowStage → Follower
  | .idle => d
  | .checked block next =>
      { node := { d.node with state := next.state }
        stage := .swapped block next
        since := d.since ++ [block.txs] }
  | .swapped block next =>
      match fault, d.node.store.writeBlockAndState block d.node.state next.witness with
      | none, .ok store =>
          { d with node := { d.node with store := store }, stage := .written block next }
      | _, _ => { d with stage := .idle }
  | .written _ next => ⟨{ d.node with head := next.head }, .idle, []⟩

def next (d : Follower) : FollowEvent → Follower
  | .check served height endAttestation => d.check prim served height endAttestation
  | .commit fault => d.commit fault d.stage
  | .setAnchor anchor => { d with node := { d.node with store := d.node.store.setAnchor anchor } }
  | .recordAnchorSpend adv =>
      { d with
        node :=
          { d.node with
            store := d.node.store.recordAnchorSpend adv.spentAnchor adv.txid adv.l1Height } }
  | .setL1Cursor h => { d with node := { d.node with store := d.node.store.setL1Cursor h } }

def run (d : Follower) (es : List FollowEvent) : Follower := es.foldl (next prim) d

end Follower

/-- Node processes one after another, each from what the one before it has persisted. -/
def followers : System Follower where
  init d := ∃ l1GenesisHeight genesis n,
    bootstrap prim l1GenesisHeight (some genesis) .empty = .ok n ∧ d = .boot n
  step d d' := (∃ e, d' = d.next prim e) ∨ ∃ state head,
    resume prim d.node.store = .ok (some (state, head)) ∧ d' = .boot ⟨d.node.store, state, head⟩

end

/-! ### Sections back to back -/

section

variable {prim : Primitives}

theorem Follower.reachable_run {d : Follower} {es : List FollowEvent}
    (h : (followers prim).Reachable d) : (followers prim).Reachable (d.run prim es) := by
  induction es generalizing d with
  | nil => exact h
  | cons e es ih => exact ih (.step h (.inl ⟨e, rfl⟩))

/-- A call that is not interleaved, and ends well. -/
theorem Follower.run_accepted {d : Follower} (hidle : d.stage = .idle) {served : Served}
    {height : UInt32} {att : Option Attestation} {block : L2Block} {next : Accepted}
    {store : NodeStore} (hserved : served.block height = some block)
    (hcheck : checkL2Block prim (served.view height) d.node.state d.node.head height att block
      = .ok next)
    (hwrite : d.node.store.writeBlockAndState block next.state next.witness = .ok store) :
    d.run prim [.check served height att, .commit none, .commit none, .commit none]
      = .boot ⟨store, next.state, next.head⟩ := by
  have hchecked : d.next prim (.check served height att)
      = { d with stage := .checked block next } := by
    simp only [Follower.next, Follower.check, hidle, hserved, hcheck]
  simp only [Follower.run, List.foldl_cons, List.foldl_nil, hchecked]
  simp only [Follower.next, Follower.commit, hwrite]
  rfl

/-- **A call whose sections run back to back is `apply_one_l2_block`.** -/
theorem applyOneL2Block_sections (env : Env) (served : Served) (height : UInt32)
    (endAttestation : Option Attestation) (w : World) (since : List (List L2Tx)) :
    ((⟨w.toNodeState, .idle, since⟩ : Follower).run prim (match env.faults w.calls with
      | none => [.check served height endAttestation, .commit none,
          .commit (env.faults (w.calls + 1)), .commit none]
      | some _ => [])).node
        = (applyOneL2Block prim env served height endAttestation w).2.toNodeState := by
  unfold applyOneL2Block fetchBlock
  rcases callSite_ends env .getBlock w with ⟨hnone, hcall⟩ | ⟨f, hfault, hcall⟩
  · rw [Action.bind_run, Action.bind_run_ok hcall, hnone]
    cases hserved : served.block height with
    | none => simp [Follower.run, Follower.next, Follower.check, Follower.commit, hserved]
    | some block =>
        simp only [Action.pure_run, Action.bind_run, Action.get_run, Action.lift_run]
        cases hcheck : checkL2Block prim (served.view height) w.state w.head height endAttestation
            block with
        | error e =>
            simp [Follower.run, Follower.next, Follower.check, Follower.commit, hserved, hcheck,
              mapErr]
        | ok next =>
            simp only [mapErr, Action.modify_run, writeBlockAndState]
            rcases callSite_ends env (.writeBlockAndState block)
              { w with calls := w.calls + 1, state := next.state } with
              ⟨hwrites, hwrite⟩ | ⟨f, hfails, hwrite⟩
            · have hfault : env.faults (w.calls + 1) = none := hwrites
              rw [Action.bind_run_ok hwrite]
              cases hstore : w.store.writeBlockAndState block next.state next.witness with
              | error e =>
                  simp [Follower.run, Follower.next, Follower.check, Follower.commit, hserved,
                    hcheck, hfault, hstore]
              | ok store =>
                  simp [Follower.run, Follower.next, Follower.check, Follower.commit, hserved,
                    hcheck, hfault, hstore]
            · have hfault : env.faults (w.calls + 1) = some f := hfails
              rw [Action.bind_run_error hwrite]
              simp [Follower.run, Follower.next, Follower.check, Follower.commit, hserved, hcheck,
                hfault]
  · rw [Action.bind_run, Action.bind_run_error hcall, hfault]
    rfl

end

/-! ### The commit of a node -/

/-- The row a node has persisted at a height. -/
def NodeStore.row (s : NodeStore) (height : UInt32) : Option Row :=
  match s.getBlock height, s.stateSnapshots[height]? with
  | some block, some state => some ⟨block, state⟩
  | _, _ => none

def FollowStage.phase : FollowStage → Phase
  | .idle => .idle
  | .checked _ _ => .idle
  | .swapped block _ => .swapped block
  | .written block _ => .written block

/-- What a reader reads. -/
def Follower.cells (d : Follower) : Cells :=
  ⟨d.node.store.row, d.node.state, d.node.head.height, d.since, d.stage.phase⟩

/-- A call has the checked block, and what accepting it leads to. -/
def FollowStage.Follows (prim : Primitives) (state : LedgerState) : FollowStage → Prop
  | .idle => True
  | .checked block next => next.state = state.applyAll prim block.txs ∧
      block.header.stateRoot = next.state.stateRoot prim ∧ next.head.height = block.header.height
  | .swapped block next => next.head.height = block.header.height
  | .written block next => next.head.height = block.header.height

section

variable {prim : Primitives} {d : Follower}

theorem NodeStore.row_eq_some_iff {s : NodeStore} {k : UInt32} {r : Row} : s.row k = some r ↔
    s.getBlock k = some r.block ∧ s.stateSnapshots[k]? = some r.state := by
  unfold NodeStore.row
  obtain ⟨block, state⟩ := r
  cases s.getBlock k with
  | none => simp
  | some block' =>
      cases s.stateSnapshots[k]? with
      | none => simp
      | some state' => simp

theorem NodeStore.row_insertBlock (s : NodeStore) (block : L2Block) (state : LedgerState)
    (witness : BlockWitness) (k : UInt32) : (s.insertBlock block state witness).row k
      = if block.header.height = k then some ⟨block, state⟩ else s.row k := by
  unfold NodeStore.row NodeStore.getBlock NodeStore.insertBlock
  simp only [Std.ExtTreeMap.getElem?_insert, Std.compare_eq_iff_eq]
  by_cases hk : block.header.height = k
  · simp [hk]
  · simp [hk]

theorem NodeStore.row_eq_none {s : NodeStore} {k : UInt32} (h : k ∉ s.blocks) : s.row k = none := by
  cases hrow : s.row k with
  | none => rfl
  | some r =>
      exact absurd (NodeStore.mem_blocks_of_getBlock (NodeStore.row_eq_some_iff.mp hrow).1) h

/-- A checked block is committed as one that follows the ledger. -/
theorem Follower.check_follows (h : d.stage.Follows prim d.node.state) (served : Served)
    (height : UInt32) (att : Option Attestation) :
    (d.check prim served height att).node = d.node ∧
      (d.check prim served height att).cells = d.cells ∧
      (d.check prim served height att).stage.Follows prim d.node.state := by
  unfold check
  split
  · next block hidle hblock =>
      split
      · next next hcheck =>
          obtain ⟨hheight, -, -, hreplay, hroot, -, hhead, -⟩ := checkL2Block_ok_iff.mp hcheck
          refine ⟨rfl, ?_, (LedgerState.replayFrom_ok_iff.mp hreplay).2.symm, hroot.symm, ?_⟩
          · unfold cells
            rw [hidle]
            rfl
          · rw [hhead, hheight]
      · exact ⟨rfl, rfl, h⟩
  · exact ⟨rfl, rfl, h⟩

/-- A section of a call is a step of the commit, or none. -/
theorem Follower.commit_cells (h : d.stage.Follows prim d.node.state) (fault : Option Fault) :
    CellRun prim d.cells (d.commit fault d.stage).cells ∧
      (d.commit fault d.stage).stage.Follows prim (d.commit fault d.stage).node.state := by
  have hphase : d.cells.phase = d.stage.phase := rfl
  cases hstage : d.stage with
  | idle =>
      refine ⟨.refl, ?_⟩
      rw [commit, hstage]
      trivial
  | checked block next =>
      rw [hstage] at h hphase
      obtain ⟨hstate, hroot, hheight⟩ := h
      exact ⟨.single (.swap hphase hstate hroot), hheight⟩
  | swapped block next =>
      rw [hstage] at h hphase
      cases hwrite : d.node.store.writeBlockAndState block d.node.state next.witness with
      | error e =>
          have hleft : d.commit fault (.swapped block next) = { d with stage := .idle } := by
            simp [commit, hwrite]
          rw [hleft]
          exact ⟨.single .leave, trivial⟩
      | ok store =>
          obtain ⟨⟨hfree, -⟩, rfl⟩ := NodeStore.writeBlockAndState_ok_iff.mp hwrite
          cases fault with
          | some f => exact ⟨.single .leave, trivial⟩
          | none =>
              simp only [commit, hwrite]
              exact ⟨.single (.write hphase (NodeStore.row_eq_none hfree) fun k =>
                NodeStore.row_insertBlock d.node.store block d.node.state next.witness k), h⟩
  | written block next =>
      rw [hstage] at h hphase
      refine ⟨?_, trivial⟩
      have hstep : CellStep prim d.cells _ := .setHead hphase
      rw [← h] at hstep
      exact .single hstep

/-- What holds of a node at any point of a call. -/
structure Follower.Sound (prim : Primitives) (d : Follower) : Prop where
  cells : d.cells.Sound prim
  follows : d.stage.Follows prim d.node.state

theorem Follower.Sound.next (h : d.Sound prim) (e : FollowEvent) : (d.next prim e).Sound prim := by
  cases e with
  | check served height att =>
      obtain ⟨hnode, hcells, hfollows⟩ := d.check_follows h.follows served height att
      refine ⟨?_, ?_⟩
      · show (d.check prim served height att).cells.Sound prim
        rw [hcells]
        exact h.cells
      · show (d.check prim served height att).stage.Follows prim
          (d.check prim served height att).node.state
        rw [hnode]
        exact hfollows
  | commit fault =>
      obtain ⟨hstep, hfollows⟩ := d.commit_cells h.follows fault
      exact ⟨h.cells.run hstep, hfollows⟩
  | setAnchor anchor => exact ⟨h.cells, h.follows⟩
  | recordAnchorSpend adv => exact ⟨h.cells, h.follows⟩
  | setL1Cursor h' => exact ⟨h.cells, h.follows⟩

theorem Follower.Sound.restart {state : LedgerState} {head : HeadInfo} (h : d.Sound prim)
    (hresume : resume prim d.node.store = .ok (some (state, head))) :
    (Follower.boot ⟨d.node.store, state, head⟩).Sound prim := by
  obtain ⟨height, block, hload, hblock, rfl⟩ := resume_eq_some_iff.mp hresume
  have hrow : d.cells.rows height = some ⟨block, state⟩ :=
    NodeStore.row_eq_some_iff.mpr ⟨hblock, (lastRow?_eq_some_iff.mp hload).1⟩
  exact ⟨h.cells.step (.restart hrow), trivial⟩

/-- A node that has just started from a genesis block. -/
theorem Follower.sound_boot {l1GenesisHeight : UInt32} {genesis : L2Block} {n : NodeState}
    (h : bootstrap prim l1GenesisHeight (some genesis) .empty = .ok n) :
    (Follower.boot n).Sound prim := by
  have hload : NodeStore.empty.loadLatestState = none := lastRow?_eq_none_iff.mpr rfl
  simp only [bootstrap, resume, hload, coldStart, bind_ok_iff, ensure_ok_iff, okOr_ok_iff,
    mapErr_ok_iff, pure_ok_iff] at h
  obtain ⟨_, hheight, _, -, _, hroot, anchor, -, store, hwrite, rfl⟩ := h
  obtain ⟨-, rfl⟩ := NodeStore.writeBlockAndState_ok_iff.mp hwrite
  -- the row of the genesis block, and no other
  have hrows := NodeStore.row_insertBlock .empty genesis
    { LedgerState.new with sequencerFeeAddress := genesis.header.sequencerFeeAddress }
    (BlockWitness.build prim
      { LedgerState.new with sequencerFeeAddress := genesis.header.sequencerFeeAddress }
      genesis.txs 0)
  have hnone : ∀ k, NodeStore.empty.row k = none :=
    fun k => NodeStore.row_eq_none Std.ExtTreeMap.not_mem_empty
  refine ⟨⟨fun k r hr => ?_, ⟨_, (hrows 0).trans (if_pos hheight), rfl⟩, trivial⟩, trivial⟩
  have hr' := (hrows k).symm.trans hr
  rw [hnone] at hr'
  split_ifs at hr' with hk
  rw [← Option.some.inj hr']
  exact ⟨hk, hroot.symm⟩

theorem sound_of_followers (h : (followers prim).Reachable d) : d.Sound prim := by
  refine h.invariant (I := Follower.Sound prim) ?_ ?_
  · rintro d ⟨l1GenesisHeight, genesis, n, hboot, rfl⟩
    exact Follower.sound_boot hboot
  · rintro d d' - hsound (⟨e, rfl⟩ | ⟨state, head, hresume, rfl⟩)
    · exact hsound.next e
    · exact hsound.restart hresume

end

end Hodlchain
