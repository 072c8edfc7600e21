/-
The first run of a node, stopped on the way.

A first run writes the genesis block with its state, then the cursor, then the anchor, and
can stop before each of the writes.  The next start takes a state snapshot for a sign that
all of them were made.
-/
import Hodlchain.Node.Follower

namespace Hodlchain

/-- The store has what a first run is to leave in it: block 0 with its state, a cursor from which
no attestation is missed, and the anchor of block 0. -/
def GenesisStored (prim : Primitives) (block : Option L2Block) (state : Option LedgerState)
    (cursor : Option ℕ) (anchor : Option OutPoint) (l1GenesisHeight : ℕ) : Prop :=
  ∃ g s h op, block = some g ∧ state = some s ∧ cursor = some h ∧ anchor = some op ∧
    g.header.height = 0 ∧ s.stateRoot prim = g.header.stateRoot ∧ l1GenesisHeight ≤ h ∧
    g.header.anchorOutpoint = some op

namespace FirstRun

/-- The writes of a first run. -/
inductive Write where
  | writeBlockAndState
  | setL1Cursor
  | setAnchor
deriving DecidableEq, Repr

inductive Halt where
  | error (e : BootstrapError)
  | stopped
deriving DecidableEq, Repr

section

variable (prim : Primitives)

/-- The checks of `bootstrap` on the genesis block: the state it starts from, and the anchor. -/
def checkGenesis (l1GenesisHeight : UInt32) (genesis : L2Block) :
    Except BootstrapError (LedgerState × OutPoint) := do
  ensure (genesis.header.height = 0) .notGenesis
  ensure (genesis.header.l1Height = l1GenesisHeight)
    (.l1Height genesis.header.l1Height l1GenesisHeight)
  let state :=
    { LedgerState.new with sequencerFeeAddress := genesis.header.sequencerFeeAddress }
  ensure (state.stateRoot prim = genesis.header.stateRoot)
    (.stateRoot (state.stateRoot prim) genesis.header.stateRoot)
  let anchor ← okOr genesis.header.anchorOutpoint .noAnchor
  pure (state, anchor)

/-- `bootstrap` write by write, with the one before which the process stops. -/
def start (stop : Option Write) (l1GenesisHeight : UInt32) (served : Option L2Block) :
    Action NodeStore Halt (LedgerState × HeadInfo) := do
  let store ← Action.get
  let resumed ← Action.lift (mapErr (fun e => .error (.store e)) (resume prim store))
  match resumed with
  | some (state, head) => pure (state, head)
  | none => do
      let genesis ← Action.lift (okOr served (.error .fetchGenesis))
      let (state, anchor) ← Action.lift (mapErr .error (checkGenesis prim l1GenesisHeight genesis))
      let witness := BlockWitness.build prim state genesis.txs 0
      Action.stopBefore stop .writeBlockAndState .stopped
      let store ← Action.lift (mapErr (fun e => .error (.store e))
        (store.writeBlockAndState genesis state witness))
      Action.modify fun _ => store
      Action.stopBefore stop .setL1Cursor .stopped
      Action.modify (·.setL1Cursor l1GenesisHeight.toNat)
      Action.stopBefore stop .setAnchor .stopped
      Action.modify (·.setAnchor anchor)
      pure (state, { headOf prim genesis with height := 0 })

end

section

variable {prim : Primitives} {l1GenesisHeight : UInt32} {served : Option L2Block}
    {store : NodeStore}

theorem coldStart_eq (genesis : L2Block) : coldStart prim l1GenesisHeight store genesis
    = checkGenesis prim l1GenesisHeight genesis >>= fun (state, anchor) =>
      (mapErr .store (store.writeBlockAndState genesis state
        (BlockWitness.build prim state genesis.txs 0))) >>= fun store =>
      pure ⟨(store.setL1Cursor l1GenesisHeight.toNat).setAnchor anchor, state,
        { headOf prim genesis with height := 0 }⟩ := by
  unfold coldStart checkGenesis
  simp only [bind_assoc, pure_bind]

/-- A run that is not stopped is `bootstrap`. -/
theorem start_none : start prim none l1GenesisHeight served store
    = match bootstrap prim l1GenesisHeight served store with
      | .ok node => (.ok (node.state, node.head), node.store)
      | .error e => (.error (.error e), store) := by
  unfold start bootstrap
  rw [Action.get_bind_run]
  cases hresume : resume prim store with
  | error e => rfl
  | ok resumed =>
      cases resumed with
      | some r => rfl
      | none =>
          cases served with
          | none => rfl
          | some genesis =>
              simp only [coldStart_eq]
              cases hcheck : checkGenesis prim l1GenesisHeight genesis with
              | error e => simp [mapErr, okOr, hcheck, bind, Except.bind]
              | ok r =>
                  obtain ⟨state, anchor⟩ := r
                  cases hwrite : store.writeBlockAndState genesis state
                      (BlockWitness.build prim state genesis.txs 0) with
                  | error e =>
                      simp [mapErr, okOr, hcheck, Action.stopBefore, hwrite, bind, Except.bind]
                  | ok store' =>
                      simp [mapErr, okOr, hcheck, Action.stopBefore, hwrite, bind, Except.bind]
                      rfl

/-! ### What a first run leaves -/

/-- The genesis block passes the checks. -/
def Accepted (prim : Primitives) (l1GenesisHeight : UInt32) (served : Option L2Block) : Prop :=
  ∃ g r, served = some g ∧ checkGenesis prim l1GenesisHeight g = .ok r

/-- The store after the block was written, and after the cursor and the anchor were, as far as the
process came. -/
def left (prim : Primitives) (l1GenesisHeight : UInt32) (genesis : L2Block) (state : LedgerState)
    (anchor : OutPoint) : Option Write → NodeStore
  | some .writeBlockAndState => .empty
  | some .setL1Cursor =>
      NodeStore.empty.insertBlock genesis state (BlockWitness.build prim state genesis.txs 0)
  | some .setAnchor =>
      (NodeStore.empty.insertBlock genesis state
        (BlockWitness.build prim state genesis.txs 0)).setL1Cursor
        l1GenesisHeight.toNat
  | none =>
      ((NodeStore.empty.insertBlock genesis state
        (BlockWitness.build prim state genesis.txs 0)).setL1Cursor
        l1GenesisHeight.toNat).setAnchor anchor

variable {genesis : L2Block} {state : LedgerState} {anchor : OutPoint}

theorem checkGenesis_ok_iff : checkGenesis prim l1GenesisHeight genesis = .ok (state, anchor) ↔
    genesis.header.height = 0 ∧ genesis.header.l1Height = l1GenesisHeight ∧
      state = { LedgerState.new with sequencerFeeAddress := genesis.header.sequencerFeeAddress } ∧
      state.stateRoot prim = genesis.header.stateRoot ∧
        genesis.header.anchorOutpoint = some anchor := by
  simp only [checkGenesis, bind_ok_iff, ensure_ok_iff, okOr_ok_iff, pure_ok_iff, Prod.mk.injEq]
  constructor
  · rintro ⟨_, hheight, _, hl1, _, hroot, op, hanchor, rfl, rfl⟩
    exact ⟨hheight, hl1, rfl, hroot, hanchor⟩
  · rintro ⟨hheight, hl1, rfl, hroot, hanchor⟩
    exact ⟨(), hheight, (), hl1, (), hroot, anchor, hanchor, rfl, rfl⟩

theorem resume_empty : resume prim NodeStore.empty = .ok none := by
  have hnone : NodeStore.empty.loadLatestState = none := lastRow?_eq_none_iff.mpr rfl
  unfold resume
  rw [hnone]

theorem writeBlockAndState_empty (witness : BlockWitness) :
    NodeStore.empty.writeBlockAndState genesis state witness
      = .ok (NodeStore.empty.insertBlock genesis state witness) :=
  NodeStore.writeBlockAndState_ok_iff.mpr
    ⟨⟨Std.ExtTreeMap.not_mem_empty, Std.ExtTreeMap.not_mem_empty, Std.ExtTreeMap.not_mem_empty⟩,
     rfl⟩

theorem start_empty (hcheck : checkGenesis prim l1GenesisHeight genesis = .ok (state, anchor))
    (stop : Option Write) : start prim stop l1GenesisHeight (some genesis) .empty
      = (if stop.isSome then .error .stopped else .ok (state, { headOf prim genesis with
        height := 0 }), left prim l1GenesisHeight genesis state anchor stop) := by
  unfold start
  simp only [Action.get_bind_run, resume_empty, mapErr, okOr, hcheck, writeBlockAndState_empty,
    Action.lift_ok_bind_run, Action.stopBefore_bind_run, Action.modify_bind_run]
  rcases stop with _ | stop
  · rfl
  · cases stop <;> rfl

/-- A genesis block that is not accepted is not written. -/
theorem start_empty_of_not (h : ¬ Accepted prim l1GenesisHeight served) (stop : Option Write) :
    ∃ e, start prim stop l1GenesisHeight served .empty = (.error e, .empty) := by
  unfold start
  rw [Action.get_bind_run, resume_empty]
  cases served with
  | none => exact ⟨_, rfl⟩
  | some genesis =>
      cases hcheck : checkGenesis prim l1GenesisHeight genesis with
      | error e =>
          simp only [mapErr, okOr, hcheck, Action.lift_ok_bind_run, Action.lift_error_bind_run]
          exact ⟨_, rfl⟩
      | ok r => exact absurd ⟨genesis, r, rfl, hcheck⟩ h

/-! ### The start after it -/

/-- The store has what a first run is to leave in it, and a tick finds the anchor there. -/
def Ready (prim : Primitives) (l1GenesisHeight : UInt32) (store : NodeStore) : Prop :=
  GenesisStored prim (store.getBlock 0) (store.stateSnapshots[(0 : UInt32)]?)
    store.l1Cursor store.anchor
      l1GenesisHeight.toNat ∧
    ∀ (env : Env) (w : World), w.store = store → env.faults w.calls = none →
      ∃ op, store.anchor = some op ∧ (readAnchor env w).1 = .ok op

/-- What a tick reads. -/
theorem readAnchor_run {env : Env} {w : World} (hfault : env.faults w.calls = none) :
    (readAnchor env w).1 = okOr w.store.anchor (.error .anchorNotInitialised) := by
  have hcall : callSite env .getAnchor w = (.ok (), { w with calls := w.calls + 1 }) := by
    simp only [callSite, hfault]
  unfold readAnchor
  rw [Action.bind_run_ok hcall, Action.get_bind_run]
  cases w.store.anchor <;> rfl

theorem ready_left (hcheck : checkGenesis prim l1GenesisHeight genesis = .ok (state, anchor)) :
    Ready prim l1GenesisHeight (left prim l1GenesisHeight genesis state anchor none) := by
  obtain ⟨hheight, -, -, hroot, hanchor⟩ := checkGenesis_ok_iff.mp hcheck
  refine ⟨⟨genesis, state, l1GenesisHeight.toNat, anchor, ?_, ?_, rfl, rfl, hheight, hroot, le_rfl,
    hanchor⟩, fun env w hstore hfault => ⟨anchor, rfl, ?_⟩⟩
  · simp [left, NodeStore.getBlock, NodeStore.insertBlock, NodeStore.setL1Cursor,
      NodeStore.setAnchor, hheight]
  · simp [left, NodeStore.insertBlock, NodeStore.setL1Cursor, NodeStore.setAnchor, hheight]
  · rw [readAnchor_run hfault, hstore]
    rfl

/-- A store without an anchor is not ready. -/
theorem not_ready_of_anchor {store : NodeStore} (h : store.anchor = none) :
    ¬ Ready prim l1GenesisHeight store := by
  rintro ⟨⟨_, _, _, op, -, -, -, hanchor, -⟩, -⟩
  rw [h] at hanchor
  cases hanchor

/-- Once the block is written, the next start resumes. -/
theorem resume_insertBlock (witness : BlockWitness) :
    resume prim (NodeStore.empty.insertBlock genesis state witness)
      = .ok (some (state, headOf prim genesis)) := by
  have hlast : (NodeStore.empty.insertBlock genesis state witness).loadLatestState
      = some (genesis.header.height, state) :=
    lastRow?_insert fun k hk => absurd hk Std.ExtTreeMap.not_mem_empty
  have hblock : (NodeStore.empty.insertBlock genesis state witness).getBlock genesis.header.height
      = some genesis := by
    rw [NodeStore.getBlock_insertBlock, if_pos rfl]
  unfold resume
  rw [hlast]
  simp only [hblock]

theorem resume_left {stop : Option Write} (h : stop ≠ some .writeBlockAndState) :
    resume prim (left prim l1GenesisHeight genesis state anchor stop)
      = .ok (some (state, headOf prim genesis)) := by
  have hwritten := @resume_insertBlock prim genesis state
    (BlockWitness.build prim state genesis.txs 0)
  rcases stop with _ | _ | _ | _
  · exact hwritten
  · exact absurd rfl h
  · exact hwritten
  · exact hwritten

theorem start_resumed {store : NodeStore} {r : LedgerState × HeadInfo}
    (hresume : resume prim store = .ok (some r)) (stop : Option Write) :
    start prim stop l1GenesisHeight served store = (.ok r, store) := by
  unfold start
  simp only [Action.get_bind_run, hresume, mapErr, Action.lift_ok_bind_run, Action.pure_run]

/-- A start that goes through is a run that is not stopped. -/
theorem bootstrap_ok_iff_start {node : NodeState} :
    bootstrap prim l1GenesisHeight served store = .ok node ↔
    start prim none l1GenesisHeight served store = (.ok (node.state, node.head), node.store) := by
  rw [start_none]
  cases bootstrap prim l1GenesisHeight served store with
  | error e => simp
  | ok n =>
      obtain ⟨store, state, head⟩ := n
      obtain ⟨store', state', head'⟩ := node
      simp only [Except.ok.injEq, NodeState.mk.injEq, Prod.mk.injEq]
      constructor
      · rintro ⟨rfl, rfl, rfl⟩
        exact ⟨⟨rfl, rfl⟩, rfl⟩
      · rintro ⟨⟨rfl, rfl⟩, rfl⟩
        exact ⟨rfl, rfl, rfl⟩

/-- Starts that go through leave the store ready, and a sequencer that serves a genesis block lets
them go through. -/
def Recovers (prim : Primitives) (l1GenesisHeight : UInt32) (store : NodeStore) : Prop :=
  (∀ served node, bootstrap prim l1GenesisHeight served store = .ok node →
    Ready prim l1GenesisHeight node.store) ∧
  ∀ served, Accepted prim l1GenesisHeight served →
    ∃ node, bootstrap prim l1GenesisHeight served store = .ok node

theorem recovers_empty : Recovers prim l1GenesisHeight .empty := by
  constructor
  · intro served node hrun
    rw [bootstrap_ok_iff_start] at hrun
    by_cases haccepted : Accepted prim l1GenesisHeight served
    · obtain ⟨g, ⟨s, op⟩, rfl, hcheck⟩ := haccepted
      rw [start_empty hcheck] at hrun
      rw [← (Prod.mk.inj hrun).2]
      exact ready_left hcheck
    · obtain ⟨e, herror⟩ := start_empty_of_not haccepted none
      rw [herror] at hrun
      cases hrun
  · rintro served ⟨g, ⟨s, op⟩, rfl, hcheck⟩
    exact ⟨⟨left prim l1GenesisHeight g s op none, s, { headOf prim g with height := 0 }⟩,
      bootstrap_ok_iff_start.mpr (start_empty hcheck none)⟩

/-- A store to resume from stays as it is. -/
theorem recovers_resumed_iff {r : LedgerState × HeadInfo}
    (hresume : resume prim store = .ok (some r)) :
    Recovers prim l1GenesisHeight store ↔ Ready prim l1GenesisHeight store := by
  have hrun : ∀ served, bootstrap prim l1GenesisHeight served store = .ok ⟨store, r.1, r.2⟩ :=
    fun served => bootstrap_ok_iff_start.mpr (start_resumed hresume none)
  constructor
  · rintro ⟨hready, -⟩
    exact hready none _ (hrun none)
  · intro h
    refine ⟨fun served node hnode => ?_, fun served _ => ⟨_, hrun served⟩⟩
    rw [hrun served] at hnode
    rwa [← Except.ok.inj hnode]

/-- **A first run can be finished exactly if it was not stopped between its last writes**: the
starts after it leave the block, its state, a cursor and the anchor, unless the block had been
written and the anchor had not. -/
theorem recovers_iff (stop : Option Write) (served : Option L2Block) :
    Recovers prim l1GenesisHeight (start prim stop l1GenesisHeight served .empty).2 ↔
      ¬ (Accepted prim l1GenesisHeight served ∧
        (stop = some .setL1Cursor ∨ stop = some .setAnchor)) := by
  by_cases haccepted : Accepted prim l1GenesisHeight served
  · obtain ⟨g, ⟨s, op⟩, rfl, hcheck⟩ := haccepted
    have haccepted : Accepted prim l1GenesisHeight (some g) := ⟨g, _, rfl, hcheck⟩
    rw [start_empty hcheck]
    show Recovers prim l1GenesisHeight (left prim l1GenesisHeight g s op stop) ↔ _
    by_cases hwrite : stop = some .writeBlockAndState
    · subst hwrite
      exact iff_of_true recovers_empty (by simp)
    · rw [recovers_resumed_iff (resume_left hwrite)]
      rcases stop with _ | _ | _ | _
      · exact iff_of_true (ready_left hcheck) (by simp)
      · exact absurd rfl hwrite
      · exact iff_of_false (not_ready_of_anchor rfl) (by simp [haccepted])
      · exact iff_of_false (not_ready_of_anchor rfl) (by simp [haccepted])
  · obtain ⟨e, herror⟩ := start_empty_of_not haccepted stop
    rw [herror]
    exact iff_of_true recovers_empty fun h => haccepted h.1

end

end FirstRun

end Hodlchain
