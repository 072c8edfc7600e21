/-
The first run of the sequencer, stopped on the way.

A first run writes the identity key, and then what a node writes: the genesis block with its
state, the cursor, the anchor.  The next start finds the key and goes on with it, but it
takes a state snapshot for a sign that the writes after it were made too.
-/
import Hodlchain.Node.FirstRun
import Hodlchain.Sequencer.Rows

namespace Hodlchain.Sequencer.FirstRun

/-- The writes of a first run. -/
inductive Write where
  | setSequencerSeckeyHex
  | writeBlockAndState
  | setL1Cursor
  | setAnchor
deriving DecidableEq, Repr

inductive Halt where
  /-- A request to L1 failed. -/
  | request
  | store (cause : StoreError)
  | stopped
deriving DecidableEq, Repr

/-- The store, with the row of the identity key as the key it decodes to. -/
structure Disk where
  sequencerSeckey : Option Keypair
  store : Store

def Disk.empty : Disk := ⟨none, .empty⟩

/-- What a start draws and is told; `none` is a failed request. -/
structure Env where
  keypair : Keypair
  /-- Once L1 has the genesis height, which the start waits for. -/
  l1BlockHash : Option H256
  now : UInt64
  anchor0 : Option OutPoint

/-- L1 answers. -/
def Env.Answers (env : Env) : Prop := env.l1BlockHash.isSome ∧ env.anchor0.isSome

section

variable (prim : Primitives)

/-- `load_or_create_identity`. -/
def loadOrCreateIdentity (stop : Option Write) (env : Env) : Action Disk Halt Keypair := do
  let disk ← Action.get
  match disk.sequencerSeckey with
  | some kp => pure kp
  | none => do
      Action.stopBefore stop .setSequencerSeckeyHex .stopped
      Action.modify fun disk => { disk with sequencerSeckey := some env.keypair }
      pure env.keypair

/-- A write to the store, with the stop before it. -/
def write (stop : Option Write) (site : Write) (f : Store → Store) : Action Disk Halt Unit := do
  Action.stopBefore stop site .stopped
  Action.modify fun disk => { disk with store := f disk.store }

/-- `bootstrap` write by write. -/
def bootstrap (stop : Option Write) (l1GenesisHeight : UInt32) (env : Env) (identity : Keypair) :
    Action Disk Halt (LedgerState × HeadInfo) := do
  let disk ← Action.get
  let resumed ← Action.lift (mapErr .store (resume prim disk.store))
  match resumed with
  | some (state, head) => pure (state, head)
  | none => do
      let l1BlockHash ← Action.lift (okOr env.l1BlockHash .request)
      let anchor0 ← Action.lift (okOr env.anchor0 .request)
      let identityPubkey := identity.xOnlyPublicKey
      let block := genesis prim l1BlockHash l1GenesisHeight env.now anchor0 (some identityPubkey)
        (some identityPubkey)
      let state := { LedgerState.new with sequencerFeeAddress := some identityPubkey }
      let witness := BlockWitness.build prim state block.txs 0
      let store ← Action.lift (mapErr .store (disk.store.writeBlockAndState block state witness))
      write stop .writeBlockAndState fun _ => store
      write stop .setL1Cursor (·.setL1Cursor l1GenesisHeight)
      write stop .setAnchor (·.setAnchor anchor0)
      pure (state,
        { height := 0
          blockHash := block.hash prim
          stateRoot := block.header.stateRoot
          l1Height := l1GenesisHeight
          l1BlockHash := l1BlockHash })

/-- A start of the process, up to what its threads share. -/
def start (stop : Option Write) (l1GenesisHeight : UInt32) (env : Env) :
    Action Disk Halt Shared := do
  let identity ← loadOrCreateIdentity stop env
  let (state, head) ← bootstrap prim stop l1GenesisHeight env identity
  pure (Shared.new state head identity)

end

section

variable {prim : Primitives} {l1GenesisHeight : UInt32} {env : Env} {stop : Option Write}
  {identity : Keypair} {seckey : Option Keypair} {l1BlockHash : H256} {anchor0 : OutPoint}

/-- The genesis block of an identity. -/
def genesisOf (prim : Primitives) (l1GenesisHeight : UInt32) (env : Env) (identity : Keypair)
    (l1BlockHash : H256) (anchor0 : OutPoint) : L2Block :=
  genesis prim l1BlockHash l1GenesisHeight env.now anchor0 (some identity.xOnlyPublicKey)
    (some identity.xOnlyPublicKey)

/-- Its ledger. -/
def ledgerOf (identity : Keypair) : LedgerState :=
  { LedgerState.new with sequencerFeeAddress := some identity.xOnlyPublicKey }

/-- The store once the block is written. -/
def written (prim : Primitives) (l1GenesisHeight : UInt32) (env : Env) (identity : Keypair)
    (l1BlockHash : H256) (anchor0 : OutPoint) : Store :=
  let block := genesisOf prim l1GenesisHeight env identity l1BlockHash anchor0
  Store.empty.insertBlock block (ledgerOf identity)
    (BlockWitness.build prim (ledgerOf identity) block.txs 0)

/-- The store that the writes to it leave, as far as the process came. -/
def left (prim : Primitives) (l1GenesisHeight : UInt32) (env : Env) (identity : Keypair)
    (l1BlockHash : H256) (anchor0 : OutPoint) : Option Write → Store
  | some .setSequencerSeckeyHex => .empty
  | some .writeBlockAndState => .empty
  | some .setL1Cursor => written prim l1GenesisHeight env identity l1BlockHash anchor0
  | some .setAnchor =>
      (written prim l1GenesisHeight env identity l1BlockHash anchor0).setL1Cursor l1GenesisHeight
  | none =>
      ((written prim l1GenesisHeight env identity l1BlockHash anchor0).setL1Cursor
        l1GenesisHeight).setAnchor anchor0

theorem loadOrCreateIdentity_run (disk : Disk) : loadOrCreateIdentity stop env disk
    = match disk.sequencerSeckey with
      | some kp => (.ok kp, disk)
      | none =>
          if stop = some .setSequencerSeckeyHex then (.error .stopped, disk)
          else (.ok env.keypair, { disk with sequencerSeckey := some env.keypair }) := by
  unfold loadOrCreateIdentity
  rw [Action.get_bind_run]
  cases disk.sequencerSeckey with
  | some kp => rfl
  | none =>
      simp only [Action.stopBefore_bind_run]
      rfl

theorem resume_empty : resume prim Store.empty = .ok none := by
  have hnone : Store.empty.loadLatestState = none := lastRow?_eq_none_iff.mpr rfl
  unfold resume
  rw [hnone]

theorem writeBlockAndState_empty {block : L2Block} {state : LedgerState} (witness : BlockWitness) :
    Store.empty.writeBlockAndState block state witness
      = .ok (Store.empty.insertBlock block state witness) :=
  Store.writeBlockAndState_ok_iff.mpr
    ⟨⟨Std.ExtTreeMap.not_mem_empty, Std.ExtTreeMap.not_mem_empty, Std.ExtTreeMap.not_mem_empty⟩,
     rfl⟩

theorem write_bind_run {α : Type} {site : Write} {f : Store → Store}
    {rest : Unit → Action Disk Halt α} {disk : Disk} : (write stop site f >>= rest) disk
      = if stop = some site then (.error .stopped, disk)
        else rest () { disk with store := f disk.store } := by
  unfold write
  rw [Action.bind_assoc_run, Action.stopBefore_bind_run]
  rfl

theorem bootstrap_empty (hhash : env.l1BlockHash = some l1BlockHash)
    (hanchor : env.anchor0 = some anchor0) (hstop : stop ≠ some .setSequencerSeckeyHex) :
    ∃ r, bootstrap prim stop l1GenesisHeight env identity ⟨seckey, .empty⟩
        = (r, ⟨seckey, left prim l1GenesisHeight env identity l1BlockHash anchor0 stop⟩) ∧
      (stop = none → ∃ a, r = .ok a) := by
  unfold bootstrap
  simp only [Action.get_bind_run, resume_empty, mapErr, okOr, hhash, hanchor,
    writeBlockAndState_empty, Action.lift_ok_bind_run, write_bind_run]
  rcases stop with _ | _ | _ | _ | _
  · exact ⟨_, rfl, fun _ => ⟨_, rfl⟩⟩
  · exact absurd rfl hstop
  · exact ⟨_, rfl, fun h => by cases h⟩
  · exact ⟨_, rfl, fun h => by cases h⟩
  · exact ⟨_, rfl, fun h => by cases h⟩

/-- Where L1 does not answer, nothing is written. -/
theorem bootstrap_empty_of_not (h : ¬ env.Answers) :
    bootstrap prim stop l1GenesisHeight env identity ⟨seckey, .empty⟩
      = (.error .request, ⟨seckey, .empty⟩) := by
  unfold bootstrap
  simp only [Action.get_bind_run, resume_empty, mapErr, Action.lift_ok_bind_run]
  cases hhash : env.l1BlockHash with
  | none => rfl
  | some l1BlockHash =>
      cases hanchor : env.anchor0 with
      | none => rfl
      | some anchor0 => exact absurd ⟨by rw [hhash]; rfl, by rw [hanchor]; rfl⟩ h

theorem bootstrap_resumed {store : Store} {r : LedgerState × HeadInfo}
    (hresume : resume prim store = .ok (some r)) :
    bootstrap prim stop l1GenesisHeight env identity ⟨seckey, store⟩ =
    (.ok r, ⟨seckey, store⟩) := by
  unfold bootstrap
  simp only [Action.get_bind_run, hresume, mapErr, Action.lift_ok_bind_run, Action.pure_run]

/-- Once the block is written, the next start resumes. -/
theorem resume_written : resume prim (written prim l1GenesisHeight env identity l1BlockHash anchor0)
    = .ok (some (ledgerOf identity,
      headOf prim (genesisOf prim l1GenesisHeight env identity l1BlockHash anchor0))) := by
  refine Latest.resume ⟨lastRow?_insert fun k hk => absurd hk Std.ExtTreeMap.not_mem_empty, ?_⟩
  unfold written
  rw [Store.getBlock_insertBlock, if_pos rfl]

theorem resume_left (h : stop ≠ some .setSequencerSeckeyHex ∧ stop ≠ some .writeBlockAndState) :
    resume prim (left prim l1GenesisHeight env identity l1BlockHash anchor0 stop) =
      .ok (some (ledgerOf identity,
      headOf prim (genesisOf prim l1GenesisHeight env identity l1BlockHash anchor0))) := by
  rcases stop with _ | _ | _ | _ | _
  · exact resume_written
  · exact absurd rfl h.1
  · exact absurd rfl h.2
  · exact resume_written
  · exact resume_written

/-! ### The start after it -/

/-- The store has what a first run is to leave in it, and an attestation finds the anchor there. -/
def Ready (prim : Primitives) (l1GenesisHeight : UInt32) (store : Store) : Prop :=
  GenesisStored prim (store.getBlock 0) (store.stateSnapshots[(0 : UInt32)]?)
      (store.l1Cursor.map UInt32.toNat) store.anchor l1GenesisHeight.toNat ∧
    ∀ (env : AttestEnv) (tip : UInt32) (shared : Shared), env.faults .getAnchor = none →
      (attestHead env tip ⟨shared, store⟩).1 ≠ .error (.error .anchorNotInitialised)

/-- `x` does not end for want of an anchor. -/
private abbrev Finds {α : Type} (x : Act α) : Prop :=
  Action.Triple (fun _ => True) x (fun _ _ => True) fun e _ => e ≠ .error .anchorNotInitialised

private theorem finds_storeCall (faults : StoreCall → Option Fault) (site : StoreCall) :
    Finds (storeCall faults site) := by
  intro app _
  unfold storeCall
  cases faults site with
  | none => exact trivial
  | some fault => cases fault <;> exact nofun

private theorem finds_setStore (faults : StoreCall → Option Fault) (site : StoreCall)
    (f : Store → Store) :
    Finds (setStore faults site f) :=
  (finds_storeCall faults site).bind fun _ => .modify fun _ _ => trivial

private theorem finds_recordAttestation (faults : StoreCall → Option Fault)
    (tip l2HeadHeight : UInt32) (spentAnchor : OutPoint) (txid : Txid) :
    Finds (recordAttestation faults tip l2HeadHeight spentAnchor txid) := by
  refine (finds_setStore faults _ _).bind fun _ => (finds_setStore faults _ _).bind fun _ =>
    (finds_storeCall faults _).bind fun _ => ?_
  exact Action.Triple.bind (Q := fun _ _ => True) (.get fun _ _ => trivial) fun app' =>
    finds_setStore faults _ _

/-- An attestation ends for want of an anchor exactly where there is none. -/
theorem attestHead_anchorNotInitialised_iff {env : AttestEnv} {tip : UInt32} {app : AppState}
    (hfault : env.faults .getAnchor = none) :
    (attestHead env tip app).1 = .error (.error .anchorNotInitialised) ↔
      app.store.anchor = none := by
  have hcall : storeCall env.faults .getAnchor app = (.ok (), app) := by
    unfold storeCall
    rw [hfault]
    rfl
  unfold attestHead
  rw [Action.get_bind_run, Action.bind_run_ok hcall]
  cases hanchor : app.store.anchor with
  | none => exact iff_of_true rfl rfl
  | some anchor =>
      refine iff_of_false (fun herror => ?_) nofun
      cases hpost : env.post (Attestation.new app.shared.head.height app.shared.head.blockHash
          app.shared.head.stateRoot) anchor with
      | none =>
          simp only [hpost] at herror
          cases herror
      | some txid =>
          simp only [hpost] at herror
          have hfinds := finds_recordAttestation env.faults tip app.shared.head.height anchor
            txid app trivial
          rcases hrun : recordAttestation env.faults tip app.shared.head.height anchor txid app with
            ⟨r, app'⟩
          rw [hrun] at hfinds herror
          obtain rfl : r = .error (.error .anchorNotInitialised) := herror
          exact hfinds rfl

theorem ready_left :
    Ready prim l1GenesisHeight
      (left prim l1GenesisHeight env identity l1BlockHash anchor0 none) := by
  refine ⟨⟨genesisOf prim l1GenesisHeight env identity l1BlockHash anchor0, ledgerOf identity,
    l1GenesisHeight.toNat, anchor0, ?_, ?_, rfl, rfl, rfl, rfl, le_rfl, rfl⟩,
      fun env tip shared hfault => ?_⟩
  · simp [left, written, Store.getBlock, Store.insertBlock, Store.setL1Cursor,
      Store.setAnchor, genesisOf, genesis]
  · simp [left, written, Store.insertBlock, Store.setL1Cursor, Store.setAnchor, genesisOf, genesis]
  · intro herror
    cases (attestHead_anchorNotInitialised_iff hfault).mp herror

theorem not_ready_of_anchor {store : Store} (h : store.anchor = none) :
    ¬ Ready prim l1GenesisHeight store := by
  rintro ⟨⟨_, _, _, op, -, -, -, hanchor, -⟩, -⟩
  rw [h] at hanchor
  cases hanchor

/-- Once the identity is there, a start is `bootstrap` with it. -/
theorem start_run {store : Store} (h : seckey.isSome ∨ stop ≠ some .setSequencerSeckeyHex) :
    start prim stop l1GenesisHeight env ⟨seckey, store⟩
      = match bootstrap prim stop l1GenesisHeight env (seckey.getD env.keypair)
          ⟨some (seckey.getD env.keypair), store⟩ with
        | (.error e, disk) => (.error e, disk)
        | (.ok (state, head), disk) =>
          (.ok (Shared.new state head (seckey.getD env.keypair)), disk) := by
  have hload : loadOrCreateIdentity stop env ⟨seckey, store⟩
      = (.ok (seckey.getD env.keypair), ⟨some (seckey.getD env.keypair), store⟩) := by
    rw [loadOrCreateIdentity_run]
    cases seckey with
    | some kp => rfl
    | none => exact if_neg (h.resolve_left (by simp))
  unfold start
  rw [Action.bind_run_ok hload, Action.bind_run]
  rcases bootstrap prim stop l1GenesisHeight env (seckey.getD env.keypair)
    ⟨some (seckey.getD env.keypair), store⟩ with ⟨_ | r, disk⟩ <;> rfl

/-- What a first run leaves, where L1 answers and the identity is written. -/
theorem start_left (hhash : env.l1BlockHash = some l1BlockHash)
    (hanchor : env.anchor0 = some anchor0)
    (hkey : stop ≠ some .setSequencerSeckeyHex) : (start prim stop l1GenesisHeight env .empty).2
      = ⟨some env.keypair, left prim l1GenesisHeight env env.keypair l1BlockHash anchor0 stop⟩ := by
  obtain ⟨r, hrun, -⟩ := @bootstrap_empty prim l1GenesisHeight env stop env.keypair
    (some env.keypair) _ _ hhash hanchor hkey
  rw [Disk.empty, start_run (.inr hkey), Option.getD_none, hrun]
  cases r <;> rfl

/-- A start over an empty store that goes through is a whole first run. -/
theorem start_none_empty {shared : Shared} {disk : Disk}
    (h : start prim none l1GenesisHeight env ⟨seckey, .empty⟩ = (.ok shared, disk)) :
    Ready prim l1GenesisHeight disk.store := by
  rw [start_run (.inr (by simp))] at h
  by_cases hanswers : env.Answers
  · obtain ⟨l1BlockHash, hhash⟩ := Option.isSome_iff_exists.mp hanswers.1
    obtain ⟨anchor0, hanchor⟩ := Option.isSome_iff_exists.mp hanswers.2
    obtain ⟨r, hrun, hok⟩ := @bootstrap_empty prim l1GenesisHeight env none
      (seckey.getD env.keypair) (some (seckey.getD env.keypair)) _ _ hhash hanchor nofun
    obtain ⟨⟨state, head⟩, rfl⟩ := hok rfl
    simp only [hrun] at h
    rw [← (Prod.mk.inj h).2]
    exact ready_left
  · simp only [bootstrap_empty_of_not hanswers] at h
    cases h

theorem exists_start_none_empty (hanswers : env.Answers) (seckey : Option Keypair) : ∃ shared disk,
    start prim none l1GenesisHeight env ⟨seckey, .empty⟩ = (.ok shared, disk) := by
  obtain ⟨l1BlockHash, hhash⟩ := Option.isSome_iff_exists.mp hanswers.1
  obtain ⟨anchor0, hanchor⟩ := Option.isSome_iff_exists.mp hanswers.2
  obtain ⟨r, hrun, hok⟩ := @bootstrap_empty prim l1GenesisHeight env none
    (seckey.getD env.keypair) (some (seckey.getD env.keypair)) _ _ hhash hanchor nofun
  obtain ⟨⟨state, head⟩, rfl⟩ := hok rfl
  rw [start_run (.inr (by simp))]
  simp only [hrun]
  exact ⟨_, _, rfl⟩

theorem start_none_resumed {store : Store} {r : LedgerState × HeadInfo}
    (hresume : resume prim store = .ok (some r)) : ∃ shared,
    start prim none l1GenesisHeight env ⟨seckey, store⟩
      = (.ok shared, ⟨some (seckey.getD env.keypair), store⟩) := by
  rw [start_run (.inr (by simp))]
  simp only [bootstrap_resumed hresume]
  exact ⟨_, rfl⟩

/-- Starts that go through leave the store ready, and an L1 that answers lets them go through. -/
def Recovers (prim : Primitives) (l1GenesisHeight : UInt32) (disk : Disk) : Prop :=
  (∀ env shared disk', start prim none l1GenesisHeight env disk = (.ok shared, disk') →
    Ready prim l1GenesisHeight disk'.store) ∧
  ∀ env : Env, env.Answers →
    ∃ shared disk', start prim none l1GenesisHeight env disk = (.ok shared, disk')

theorem recovers_empty (seckey : Option Keypair) : Recovers prim l1GenesisHeight ⟨seckey, .empty⟩ :=
  ⟨fun _ _ _ => start_none_empty, fun _ hanswers => exists_start_none_empty hanswers seckey⟩

/-- A store to resume from stays as it is. -/
theorem recovers_resumed_iff {store : Store} {r : LedgerState × HeadInfo} (env : Env)
    (hresume : resume prim store = .ok (some r)) :
    Recovers prim l1GenesisHeight ⟨seckey, store⟩ ↔ Ready prim l1GenesisHeight store := by
  have hrun : ∀ env, ∃ shared, start prim none l1GenesisHeight env ⟨seckey, store⟩
      = (.ok shared, ⟨some (seckey.getD env.keypair), store⟩) := fun env =>
        start_none_resumed hresume
  constructor
  · rintro ⟨hready, -⟩
    obtain ⟨shared, hstart⟩ := hrun env
    exact hready env shared _ hstart
  · intro h
    refine ⟨fun env' shared disk hstart => ?_, fun env' _ => ?_⟩
    · obtain ⟨shared', hstart'⟩ := hrun env'
      rw [hstart'] at hstart
      rwa [← (Prod.mk.inj hstart).2]
    · obtain ⟨shared, hstart⟩ := hrun env'
      exact ⟨shared, _, hstart⟩

/-- **A first run can be finished exactly if it was not stopped between its last writes**: the
starts after it leave the block, its state, a cursor and the anchor, unless the block had been
written and the anchor had not. -/
theorem recovers_iff (stop : Option Write) (env : Env) :
    Recovers prim l1GenesisHeight (start prim stop l1GenesisHeight env .empty).2 ↔
      ¬ (env.Answers ∧ (stop = some .setL1Cursor ∨ stop = some .setAnchor)) := by
  by_cases hkey : stop = some .setSequencerSeckeyHex
  · subst hkey
    exact iff_of_true (recovers_empty none) (by simp)
  · by_cases hanswers : env.Answers
    · obtain ⟨l1BlockHash, hhash⟩ := Option.isSome_iff_exists.mp hanswers.1
      obtain ⟨anchor0, hanchor⟩ := Option.isSome_iff_exists.mp hanswers.2
      rw [start_left hhash hanchor hkey]
      by_cases hwrite : stop = some .writeBlockAndState
      · subst hwrite
        exact iff_of_true (recovers_empty _) (by simp)
      · rw [recovers_resumed_iff env (resume_left ⟨hkey, hwrite⟩)]
        rcases stop with _ | _ | _ | _ | _
        · exact iff_of_true ready_left (by simp)
        · exact absurd rfl hkey
        · exact absurd rfl hwrite
        · exact iff_of_false (not_ready_of_anchor rfl) (by simp [hanswers])
        · exact iff_of_false (not_ready_of_anchor rfl) (by simp [hanswers])
    · have hdisk : (start prim stop l1GenesisHeight env .empty).2 = ⟨some env.keypair, .empty⟩ := by
        rw [Disk.empty, start_run (.inr hkey), Option.getD_none, bootstrap_empty_of_not hanswers]
      rw [hdisk]
      exact iff_of_true (recovers_empty _) fun h => hanswers h.1

end

/-- **Cold starts, on both sides**: whatever L1 and the sequencer answer, a first run that the
process left can be finished exactly if the process did not stop, on the sequencer or on the node,
after the genesis block was written and before the anchor was. -/
theorem firstRun_recovers_iff (prim : Primitives) (l1GenesisHeight : UInt32) :
    (∀ stop env, Recovers prim l1GenesisHeight (start prim stop l1GenesisHeight env .empty).2 ↔
      ¬ (env.Answers ∧ (stop = some .setL1Cursor ∨ stop = some .setAnchor))) ∧
    (∀ stop served, Hodlchain.FirstRun.Recovers prim l1GenesisHeight
        (Hodlchain.FirstRun.start prim stop l1GenesisHeight served .empty).2 ↔
      ¬ (Hodlchain.FirstRun.Accepted prim l1GenesisHeight served ∧
        (stop = some .setL1Cursor ∨ stop = some .setAnchor))) :=
  ⟨recovers_iff, Hodlchain.FirstRun.recovers_iff⟩

/-! ### Stopped before the last write -/

def firstEnv : Env where
  keypair := sampleIdentity
  l1BlockHash := some H256.zero
  now := 0
  anchor0 := some ⟨⟨ByteArr.ofNat 32 9⟩, 1⟩

/-- The block that a node is then served. -/
def firstGenesis (prim : Primitives) : L2Block :=
  genesisOf prim 0 firstEnv sampleIdentity H256.zero ⟨⟨ByteArr.ofNat 32 9⟩, 1⟩

/-- Both daemons are stopped before `set_anchor`.  The next start of each resumes and goes through,
without an anchor, and from then on no attestation is made and none is followed. -/
theorem firstRun_stopped :
    let prim := Primitives.sample
    (∃ shared disk, start prim none 0 firstEnv (start prim (some .setAnchor) 0 firstEnv .empty).2
        = (.ok shared, disk) ∧ disk.store.anchor = none ∧
      ∀ (env : AttestEnv) tip, env.faults .getAnchor = none →
        (attestHead env tip ⟨shared, disk.store⟩).1 = .error (.error .anchorNotInitialised)) ∧
    ∃ r store, Hodlchain.FirstRun.start prim none 0 (some (firstGenesis prim))
        (Hodlchain.FirstRun.start prim (some .setAnchor) 0 (some (firstGenesis prim)) .empty).2
        = (.ok r, store) ∧ store.anchor = none ∧
      ∀ (env : Hodlchain.Env) (w : World), w.store = store → env.faults w.calls = none →
        (readAnchor env w).1 = .error (.error .anchorNotInitialised) := by
  intro prim
  clear_value prim
  constructor
  · rw [@start_left _ _ firstEnv _ H256.zero ⟨⟨ByteArr.ofNat 32 9⟩, 1⟩ rfl rfl (by simp)]
    obtain ⟨shared, hstart⟩ := @start_none_resumed prim 0 firstEnv (some sampleIdentity) _ _
      (@resume_left _ 0 firstEnv (some .setAnchor) _ _ _ ⟨by simp, by simp⟩)
    exact ⟨shared, _, hstart, rfl, fun env tip hfault =>
      (attestHead_anchorNotInitialised_iff hfault).mpr rfl⟩
  · have hcheck : Hodlchain.FirstRun.checkGenesis prim 0 (firstGenesis prim)
        = .ok (ledgerOf sampleIdentity, ⟨⟨ByteArr.ofNat 32 9⟩, 1⟩) :=
      Hodlchain.FirstRun.checkGenesis_ok_iff.mpr ⟨rfl, rfl, rfl, rfl, rfl⟩
    have hresume := @Hodlchain.FirstRun.resume_left prim 0 (firstGenesis prim)
      (ledgerOf sampleIdentity)
      ⟨⟨ByteArr.ofNat 32 9⟩, 1⟩ (some .setAnchor) (by simp)
    rw [Hodlchain.FirstRun.start_empty hcheck]
    refine ⟨_, _, Hodlchain.FirstRun.start_resumed hresume none, rfl, fun env w hstore hfault => ?_⟩
    rw [Hodlchain.FirstRun.readAnchor_run hfault, hstore]
    rfl

end Hodlchain.Sequencer.FirstRun
