/-
What the sequencer has persisted, in any state it can be in.

Blocks and states fill the heights from zero to the latest, each block under its own
height, and the head is not above them.  A write that goes through therefore puts
the next row, and a new process finds a state with its block.
-/
import Hodlchain.Core.Supply
import Hodlchain.Sequencer.Mempool

namespace Hodlchain.Sequencer

/-- Rows at the heights up to `m`, and no others. -/
structure Rows (store : Store) (m : UInt32) : Prop where
  blocks : ∀ k, k ∈ store.blocks ↔ k ≤ m
  stateSnapshots : ∀ k, k ∈ store.stateSnapshots ↔ k ≤ m
  height : ∀ k block, store.getBlock k = some block → block.header.height = k

/-- The rows of a sequencer, whose head is not above them. -/
def Rowed (app : AppState) : Prop := ∃ m, Rows app.store m ∧ app.shared.head.height ≤ m

/-- What a restart finds: the latest state and its block. -/
structure Latest (store : Store) (state : LedgerState) (block : L2Block) : Prop where
  state : store.loadLatestState = some (block.header.height, state)
  block : store.getBlock block.header.height = some block

section

variable {store : Store} {m : UInt32}

theorem Rows.latest (h : Rows store m) : ∃ state block, Latest store state block ∧
    block.header.height = m := by
  obtain ⟨state, hstate⟩ := Option.isSome_iff_exists.mp
    (Std.ExtTreeMap.isSome_getElem?_iff_mem.mpr ((h.stateSnapshots m).mpr (UInt32.le_refl m)))
  obtain ⟨block, hblock⟩ := Option.isSome_iff_exists.mp
    (Std.ExtTreeMap.isSome_getElem?_iff_mem.mpr ((h.blocks m).mpr (UInt32.le_refl m)))
  have hheight := h.height m block hblock
  refine ⟨state, block, ⟨?_, by rw [hheight]; exact hblock⟩, hheight⟩
  rw [hheight]
  refine lastRow?_eq_some_iff.mpr ⟨hstate, fun k hk => ?_⟩
  exact Std.isLE_compare.mpr ((h.stateSnapshots k).mp hk)

theorem Rows.congr {store' : Store} (h : Rows store m) (hblocks : store'.blocks = store.blocks)
    (hsnapshots : store'.stateSnapshots = store.stateSnapshots) : Rows store' m := by
  refine ⟨fun k => by rw [hblocks]; exact h.blocks k, fun k => by
    rw [hsnapshots]; exact h.stateSnapshots k, fun k block hblock => h.height k block ?_⟩
  rw [Store.getBlock, hblocks] at hblock
  exact hblock

/-- A head whose next height is free is the latest row's, and is not the greatest height. -/
theorem Rows.gap (h : Rows store m) {head : UInt32} (hle : head ≤ m)
    (hfree : head + 1 ∉ store.blocks) :
    head = m ∧ (head + 1).toNat = head.toNat + 1 := by
  have habove : ¬ head + 1 ≤ m := fun hnext => hfree ((h.blocks _).mpr hnext)
  rw [UInt32.le_iff_toNat_le] at habove hle
  have hone : (1 : UInt32).toNat = 1 := rfl
  have hmlt := m.toNat_lt
  rw [UInt32.toNat_add, hone] at habove ⊢
  refine ⟨UInt32.toNat_inj.mp ?_, ?_⟩ <;> omega

theorem Rows.insertBlock (h : Rows store m) {block : L2Block} {state : LedgerState}
    {witness : BlockWitness} (hnext : block.header.height.toNat = m.toNat + 1) :
    Rows (store.insertBlock block state witness) block.header.height := by
  have hrow : ∀ k : UInt32, (block.header.height = k ∨ k ≤ m) ↔ k ≤ block.header.height := by
    intro k
    rw [UInt32.le_iff_toNat_le, UInt32.le_iff_toNat_le, ← UInt32.toNat_inj]
    omega
  refine ⟨fun k => ?_, fun k => ?_, fun k block' hblock => ?_⟩
  · rw [Store.insertBlock, Std.ExtTreeMap.mem_insert, Std.compare_eq_iff_eq, h.blocks, hrow]
  · rw [Store.insertBlock, Std.ExtTreeMap.mem_insert, Std.compare_eq_iff_eq, h.stateSnapshots, hrow]
  · rw [Store.getBlock, Store.insertBlock, Std.ExtTreeMap.getElem?_insert] at hblock
    split_ifs at hblock with hk
    · rw [← Option.some.inj hblock]
      exact Std.compare_eq_iff_eq.mp hk
    · exact h.height k block' hblock

/-- A row put above the others is the latest. -/
theorem Rows.latest_insertBlock (h : Rows store m) {block : L2Block} {state : LedgerState}
    {witness : BlockWitness} (hnext : block.header.height.toNat = m.toNat + 1) :
    Latest (store.insertBlock block state witness) state block := by
  refine ⟨lastRow?_insert fun k hk => ?_, ?_⟩
  · have hk := (h.stateSnapshots k).mp hk
    rw [Std.isLE_compare, UInt32.le_iff_toNat_le]
    rw [UInt32.le_iff_toNat_le] at hk
    omega
  · rw [Store.getBlock, Store.insertBlock, Std.ExtTreeMap.getElem?_insert]
    simp

end

section

variable {prim : Primitives} {app app' : AppState} {env : BlockEnv} {tip : UInt32 × H256}
  {r : Except Halt Unit}

theorem resume_eq_some_iff {store : Store} {state : LedgerState} {head : HeadInfo} :
    resume prim store = .ok (some (state, head)) ↔ ∃ height block,
      store.loadLatestState = some (height, state) ∧ store.getBlock height = some block ∧
        head = headOf prim block := by
  unfold resume
  cases hload : store.loadLatestState with
  | none => simp
  | some row =>
      obtain ⟨height, state'⟩ := row
      cases hblock : store.getBlock height with
      | none =>
          simp only [hblock, Option.some.injEq, Prod.mk.injEq]
          refine ⟨nofun, ?_⟩
          rintro ⟨_, block, ⟨rfl, -⟩, hblock', -⟩
          rw [hblock] at hblock'
          cases hblock'
      | some block =>
          simp only [hblock, Except.ok.injEq, Option.some.injEq, Prod.mk.injEq]
          constructor
          · rintro ⟨rfl, rfl⟩
            exact ⟨height, block, ⟨rfl, rfl⟩, hblock, rfl⟩
          · rintro ⟨height', block', ⟨rfl, rfl⟩, hblock', rfl⟩
            obtain rfl := Option.some.inj (hblock.symm.trans hblock')
            exact ⟨rfl, rfl⟩

theorem Latest.resume {store : Store} {state : LedgerState} {block : L2Block}
    (h : Latest store state block) :
    resume prim store = .ok (some (state, headOf prim block)) :=
  resume_eq_some_iff.mpr ⟨_, block, h.state, h.block, rfl⟩

/-- What a restart starts with. -/
theorem restart_eq_some_iff : restart prim app = some app' ↔ ∃ state head,
    resume prim app.store = .ok (some (state, head)) ∧
      app' = ⟨Shared.new state head app.shared.identity, app.store⟩ := by
  unfold restart
  constructor
  · intro h
    split at h
    · next state head hresume => exact ⟨state, head, hresume, (Option.some.inj h).symm⟩
    · cases h
  · rintro ⟨state, head, hresume, rfl⟩
    rw [hresume]

/-- A write that goes through puts the next row. -/
theorem Rowed.next (h : Rowed app) (hwrite : Writable env app) :
    Rows app.store app.shared.head.height ∧
      (env.nextBlock prim tip app).header.height.toNat = app.shared.head.height.toNat + 1 := by
  obtain ⟨m, hrows, hle⟩ := h
  obtain ⟨rfl, hnext⟩ := hrows.gap hle hwrite.blocks
  exact ⟨hrows, hnext⟩

theorem Rowed.written (h : Rowed app) (hwrite : Writable env app) :
    Rows (env.written prim tip app) (env.nextBlock prim tip app).header.height ∧
      Latest (env.written prim tip app) (env.nextState prim app) (env.nextBlock prim tip app) := by
  obtain ⟨hrows, hnext⟩ := @Rowed.next prim _ _ tip h hwrite
  exact ⟨hrows.insertBlock hnext, hrows.latest_insertBlock hnext⟩

/-- However a call of `produce_block` ends, the rows stay in order. -/
theorem ProduceEnds.rowed (hend : ProduceEnds prim env app r app') (h : Rowed app) :
    Rowed app' := by
  cases hend with
  | noTip => exact h
  | unwritten =>
      obtain ⟨m, hrows, hle⟩ := h
      exact ⟨m, hrows, hle⟩
  | @behind tip f _ hwrite _ =>
      have hnext := (@Rowed.next prim _ _ tip h hwrite).2
      refine ⟨_, (h.written hwrite).1, ?_⟩
      rw [UInt32.le_iff_toNat_le, hnext]
      exact Nat.le_succ _
  | @done tip _ hwrite _ => exact ⟨_, (h.written hwrite).1.congr rfl rfl, UInt32.le_refl _⟩

theorem Rowed.restart (h : Rowed app) (hrestart : restart prim app = some app') : Rowed app' := by
  obtain ⟨state, head, hresume, rfl⟩ := restart_eq_some_iff.mp hrestart
  obtain ⟨m, hrows, -⟩ := h
  obtain ⟨state', block, hlatest, hm⟩ := hrows.latest
  rw [hlatest.resume] at hresume
  cases hresume
  exact ⟨m, hrows, by rw [← hm]; exact UInt32.le_refl _⟩

theorem coldStart_latest {identity : Keypair} {l1BlockHash : H256} {l1GenesisHeight : UInt32}
    {now : UInt64} {anchor0 : OutPoint}
    (h : coldStart prim identity l1BlockHash l1GenesisHeight now anchor0 .empty = .ok app) :
    ∃ block, Rows app.store 0 ∧ Latest app.store app.shared.state block ∧
      app.shared.head = headOf prim block ∧ app.shared.mempool = .empty := by
  simp only [coldStart, bind_ok_iff, Store.writeBlockAndState_ok_iff, pure_ok_iff] at h
  obtain ⟨store, ⟨-, rfl⟩, rfl⟩ := h
  have hempty : ∀ {β : Type} {v : β} (k : UInt32),
      k ∈ (∅ : Std.ExtTreeMap UInt32 β).insert 0 v ↔ k ≤ 0 := by
    intro β v k
    rw [Std.ExtTreeMap.mem_insert, Std.compare_eq_iff_eq, UInt32.le_zero_iff]
    simp [eq_comm]
  refine ⟨_, ⟨hempty, hempty, fun k block hblock => ?_⟩, ⟨lastRow?_insert fun k hk => ?_, ?_⟩, rfl,
    rfl⟩
  · simp only [Store.getBlock, Store.setAnchor, Store.setL1Cursor, Store.insertBlock,
      Store.empty, Std.ExtTreeMap.getElem?_insert] at hblock
    split_ifs at hblock with hk
    · rw [← Option.some.inj hblock]
      exact Std.compare_eq_iff_eq.mp hk
    · simp at hblock
  · simp [Store.empty] at hk
  · simp [Store.getBlock, Store.setAnchor, Store.setL1Cursor, Store.insertBlock]

/-- An identity to evaluate with. -/
def sampleIdentity : Keypair := ⟨⟨ByteArr.ofNat 32 9⟩, fun _ => ⟨ByteArr.ofNat 64 0⟩⟩

/-- A new store can be started from. -/
theorem exists_coldStart (prim : Primitives) (identity : Keypair) (l1BlockHash : H256)
    (l1GenesisHeight : UInt32) (now : UInt64) (anchor0 : OutPoint) : ∃ app,
    coldStart prim identity l1BlockHash l1GenesisHeight now anchor0 .empty = .ok app := by
  simp only [coldStart, bind_ok_iff, Store.writeBlockAndState_ok_iff, pure_ok_iff]
  exact ⟨_, _, ⟨⟨Std.ExtTreeMap.not_mem_empty, Std.ExtTreeMap.not_mem_empty,
    Std.ExtTreeMap.not_mem_empty⟩, rfl⟩, rfl⟩

/-- What it then holds: a block without transactions. -/
theorem exists_started (prim : Primitives) (identity : Keypair) : ∃ app, Started prim app ∧
    app.shared.state = LedgerState.start (some identity.xOnlyPublicKey) ∧
    app.shared.mempool = .empty ∧
    resume prim app.store = .ok (some (app.shared.state, app.shared.head)) ∧
    ∀ height block, app.store.getBlock height = some block → block.txs = [] := by
  obtain ⟨app, happ⟩ :=
    exists_coldStart prim identity H256.zero 0 0 ⟨⟨ByteArr.ofNat 32 0⟩, 0⟩
  obtain ⟨first, -, hlatest, hhead, hmempool⟩ := coldStart_latest happ
  have hfields := happ
  simp only [coldStart, bind_ok_iff, Store.writeBlockAndState_ok_iff, pure_ok_iff] at hfields
  obtain ⟨store, ⟨-, rfl⟩, rfl⟩ := hfields
  refine ⟨_, ⟨identity, _, _, _, _, happ⟩, rfl, rfl, by rw [hhead]; exact hlatest.resume,
    fun height block hblock => ?_⟩
  simp only [Store.getBlock, Store.setAnchor, Store.setL1Cursor, Store.insertBlock, Store.empty,
    Std.ExtTreeMap.getElem?_insert] at hblock
  split_ifs at hblock
  · rw [← Option.some.inj hblock]
    rfl
  · simp at hblock

theorem Started.rowed (h : Started prim app) : Rowed app := by
  obtain ⟨identity, l1BlockHash, l1GenesisHeight, now, anchor0, hstart⟩ := h
  obtain ⟨block, hrows, hlatest, hhead, -⟩ := coldStart_latest hstart
  refine ⟨0, hrows, ?_⟩
  rw [hhead]
  exact (hrows.blocks _).mp (Std.ExtTreeMap.mem_iff_isSome_getElem?.mpr
    (Option.isSome_iff_exists.mpr ⟨block, hlatest.block⟩))

/-- **The rows are in order**, in every state the sequencer can be in. -/
theorem rowed_of_reachable (h : Reachable prim app) : Rowed app := by
  refine StepKeeps.reachable (P := Rowed) (I := Rowed) ?_ (fun _ => Started.rowed) h
  have hcore : ∀ {app app'}, SameCore app app' → Rowed app → Rowed app' := by
    rintro app app' hsame ⟨m, hrows, hle⟩
    exact ⟨m, hrows.congr hsame.blocks hsame.stateSnapshots, by rw [hsame.shared]; exact hle⟩
  refine ⟨hcore, hcore, id, ?_, ?_, fun _ _ hrun happ => ?_, Rowed.restart⟩
  · intro app l1 now proof l2Destination _ happ
    exact submitMint_keeps (fun _ h => h) l1 now proof l2Destination happ
  · intro app now transfer _ happ
    exact submitTransfer_keeps (fun _ h => h) now transfer happ
  · have hrowed := (produceBlock_ends hrun).rowed happ
    exact ⟨hrowed, fun _ => hrowed⟩

end

end Hodlchain.Sequencer
