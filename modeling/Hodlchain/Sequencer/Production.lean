/-
How a call of `produce_block` ends.

There are four ends: before the mempool is drained, with the ledger swapped and no
row written, with the rows written and the head left behind, and with everything in
place.  Every result about production is derived from this list.
-/
import Hodlchain.Sequencer.Body

namespace Hodlchain.Sequencer

section

variable (prim : Primitives)

/-- The transactions a call puts in its block. -/
def BlockEnv.body (env : BlockEnv) (app : AppState) : List L2Tx :=
  Sequencer.body prim env.view app.shared.state app.shared.mempool.mints
    app.shared.mempool.transfers

/-- The ledger after them. -/
def BlockEnv.nextState (env : BlockEnv) (app : AppState) : LedgerState :=
  app.shared.state.applyAll prim (env.body prim app)

/-- The block a call builds, under an L1 tip. -/
def BlockEnv.nextBlock (env : BlockEnv) (tip : UInt32 × H256) (app : AppState) : L2Block :=
  buildBlock prim env.now tip.1 tip.2 app.shared (env.nextState prim app) (env.body prim app)

/-- Drained, and with the new ledger in place. -/
def BlockEnv.swapped (env : BlockEnv) (app : AppState) : AppState :=
  (app.setMempool .empty).setState (env.nextState prim app)

/-- The store with the three rows of the block. -/
def BlockEnv.written (env : BlockEnv) (tip : UInt32 × H256) (app : AppState) : Store :=
  let block := env.nextBlock prim tip app
  app.store.insertBlock block (env.nextState prim app)
    (BlockWitness.build prim app.shared.state block.txs block.header.height)

/-- With the rows written too. -/
def BlockEnv.stored (env : BlockEnv) (tip : UInt32 × H256) (app : AppState) : AppState :=
  ⟨(env.swapped prim app).shared, env.written prim tip app⟩

/-- With the cursor and the head moved on. -/
def BlockEnv.finished (env : BlockEnv) (tip : UInt32 × H256) (app : AppState) : AppState :=
  AppState.setHead ⟨(env.swapped prim app).shared, (env.written prim tip app).setL1Cursor tip.1⟩
    (headOf prim (env.nextBlock prim tip app))

/-- The write of the block goes through: no fault, and no row at its height. -/
structure Writable (env : BlockEnv) (app : AppState) : Prop where
  call : env.faults .writeBlockAndState = none
  blocks : app.shared.head.height + 1 ∉ app.store.blocks
  stateSnapshots : app.shared.head.height + 1 ∉ app.store.stateSnapshots
  blockWitnesses : app.shared.head.height + 1 ∉ app.store.blockWitnesses

/-- How a call to the store is cut short. -/
def haltOf (site : StoreCall) : Fault → Halt
  | .fail => .error (.call site)
  | .stop => .stopped

inductive ProduceEnds (env : BlockEnv) (app : AppState) : Except Halt Unit → AppState → Prop
  | noTip {e : ProducerError} (htip : env.l1Tip = .error e) :
      ProduceEnds env app (.error (.error e)) app
  | unwritten {tip : UInt32 × H256} {halt : Halt} (htip : env.l1Tip = .ok tip)
      (hwrite : ¬ Writable env app)
      (hstop : halt = .stopped → env.faults .writeBlockAndState = some .stop) :
        ProduceEnds env app (.error halt) (env.swapped prim app)
  | behind {tip : UInt32 × H256} {f : Fault} (htip : env.l1Tip = .ok tip)
      (hwrite : Writable env app) (hcursor : env.faults .setL1Cursor = some f) :
      ProduceEnds env app (.error (haltOf .setL1Cursor f)) (env.stored prim tip app)
  | done {tip : UInt32 × H256} (htip : env.l1Tip = .ok tip) (hwrite : Writable env app)
      (hcursor : env.faults .setL1Cursor = none) :
      ProduceEnds env app (.ok ()) (env.finished prim tip app)

end

variable {prim : Primitives} {env : BlockEnv} {app app' : AppState} {r : Except Halt Unit}

@[simp] theorem swapped_store (env : BlockEnv) (app : AppState) :
    (env.swapped prim app).store = app.store := rfl

@[simp] theorem swapped_mempool (env : BlockEnv) (app : AppState) :
    (env.swapped prim app).shared.mempool = .empty := rfl

theorem storeCall_run (faults : StoreCall → Option Fault) (site : StoreCall) (app : AppState) :
    storeCall faults site app = match faults site with
      | none => (.ok (), app)
      | some f => (.error (haltOf site f), app) := by
  rw [storeCall]
  cases faults site with
  | none => rfl
  | some f => cases f <;> rfl

/-- The write of the block a call makes. -/
def writeNext (prim : Primitives) (env : BlockEnv) (tip : UInt32 × H256) (app : AppState) :
    Act Unit :=
  writeBlockAndState env.faults (env.nextBlock prim tip app)
    (BlockWitness.build prim app.shared.state (env.nextBlock prim tip app).txs
      (env.nextBlock prim tip app).header.height)

private theorem writeNext_cases (prim : Primitives) (env : BlockEnv) (tip : UInt32 × H256)
    (app : AppState) :
    (Writable env app ∧
      writeNext prim env tip app (env.swapped prim app) = (.ok (), env.stored prim tip app)) ∨
    (¬ Writable env app ∧ ∃ halt,
      (halt = .stopped → env.faults .writeBlockAndState = some .stop) ∧
      writeNext prim env tip app (env.swapped prim app) = (.error halt, env.swapped prim app)) := by
  have hcall := storeCall_run env.faults .writeBlockAndState (env.swapped prim app)
  rw [writeNext, writeBlockAndState]
  cases hfault : env.faults .writeBlockAndState with
  | some f =>
      rw [hfault] at hcall
      refine .inr ⟨fun h => ?_, haltOf .writeBlockAndState f, fun hstop => ?_,
        Action.bind_run_error hcall⟩
      · rw [h.call] at hfault
        cases hfault
      · cases f with
        | fail => cases hstop
        | stop => rfl
  | none =>
      rw [hfault] at hcall
      rw [Action.bind_run_ok hcall, Action.bind_run_ok (Action.get_run _)]
      cases hwrite : (env.swapped prim app).store.writeBlockAndState (env.nextBlock prim tip app)
          (env.swapped prim app).shared.state
          (BlockWitness.build prim app.shared.state (env.nextBlock prim tip app).txs
            (env.nextBlock prim tip app).header.height) with
      | ok store =>
          obtain ⟨⟨hb, hs, hw⟩, rfl⟩ := Store.writeBlockAndState_ok_iff.mp hwrite
          exact .inl ⟨⟨hfault, hb, hs, hw⟩, rfl⟩
      | error e =>
          refine .inr ⟨fun h => ?_, .error (.store e), nofun, rfl⟩
          have hfree : (env.nextBlock prim tip app).header.height ∉ app.store.blocks ∧
              (env.nextBlock prim tip app).header.height ∉ app.store.stateSnapshots ∧
              (env.nextBlock prim tip app).header.height ∉ app.store.blockWitnesses :=
            ⟨h.blocks, h.stateSnapshots, h.blockWitnesses⟩
          have hok := hwrite.symm.trans (Store.writeBlockAndState_ok_iff.mpr ⟨hfree, rfl⟩)
          cases hok

/-- Once the mempool is drained, a call is the write, the cursor and the head. -/
theorem produceBlock_run {tip : UInt32 × H256} (htip : env.l1Tip = .ok tip) :
    produceBlock prim env app = (writeNext prim env tip app >>= fun _ =>
      setStore env.faults .setL1Cursor (·.setL1Cursor tip.1) >>= fun _ =>
      Action.modify (·.setHead (headOf prim (env.nextBlock prim tip app))))
        (env.swapped prim app) := by
  simp only [produceBlock, htip, mapErr, Action.bind_run, Action.lift_run, Action.get_run,
    Mempool.drain, buildBody_eq, Action.modify_run]
  rfl

/-- The cursor after the write. -/
private theorem setCursor_run (tip : UInt32 × H256) :
    setStore env.faults .setL1Cursor (·.setL1Cursor tip.1) (env.stored prim tip app)
      = match env.faults .setL1Cursor with
        | none => (.ok (),
            ⟨(env.swapped prim app).shared, (env.written prim tip app).setL1Cursor tip.1⟩)
        | some f => (.error (haltOf .setL1Cursor f), env.stored prim tip app) := by
  simp only [setStore, Action.bind_run, storeCall_run]
  cases env.faults .setL1Cursor <;> rfl

theorem produceBlock_ends (h : produceBlock prim env app = (r, app')) :
    ProduceEnds prim env app r app' := by
  cases htip : env.l1Tip with
  | error e =>
      simp only [produceBlock, htip, mapErr, Action.bind_run, Action.lift_run] at h
      obtain ⟨rfl, rfl⟩ := Prod.mk.inj h
      exact .noTip htip
  | ok tip =>
      rw [produceBlock_run htip] at h
      rcases writeNext_cases prim env tip app with ⟨hwrite, heq⟩ | ⟨hwrite, halt, hstop, heq⟩
      · rw [Action.bind_run_ok heq] at h
        have hset := @setCursor_run prim env app tip
        cases hcursor : env.faults .setL1Cursor with
        | some f =>
            rw [hcursor] at hset
            rw [Action.bind_run_error hset] at h
            obtain ⟨rfl, rfl⟩ := Prod.mk.inj h
            exact .behind htip hwrite hcursor
        | none =>
            rw [hcursor] at hset
            rw [Action.bind_run_ok hset] at h
            obtain ⟨rfl, rfl⟩ := Prod.mk.inj h
            exact .done htip hwrite hcursor
      · rw [Action.bind_run_error heq] at h
        obtain ⟨rfl, rfl⟩ := Prod.mk.inj h
        exact .unwritten htip hwrite hstop

/-- A call that gets to the end. -/
theorem produceBlock_done {tip : UInt32 × H256} (htip : env.l1Tip = .ok tip)
    (hwrite : Writable env app) (hcursor : env.faults .setL1Cursor = none) :
    produceBlock prim env app = (.ok (), env.finished prim tip app) := by
  rcases hrun : produceBlock prim env app with ⟨r, app'⟩
  cases produceBlock_ends hrun with
  | noTip h =>
      rw [h] at htip
      cases htip
  | unwritten _ h => exact absurd hwrite h
  | behind _ _ h =>
      rw [h] at hcursor
      cases hcursor
  | done h =>
      rw [h] at htip
      cases htip
      rfl

end Hodlchain.Sequencer
