/-
Runs of a node.

Between two ticks a node does nothing, is stopped, or is started again from its
store.  A property of the node and of the batches it has been given holds along a
run when it survives one batch, one cursor move and one restart.
-/
import Mathlib.Logic.Relation
import Hodlchain.Node.Batch

namespace Hodlchain

section

variable {prim : Primitives}

/-! ### One block -/

/-- What it takes for a property of the node and its log to survive the batches of a block. -/
def BlockKeeps (prim : Primitives) (env : Env) (h : Nat) (I : NodeState → List Batch → Prop) :
    Prop :=
  ∀ {n log anchor adv r n' hits}, I n log → n.store.anchor = some anchor →
    scanBlockForChainAdvance env.chain h anchor = .ok (some adv) →
    AdvanceEnds prim (env.served log.length) adv n r n' hits →
    I n' (log ++ [⟨n, adv, env.served log.length⟩])

/-- **A property that survives a batch survives the inner loop**, and a loop that returns has found
no spend of the anchor it leaves. -/
theorem BlockKeeps.loop {env : Env} {h : Nat} {I : NodeState → List Batch → Prop}
    (hI : BlockKeeps prim env h I) : ∀ (fuel : Nat) {w w' : World} {r : Except Halt Unit},
      scanLoop prim env h fuel w = (r, w') → I w.toNodeState w.log →
      I w'.toNodeState w'.log ∧ (r = .ok () → ∃ anchor, w'.store.anchor = some anchor ∧
        scanBlockForChainAdvance env.chain h anchor = .ok none) := by
  intro fuel
  induction fuel with
  | zero =>
      intro w w' r hrun hw
      obtain ⟨rfl, rfl⟩ := Prod.mk.inj hrun
      exact ⟨hw, nofun⟩
  | succ fuel ih =>
      intro w w' r hrun hw
      rcases hfind : findAdvance env h w with ⟨found, w₁⟩
      obtain ⟨hits, hends, hnode, hbook⟩ := findAdvance_ends hfind
      have hw₁ : I w₁.toNodeState w₁.log := by rwa [hnode, hbook.log]
      cases found with
      | error halt =>
          rw [scanLoop_error hfind] at hrun
          obtain ⟨rfl, rfl⟩ := Prod.mk.inj hrun
          exact ⟨hw₁, nofun⟩
      | ok advance =>
          obtain ⟨anchor, hanchor, hscan⟩ : ∃ anchor, w.store.anchor = some anchor ∧
              scanBlockForChainAdvance env.chain h anchor = .ok advance := by
            cases hends with
            | found hanchor hscan => exact ⟨_, hanchor, hscan⟩
          cases advance with
          | none =>
              rw [scanLoop_none hfind] at hrun
              obtain ⟨rfl, rfl⟩ := Prod.mk.inj hrun
              exact ⟨hw₁, fun _ => ⟨anchor, by rw [hnode, hanchor], hscan⟩⟩
          | some adv =>
              rw [scanLoop_some hfind] at hrun
              rcases hadvance : processAdvance prim env adv w₁ with ⟨r₂, w₂⟩
              obtain ⟨hits₂, hends₂, hlog₂, -, -⟩ := processAdvance_ends hadvance
              have hw₂ : I w₂.toNodeState w₂.log := by
                rw [hlog₂]
                exact hI hw₁ (by rw [hnode, hanchor]) hscan hends₂
              cases r₂ with
              | ok _ =>
                  rw [Action.bind_run_ok hadvance] at hrun
                  exact ih hrun hw₂
              | error halt =>
                  rw [Action.bind_run_error hadvance] at hrun
                  obtain ⟨rfl, rfl⟩ := Prod.mk.inj hrun
                  exact ⟨hw₂, nofun⟩

/-! ### One tick -/

/-- What it takes for a property of the node and its log to survive a tick. -/
structure TickKeeps (prim : Primitives) (env : Env) (I : NodeState → List Batch → Prop) : Prop where
  cursor : ∀ {n log h}, I n log → I { n with store := n.store.setL1Cursor h } log
  advance : ∀ {n log h anchor adv r n' hits}, I n log → n.store.anchor = some anchor →
    scanBlockForChainAdvance env.chain h anchor = .ok (some adv) →
    AdvanceEnds prim (env.served log.length) adv n r n' hits →
    I n' (log ++ [⟨n, adv, env.served log.length⟩])

namespace TickKeeps

variable {env : Env} {I : NodeState → List Batch → Prop}

theorem heights (hI : TickKeeps prim env I) {fuel : Nat} :
    ∀ {n h : Nat} {w : World}, I w.toNodeState w.log →
      I (scanHeights prim env fuel n h w).2.toNodeState
        (scanHeights prim env fuel n h w).2.log := by
  intro n
  induction n with
  | zero => intro h w hw; exact hw
  | succ n ih =>
      intro h w hw
      rw [scanHeights]
      rcases hrun : scanLoop prim env h fuel w with ⟨r₁, w₁⟩
      have hblock : BlockKeeps prim env h I := hI.advance
      obtain ⟨hloop, -⟩ := hblock.loop fuel hrun hw
      cases r₁ with
      | error halt =>
          rw [Action.bind_run_error hrun]
          exact hloop
      | ok _ =>
          rw [Action.bind_run_ok hrun]
          rcases callModify_ends env .setL1Cursor
            (fun w => { w with store := w.store.setL1Cursor h }) w₁ with ⟨-, hset⟩ | ⟨f, -, hset⟩
          · rw [setL1Cursor, Action.bind_run_ok hset]
            exact ih (hI.cursor hloop)
          · rw [setL1Cursor, Action.bind_run_error hset]
            exact hloop

/-- **A property that survives a cursor move and a batch survives a tick.** -/
theorem tick (hI : TickKeeps prim env I) (fuel : Nat) {w : World} (hw : I w.toNodeState w.log) :
    I (tick prim env fuel w).2.toNodeState (tick prim env fuel w).2.log := by
  rcases tick_cases env fuel w with ⟨site, f, w₁, -, hrun, -, hnode, hbook⟩ | ⟨-, -, hrun⟩
  · rw [hrun]
    show I w₁.toNodeState w₁.log
    rwa [hnode, hbook.log]
  · rw [hrun]
    exact hI.heights hw

end TickKeeps

/-! ### Ticks and restarts -/

/-- L1 during a tick is a part of the chain, which is never reorganised. -/
def OnChain (chain : Chain) (env : Env) : Prop := env.chain <+: chain

variable (prim)

/-- From one point between ticks to the next, in one of the environments allowed. -/
inductive NodeStep (allowed : Env → Prop) (w : World) : World → Prop
  | tick {env : Env} {fuel : Nat} {r : Except Halt Unit} {w' : World} : allowed env →
      tick prim env fuel w = (r, w') → r ≠ .error .outOfFuel → r ≠ .error .stopped →
      NodeStep allowed w w'
  /-- The process is stopped during a tick and started again. -/
  | crash {env : Env} {fuel : Nat} {w' : World} {state : LedgerState} {head : HeadInfo} :
      allowed env → tick prim env fuel w = (.error .stopped, w') →
      resume prim w'.store = .ok (some (state, head)) →
      NodeStep allowed w { w' with state := state, head := head }
  | restart {state : LedgerState} {head : HeadInfo} :
      resume prim w.store = .ok (some (state, head)) →
      NodeStep allowed w { w with state := state, head := head }

/-- Any number of ticks and restarts. -/
abbrev NodeRun (allowed : Env → Prop) : World → World → Prop :=
  Relation.ReflTransGen (NodeStep prim allowed)

/-- What it takes for a property of the node and its log to hold along a run. -/
structure RunKeeps (allowed : Env → Prop) (I : NodeState → List Batch → Prop) : Prop where
  tick : ∀ {env}, allowed env → TickKeeps prim env I
  restart : ∀ {n log state head}, I n log → resume prim n.store = .ok (some (state, head)) →
    I { n with state := state, head := head } log

variable {prim}

theorem RunKeeps.run {allowed : Env → Prop} {I : NodeState → List Batch → Prop}
    (hI : RunKeeps prim allowed I) {w w' : World} (hw : I w.toNodeState w.log)
    (hrun : NodeRun prim allowed w w') : I w'.toNodeState w'.log := by
  induction hrun with
  | refl => exact hw
  | tail _ hstep ih =>
      cases hstep with
      | @tick env fuel r _ henv hrun _ _ =>
          have hkept := (hI.tick henv).tick fuel ih
          rwa [hrun] at hkept
      | @crash env fuel _ _ _ henv hrun hresume =>
          have hkept := (hI.tick henv).tick fuel ih
          rw [hrun] at hkept
          exact hI.restart hkept hresume
      | restart hresume => exact hI.restart ih hresume

/-- What a node resumes with is a row of its store. -/
theorem resume_eq_some_iff {store : NodeStore} {state : LedgerState} {head : HeadInfo} :
    resume prim store = .ok (some (state, head)) ↔ ∃ height block,
      store.loadLatestState = some (height, state) ∧ store.getBlock height = some block ∧
        head = headOf prim block := by
  unfold resume
  cases hload : store.loadLatestState with
  | none => simp
  | some row =>
      obtain ⟨height, state'⟩ := row
      cases hblock : store.getBlock height with
      | none =>
          simp only [hblock, Option.some.injEq, Prod.mk.injEq]
          constructor
          · intro h
            cases h
          · rintro ⟨_, block, ⟨rfl, -⟩, hblock', -⟩
            rw [hblock] at hblock'
            cases hblock'
      | some block =>
          simp only [hblock, Except.ok.injEq, Option.some.injEq, Prod.mk.injEq]
          constructor
          · rintro ⟨rfl, rfl⟩
            exact ⟨height, block, ⟨rfl, rfl⟩, hblock, rfl⟩
          · rintro ⟨height', block', ⟨rfl, rfl⟩, hblock', rfl⟩
            obtain rfl := Option.some.inj (hblock.symm.trans hblock')
            exact ⟨rfl, rfl⟩

end

end Hodlchain
