/-
What a batch does to a node.

`OneEnds`, `RangeEnds` and `AdvanceEnds` list every way in which one block of a
batch, the loop over the batch, and the call of `process_advance` around it can end:
the result, the node they leave, and the calls that did not succeed.  The lemmas
`*_ends` say that the lists are complete.  They are the only place where these three
functions are unfolded, so what is proved about a run below follows from the lists.
-/
import Hodlchain.Node.Follower

namespace Hodlchain

section

variable (prim : Primitives)

/-! ### One block -/

/-- The block a batch accepts next, when it accepts one, and what accepting it leads to. -/
def acceptNext (served : Served) (att : Attestation) (n : NodeState) :
    Option (L2Block × Accepted) :=
  let height := n.head.height + 1
  match served.block height with
  | none => none
  | some block =>
      match checkL2Block prim (served.view height) n.state n.head height
          (endAttestation att height) block with
      | .ok next => some (block, next)
      | .error _ => none

/-- At a height the block is the one that another serves, and its mints pass where they do there. -/
def Served.Admits (served other : Served) (height : UInt32) : Prop :=
  served.block height = other.block height ∧ ∀ block, other.block height = some block →
    verifyMints prim (other.view height) block.txs = .ok () →
    verifyMints prim (served.view height) block.txs = .ok ()

/-- A block written, with the state after it. -/
def NodeState.accept (n : NodeState) (block : L2Block) (next : Accepted) : NodeState :=
  ⟨n.store.insertBlock block next.state next.witness, next.state, next.head⟩

/-- A block applied in memory only, as it is when the write has not succeeded. -/
def NodeState.ahead (n : NodeState) (next : Accepted) : NodeState := { n with state := next.state }

/-- The store takes a block. -/
def NodeStore.Takes (s : NodeStore) (block : L2Block) (next : Accepted) : Prop :=
  s.writeBlockAndState block next.state next.witness
    = .ok (s.insertBlock block next.state next.witness)

/-- How `apply_one_l2_block` ends at the next height. -/
inductive OneEnds (served : Served) (att : Attestation) (n : NodeState) :
    Except Halt Unit → NodeState → List (CallSite × Fault) → Prop
  | fetchHit (f : Fault) : OneEnds served att n (.error (f.halt .getBlock)) n [(.getBlock, f)]
  | refused {e : FollowerError} : acceptNext prim served att n = none →
      OneEnds served att n (.error (.error e)) n []
  | writeHit {block : L2Block} {next : Accepted} (f : Fault) :
      acceptNext prim served att n = some (block, next) →
      OneEnds served att n (.error (f.halt (.writeBlockAndState block))) (n.ahead next)
        [(.writeBlockAndState block, f)]
  | writeRefused {block : L2Block} {next : Accepted} {e : StoreError} :
      acceptNext prim served att n = some (block, next) →
      n.store.writeBlockAndState block next.state next.witness = .error e →
      OneEnds served att n (.error (.error (.store e))) (n.ahead next) []
  | accepted {block : L2Block} {next : Accepted} :
      acceptNext prim served att n = some (block, next) → n.store.Takes block next →
      OneEnds served att n (.ok ()) (n.accept block next) []

/-- What a computation did besides changing the node. -/
structure Bookkept (w w' : World) (hits : List (CallSite × Fault)) : Prop where
  log : w'.log = w.log
  calls : w.calls ≤ w'.calls
  hits : w'.hits = w.hits ++ hits

variable {prim}

theorem callSite_ends (env : Env) (site : CallSite) (w : World) :
    env.faults w.calls = none ∧ callSite env site w = (.ok (), { w with calls := w.calls + 1 }) ∨
      ∃ f, env.faults w.calls = some f ∧ callSite env site w = (.error (f.halt site),
        { w with calls := w.calls + 1, hits := w.hits ++ [(site, f)] }) := by
  unfold callSite
  cases h : env.faults w.calls with
  | none => exact Or.inl ⟨rfl, rfl⟩
  | some f => exact Or.inr ⟨f, rfl, rfl⟩

/-- A call that changes the world when it goes through. -/
theorem callModify_ends (env : Env) (site : CallSite) (g : World → World) (w : World) :
    env.faults w.calls = none ∧
        (callSite env site >>= fun _ => Action.modify g) w
          = (.ok (), g { w with calls := w.calls + 1 }) ∨
      ∃ f, env.faults w.calls = some f ∧
        (callSite env site >>= fun _ => Action.modify g) w = (.error (f.halt site),
          { w with calls := w.calls + 1, hits := w.hits ++ [(site, f)] }) := by
  rcases callSite_ends env site w with ⟨hnone, hcall⟩ | ⟨f, hsome, hcall⟩
  · exact Or.inl ⟨hnone, by rw [Action.bind_run_ok hcall, Action.modify_run]⟩
  · exact Or.inr ⟨f, hsome, by rw [Action.bind_run_error hcall]⟩

theorem applyOneL2Block_ends {env : Env} {served : Served} {att : Attestation} {w w' : World}
    {r : Except Halt Unit} (h : applyOneL2Block prim env served (w.head.height + 1)
      (endAttestation att (w.head.height + 1)) w = (r, w')) :
    ∃ hits, OneEnds prim served att w.toNodeState r w'.toNodeState hits ∧ Bookkept w w' hits := by
  unfold applyOneL2Block fetchBlock at h
  rcases callSite_ends env .getBlock w with ⟨-, hcall⟩ | ⟨f, -, hcall⟩
  · rw [Action.bind_run, Action.bind_run_ok hcall] at h
    cases hserved : served.block (w.head.height + 1) with
    | none =>
        rw [hserved] at h
        obtain ⟨rfl, rfl⟩ := Prod.mk.inj h
        refine ⟨[], .refused ?_, rfl, by simp, by simp⟩
        simp only [acceptNext, hserved]
    | some block =>
        rw [hserved] at h
        simp only [Action.pure_run, Action.bind_run, Action.get_run, Action.lift_run] at h
        cases hcheck : checkL2Block prim (served.view (w.head.height + 1)) w.state w.head
            (w.head.height + 1) (endAttestation att (w.head.height + 1)) block with
        | error e =>
            rw [hcheck] at h
            obtain ⟨rfl, rfl⟩ := Prod.mk.inj h
            refine ⟨[], .refused ?_, rfl, by simp, by simp⟩
            simp only [acceptNext, hserved, hcheck]
        | ok next =>
            have haccept : acceptNext prim served att w.toNodeState = some (block, next) := by
              simp only [acceptNext, hserved, hcheck]
            rw [hcheck] at h
            simp only [mapErr, Action.modify_run, writeBlockAndState] at h
            rcases callSite_ends env (.writeBlockAndState block)
              { w with calls := w.calls + 1, state := next.state } with ⟨-, hwrite⟩ | ⟨f, -, hwrite⟩
            · rw [Action.bind_run_ok hwrite] at h
              simp only [Action.bind_run, Action.get_run] at h
              cases hstore : w.store.writeBlockAndState block next.state next.witness with
              | error e =>
                  rw [hstore] at h
                  obtain ⟨rfl, rfl⟩ := Prod.mk.inj h
                  exact ⟨[], .writeRefused haccept hstore, rfl, Nat.le_add_right _ 2, by simp⟩
              | ok store =>
                  obtain rfl := (NodeStore.writeBlockAndState_ok_iff.mp hstore).2
                  rw [hstore] at h
                  obtain ⟨rfl, rfl⟩ := Prod.mk.inj h
                  exact ⟨[], .accepted haccept hstore, rfl, Nat.le_add_right _ 2, by simp⟩
            · rw [Action.bind_run_error hwrite] at h
              obtain ⟨rfl, rfl⟩ := Prod.mk.inj h
              exact ⟨_, .writeHit f haccept, rfl, Nat.le_add_right _ 2, rfl⟩
  · rw [Action.bind_run, Action.bind_run_error hcall] at h
    obtain ⟨rfl, rfl⟩ := Prod.mk.inj h
    exact ⟨_, .fetchHit f, rfl, by simp, rfl⟩

theorem validateBlock_ok_iff {block : L2Block} {att : Attestation} :
    validateBlock prim block att = .ok () ↔
      block.header.height = att.height ∧ block.hash prim = att.l2BlockHash ∧
        block.header.stateRoot = att.stateRoot ∧
        computeTxsRoot prim block.txs = block.header.txsRoot := by
  unfold validateBlock
  split_ifs with hheight hhash hroot htxs <;> simp_all

/-- What the checks of `apply_one_l2_block` establish. -/
theorem checkL2Block_ok_iff {view : L1View} {state : LedgerState} {head : HeadInfo}
    {height : UInt32} {att : Option Attestation} {block : L2Block} {next : Accepted} :
    checkL2Block prim view state head height att block = .ok next ↔
      block.header.height = height ∧ validateEnd prim block att = .ok () ∧
      verifyMints prim view block.txs = .ok () ∧ state.replay prim block.txs = .ok next.state ∧
      next.state.stateRoot prim = block.header.stateRoot ∧
      block.header.prevHash = head.blockHash ∧
      next.head = ⟨height, block.hash prim, block.header.stateRoot, block.header.l1Height⟩ ∧
      next.witness = BlockWitness.build prim state block.txs height := by
  obtain ⟨state', head', witness'⟩ := next
  simp only [checkL2Block, bind_ok_iff, ensure_ok_iff, mapErr_ok_iff, pure_ok_iff,
    Accepted.mk.injEq]
  constructor
  · rintro ⟨_, hheight, _, hend, _, hmints, s, hreplay, _, hroot, _, hprev, rfl, rfl, rfl⟩
    exact ⟨hheight, hend, hmints, hreplay, hroot, hprev, rfl, rfl⟩
  · rintro ⟨hheight, hend, hmints, hreplay, hroot, hprev, rfl, rfl⟩
    exact ⟨(), hheight, (), hend, (), hmints, state', hreplay, (), hroot, (), hprev, rfl, rfl, rfl⟩

/-- A block is accepted next exactly when it was served and passes the checks. -/
theorem acceptNext_some_iff {served : Served} {att : Attestation} {n : NodeState}
    {block : L2Block} {next : Accepted} :
    acceptNext prim served att n = some (block, next) ↔
      served.block (n.head.height + 1) = some block ∧
      checkL2Block prim (served.view (n.head.height + 1)) n.state n.head (n.head.height + 1)
        (endAttestation att (n.head.height + 1)) block = .ok next := by
  cases hserved : served.block (n.head.height + 1) with
  | none => simp [acceptNext, hserved]
  | some b =>
      simp only [acceptNext, hserved, Option.some.injEq]
      constructor
      · intro h
        split at h
        · rename_i next' hcheck
          obtain ⟨rfl, rfl⟩ := Prod.mk.inj (Option.some.inj h)
          exact ⟨rfl, hcheck⟩
        · cases h
      · rintro ⟨rfl, hcheck⟩
        rw [hcheck]

/-- What another has accepted next is accepted. -/
theorem Served.Admits.acceptNext {served other : Served} {att : Attestation} {n : NodeState}
    {block : L2Block} {next : Accepted} (h : served.Admits prim other (n.head.height + 1))
    (haccept : acceptNext prim other att n = some (block, next)) :
    acceptNext prim served att n = some (block, next) := by
  obtain ⟨hserved, hcheck⟩ := acceptNext_some_iff.mp haccept
  obtain ⟨hblock, hmints⟩ := h
  obtain ⟨hheight, hend, hpass, hrest⟩ := checkL2Block_ok_iff.mp hcheck
  refine acceptNext_some_iff.mpr ⟨hblock.trans hserved, checkL2Block_ok_iff.mpr ?_⟩
  exact ⟨hheight, hend, hmints block hserved hpass, hrest⟩

/-- A block that is accepted is the next one, and becomes the head. -/
theorem acceptNext_head {served : Served} {att : Attestation} {n : NodeState} {block : L2Block}
    {next : Accepted} (h : acceptNext prim served att n = some (block, next)) :
    block.header.height = n.head.height + 1 ∧ block.header.prevHash = n.head.blockHash ∧
      next.head = headOf prim block := by
  obtain ⟨hheight, -, -, -, -, hprev, hhead, -⟩ :=
    checkL2Block_ok_iff.mp (acceptNext_some_iff.mp h).2
  refine ⟨hheight, hprev, ?_⟩
  rw [hhead, headOf, hheight]

theorem accept_height {served : Served} {att : Attestation} {n : NodeState} {block : L2Block}
    {next : Accepted} (h : acceptNext prim served att n = some (block, next)) :
    (n.accept block next).head.height = n.head.height + 1 := by
  obtain ⟨hheight, -, hhead⟩ := acceptNext_head h
  show next.head.height = _
  rw [hhead]
  exact hheight

/-! ### The blocks of a batch -/

variable (prim)

/-- How the loop over `k` heights of a batch ends. -/
inductive RangeEnds (served : Served) (att : Attestation) : Nat → NodeState →
    Except Halt Unit → NodeState → List (CallSite × Fault) → Prop
  | done {n : NodeState} : RangeEnds served att 0 n (.ok ()) n []
  | halted {k : Nat} {n n' : NodeState} {halt : Halt} {hits : List (CallSite × Fault)} :
      OneEnds prim served att n (.error halt) n' hits →
      RangeEnds served att (k + 1) n (.error halt) n' hits
  | more {k : Nat} {n n' : NodeState} {r : Except Halt Unit} {hits : List (CallSite × Fault)}
      {block : L2Block} {next : Accepted} :
      acceptNext prim served att n = some (block, next) → n.store.Takes block next →
      RangeEnds served att k (n.accept block next) r n' hits →
      RangeEnds served att (k + 1) n r n' hits

variable {prim}

theorem applyRange_ends {env : Env} {served : Served} {att : Attestation} :
    ∀ {k : Nat} (w : World) {w' : World} {r : Except Halt Unit},
      applyRange prim env served att k (w.head.height + 1) w = (r, w') →
      ∃ hits, RangeEnds prim served att k w.toNodeState r w'.toNodeState hits
        ∧ Bookkept w w' hits := by
  intro k
  induction k with
  | zero =>
      intro w w' r h
      obtain ⟨rfl, rfl⟩ := Prod.mk.inj h
      exact ⟨[], .done, rfl, Nat.le_refl _, by simp⟩
  | succ k ih =>
      intro w w' r h
      unfold applyRange at h
      rcases Action.bind_run_cases (applyOneL2Block prim env served (w.head.height + 1)
          (endAttestation att (w.head.height + 1)))
          (fun _ => applyRange prim env served att k (w.head.height + 1 + 1)) w
        with ⟨halt, w₁, hone, hrun⟩ | ⟨_, w₁, hone, hrun⟩
      · rw [hrun] at h
        obtain ⟨rfl, rfl⟩ := Prod.mk.inj h
        obtain ⟨hits, hends, hbook⟩ := applyOneL2Block_ends hone
        exact ⟨hits, .halted hends, hbook⟩
      · rw [hrun] at h
        obtain ⟨hits, hends, hbook⟩ := applyOneL2Block_ends hone
        generalize hn : w₁.toNodeState = n₁ at hends
        cases hends with
        | accepted haccept htakes =>
            have hheight : w₁.head.height = w.head.height + 1 := by
              rw [show w₁.head = _ from congrArg NodeState.head hn]
              exact accept_height haccept
            rw [← hheight] at h
            obtain ⟨hits', hrest, hbook'⟩ := ih w₁ h
            refine ⟨hits', .more haccept htakes ?_, ?_⟩
            · rw [← hn]
              exact hrest
            · exact ⟨hbook'.log.trans hbook.log, Nat.le_trans hbook.calls hbook'.calls, by
                rw [hbook'.hits, hbook.hits, List.append_nil]⟩

/-- A range that ends well meets no fault. -/
theorem RangeEnds.ok_hits {served : Served} {att : Attestation} {k : Nat} {n n' : NodeState}
    {r : Except Halt Unit} {hits : List (CallSite × Fault)}
    (h : RangeEnds prim served att k n r n' hits) (hr : r = .ok ()) : hits = [] := by
  induction h with
  | done => rfl
  | halted _ => cases hr
  | more _ _ _ ih => exact ih hr

/-- What a range leaves alone, however it ends. -/
theorem RangeEnds.frame {served : Served} {att : Attestation} {k : Nat} {n n' : NodeState}
    {r : Except Halt Unit} {hits : List (CallSite × Fault)}
    (h : RangeEnds prim served att k n r n' hits) :
    n'.store.anchor = n.store.anchor ∧ n'.store.l1Cursor = n.store.l1Cursor ∧
      n'.store.anchorSpends = n.store.anchorSpends := by
  induction h with
  | done => exact ⟨rfl, rfl, rfl⟩
  | halted hone => cases hone <;> exact ⟨rfl, rfl, rfl⟩
  | more _ _ _ ih => exact ih

/-- A range that ends well ends at its last height. -/
theorem RangeEnds.ok_height {served : Served} {att : Attestation} {k : Nat} {n n' : NodeState}
    {r : Except Halt Unit} {hits : List (CallSite × Fault)}
    (h : RangeEnds prim served att k n r n' hits) (hr : r = .ok ())
    (hk : n.head.height.toNat + k < 2 ^ 32) :
    n'.head.height.toNat = n.head.height.toNat + k := by
  induction h with
  | done => rfl
  | halted _ => cases hr
  | @more k n n' r hits block next haccept _ _ ih =>
      have hnext : (n.accept block next).head.height.toNat = n.head.height.toNat + 1 := by
        rw [accept_height haccept, UInt32.toNat_add, UInt32.toNat_one,
          Nat.mod_eq_of_lt (by omega)]
      rw [ih hr (by omega), hnext]
      omega

/-! ### The call around a batch -/

variable (prim)

/-- How `process_advance` ends. -/
inductive AdvanceEnds (served : Served) (adv : ChainAdvance) (n : NodeState) :
    Except Halt Unit → NodeState → List (CallSite × Fault) → Prop
  | known : adv.attestation.height ≤ n.head.height → AdvanceEnds served adv n (.ok ()) n []
  | halted {halt : Halt} {n' : NodeState} {hits : List (CallSite × Fault)} :
      n.head.height < adv.attestation.height →
      RangeEnds prim served adv.attestation (batchSize n.head adv.attestation) n (.error halt) n'
        hits →
      AdvanceEnds served adv n (.error halt) n' hits
  | setAnchorHit {n' : NodeState} (f : Fault) : n.head.height < adv.attestation.height →
      RangeEnds prim served adv.attestation (batchSize n.head adv.attestation) n (.ok ()) n' [] →
      AdvanceEnds served adv n (.error (f.halt .setAnchor)) n' [(.setAnchor, f)]
  | recordHit {n' : NodeState} (f : Fault) : n.head.height < adv.attestation.height →
      RangeEnds prim served adv.attestation (batchSize n.head adv.attestation) n (.ok ()) n' [] →
      AdvanceEnds served adv n (.error (f.halt .recordAnchorSpend))
        { n' with store := n'.store.setAnchor adv.newAnchor } [(.recordAnchorSpend, f)]
  | done {n' : NodeState} : n.head.height < adv.attestation.height →
      RangeEnds prim served adv.attestation (batchSize n.head adv.attestation) n (.ok ()) n' [] →
      AdvanceEnds served adv n (.ok ())
        { n' with
          store := (n'.store.setAnchor adv.newAnchor).recordAnchorSpend adv.spentAnchor adv.txid
            adv.l1Height } []

variable {prim}

theorem processAdvance_known {env : Env} {adv : ChainAdvance} {w : World}
    (h : adv.attestation.height ≤ w.head.height) :
    processAdvance prim env adv w = (.ok (),
      { w with log := w.log ++ [⟨w.toNodeState, adv, env.served w.log.length⟩] }) := by
  unfold processAdvance
  simp only [Action.bind_run, Action.get_run, Action.modify_run]
  rw [if_pos h, Action.pure_run]

theorem processAdvance_ends {env : Env} {adv : ChainAdvance} {w w' : World}
    {r : Except Halt Unit} (h : processAdvance prim env adv w = (r, w')) :
    ∃ hits, AdvanceEnds prim (env.served w.log.length) adv w.toNodeState r w'.toNodeState hits ∧
      w'.log = w.log ++ [⟨w.toNodeState, adv, env.served w.log.length⟩] ∧
      w.calls ≤ w'.calls ∧ w'.hits = w.hits ++ hits := by
  unfold processAdvance at h
  simp only [Action.bind_run, Action.get_run, Action.modify_run] at h
  by_cases hknown : adv.attestation.height ≤ w.head.height
  · rw [if_pos hknown] at h
    obtain ⟨rfl, rfl⟩ := Prod.mk.inj h
    exact ⟨[], .known hknown, rfl, Nat.le_refl _, by simp⟩
  · rw [if_neg hknown] at h
    have hlt : w.head.height < adv.attestation.height := UInt32.not_le.mp hknown
    rcases hrange : applyRange prim env (env.served w.log.length) adv.attestation
        (batchSize w.head adv.attestation) (w.head.height + 1)
        { w with log := w.log ++ [⟨w.toNodeState, adv, env.served w.log.length⟩] } with ⟨r₁, w₁⟩
    obtain ⟨hits, hends, hbook⟩ := applyRange_ends
      { w with log := w.log ++ [⟨w.toNodeState, adv, env.served w.log.length⟩] } hrange
    cases r₁ with
    | error halt =>
        rw [Action.bind_run_error hrange] at h
        obtain ⟨rfl, rfl⟩ := Prod.mk.inj h
        exact ⟨hits, .halted hlt hends, hbook.log, hbook.calls, hbook.hits⟩
    | ok _ =>
        rw [Action.bind_run_ok hrange] at h
        obtain rfl := hends.ok_hits rfl
        have hhits : w₁.hits = w.hits := by rw [hbook.hits, List.append_nil]
        rcases callModify_ends env .setAnchor _ w₁ with ⟨-, hset⟩ | ⟨f, -, hset⟩
        · rw [setAnchor, Action.bind_run_ok hset] at h
          rcases callModify_ends env .recordAnchorSpend _ { w₁ with
              calls := w₁.calls + 1, store := w₁.store.setAnchor adv.newAnchor }
            with ⟨-, hrecord⟩ | ⟨f, -, hrecord⟩
          · rw [recordAnchorSpend, hrecord] at h
            obtain ⟨rfl, rfl⟩ := Prod.mk.inj h
            exact ⟨[], .done hlt hends, hbook.log, Nat.le_trans hbook.calls (Nat.le_add_right _ 2),
              by simp [hhits]⟩
          · rw [recordAnchorSpend, hrecord] at h
            obtain ⟨rfl, rfl⟩ := Prod.mk.inj h
            exact ⟨_, .recordHit f hlt hends, hbook.log,
              Nat.le_trans hbook.calls (Nat.le_add_right _ 2), by rw [hhits]⟩
        · rw [setAnchor, Action.bind_run_error hset] at h
          obtain ⟨rfl, rfl⟩ := Prod.mk.inj h
          exact ⟨_, .setAnchorHit f hlt hends, hbook.log,
            Nat.le_trans hbook.calls (Nat.le_add_right _ 1), by rw [hhits]⟩

theorem AdvanceEnds.ok_hits {served : Served} {adv : ChainAdvance} {n n' : NodeState}
    {hits : List (CallSite × Fault)} (h : AdvanceEnds prim served adv n (.ok ()) n' hits) :
    hits = [] := by
  cases h <;> rfl

/-- A call that returns either skipped the attestation, or moved the anchor and raised the
head to the attested height. -/
theorem AdvanceEnds.ok_cases {served : Served} {adv : ChainAdvance} {n n' : NodeState}
    {hits : List (CallSite × Fault)} (h : AdvanceEnds prim served adv n (.ok ()) n' hits) :
    adv.attestation.height ≤ n.head.height ∧ n' = n ∨
      n.head.height < n'.head.height ∧ n'.head.height = adv.attestation.height ∧
        n'.store.anchor = some adv.newAnchor := by
  cases h with
  | known hle => exact Or.inl ⟨hle, rfl⟩
  | done hlt hrange =>
      rename_i n₁
      rw [UInt32.lt_iff_toNat_lt] at hlt
      have hbound := adv.attestation.height.toNat_lt
      have hheight := hrange.ok_height rfl (by unfold batchSize; omega)
      have hend : n₁.head.height = adv.attestation.height := by
        apply UInt32.toNat_inj.mp
        unfold batchSize at hheight
        omega
      refine Or.inr ⟨?_, hend, rfl⟩
      show n.head.height < n₁.head.height
      rwa [hend, UInt32.lt_iff_toNat_lt]

/-! ### The loops around the batches -/

/-- How a round of the inner loop looks for the spend of the anchor. -/
inductive FindEnds (env : Env) (h : Nat) (n : NodeState) :
    Except Halt (Option ChainAdvance) → List (CallSite × Fault) → Prop
  | found {anchor : OutPoint} {adv : Option ChainAdvance} : n.store.anchor = some anchor →
      scanBlockForChainAdvance env.chain h anchor = .ok adv → FindEnds env h n (.ok adv) []
  | anchorHit (f : Fault) : FindEnds env h n (.error (f.halt .getAnchor)) [(.getAnchor, f)]
  | unset : n.store.anchor = none → FindEnds env h n (.error (.error .anchorNotInitialised)) []
  | scanHit (f : Fault) : FindEnds env h n (.error (f.halt .scanBlock)) [(.scanBlock, f)]
  | refused {anchor : OutPoint} {e : ScanError} : n.store.anchor = some anchor →
      scanBlockForChainAdvance env.chain h anchor = .error e →
      FindEnds env h n (.error (.error (.scan e))) []

theorem findAdvance_ends {env : Env} {h : Nat} {w w' : World}
    {r : Except Halt (Option ChainAdvance)} (hrun : findAdvance env h w = (r, w')) :
    ∃ hits, FindEnds env h w.toNodeState r hits ∧ w'.toNodeState = w.toNodeState ∧
      Bookkept w w' hits := by
  unfold findAdvance readAnchor scanBlock at hrun
  rcases callSite_ends env .getAnchor w with ⟨-, hcall⟩ | ⟨f, -, hcall⟩
  · rw [Action.bind_run, Action.bind_run_ok hcall, Action.bind_run, Action.get_run] at hrun
    cases hanchor : w.store.anchor with
    | none =>
        simp only [hanchor, Action.halt_run] at hrun
        obtain ⟨rfl, rfl⟩ := Prod.mk.inj hrun
        exact ⟨[], .unset hanchor, rfl, rfl, Nat.le_add_right _ 1, by simp⟩
    | some anchor =>
        simp only [hanchor, Action.pure_run] at hrun
        rcases callSite_ends env .scanBlock { w with calls := w.calls + 1 }
          with ⟨-, hscan⟩ | ⟨f, -, hscan⟩
        · rw [Action.bind_run_ok hscan] at hrun
          cases hres : scanBlockForChainAdvance env.chain h anchor with
          | error e =>
              rw [hres] at hrun
              obtain ⟨rfl, rfl⟩ := Prod.mk.inj hrun
              exact ⟨[], .refused hanchor hres, rfl, rfl, Nat.le_add_right _ 2, by simp⟩
          | ok adv =>
              rw [hres] at hrun
              obtain ⟨rfl, rfl⟩ := Prod.mk.inj hrun
              exact ⟨[], .found hanchor hres, rfl, rfl, Nat.le_add_right _ 2, by simp⟩
        · rw [Action.bind_run_error hscan] at hrun
          obtain ⟨rfl, rfl⟩ := Prod.mk.inj hrun
          exact ⟨_, .scanHit f, rfl, rfl, Nat.le_add_right _ 2, rfl⟩
  · rw [Action.bind_run, Action.bind_run_error hcall] at hrun
    obtain ⟨rfl, rfl⟩ := Prod.mk.inj hrun
    exact ⟨_, .anchorHit f, rfl, rfl, Nat.le_add_right _ 1, rfl⟩

section

variable {env : Env} {h fuel : Nat} {w w₁ : World}

theorem scanLoop_none (hfind : findAdvance env h w = (.ok none, w₁)) :
    scanLoop prim env h (fuel + 1) w = (.ok (), w₁) := by
  rw [scanLoop, Action.bind_run_ok hfind]
  rfl

theorem scanLoop_some {adv : ChainAdvance} (hfind : findAdvance env h w = (.ok (some adv), w₁)) :
    scanLoop prim env h (fuel + 1) w
      = (processAdvance prim env adv >>= fun _ => scanLoop prim env h fuel) w₁ := by
  rw [scanLoop, Action.bind_run_ok hfind]

theorem scanLoop_error {halt : Halt} (hfind : findAdvance env h w = (.error halt, w₁)) :
    scanLoop prim env h (fuel + 1) w = (.error halt, w₁) := by
  rw [scanLoop, Action.bind_run_error hfind]

/-- Where the stored cursor puts the start of a tick. -/
def NodeState.cursor (n : NodeState) : Nat := n.store.l1Cursor.getD 0

/-- A tick fails in its first two calls, or is its loop over the heights after the cursor. -/
theorem tick_cases (env : Env) (fuel : Nat) (w : World) :
    (∃ site f w₁, (env.faults w.calls = some f ∨ env.faults (w.calls + 1) = some f) ∧
        tick prim env fuel w = (.error (f.halt site), w₁) ∧
        (site = .blockCount ∨ site = .l1Cursor) ∧ w₁.toNodeState = w.toNodeState ∧
        Bookkept w w₁ [(site, f)]) ∨
      env.faults w.calls = none ∧ env.faults (w.calls + 1) = none ∧
        tick prim env fuel w = scanHeights prim env fuel (env.chain.tip - w.cursor) (w.cursor + 1)
          { w with calls := w.calls + 2 } := by
  unfold tick blockCount readL1Cursor
  rcases callSite_ends env .blockCount w with ⟨hfirst, hcount⟩ | ⟨f, hfirst, hcount⟩
  · rw [Action.bind_run, Action.bind_run_ok hcount, Action.pure_run]
    rcases callSite_ends env .l1Cursor { w with calls := w.calls + 1 }
      with ⟨hsecond, hcursor⟩ | ⟨f, hsecond, hcursor⟩
    · right
      refine ⟨hfirst, hsecond, ?_⟩
      simp only [Action.bind_run, hcursor, Action.get_run, Action.pure_run]
      by_cases htip : env.chain.tip ≤ w.store.l1Cursor.getD 0
      · rw [if_pos htip, Nat.sub_eq_zero_of_le (show env.chain.tip ≤ w.cursor from htip)]
        rfl
      · rw [if_neg htip]
        rfl
    · left
      refine ⟨.l1Cursor, f, { w with calls := w.calls + 2, hits := w.hits ++ [(.l1Cursor, f)] },
        Or.inr hsecond, ?_, Or.inr rfl, rfl, rfl, Nat.le_add_right _ 2, rfl⟩
      simp only [Action.bind_run, hcursor]
  · left
    refine ⟨.blockCount, f, { w with calls := w.calls + 1, hits := w.hits ++ [(.blockCount, f)] },
      Or.inl hfirst, ?_, Or.inl rfl, rfl, rfl, Nat.le_add_right _ 1, rfl⟩
    simp only [Action.bind_run, hcount]

end

end

end Hodlchain
