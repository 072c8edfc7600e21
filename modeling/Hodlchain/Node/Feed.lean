/-
A node that is served everything.

A row is a block with the ledger after it.  Where the rows follow one another and every
block is served, a node that stands on one of them gets through each batch, and stands
on the row of the attested height after it.
-/
import Hodlchain.Node.Recovery

namespace Hodlchain

/-- A block, and the ledger after it. -/
structure Row where
  block : L2Block
  state : LedgerState

/-- The attestation of a block. -/
def L2Block.attestation (prim : Primitives) (block : L2Block) : Attestation :=
  Attestation.new block.header.height (block.hash prim) block.header.stateRoot

section

variable (prim : Primitives)

/-- A block passes every check of the follower on top of a ledger and a head, inside of a
batch and as its end, and leads to the given ones. -/
def Passes (view : L1View) (state : LedgerState) (head : HeadInfo) (block : L2Block)
    (state' : LedgerState) (head' : HeadInfo) : Prop :=
  ∀ att ∈ [none, some (block.attestation prim)], ∃ witness,
    checkL2Block prim view state head (head.height + 1) att block = .ok ⟨state', head', witness⟩

/-- One row follows another. -/
def Row.Follows (view : L1View) (prev next : Row) : Prop :=
  Passes prim view prev.state (headOf prim prev.block) next.block next.state
    (headOf prim next.block)

/-- Rows up to height `m`, each following the one below it and each served. -/
structure Feed (served : Served) (row : UInt32 → Option Row) (m : UInt32) : Prop where
  rows : ∀ k, k ≤ m → ∃ r, row k = some r ∧ r.block.header.height = k ∧
    served.block k = some r.block
  follows : ∀ k, k < m → ∀ r r', row k = some r → row (k + 1) = some r' →
    r.Follows prim (served.view (k + 1)) r'

/-- A node stands on a row. -/
structure OnRow (r : Row) (n : NodeState) : Prop where
  synced : Synced prim n
  state : n.state = r.state
  head : n.head = headOf prim r.block

end

variable {prim : Primitives} {served : Served} {env : Env} {n : NodeState} {w : World}
  {row : UInt32 → Option Row} {m : UInt32} {r : Row}

/-! ### Calls without faults -/

section

variable {att : Attestation} {block : L2Block} {next : Accepted}

theorem callSite_plain (hplain : ∀ i, env.faults i = none) (site : CallSite) (w : World) :
    callSite env site w = (.ok (), { w with calls := w.calls + 1 }) := by
  rcases callSite_ends env site w with ⟨-, h⟩ | ⟨f, hf, -⟩
  · exact h
  · rw [hplain] at hf
    cases hf

/-- A block that is accepted and that the store takes is applied. -/
theorem applyOneL2Block_plain (hplain : ∀ i, env.faults i = none)
    (haccept : acceptNext prim served att w.toNodeState = some (block, next))
    (htakes : w.store.Takes block next) :
    applyOneL2Block prim env served (w.head.height + 1) (endAttestation att (w.head.height + 1)) w
      = (.ok (), { w with calls := w.calls + 2, toNodeState := w.accept block next }) := by
  obtain ⟨hserved, hcheck⟩ := acceptNext_some_iff.mp haccept
  unfold applyOneL2Block fetchBlock writeBlockAndState
  simp only [Action.bind_run, callSite_plain hplain, hserved, Action.pure_run, Action.get_run,
    Action.lift_run, hcheck, mapErr, Action.modify_run]
  unfold NodeStore.Takes at htakes
  simp only [htakes, Action.modify_run]
  rfl

/-- A block that is refused is fetched, and that is all. -/
theorem applyOneL2Block_refused (hplain : ∀ i, env.faults i = none) {h : UInt32}
    {att : Option Attestation} {e : FollowerError} (hserved : served.block h = some block)
    (hcheck : checkL2Block prim (served.view h) w.state w.head h att block = .error e) :
    applyOneL2Block prim env served h att w
      = (.error (.error e), { w with calls := w.calls + 1 }) := by
  unfold applyOneL2Block fetchBlock
  simp only [Action.bind_run, callSite_plain hplain, hserved, Action.pure_run, Action.get_run,
    Action.lift_run, hcheck, mapErr]

end

/-! ### One batch -/

/-- The next row is the next block that is accepted. -/
theorem Feed.acceptNext (hfeed : Feed prim served row m) (hn : OnRow prim r n)
    (hr : row n.head.height = some r) (hlt : n.head.height < m) {att : Attestation}
    (hatt : ∀ r', row att.height = some r' → att = r'.block.attestation prim) :
    ∃ r' next, row (n.head.height + 1) = some r' ∧
      Hodlchain.acceptNext prim served att n = some (r'.block, next) ∧ next.state = r'.state := by
  have hnext : n.head.height + 1 ≤ m := by
    have hbound := m.toNat_lt
    rw [UInt32.lt_iff_toNat_lt] at hlt
    rw [UInt32.le_iff_toNat_le, UInt32.toNat_add, UInt32.toNat_one, Nat.mod_eq_of_lt (by omega)]
    omega
  obtain ⟨r', hr', -, hserved⟩ := hfeed.rows _ hnext
  have hpasses := hfeed.follows _ hlt r r' hr hr'
  unfold Row.Follows at hpasses
  rw [← hn.state, ← hn.head] at hpasses
  have hend :
      endAttestation att (n.head.height + 1) ∈ [none, some (r'.block.attestation prim)] := by
    unfold endAttestation
    by_cases hh : n.head.height + 1 = att.height
    · rw [if_pos hh, hatt r' (by rw [← hh]; exact hr')]
      simp
    · rw [if_neg hh]
      simp
  obtain ⟨witness, hcheck⟩ := hpasses _ hend
  exact ⟨r', _, hr', acceptNext_some_iff.mpr ⟨hserved, hcheck⟩, rfl⟩

/-- The loop over a batch climbs the rows. -/
theorem Feed.applyRange (hfeed : Feed prim served row m) (hplain : ∀ i, env.faults i = none)
    {att : Attestation} (hatt : ∀ r', row att.height = some r' → att = r'.block.attestation prim)
    (hm : att.height ≤ m) : ∀ (k : Nat) {w : World} {r : Row},
      OnRow prim r w.toNodeState → row w.head.height = some r →
      w.head.height.toNat + k = att.height.toNat →
      ∃ w' r', Hodlchain.applyRange prim env served att k (w.head.height + 1) w = (.ok (), w') ∧
        OnRow prim r' w'.toNodeState ∧ row w'.head.height = some r' ∧
        w'.head.height = att.height := by
  intro k
  induction k with
  | zero =>
      intro w r hw hr hheight
      exact ⟨w, r, rfl, hw, hr, UInt32.toNat_inj.mp (by omega)⟩
  | succ k ih =>
      intro w r hw hr hheight
      have hroom : w.head.height < att.height := by
        rw [UInt32.lt_iff_toNat_lt]
        omega
      obtain ⟨r', next, hr', haccept, hstate⟩ :=
        hfeed.acceptNext hw hr (UInt32.lt_of_lt_of_le hroom hm) hatt
      have hone := applyOneL2Block_plain hplain haccept (hw.synced.takes haccept hroom)
      have hup : (w.accept r'.block next).head.height = w.head.height + 1 := accept_height haccept
      have hcount : (w.head.height + 1).toNat = w.head.height.toNat + 1 := by
        have hbound := att.height.toNat_lt
        rw [UInt32.toNat_add, UInt32.toNat_one, Nat.mod_eq_of_lt (by omega)]
      have hrow : OnRow prim r' (w.accept r'.block next) :=
        ⟨hw.synced.accept haccept hroom, hstate, (acceptNext_head haccept).2.2⟩
      obtain ⟨w', r'', hrun, hend⟩ := @ih
        { w with calls := w.calls + 2, toNodeState := w.accept r'.block next } r' hrow
        (by rw [hup]; exact hr') (by rw [hup, hcount]; omega)
      refine ⟨w', r'', ?_, hend⟩
      unfold Hodlchain.applyRange
      rw [Action.bind_run_ok hone]
      rw [hup] at hrun
      exact hrun

/-- **A node that is served everything follows every attestation.** -/
theorem Feed.processAdvance (hfeed : Feed prim served row m) (hplain : ∀ i, env.faults i = none)
    (hserved : ∀ i, env.served i = served) {adv : ChainAdvance} (hw : OnRow prim r w.toNodeState)
    (hr : row w.head.height = some r) (hm : adv.attestation.height ≤ m)
    (hatt : ∀ r', row adv.attestation.height = some r' →
      adv.attestation = r'.block.attestation prim) :
    ∃ w' r', Hodlchain.processAdvance prim env adv w = (.ok (), w') ∧
      OnRow prim r' w'.toNodeState ∧ row w'.head.height = some r' ∧
      (w.head.height ≤ adv.attestation.height → w'.head.height = adv.attestation.height) ∧
      (adv.attestation.height ≤ w.head.height → w'.toNodeState = w.toNodeState) := by
  by_cases hknown : adv.attestation.height ≤ w.head.height
  · refine ⟨_, r, processAdvance_known hknown, hw, hr, fun hle => ?_, fun _ => rfl⟩
    exact UInt32.le_antisymm hle hknown
  · have hlt : w.head.height < adv.attestation.height := UInt32.not_le.mp hknown
    rw [UInt32.lt_iff_toNat_lt] at hlt
    obtain ⟨w₁, r', hrun, hrow, hr', hheight⟩ := @Feed.applyRange prim served env row m hfeed hplain
      adv.attestation hatt hm (batchSize w.head adv.attestation)
      { w with log := w.log ++ [⟨w.toNodeState, adv, served⟩] } r hw hr
      (by unfold batchSize; dsimp only; omega)
    refine ⟨{ w₁ with calls := w₁.calls + 2, toNodeState := w₁.moveAnchor adv }, r', ?_,
      ⟨hrow.synced.moveAnchor adv, hrow.state, hrow.head⟩, hr', fun _ => hheight,
      fun hle => absurd hle hknown⟩
    unfold Hodlchain.processAdvance setAnchor recordAnchorSpend
    simp only [Action.bind_run, Action.get_run, Action.modify_run, hserved, if_neg hknown]
    dsimp only at hrun
    simp only [hrun, callSite_plain hplain]
    rfl

end Hodlchain
