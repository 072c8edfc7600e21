/-
The steps a tick is made of.

Under one L1 chain and one block server a node has one next thing to do in every
state: persist the next block of a batch, or move the cursor.  `coreStep` is that
step, with the last block of a batch, the new anchor and its link as one.  A tick is
a number of core steps, and where a call fails or the process stops it has made
fewer of them.  It has stopped inside of one between the last block and `set_anchor`,
between `set_anchor` and `record_anchor_spend`, and when a write fails after the
state in memory has been replaced; `SafeHit` are the other points.
-/
import Hodlchain.Lib.Orbit
import Hodlchain.Node.Termination
import Hodlchain.Node.Run
import Hodlchain.Node.Tracing

namespace Hodlchain

section

variable (prim : Primitives)

/-! ### Core steps -/

/-- The anchor moved along an attestation, with its link. -/
def NodeState.moveAnchor (n : NodeState) (adv : ChainAdvance) : NodeState :=
  { n with
    store := (n.store.setAnchor adv.newAnchor).recordAnchorSpend adv.spentAnchor adv.txid
      adv.l1Height }

/-- The next block of a batch, and the anchor with the last one. -/
def batchStep (served : Served) (adv : ChainAdvance) (n : NodeState) : Option NodeState :=
  if adv.attestation.height ≤ n.head.height then none
  else
    match acceptNext prim served adv.attestation n with
    | none => none
    | some (block, next) =>
        let n' := n.accept block next
        if n'.head.height = adv.attestation.height then some (n'.moveAnchor adv) else some n'

/-- The next thing a node does. -/
def coreStep (chain : Chain) (served : Served) (n : NodeState) : Option NodeState :=
  if chain.tip ≤ n.cursor then none
  else
    match n.store.anchor with
    | none => none
    | some anchor =>
        match scanBlockForChainAdvance chain (n.cursor + 1) anchor with
        | .error _ => none
        | .ok none => some { n with store := n.store.setL1Cursor (n.cursor + 1) }
        | .ok (some adv) => batchStep prim served adv n

/-- The tip is not reached, and there is nothing the node can do. -/
def Halted (chain : Chain) (served : Served) (n : NodeState) : Prop :=
  n.cursor < chain.tip ∧ coreStep prim chain served n = none

/-- What is in memory is what the store would resume with, and the store holds nothing above. -/
structure Synced (n : NodeState) : Prop where
  snapshot : n.store.loadLatestState = some (n.head.height, n.state)
  block : ∃ block, n.store.getBlock n.head.height = some block ∧ n.head = headOf prim block
  blocks : ∀ height ∈ n.store.blocks, height ≤ n.head.height
  witnesses : ∀ height ∈ n.store.blockWitnesses, height ≤ n.head.height

/-- The heights that a batch goes through. -/
def Batch.Covers (b : Batch) (height : UInt32) : Prop :=
  b.node.head.height < height ∧ height ≤ b.advance.attestation.height

/-- No mint passes in a batch that would not pass in `served`. -/
def Batch.Checked (served : Served) (b : Batch) : Prop :=
  ∀ height, b.Covers height → served.Admits prim b.served height

/-- **The mint checks of a batch answer as in `served`**, whenever they are made. -/
def Batch.Steady (served : Served) (b : Batch) : Prop :=
  ∀ height, b.Covers height →
    served.Admits prim b.served height ∧ b.served.Admits prim served height

/-- The points where a failure or a stop does no harm. -/
def SafeHit : CallSite × Fault → Prop
  | (.setAnchor, _) => False
  | (.recordAnchorSpend, _) => False
  | (.writeBlockAndState block, .fail) => block.txs = []
  | _ => True

end

section

variable {prim : Primitives} {chain : Chain} {served : Served} {n : NodeState}

theorem Batch.Steady.checked {b : Batch} (h : b.Steady prim served) : b.Checked prim served :=
  fun height hcovers => (h height hcovers).1

theorem Synced.resume (h : Synced prim n) :
    resume prim n.store = .ok (some (n.state, n.head)) := by
  obtain ⟨block, hblock, hhead⟩ := h.block
  exact resume_eq_some_iff.mpr ⟨_, block, h.snapshot, hblock, hhead⟩

theorem Synced.snapshots (h : Synced prim n) {height : UInt32}
    (hmem : height ∈ n.store.stateSnapshots) : height ≤ n.head.height := by
  have hlast := (lastRow?_eq_some_iff.mp h.snapshot).2 height hmem
  exact Std.LawfulOrderOrd.isLE_compare _ _ |>.mp hlast

theorem Synced.setL1Cursor (h : Synced prim n) (cursor : Nat) :
    Synced prim { n with store := n.store.setL1Cursor cursor } :=
  ⟨h.snapshot, h.block, h.blocks, h.witnesses⟩

theorem Synced.moveAnchor (h : Synced prim n) (adv : ChainAdvance) :
    Synced prim (n.moveAnchor adv) :=
  ⟨h.snapshot, h.block, h.blocks, h.witnesses⟩

section

variable {att : Attestation} {block : L2Block} {next : Accepted}

private theorem head_lt (haccept : acceptNext prim served att n = some (block, next))
    (hroom : n.head.height < att.height) : n.head.height < block.header.height := by
  rw [(acceptNext_head haccept).1]
  rw [UInt32.lt_iff_toNat_lt] at hroom ⊢
  have hbound := att.height.toNat_lt
  rw [UInt32.toNat_add, UInt32.toNat_one, Nat.mod_eq_of_lt (by omega)]
  omega

/-- The store of a synced node takes the next block. -/
theorem Synced.takes (h : Synced prim n)
    (haccept : acceptNext prim served att n = some (block, next))
    (hroom : n.head.height < att.height) : n.store.Takes block next := by
  have hlt := head_lt haccept hroom
  refine NodeStore.writeBlockAndState_ok_iff.mpr ⟨⟨fun hb => ?_, fun hs => ?_, fun hw => ?_⟩, rfl⟩
  · exact absurd hlt (UInt32.not_lt.mpr (h.blocks _ hb))
  · exact absurd hlt (UInt32.not_lt.mpr (h.snapshots hs))
  · exact absurd hlt (UInt32.not_lt.mpr (h.witnesses _ hw))

/-- And is synced after it. -/
theorem Synced.accept (h : Synced prim n)
    (haccept : acceptNext prim served att n = some (block, next))
    (hroom : n.head.height < att.height) : Synced prim (n.accept block next) := by
  have hlt := head_lt haccept hroom
  have hhead : (n.accept block next).head = headOf prim block := (acceptNext_head haccept).2.2
  have hheight : (n.accept block next).head.height = block.header.height := by rw [hhead, headOf]
  constructor
  · rw [hheight]
    refine lastRow?_insert fun height hmem => Std.LawfulOrderOrd.isLE_compare _ _ |>.mpr ?_
    exact UInt32.le_of_lt (UInt32.lt_of_le_of_lt (h.snapshots hmem) hlt)
  · refine ⟨block, ?_, hhead⟩
    rw [hheight]
    exact (NodeStore.getBlock_insertBlock _ _ _ _ _).trans (if_pos rfl)
  · intro height hmem
    rw [hheight]
    rcases Std.ExtTreeMap.mem_insert.mp hmem with heq | hold
    · rw [Std.LawfulEqOrd.eq_of_compare heq]
      exact UInt32.le_refl _
    · exact UInt32.le_of_lt (UInt32.lt_of_le_of_lt (h.blocks _ hold) hlt)
  · intro height hmem
    rw [hheight]
    rcases Std.ExtTreeMap.mem_insert.mp hmem with heq | hold
    · rw [Std.LawfulEqOrd.eq_of_compare heq]
      exact UInt32.le_refl _
    · exact UInt32.le_of_lt (UInt32.lt_of_le_of_lt (h.witnesses _ hold) hlt)

end

/-! ### One batch -/

/-- The node is at a batch: the next L1 block spends the anchor with this attestation. -/
structure AtBatch (chain : Chain) (n : NodeState) (adv : ChainAdvance) : Prop where
  tip : n.cursor < chain.tip
  found : ∃ anchor, n.store.anchor = some anchor ∧
    scanBlockForChainAdvance chain (n.cursor + 1) anchor = .ok (some adv)

theorem AtBatch.coreStep {adv : ChainAdvance} (h : AtBatch chain n adv) :
    coreStep prim chain served n = batchStep prim served adv n := by
  obtain ⟨anchor, hanchor, hscan⟩ := h.found
  rw [Hodlchain.coreStep, if_neg (Nat.not_le.mpr h.tip)]
  simp only [hanchor, hscan]

/-- Where a computation has left the node: `steps` core steps on, in memory as in the store
unless the process has stopped; and why it has not gone on, where the mint checks are steady. -/
structure Lands (prim : Primitives) (chain : Chain) (served : Served) (steady : Prop)
    (n : NodeState) (r : Except Halt Unit) (n' : NodeState) (hits : List (CallSite × Fault))
    (steps : Nat) (m : NodeState) : Prop where
  orbit : orbit (coreStep prim chain served) steps n = some m
  synced : Synced prim m
  store : n'.store = m.store
  memory : (r = .error .stopped → hits = []) → n' = m
  error : steady → ∀ halt, r = .error halt → halt ≠ .outOfFuel →
    Halted prim chain served m ∨ hits ≠ []

variable {adv : ChainAdvance} {n' : NodeState} {r : Except Halt Unit}
  {hits : List (CallSite × Fault)}

theorem batchStep_accept {block : L2Block} {next : Accepted}
    (hroom : n.head.height < adv.attestation.height)
    (haccept : acceptNext prim served adv.attestation n = some (block, next)) :
    batchStep prim served adv n
      = if (n.accept block next).head.height = adv.attestation.height then
          some ((n.accept block next).moveAnchor adv)
        else some (n.accept block next) := by
  rw [batchStep, if_neg (UInt32.not_le.mpr hroom)]
  simp only [haccept]

/-- A block without transactions leaves the state as it is. -/
theorem accept_state {block : L2Block} {next : Accepted} {att : Attestation}
    (haccept : acceptNext prim served att n = some (block, next)) (htxs : block.txs = []) :
    next.state = n.state := by
  obtain ⟨-, -, -, hreplay, -⟩ := checkL2Block_ok_iff.mp (acceptNext_some_iff.mp haccept).2
  rw [htxs] at hreplay
  exact (Except.ok.inj hreplay).symm

theorem accept_toNat {block : L2Block} {next : Accepted} {att : Attestation}
    (hroom : n.head.height < att.height)
    (haccept : acceptNext prim served att n = some (block, next)) :
    (n.accept block next).head.height.toNat = n.head.height.toNat + 1 := by
  rw [UInt32.lt_iff_toNat_lt] at hroom
  have hbound := att.height.toNat_lt
  rw [accept_height haccept, UInt32.toNat_add, UInt32.toNat_one, Nat.mod_eq_of_lt (by omega)]

/-- The last block of a batch is a core step with the move of the anchor. -/
theorem batchStep_last {block : L2Block} {next : Accepted}
    (haccept : acceptNext prim served adv.attestation n = some (block, next))
    (hheight : n.head.height.toNat + 1 = adv.attestation.height.toNat) :
    batchStep prim served adv n = some ((n.accept block next).moveAnchor adv) := by
  have hroom : n.head.height < adv.attestation.height := by
    rw [UInt32.lt_iff_toNat_lt]
    omega
  have hlast := accept_toNat hroom haccept
  rw [batchStep_accept hroom haccept, if_pos (UInt32.toNat_inj.mp (by omega))]

/-- Any other block is a core step of its own, after which the node is at the same batch. -/
theorem batchStep_more {block : L2Block} {next : Accepted} {k : Nat}
    (haccept : acceptNext prim served adv.attestation n = some (block, next))
    (hheight : n.head.height.toNat + (k + 1 + 1) = adv.attestation.height.toNat) :
    batchStep prim served adv n = some (n.accept block next) ∧
      (n.accept block next).head.height.toNat + (k + 1) = adv.attestation.height.toNat := by
  have hroom : n.head.height < adv.attestation.height := by
    rw [UInt32.lt_iff_toNat_lt]
    omega
  have hnext := accept_toNat hroom haccept
  refine ⟨?_, by omega⟩
  rw [batchStep_accept hroom haccept, if_neg]
  intro heq
  have := congrArg UInt32.toNat heq
  omega

/-- The next block is covered, and what is left after it. -/
private theorem Batch.covers_next {b : Batch}
    (hroom : b.node.head.height < b.advance.attestation.height) :
    b.Covers (b.node.head.height + 1) ∧ ∀ {node : NodeState} {height : UInt32},
      node.head.height = b.node.head.height + 1 →
      Batch.Covers ⟨node, b.advance, b.served⟩ height → b.Covers height := by
  have hbound := b.advance.attestation.height.toNat_lt
  have hup : (b.node.head.height + 1).toNat = b.node.head.height.toNat + 1 := by
    rw [UInt32.lt_iff_toNat_lt] at hroom
    rw [UInt32.toNat_add, UInt32.toNat_one, Nat.mod_eq_of_lt (by omega)]
  have hless : b.node.head.height < b.node.head.height + 1 := by
    rw [UInt32.lt_iff_toNat_lt, hup]
    exact Nat.lt_succ_self _
  refine ⟨⟨hless, ?_⟩, fun hnode hcovers => ⟨UInt32.lt_trans hless ?_, hcovers.2⟩⟩
  · rw [UInt32.le_iff_toNat_le, hup]
    exact UInt32.lt_iff_toNat_lt.mp hroom
  · rw [← hnode]
    exact hcovers.1

variable {given : Served}

/-- A batch that goes through is one core step for each of its blocks. -/
theorem RangeEnds.lands_ok {k : Nat} (hends : RangeEnds prim given adv.attestation k n r n' hits)
    (hr : r = .ok ()) (hk : 0 < k) (hat : AtBatch chain n adv) (hsync : Synced prim n)
    (hheight : n.head.height.toNat + k = adv.attestation.height.toNat)
    (hchecked : Batch.Checked prim served ⟨n, adv, given⟩) :
    ∃ steps, orbit (Hodlchain.coreStep prim chain served) (steps + 1) n
      = some (n'.moveAnchor adv) ∧ Synced prim n' := by
  induction hends with
  | done => omega
  | halted _ => cases hr
  | @more k n n' r hits block next hgiven htakes hrest ih =>
      have hroom : n.head.height < adv.attestation.height := by
        rw [UInt32.lt_iff_toNat_lt]
        omega
      obtain ⟨hnext, hleft⟩ := @Batch.covers_next ⟨n, adv, given⟩ hroom
      have haccept := (hchecked _ hnext).acceptNext hgiven
      have hsync' := hsync.accept haccept hroom
      cases k with
      | zero =>
          cases hrest
          refine ⟨0, ?_, hsync'⟩
          rw [orbit_succ (hat.coreStep.trans (batchStep_last haccept hheight))]
          rfl
      | succ k =>
          obtain ⟨hstep, hheight'⟩ := batchStep_more haccept hheight
          obtain ⟨steps, horbit, hsync''⟩ := ih hr (Nat.succ_pos k) ⟨hat.tip, hat.found⟩ hsync'
            hheight' fun _ hcovers => hchecked _ (hleft (accept_height haccept) hcovers)
          exact ⟨steps + 1, (orbit_succ (hat.coreStep.trans hstep)).trans horbit, hsync''⟩

/-- A batch that stops half way has made as many core steps as it has persisted blocks. -/
theorem RangeEnds.lands_error {k : Nat}
    (hends : RangeEnds prim given adv.attestation k n r n' hits) (hr : r ≠ .ok ())
    (hat : AtBatch chain n adv) (hsync : Synced prim n)
    (hheight : n.head.height.toNat + k = adv.attestation.height.toNat)
    (hsafe : ∀ hit ∈ hits, SafeHit hit) (hchecked : Batch.Checked prim served ⟨n, adv, given⟩) :
    ∃ steps m, Lands prim chain served (Batch.Steady prim served ⟨n, adv, given⟩) n r n' hits
      steps m ∧ m.cursor = n.cursor := by
  induction hends with
  | done => exact absurd rfl hr
  | @halted k n n' halt hits hone =>
      have hroom : n.head.height < adv.attestation.height := by
        rw [UInt32.lt_iff_toNat_lt]
        omega
      obtain ⟨hnext, -⟩ := @Batch.covers_next ⟨n, adv, given⟩ hroom
      refine ⟨0, n, ?_, rfl⟩
      cases hone with
      | fetchHit f => exact ⟨rfl, hsync, rfl, fun _ => rfl, fun _ _ _ _ => Or.inr (by simp)⟩
      | refused hnone =>
          refine ⟨rfl, hsync, rfl, fun _ => rfl, fun hsteady _ _ _ => Or.inl ⟨hat.tip, ?_⟩⟩
          rw [hat.coreStep, batchStep, if_neg (UInt32.not_le.mpr hroom)]
          -- what is refused here would be refused by `served` as well
          cases haccept : acceptNext prim served adv.attestation n with
          | none => rfl
          | some accepted =>
              have hgiven := (hsteady _ hnext).2.acceptNext haccept
              rw [hnone] at hgiven
              cases hgiven
      | @writeHit block next f hgiven =>
          have haccept := (hchecked _ hnext).acceptNext hgiven
          cases f with
          | fail =>
              have htxs : block.txs = [] := hsafe (.writeBlockAndState block, .fail) (by simp)
              have hsame : n.ahead next = n := by rw [NodeState.ahead, accept_state haccept htxs]
              exact ⟨rfl, hsync, by rw [hsame], fun _ => hsame, fun _ _ _ _ => Or.inr (by simp)⟩
          | stop =>
              exact ⟨rfl, hsync, rfl, fun h => absurd (h rfl) (by simp),
                fun _ _ _ _ => Or.inr (by simp)⟩
      | writeRefused hgiven hstore =>
          have htakes := hsync.takes ((hchecked _ hnext).acceptNext hgiven) hroom
          rw [NodeStore.Takes, hstore] at htakes
          cases htakes
  | @more k n n' r hits block next hgiven htakes hrest ih =>
      have hroom : n.head.height < adv.attestation.height := by
        rw [UInt32.lt_iff_toNat_lt]
        omega
      obtain ⟨hnext, hleft⟩ := @Batch.covers_next ⟨n, adv, given⟩ hroom
      have haccept := (hchecked _ hnext).acceptNext hgiven
      cases k with
      | zero =>
          cases hrest
          exact absurd rfl hr
      | succ k =>
          obtain ⟨hstep, hheight'⟩ := batchStep_more haccept hheight
          obtain ⟨steps, m, hlands, hcursor⟩ := ih hr ⟨hat.tip, hat.found⟩
            (hsync.accept haccept hroom) hheight' hsafe
            fun _ hcovers => hchecked _ (hleft (accept_height haccept) hcovers)
          exact ⟨steps + 1, m, ⟨(orbit_succ (hat.coreStep.trans hstep)).trans hlands.orbit,
            hlands.synced, hlands.store, hlands.memory, fun hsteady => hlands.error
              fun _ hcovers => hsteady _ (hleft (accept_height haccept) hcovers)⟩, hcursor⟩

/-- A batch is skipped where the node can do nothing, goes through in core steps, or stops
half way. -/
theorem AdvanceEnds.lands (hends : AdvanceEnds prim given adv n r n' hits)
    (hat : AtBatch chain n adv) (hsync : Synced prim n) (hsafe : ∀ hit ∈ hits, SafeHit hit)
    (hchecked : Batch.Checked prim served ⟨n, adv, given⟩) :
    (r = .ok () ∧ n' = n ∧ Halted prim chain served n) ∨
      (r = .ok () ∧ n'.cursor = n.cursor ∧ Synced prim n' ∧
        ∃ steps, orbit (Hodlchain.coreStep prim chain served) (steps + 1) n = some n') ∨
      ∃ halt, r = .error halt ∧
        ∃ steps m, Lands prim chain served (Batch.Steady prim served ⟨n, adv, given⟩) n r n' hits
          steps m ∧ m.cursor = n.cursor := by
  have hbatch : n.head.height < adv.attestation.height →
      n.head.height.toNat + batchSize n.head adv.attestation = adv.attestation.height.toNat := by
    intro hlt
    rw [UInt32.lt_iff_toNat_lt] at hlt
    unfold batchSize
    omega
  cases hends with
  | known hle =>
      refine Or.inl ⟨rfl, rfl, hat.tip, ?_⟩
      rw [hat.coreStep, batchStep, if_pos hle]
  | @halted halt n' hits hlt hrange =>
      exact Or.inr (Or.inr ⟨halt, rfl,
        hrange.lands_error (by simp) hat hsync (hbatch hlt) hsafe hchecked⟩)
  | setAnchorHit f hlt hrange => exact (hsafe (.setAnchor, f) (by simp)).elim
  | recordHit f hlt hrange => exact (hsafe (.recordAnchorSpend, f) (by simp)).elim
  | @done n' hlt hrange =>
      have hroom : 0 < batchSize n.head adv.attestation := by
        rw [UInt32.lt_iff_toNat_lt] at hlt
        unfold batchSize
        omega
      obtain ⟨steps, horbit, hsync'⟩ := hrange.lands_ok rfl hroom hat hsync (hbatch hlt) hchecked
      refine Or.inr (Or.inl ⟨rfl, ?_, hsync'.moveAnchor adv, steps, horbit⟩)
      show n'.store.l1Cursor.getD 0 = n.store.l1Cursor.getD 0
      rw [hrange.frame.2.1]

/-! ### One tick -/

section

variable {env : Env} {w w' : World}

/-- The anchor is not spent in the next L1 block. -/
def PastBlock (chain : Chain) (n : NodeState) : Prop :=
  ∃ anchor, n.store.anchor = some anchor ∧
    scanBlockForChainAdvance chain (n.cursor + 1) anchor = .ok none

theorem PastBlock.coreStep (h : PastBlock chain n) (htip : n.cursor < chain.tip) :
    coreStep prim chain served n = some { n with store := n.store.setL1Cursor (n.cursor + 1) } := by
  obtain ⟨anchor, hanchor, hscan⟩ := h
  rw [Hodlchain.coreStep, if_neg (Nat.not_le.mpr htip)]
  simp only [hanchor, hscan]

theorem FindEnds.ok_hits {h : Nat} {found : Option ChainAdvance}
    (hends : FindEnds env h n (.ok found) hits) : hits = [] := by
  cases hends
  rfl

theorem FindEnds.halted {halt : Halt} (hends : FindEnds env (n.cursor + 1) n (.error halt) hits)
    (htip : n.cursor < env.chain.tip) : Halted prim env.chain served n ∨ hits ≠ [] := by
  cases hends with
  | anchorHit f => exact Or.inr (by simp)
  | scanHit f => exact Or.inr (by simp)
  | unset hanchor =>
      refine Or.inl ⟨htip, ?_⟩
      rw [coreStep, if_neg (Nat.not_le.mpr htip), hanchor]
  | refused hanchor hscan =>
      refine Or.inl ⟨htip, ?_⟩
      rw [coreStep, if_neg (Nat.not_le.mpr htip)]
      simp only [hanchor, hscan]

/-- What is left when a computation goes on after some core steps. -/
theorem Lands.after {n₁ : NodeState} {j k : Nat} {m : NodeState} {steady steady' : Prop}
    {hits' : List (CallSite × Fault)} (h : Lands prim chain served steady n₁ r n' hits k m)
    (horbit : Hodlchain.orbit (coreStep prim chain served) j n = some n₁)
    (hsteady : steady' → steady) (hhits : hits' = [] → hits = []) :
    Lands prim chain served steady' n r n' hits' (j + k) m where
  orbit := (orbit_trans horbit).trans h.orbit
  synced := h.synced
  store := h.store
  memory hmem := h.memory fun hr => hhits (hmem hr)
  error hs halt hr hne := (h.error (hsteady hs) halt hr hne).imp_right fun hhit hc =>
    hhit (hhits hc)

/-- The inner loop. -/
theorem scanLoop_lands : ∀ (fuel : Nat) {w w' : World} {r : Except Halt Unit}
    {hits : List (CallSite × Fault)} {log : List Batch},
      scanLoop prim env (w.cursor + 1) fuel w = (r, w') → Adds w w' hits log →
      (∀ hit ∈ hits, SafeHit hit) → (∀ b ∈ log, b.Checked prim served) →
      Synced prim w.toNodeState → w.cursor < env.chain.tip → ∃ steps m,
        Lands prim env.chain served (∀ b ∈ log, b.Steady prim served) w.toNodeState r w'.toNodeState
          hits steps m ∧
        m.cursor = w.cursor ∧ (r = .ok () → PastBlock env.chain m) ∧
        (r = .error .outOfFuel → Halted prim env.chain served m ∨ fuel ≤ steps) := by
  intro fuel
  induction fuel with
  | zero =>
      intro w w' r hits log hrun hadds hsafe hchecked hsync htip
      obtain ⟨rfl, rfl⟩ := Prod.mk.inj hrun
      exact ⟨0, w.toNodeState,
        ⟨rfl, hsync, rfl, fun _ => rfl, fun _ halt h hne => absurd (Except.error.inj h).symm hne⟩,
        rfl, by simp, fun _ => Or.inr (Nat.le_refl 0)⟩
  | succ fuel ih =>
      intro w w' r hits log hrun hadds hsafe hchecked hsync htip
      rcases hfind : findAdvance env (w.cursor + 1) w with ⟨r₁, w₁⟩
      obtain ⟨hits₁, hfinds, hnode, hbook⟩ := findAdvance_ends hfind
      cases r₁ with
      | error halt =>
          rw [scanLoop_error hfind] at hrun
          obtain ⟨rfl, rfl⟩ := Prod.mk.inj hrun
          obtain ⟨rfl, rfl⟩ := hadds.unique hbook.adds
          exact ⟨0, w.toNodeState,
            ⟨rfl, hsync, by rw [hnode], fun _ => hnode, fun _ _ _ _ => hfinds.halted htip⟩,
            rfl, by simp, fun h => absurd (Except.error.inj h) hfinds.halt_ne⟩
      | ok found =>
          obtain ⟨⟨anchor, hanchor, hscan⟩, -⟩ := findAdvance_ok_iff.mp hfind
          obtain rfl := hfinds.ok_hits
          cases found with
          | none =>
              rw [scanLoop_none hfind] at hrun
              obtain ⟨rfl, rfl⟩ := Prod.mk.inj hrun
              exact ⟨0, w.toNodeState, ⟨rfl, hsync, by rw [hnode], fun _ => hnode, by simp⟩,
                rfl, fun _ => ⟨anchor, hanchor, hscan⟩, by simp⟩
          | some adv =>
              have hat : AtBatch env.chain w.toNodeState adv := ⟨htip, anchor, hanchor, hscan⟩
              rw [scanLoop_some hfind] at hrun
              rcases hadvance : processAdvance prim env adv w₁ with ⟨r₂, w₂⟩
              obtain ⟨hits₂, hends, hlog₂, -, hhits₂⟩ := processAdvance_ends hadvance
              have hbatch := hbook.adds.trans ⟨hhits₂, hlog₂⟩
              rw [hnode, List.nil_append, List.nil_append] at hbatch
              rw [hnode] at hends
              cases r₂ with
              | error halt =>
                  rw [Action.bind_run_error hadvance] at hrun
                  obtain ⟨rfl, rfl⟩ := Prod.mk.inj hrun
                  obtain ⟨rfl, rfl⟩ := hadds.unique hbatch
                  rcases hends.lands hat hsync hsafe (List.forall_mem_singleton.mp hchecked) with
                    ⟨hr, -⟩ | ⟨hr, -⟩ | ⟨halt', -, steps, m, hlands, hcursor⟩
                  · cases hr
                  · cases hr
                  · exact ⟨0 + steps, m, hlands.after rfl List.forall_mem_singleton.mp id,
                      hcursor, by simp, fun h => absurd h hends.halt_ne⟩
              | ok _ =>
                  rw [Action.bind_run_ok hadvance] at hrun
                  obtain rfl := hends.ok_hits
                  obtain ⟨hits₃, log₃, hrest⟩ := scanLoop_adds hrun
                  obtain ⟨rfl, rfl⟩ := hadds.unique (hbatch.trans hrest)
                  obtain ⟨hchecked₁, hchecked₂⟩ := List.forall_mem_append.mp hchecked
                  rcases hends.lands hat hsync (by simp) (List.forall_mem_singleton.mp hchecked₁)
                    with ⟨-, hsame, hhalted⟩ | ⟨-, hcursor, hsync₂, j, horbit⟩ | ⟨halt, hr, -⟩
                  · -- skipped: the loop stays here until a call fails
                    rw [← hsame] at hsync htip hhalted
                    have hcursor : w₂.cursor = w.cursor := congrArg NodeState.cursor hsame
                    rw [← hcursor] at hrun
                    obtain ⟨steps, m, hlands, hm, hpast, -⟩ :=
                      ih hrun hrest hsafe hchecked₂ hsync htip
                    obtain ⟨-, rfl⟩ := orbit_end hhalted.2 hlands.orbit
                    exact ⟨0 + steps, _, hlands.after (congrArg some hsame.symm)
                      (fun hsteady => (List.forall_mem_append.mp hsteady).2) id, hm.trans hcursor,
                      hpast, fun _ => Or.inl hhalted⟩
                  · rw [← hcursor] at hrun htip
                    obtain ⟨steps, m, hlands, hm, hpast, hfuel⟩ :=
                      ih hrun hrest hsafe hchecked₂ hsync₂ htip
                    exact ⟨j + 1 + steps, m, hlands.after horbit
                      (fun hsteady => (List.forall_mem_append.mp hsteady).2) id, hm.trans hcursor,
                      hpast, fun hr => (hfuel hr).imp_right fun _ => by omega⟩
                  · cases hr

/-- A loop that returns has made its core steps, and the next one is past the block. -/
theorem scanLoop_past {fuel : Nat} {log : List Batch}
    (hrun : scanLoop prim env (w.cursor + 1) fuel w = (.ok (), w')) (hadds : Adds w w' hits log)
    (hsafe : ∀ hit ∈ hits, SafeHit hit) (hchecked : ∀ b ∈ log, b.Checked prim served)
    (hsync : Synced prim w.toNodeState) (htip : w.cursor < env.chain.tip) : ∃ steps,
      orbit (coreStep prim env.chain served) (steps + 1) w.toNodeState
        = some { w'.toNodeState with store := w'.store.setL1Cursor (w.cursor + 1) } ∧
      Synced prim w'.toNodeState := by
  obtain ⟨steps, m, hlands, hcursor, hpast, -⟩ :=
    scanLoop_lands fuel hrun hadds hsafe hchecked hsync htip
  obtain rfl := hlands.memory (by simp)
  have hstep := @PastBlock.coreStep prim _ served _ (hpast rfl) (by omega)
  refine ⟨steps, ?_, hlands.synced⟩
  rw [orbit_trans hlands.orbit, orbit_succ hstep, hcursor]
  rfl

/-- The loop over the heights after the cursor. -/
theorem scanHeights_lands {fuel : Nat} : ∀ {k : Nat} {w w' : World} {r : Except Halt Unit}
    {hits : List (CallSite × Fault)} {log : List Batch},
      scanHeights prim env fuel k (w.cursor + 1) w = (r, w') → k = env.chain.tip - w.cursor →
      Adds w w' hits log → (∀ hit ∈ hits, SafeHit hit) → (∀ b ∈ log, b.Checked prim served) →
      Synced prim w.toNodeState → ∃ steps m,
        Lands prim env.chain served (∀ b ∈ log, b.Steady prim served) w.toNodeState r w'.toNodeState
          hits steps m ∧
        (r = .ok () → env.chain.tip ≤ m.cursor) ∧
        (r = .error .outOfFuel → Halted prim env.chain served m ∨ fuel ≤ steps) := by
  intro k
  induction k with
  | zero =>
      intro w w' r hits log hrun hk hadds hsafe hchecked hsync
      obtain ⟨rfl, rfl⟩ := Prod.mk.inj hrun
      exact ⟨0, w.toNodeState, ⟨rfl, hsync, rfl, fun _ => rfl, by simp⟩, fun _ => by omega, by simp⟩
  | succ k ih =>
      intro w w' r hits log hrun hk hadds hsafe hchecked hsync
      have htip : w.cursor < env.chain.tip := by omega
      rw [scanHeights] at hrun
      rcases hloop : scanLoop prim env (w.cursor + 1) fuel w with ⟨r₁, w₁⟩
      obtain ⟨hits₁, log₁, hadds₁⟩ := scanLoop_adds hloop
      cases r₁ with
      | error halt =>
          rw [Action.bind_run_error hloop] at hrun
          obtain ⟨rfl, rfl⟩ := Prod.mk.inj hrun
          obtain ⟨rfl, rfl⟩ := hadds.unique hadds₁
          obtain ⟨steps, m, hlands, -, -, hfuel⟩ :=
            scanLoop_lands fuel hloop hadds hsafe hchecked hsync htip
          exact ⟨steps, m, hlands, by simp, hfuel⟩
      | ok _ =>
          rw [Action.bind_run_ok hloop] at hrun
          rcases callModify_ends env .setL1Cursor
              (fun v => { v with store := v.store.setL1Cursor (w.cursor + 1) }) w₁
            with ⟨-, hset⟩ | ⟨f, -, hset⟩
          · rw [setL1Cursor, Action.bind_run_ok hset] at hrun
            obtain ⟨hits₂, log₂, hadds₂⟩ := scanHeights_adds hrun
            have hadds₂ : Adds w₁ w' hits₂ log₂ := ⟨hadds₂.hits, hadds₂.log⟩
            obtain ⟨rfl, rfl⟩ := hadds.unique (hadds₁.trans hadds₂)
            obtain ⟨hsafe₁, hsafe₂⟩ := List.forall_mem_append.mp hsafe
            obtain ⟨hchecked₁, hchecked₂⟩ := List.forall_mem_append.mp hchecked
            obtain ⟨j, horbit, hsync₁⟩ := scanLoop_past hloop hadds₁ hsafe₁ hchecked₁ hsync htip
            obtain ⟨steps, m, hlands, htip', hfuel⟩ := ih
              (w := { w₁ with
                calls := w₁.calls + 1, store := w₁.store.setL1Cursor (w.cursor + 1) }) hrun
              (show k = env.chain.tip - (w.cursor + 1) by omega) ⟨hadds₂.hits, hadds₂.log⟩ hsafe₂
              hchecked₂ (hsync₁.setL1Cursor _)
            exact ⟨j + 1 + steps, m, hlands.after horbit
              (fun hsteady => (List.forall_mem_append.mp hsteady).2)
              fun hnil => (List.append_eq_nil_iff.mp hnil).2,
              htip', fun hr => (hfuel hr).imp_right fun _ => by omega⟩
          · rw [setL1Cursor, Action.bind_run_error hset] at hrun
            obtain ⟨rfl, rfl⟩ := Prod.mk.inj hrun
            have hadds₂ : Adds w₁ { w₁ with
                calls := w₁.calls + 1, hits := w₁.hits ++ [(.setL1Cursor, f)] }
              [(.setL1Cursor, f)] [] := ⟨rfl, (List.append_nil _).symm⟩
            obtain ⟨rfl, rfl⟩ := hadds.unique (hadds₁.trans hadds₂)
            obtain ⟨steps, m, hlands, -⟩ := scanLoop_lands fuel hloop hadds₁
              (List.forall_mem_append.mp hsafe).1 (List.forall_mem_append.mp hchecked).1 hsync htip
            obtain rfl := hlands.memory (by simp)
            exact ⟨steps, w₁.toNodeState, ⟨hlands.orbit, hlands.synced, rfl, fun _ => rfl,
              fun _ _ _ _ => Or.inr (by simp)⟩, by simp,
              fun h => absurd (Except.error.inj h) (f.halt_ne _)⟩

/-- **A tick is a number of core steps.** -/
theorem tick_lands {fuel : Nat} {r : Except Halt Unit} {log : List Batch}
    (hrun : tick prim env fuel w = (r, w')) (hadds : Adds w w' hits log)
    (hsafe : ∀ hit ∈ hits, SafeHit hit) (hchecked : ∀ b ∈ log, b.Checked prim served)
    (hsync : Synced prim w.toNodeState) : ∃ steps m,
      Lands prim env.chain served (∀ b ∈ log, b.Steady prim served) w.toNodeState r w'.toNodeState
        hits steps m ∧
      (r = .ok () → env.chain.tip ≤ m.cursor) ∧
      (r = .error .outOfFuel → Halted prim env.chain served m ∨ fuel ≤ steps) := by
  rcases tick_cases env fuel w with ⟨site, f, w₁, -, htick, -, hnode, hbook⟩ | ⟨-, -, htick⟩
  · rw [htick] at hrun
    obtain ⟨rfl, rfl⟩ := Prod.mk.inj hrun
    obtain ⟨rfl, rfl⟩ := hadds.unique hbook.adds
    exact ⟨0, w.toNodeState,
      ⟨rfl, hsync, by rw [hnode], fun _ => hnode, fun _ _ _ _ => Or.inr (by simp)⟩,
      by simp, fun h => absurd (Except.error.inj h) (f.halt_ne _)⟩
  · rw [htick] at hrun
    exact scanHeights_lands (w := { w with calls := w.calls + 2 }) hrun rfl ⟨hadds.hits, hadds.log⟩
      hsafe hchecked hsync

end

end

end Hodlchain
