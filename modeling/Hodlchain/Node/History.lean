/-
Which blocks a node has persisted.

L1 fixes a history: the attestations on the chain of anchors that starts at the
stored one, the blocks they commit to, and the ancestors of these.  The loop over a
batch persists every block as soon as the block has passed the checks of its own
height, and only the last one is compared with the attestation.  A batch that goes
through is therefore part of the history, since each block holds the hash of the one
before it; one that stops half way leaves blocks that nothing on L1 vouches for.
-/
import Hodlchain.Node.Run
import Hodlchain.Node.Termination
import Hodlchain.Wallet.Verify

namespace Hodlchain

section

variable (prim : Primitives)

/-! ### The history L1 attests -/

/-- The anchors that follow from one: each is spent by an attestation that leaves the next. -/
inductive FollowedAnchor (chain : Chain) (start : OutPoint) : OutPoint → Prop
  | start : FollowedAnchor chain start start
  | spent {anchor : OutPoint} {h : Nat} {adv : ChainAdvance} : FollowedAnchor chain start anchor →
      scanBlockForChainAdvance chain h anchor = .ok (some adv) →
      FollowedAnchor chain start adv.newAnchor

/-- An attestation on that chain of anchors. -/
def Attested (chain : Chain) (start : OutPoint) (att : Attestation) : Prop :=
  ∃ anchor h adv, FollowedAnchor chain start anchor ∧
    scanBlockForChainAdvance chain h anchor = .ok (some adv) ∧ adv.attestation = att

/-- A block of `U` from which hashes of previous blocks lead back to another, within `U`. -/
inductive Ancestor (U : Set L2Block) (tip : L2Block) : L2Block → Prop
  | tip : tip ∈ U → Ancestor U tip tip
  | parent {block child : L2Block} : block ∈ U → Ancestor U tip child →
      child.header.prevHash = block.hash prim → Ancestor U tip block

variable {prim} in
theorem Ancestor.tip_mem {U : Set L2Block} {tip block : L2Block}
    (h : Ancestor prim U tip block) : tip ∈ U := by
  induction h with
  | tip htip => exact htip
  | parent _ _ _ ih => exact ih

/-- The block an attestation commits to, or an ancestor of it. -/
def InHistory (U : Set L2Block) (chain : Chain) (start : OutPoint) (block : L2Block) : Prop :=
  ∃ att tip, Attested chain start att ∧ tip.hash prim = att.l2BlockHash ∧ Ancestor prim U tip block

/-! ### The blocks of a batch -/

/-- The blocks that `k` heights of a batch accept, up to the first that is refused. -/
def acceptedBlocks (served : Served) (att : Attestation) : Nat → NodeState → List L2Block
  | 0, _ => []
  | k + 1, n =>
      match acceptNext prim served att n with
      | none => []
      | some (block, next) => block :: acceptedBlocks served att k (n.accept block next)

namespace Batch

/-- The number of its heights. -/
def size (b : Batch) : Nat := batchSize b.node.head b.advance.attestation

/-- The blocks that are served for it and pass the checks, up to the first that does not. -/
def accepted (b : Batch) : List L2Block :=
  acceptedBlocks prim b.served b.advance.attestation b.size b.node

/-- All blocks but the last are accepted, and the last is not the attested one. -/
def EndMismatch (b : Batch) : Prop :=
  (b.accepted prim).length + 1 = b.size ∧ ∃ block,
    b.served.block b.advance.attestation.height = some block ∧
      validateBlock prim block b.advance.attestation ≠ .ok ()

/-- The batch goes through, or is refused from its first block on; or what is accepted of it
is in the history all the same, and it does not fail at its last block. -/
def Harmless (U : Set L2Block) (chain : Chain) (start : OutPoint) (b : Batch) : Prop :=
  (b.accepted prim).length = b.size ∨ b.accepted prim = [] ∨
    (∀ block ∈ b.accepted prim, InHistory prim U chain start block) ∧ ¬ b.EndMismatch prim

end Batch

end

section

variable {prim : Primitives} {served : Served} {att : Attestation}

/-- **What a range persists is what it accepts**, and its head is a block it persisted. -/
theorem RangeEnds.blocks {k : Nat} {n n' : NodeState} {r : Except Halt Unit}
    {hits : List (CallSite × Fault)} (h : RangeEnds prim served att k n r n' hits) :
    (∀ height block, n.store.getBlock height = some block →
      n'.store.getBlock height = some block) ∧
    (∀ height block, n'.store.getBlock height = some block →
      n.store.getBlock height = some block ∨ block ∈ acceptedBlocks prim served att k n) ∧
    (n'.head = n.head ∨ ∃ height block, n'.store.getBlock height = some block ∧
      n'.head = headOf prim block) := by
  induction h with
  | done => exact ⟨fun _ _ h => h, fun _ _ h => Or.inl h, Or.inl rfl⟩
  | halted hone =>
      cases hone <;> exact ⟨fun _ _ h => h, fun _ _ h => Or.inl h, Or.inl rfl⟩
  | @more k n n' r hits block next haccept htakes _ ih =>
      obtain ⟨hkeep, hnew, hhead⟩ := ih
      obtain ⟨⟨hfree, -, -⟩, -⟩ := NodeStore.writeBlockAndState_ok_iff.mp htakes
      have hins : ∀ height, (n.accept block next).store.getBlock height
          = if block.header.height = height then some block else n.store.getBlock height :=
        NodeStore.getBlock_insertBlock n.store block next.state next.witness
      refine ⟨fun height b hb => hkeep height b ?_, fun height b hb => ?_, ?_⟩
      · rw [hins, if_neg, hb]
        rintro rfl
        exact hfree (NodeStore.mem_blocks_of_getBlock hb)
      · simp only [acceptedBlocks, haccept, List.mem_cons]
        rcases hnew height b hb with hold | hmem
        · rw [hins] at hold
          by_cases heq : block.header.height = height
          · rw [if_pos heq] at hold
            exact Or.inr (Or.inl (Option.some.inj hold).symm)
          · rw [if_neg heq] at hold
            exact Or.inl hold
        · exact Or.inr (Or.inr hmem)
      · right
        rcases hhead with hsame | hmoved
        · refine ⟨block.header.height, block, hkeep _ _ (by rw [hins, if_pos rfl]), ?_⟩
          rw [hsame]
          exact (acceptNext_head haccept).2.2
        · exact hmoved

/-- A range that accepts nothing changes nothing. -/
theorem RangeEnds.unchanged {k : Nat} {n n' : NodeState} {r : Except Halt Unit}
    {hits : List (CallSite × Fault)} (h : RangeEnds prim served att k n r n' hits)
    (hnone : acceptedBlocks prim served att k n = []) : n' = n ∧ (r = .ok () → k = 0) := by
  cases h with
  | done => exact ⟨rfl, fun _ => rfl⟩
  | halted hone =>
      refine ⟨?_, by simp⟩
      cases hone with
      | fetchHit f => rfl
      | refused _ => rfl
      | writeHit f haccept => simp [acceptedBlocks, haccept] at hnone
      | writeRefused haccept _ => simp [acceptedBlocks, haccept] at hnone
  | more haccept _ _ => simp [acceptedBlocks, haccept] at hnone

theorem mem_acceptedBlocks_served {k : Nat} {n : NodeState} {block : L2Block}
    (h : block ∈ acceptedBlocks prim served att k n) :
    ∃ height, served.block height = some block := by
  induction k generalizing n with
  | zero => simp [acceptedBlocks] at h
  | succ k ih =>
      unfold acceptedBlocks at h
      cases haccept : acceptNext prim served att n with
      | none => simp [haccept] at h
      | some row =>
          simp only [haccept, List.mem_cons] at h
          rcases h with rfl | hrest
          · exact ⟨_, (acceptNext_some_iff.mp haccept).1⟩
          · exact ih hrest

/-- **The blocks of a batch that goes through are the attested block and ancestors of it**:
each holds the hash of the one before, and the last is checked against the attestation. -/
theorem acceptedBlocks_linked {U : Set L2Block} :
    ∀ {k : Nat} {n : NodeState}, (acceptedBlocks prim served att (k + 1) n).length = k + 1 →
      n.head.height.toNat + (k + 1) = att.height.toNat →
      (∀ block ∈ acceptedBlocks prim served att (k + 1) n, block ∈ U) →
      ∃ tip first rest, tip.hash prim = att.l2BlockHash ∧
        acceptedBlocks prim served att (k + 1) n = first :: rest ∧
        first.header.prevHash = n.head.blockHash ∧
        ∀ block ∈ first :: rest, Ancestor prim U tip block := by
  intro k
  induction k with
  | zero =>
      intro n hlen hheight hU
      cases haccept : acceptNext prim served att n with
      | none => simp [acceptedBlocks, haccept] at hlen
      | some row =>
          obtain ⟨block, next⟩ := row
          have hlast : n.head.height + 1 = att.height := by
            apply UInt32.toNat_inj.mp
            rw [UInt32.toNat_add, UInt32.toNat_one, Nat.mod_eq_of_lt] <;>
              have := att.height.toNat_lt <;> omega
          obtain ⟨-, hend, -⟩ := checkL2Block_ok_iff.mp (acceptNext_some_iff.mp haccept).2
          rw [endAttestation, if_pos hlast, validateEnd, validateBlock_ok_iff] at hend
          simp only [acceptedBlocks, haccept, List.mem_singleton, forall_eq] at hU ⊢
          exact ⟨block, block, [], hend.2.1, rfl, (acceptNext_head haccept).2.1, by
            simpa using .tip hU⟩
  | succ k ih =>
      intro n hlen hheight hU
      rw [acceptedBlocks] at hlen hU ⊢
      cases haccept : acceptNext prim served att n with
      | none => simp [haccept] at hlen
      | some row =>
          obtain ⟨block, next⟩ := row
          simp only [haccept, List.length_cons, Nat.add_right_cancel_iff, List.mem_cons,
            forall_eq_or_imp] at hlen hU ⊢
          have hnext : (n.accept block next).head.height.toNat + (k + 1) = att.height.toNat := by
            rw [accept_height haccept, UInt32.toNat_add, UInt32.toNat_one, Nat.mod_eq_of_lt] <;>
              have := att.height.toNat_lt <;> omega
          obtain ⟨tip, first, rest, htip, hblocks, hprev, hall⟩ := ih hlen hnext hU.2
          have hlink : first.header.prevHash = block.hash prim := by
            rw [hprev, show (n.accept block next).head = headOf prim block from
              (acceptNext_head haccept).2.2, headOf]
          refine ⟨tip, block, first :: rest, htip, by rw [hblocks],
            (acceptNext_head haccept).2.1, ?_⟩
          exact ⟨.parent hU.1 (hall first (by simp)) hlink, hall⟩

end

/-! ### One batch -/

section

variable {prim : Primitives} {b : Batch} {n' : NodeState} {r : Except Halt Unit}
  {hits : List (CallSite × Fault)}

/-- What a call of `process_advance` does to the blocks. -/
theorem AdvanceEnds.blocks (h : AdvanceEnds prim b.served b.advance b.node r n' hits) :
    (∀ height block, b.node.store.getBlock height = some block →
      n'.store.getBlock height = some block) ∧
    (∀ height block, n'.store.getBlock height = some block →
      b.node.store.getBlock height = some block ∨ block ∈ b.accepted prim) ∧
    (n'.head = b.node.head ∨ ∃ height block, n'.store.getBlock height = some block ∧
      n'.head = headOf prim block) := by
  cases h with
  | known _ => exact ⟨fun _ _ h => h, fun _ _ h => Or.inl h, Or.inl rfl⟩
  | halted _ hrange => exact hrange.blocks
  | setAnchorHit f _ hrange => exact hrange.blocks
  | recordHit f _ hrange => exact hrange.blocks
  | done _ hrange => exact hrange.blocks

/-- A batch of which nothing is accepted leaves the node as it was. -/
theorem AdvanceEnds.unchanged (h : AdvanceEnds prim b.served b.advance b.node r n' hits)
    (hnone : b.accepted prim = []) : n' = b.node := by
  have hsize (hlt : b.node.head.height < b.advance.attestation.height) : b.size ≠ 0 := by
    rw [UInt32.lt_iff_toNat_lt] at hlt
    unfold Batch.size batchSize
    omega
  cases h with
  | known _ => rfl
  | halted _ hrange => exact (hrange.unchanged hnone).1
  | setAnchorHit f hlt hrange => exact absurd ((hrange.unchanged hnone).2 rfl) (hsize hlt)
  | recordHit f hlt hrange => exact absurd ((hrange.unchanged hnone).2 rfl) (hsize hlt)
  | done hlt hrange => exact absurd ((hrange.unchanged hnone).2 rfl) (hsize hlt)

/-- What a harmless batch accepts is in the history. -/
theorem Batch.Harmless.inHistory {U : Set L2Block} {chain : Chain} {start : OutPoint}
    (h : b.Harmless prim U chain start) (hatt : Attested chain start b.advance.attestation)
    (hU : ∀ height block, b.served.block height = some block → block ∈ U) :
    ∀ block ∈ b.accepted prim, InHistory prim U chain start block := by
  rcases h with hfull | hnone | ⟨hall, -⟩
  · intro block hblock
    obtain ⟨k, hk⟩ : ∃ k, b.size = k + 1 := by
      refine Nat.exists_eq_succ_of_ne_zero fun hzero => ?_
      rw [Batch.accepted, hzero] at hblock
      simp [acceptedBlocks] at hblock
    have hheight : b.node.head.height.toNat + (k + 1) = b.advance.attestation.height.toNat := by
      unfold Batch.size batchSize at hk
      omega
    unfold Batch.accepted at hfull hblock
    rw [hk] at hfull hblock
    obtain ⟨tip, first, rest, htip, hblocks, -, hanc⟩ := acceptedBlocks_linked hfull hheight
      fun block hblock => (mem_acceptedBlocks_served hblock).elim fun height hs =>
        hU height block hs
    exact ⟨_, tip, hatt, htip, hanc block (hblocks ▸ hblock)⟩
  · simp [hnone]
  · exact hall

end

/-! ### Every run -/

section

variable {prim : Primitives} {chain : Chain}

/-- The stored anchor is one of those that follow from the first, and every batch was for an
attestation on them. -/
structure Follows (chain : Chain) (start : OutPoint) (n : NodeState) (log : List Batch) : Prop where
  anchor : ∃ anchor, n.store.anchor = some anchor ∧ FollowedAnchor chain start anchor
  batches : ∀ b ∈ log, Attested chain start b.advance.attestation

theorem scan_of_onChain {env : Env} {h : Nat} {anchor : OutPoint} {adv : ChainAdvance}
    (henv : OnChain chain env)
    (hscan : scanBlockForChainAdvance env.chain h anchor = .ok (some adv)) :
    scanBlockForChainAdvance chain h anchor = .ok (some adv) := by
  obtain ⟨more, rfl⟩ := henv
  rw [scanBlock_append (scanBlock_some hscan).2.1, hscan]

/-- What a call of `process_advance` leaves as the anchor. -/
theorem AdvanceEnds.anchor {served : Served} {adv : ChainAdvance} {n n' : NodeState}
    {r : Except Halt Unit} {hits : List (CallSite × Fault)}
    (h : AdvanceEnds prim served adv n r n' hits) :
    n'.store.anchor = n.store.anchor ∨ n'.store.anchor = some adv.newAnchor := by
  cases h with
  | known _ => exact Or.inl rfl
  | halted _ hrange => exact Or.inl hrange.frame.1
  | setAnchorHit f _ hrange => exact Or.inl hrange.frame.1
  | recordHit f _ _ => exact Or.inr rfl
  | done _ _ => exact Or.inr rfl

theorem runKeeps_follows {start : OutPoint} :
    RunKeeps prim (OnChain chain) (Follows chain start) where
  tick henv :=
    { cursor := fun h => ⟨h.anchor, h.batches⟩
      advance := by
        intro n log h anchor adv r n' hits hn hanchor hscan hends
        obtain ⟨anchor', hanchor', hfollowed⟩ := hn.anchor
        obtain rfl := Option.some.inj (hanchor.symm.trans hanchor')
        have hscan := scan_of_onChain henv hscan
        refine ⟨?_, ?_⟩
        · rcases hends.anchor with hsame | hmoved
          · exact ⟨anchor, hsame.trans hanchor, hfollowed⟩
          · exact ⟨_, hmoved, .spent hfollowed hscan⟩
        · intro b hb
          rcases List.mem_append.mp hb with hold | hnew
          · exact hn.batches b hold
          · rw [List.mem_singleton] at hnew
            subst hnew
            exact ⟨anchor, h, adv, hfollowed, hscan, rfl⟩ }
  restart h _ := ⟨h.anchor, h.batches⟩

/-- While the batches in the log all meet `C`, every block is an old one or has `Q`; and the
head is the old one or a persisted block. -/
structure Persisted (prim : Primitives) (C : Batch → Prop) (Q : L2Block → Prop)
    (n₀ n : NodeState) (log : List Batch) : Prop where
  blocks : (∀ b ∈ log, C b) → ∀ height block, n.store.getBlock height = some block →
    n₀.store.getBlock height = some block ∨ Q block
  head : n.head = n₀.head ∨ ∃ height block, n.store.getBlock height = some block ∧
    n.head = headOf prim block

/-- **What the batches accept is all that a run persists.** -/
theorem runKeeps_persisted {allowed : Env → Prop} {C : Batch → Prop} {Q : L2Block → Prop}
    (hC : ∀ b, C b → ∀ block ∈ b.accepted prim, Q block) (n₀ : NodeState) :
    RunKeeps prim allowed (Persisted prim C Q n₀) where
  tick _ :=
    { cursor := fun h => ⟨h.blocks, h.head⟩
      advance := by
        intro n log h anchor adv r n' hits hn _ _ hends
        obtain ⟨hkeep, hnew, hhead⟩ := AdvanceEnds.blocks (b := ⟨n, adv, _⟩) hends
        refine ⟨fun hlog height block hblock => ?_, ?_⟩
        · rcases hnew height block hblock with hold | haccepted
          · exact hn.blocks (fun b hb => hlog b (by simp [hb])) height block hold
          · exact Or.inr (hC _ (hlog _ (by simp)) block haccepted)
        · rcases hhead with hsame | hmoved
          · rw [hsame]
            exact hn.head.imp_right fun ⟨height, block, hblock, hhead⟩ =>
              ⟨height, block, hkeep height block hblock, hhead⟩
          · exact Or.inr hmoved }
  restart hn hresume := by
    obtain ⟨height, block, -, hblock, hhead⟩ := resume_eq_some_iff.mp hresume
    exact ⟨hn.blocks, Or.inr ⟨height, block, hblock, hhead⟩⟩

/--
**When all batches of a run are harmless, everything it persists is attested.**  Every
block is one the node began with, the block of an attestation on the chain of anchors,
or an ancestor of one; the head is one of them; and a harmless batch whose last block is
not the attested one leaves the node as it was.
-/
theorem persisted_inHistory {U : Set L2Block} {start : OutPoint} {w₀ w : World}
    (hanchor : w₀.store.anchor = some start) (hlog : w₀.log = [])
    (hrun : NodeRun prim (OnChain chain) w₀ w)
    (hU : ∀ b ∈ w.log, ∀ height block, b.served.block height = some block → block ∈ U)
    (hharmless : ∀ b ∈ w.log, b.Harmless prim U chain start) :
    (∀ height block, w.store.getBlock height = some block →
      w₀.store.getBlock height = some block ∨ InHistory prim U chain start block) ∧
    (w.head = w₀.head ∨ ∃ height block, w.store.getBlock height = some block ∧
      w.head = headOf prim block) ∧
    ∀ env adv v, Batch.Harmless prim U chain start ⟨v.toNodeState, adv, env.served v.log.length⟩ →
      Batch.EndMismatch prim ⟨v.toNodeState, adv, env.served v.log.length⟩ →
        (processAdvance prim env adv v).2.toNodeState = v.toNodeState := by
  have hfollows := runKeeps_follows.run (w := w₀)
    ⟨⟨start, hanchor, .start⟩, by simp [hlog]⟩ hrun
  have hkept := (runKeeps_persisted (Q := InHistory prim U chain start)
    (C := fun b => b.Harmless prim U chain start ∧ Attested chain start b.advance.attestation ∧
      ∀ height block, b.served.block height = some block → block ∈ U)
    (fun b hb => hb.1.inHistory hb.2.1 hb.2.2) w₀.toNodeState).run
    ⟨fun _ _ _ h => Or.inl h, Or.inl rfl⟩ hrun
  refine ⟨hkept.blocks fun b hb => ⟨hharmless b hb, hfollows.batches b hb, hU b hb⟩,
    hkept.head, ?_⟩
  intro env adv v hbatch hmismatch
  rcases hcall : processAdvance prim env adv v with ⟨r, v'⟩
  obtain ⟨hits, hends, -⟩ := processAdvance_ends hcall
  rcases hbatch with hfull | hnone | ⟨-, hend⟩
  · have := hmismatch.1
    omega
  · exact AdvanceEnds.unchanged (b := ⟨v.toNodeState, adv, _⟩) hends hnone
  · exact absurd hmismatch hend

end

/-! ### A forged block below the attested one -/

def block2 : L2Block := emptyBlock block1 0

/-- Two blocks of another history, the first at the height of `block1`. -/
def forged1 : L2Block := emptyBlock block0 7

def forged2 : L2Block := emptyBlock forged1 0

/-- All blocks there are. -/
def allBlocks : List L2Block := [block0, block1, block2, forged1, forged2]

/-- A server of the other history, while L1 attests `block2`. -/
def forgedEnv : Env := shortEnv [forged1, forged2] block2 none

theorem attestationOf_hash (block : L2Block) :
    (attestationOf block).l2BlockHash = block.hash Primitives.headers := by
  unfold attestationOf Attestation.new
  with_reducible rfl

theorem attested_forgedEnv {att : Attestation} (h : Attested forgedEnv.chain anchor0 att) :
    att = attestationOf block2 := by
  obtain ⟨anchor, h, adv, -, hscan, rfl⟩ := h
  obtain ⟨-, hlen, tx, htx, -, hspends⟩ := scanBlock_some hscan
  obtain rfl : tx = attestingTx block2 := by simpa [forgedEnv, shortEnv, Chain.txs] using htx
  obtain rfl : anchor = anchor0 := by simpa [attestingTx] using hspends
  have hnone : scanBlockForChainAdvance forgedEnv.chain 0 anchor0 = .ok none := by decide +kernel
  have hsome : (scanBlockForChainAdvance forgedEnv.chain 1 anchor0).toOption.map
      (fun found => found.map (·.attestation)) = some (some (attestationOf block2)) := by
    decide +kernel
  rcases (by omega : h = 0 ∨ h = 1 ∨ 2 ≤ h) with rfl | rfl | hge
  · rw [hnone] at hscan
    cases hscan
  · rw [hscan] at hsome
    simpa [Except.toOption] using hsome
  · exact absurd hlen (Nat.not_lt.mpr hge)

theorem ancestor_block2 {block : L2Block}
    (h : Ancestor Primitives.headers {b | b ∈ allBlocks} block2 block) :
    block ∈ [block2, block1, block0] := by
  induction h with
  | tip _ => simp
  | @parent block child hblock _ hprev ih =>
      have hclosed : ∀ b ∈ allBlocks, ∀ c ∈ [block2, block1, block0],
          c.header.prevHash = b.hash Primitives.headers → b ∈ [block2, block1, block0] := by
        decide +kernel
      exact hclosed block hblock child ih hprev

/-- The tick fails at the last block of the batch, and has persisted the one before it, which is
in no attested history. -/
theorem persisted_forged : (∃ w, startWorld = some w ∧ w.store.getBlock 1 = none ∧
      (tick Primitives.headers forgedEnv 2 w).1
        = .error (.error (.attestedHash (forged2.hash Primitives.headers)
          (block2.hash Primitives.headers))) ∧
      (tick Primitives.headers forgedEnv 2 w).2.store.getBlock 1 = some forged1 ∧
      (tick Primitives.headers forgedEnv 2 w).2.head = headOf Primitives.headers forged1) ∧
    Set.InjOn Primitives.headers.sha256 {x | ∃ b ∈ allBlocks, x = b.header.preimage} ∧
    ¬ InHistory Primitives.headers {b | b ∈ allBlocks} forgedEnv.chain anchor0 forged1 := by
  refine ⟨?_, ?_, ?_⟩
  · have hrun : startWorld.map (fun w => (w.store.getBlock 1,
        (tick Primitives.headers forgedEnv 2 w).1,
        (tick Primitives.headers forgedEnv 2 w).2.store.getBlock 1,
        (tick Primitives.headers forgedEnv 2 w).2.head)) = some (none,
          .error (.error (.attestedHash (forged2.hash Primitives.headers)
            (block2.hash Primitives.headers))), some forged1,
          headOf Primitives.headers forged1) := by
      decide +kernel
    obtain ⟨w, hw, hfields⟩ := Option.map_eq_some_iff.mp hrun
    simp only [Prod.mk.injEq] at hfields
    exact ⟨w, hw, hfields⟩
  · have hinj : ∀ a ∈ allBlocks, ∀ b ∈ allBlocks,
        Primitives.headers.sha256 a.header.preimage = Primitives.headers.sha256 b.header.preimage →
          a.header.preimage = b.header.preimage := by
      decide +kernel
    rintro _ ⟨a, ha, rfl⟩ _ ⟨b, hb, rfl⟩ hsame
    exact hinj a ha b hb hsame
  · rintro ⟨att, tip, hatt, htip, hancestor⟩
    obtain rfl := attested_forgedEnv hatt
    have htips : ∀ b ∈ allBlocks, b.hash Primitives.headers = block2.hash Primitives.headers →
        b = block2 := by
      decide +kernel
    obtain rfl := htips tip hancestor.tip_mem (htip.trans (attestationOf_hash block2))
    have hnot : forged1 ∉ [block2, block1, block0] := by decide +kernel
    exact hnot (ancestor_block2 hancestor)

/-- An honest server, the same two heights: the batch goes through. -/
theorem persisted_inHistory_honest : ∃ w w', startWorld = some w ∧
    tick Primitives.headers (shortEnv [block1, block2] block2 none) 2 w = (.ok (), w') ∧
    ((∀ height block, w'.store.getBlock height = some block →
      w.store.getBlock height = some block ∨ InHistory Primitives.headers Set.univ
        (shortEnv [block1, block2] block2 none).chain anchor0 block) ∧
    (w'.head = w.head ∨ ∃ height block, w'.store.getBlock height = some block ∧
      w'.head = headOf Primitives.headers block) ∧
    ∀ env adv v, Batch.Harmless Primitives.headers Set.univ
        (shortEnv [block1, block2] block2 none).chain anchor0
        ⟨v.toNodeState, adv, env.served v.log.length⟩ →
      Batch.EndMismatch Primitives.headers ⟨v.toNodeState, adv, env.served v.log.length⟩ →
        (processAdvance Primitives.headers env adv v).2.toNodeState = v.toNodeState) := by
  have hread : startWorld.map (fun w => (w.store.anchor, w.log.length,
      (tick Primitives.headers (shortEnv [block1, block2] block2 none) 2 w).1,
      (tick Primitives.headers (shortEnv [block1, block2] block2 none) 2 w).2.log.map fun b =>
        ((b.accepted Primitives.headers).length, b.size)))
      = some (some anchor0, 0, .ok (), [(2, 2)]) := by
    decide +kernel
  obtain ⟨w, hw, hfields⟩ := Option.map_eq_some_iff.mp hread
  simp only [Prod.mk.injEq] at hfields
  obtain ⟨hanchor, hempty, hok, hlog⟩ := hfields
  rcases hrun : tick Primitives.headers (shortEnv [block1, block2] block2 none) 2 w with ⟨r, w'⟩
  rw [hrun] at hok hlog
  obtain rfl : r = .ok () := hok
  refine ⟨w, w', hw, hrun, persisted_inHistory hanchor
    (List.length_eq_zero_iff.mp hempty)
      (.single (.tick (List.prefix_refl _) hrun (by simp) (by simp))) (fun _ _ _ _ _ => trivial) ?_⟩
  intro b hb
  have hsize := List.mem_map_of_mem (f := fun b : Batch =>
    ((b.accepted Primitives.headers).length, b.size)) hb
  rw [hlog, List.mem_singleton, Prod.mk.injEq] at hsize
  exact Or.inl (hsize.1.trans hsize.2.symm)

end Hodlchain
