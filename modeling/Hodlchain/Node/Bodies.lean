/-
Which bodies a node stores and serves.

A light client compares the transactions of every block with the `txs_root` of its
header.  The node compares them for the last block of a batch only, so the blocks
below it are stored with whatever body the server sent, as long as replaying it gives
the state root of the header.
-/
import Hodlchain.Node.History

namespace Hodlchain

section

variable {prim : Primitives}

/-- The body is the one the header commits to. -/
def L2Block.BodyMatches (prim : Primitives) (block : L2Block) : Prop :=
  computeTxsRoot prim block.txs = block.header.txsRoot

/-- Below the last height of a batch, every block it accepts has the body of its header. -/
def Batch.BodiesMatch (prim : Primitives) (b : Batch) : Prop :=
  ∀ block ∈ b.accepted prim, block.header.height < b.advance.attestation.height →
    block.BodyMatches prim

/-! ### What the light client refuses -/

/-- Prefetching fails with an L1 error. -/
theorem prefetchFrom_error {esplora : EsploraClient} {height tip : UInt32} {e : VerifyError} :
    ∀ {txs : List L2Tx} {i : Nat} {outputs : List (OutPoint × L1Output)},
      prefetchFrom esplora height tip i txs outputs = .error e →
      ∃ i txid cause, e = .l1Fetch i txid height cause := by
  intro txs
  induction txs with
  | nil => intro i outputs h; cases h
  | cons tx txs ih =>
      intro i outputs h
      cases tx with
      | transfer t => exact ih h
      | mint entry =>
          unfold prefetchFrom at h
          simp only at h
          split_ifs at h with hseen
          · exact ih h
          · cases hout : esplora.output tip entry.witness.outpoint with
            | error cause =>
                rw [hout] at h
                exact ⟨_, _, _, (Except.error.inj h).symm⟩
            | ok out =>
                rw [hout] at h
                exact ih h

theorem checkStructure_body {head : VerifiedHead} {height : UInt32}
    {endAttestation : Option Attestation} {block : L2Block} {witness : BlockWitness}
    (hbody : block.BodyMatches prim) (computed header : H256) (h : UInt32) :
    checkStructure prim head height endAttestation block witness
      ≠ .error (.txsRoot computed header h) := by
  unfold L2Block.BodyMatches at hbody
  cases endAttestation <;>
    simp [checkStructure, checkEndAttestation, bind_error_iff, ensure_error_iff, hbody]

theorem newAccountsRoot_error {height : UInt32} {updates : List Update} {priorRoot : H256}
    {e : VerifyError} (h : newAccountsRoot prim height updates priorRoot = .error e) :
    ∃ cause, e = .sparseUpdate height cause := by
  unfold newAccountsRoot at h
  split_ifs at h
  obtain ⟨cause, -, rfl⟩ := mapErr_error_iff.mp h
  exact ⟨cause, rfl⟩

theorem refreshOwn_error {height : UInt32} {observerPre : InclusionProof}
    {updates : List Update} {priorRoot : H256} {e : VerifyError}
    (h : refreshOwn prim height observerPre updates priorRoot = .error e) :
    ∃ cause, e = .observerRefresh height cause := by
  unfold refreshOwn at h
  split_ifs at h
  obtain ⟨cause, -, rfl⟩ := mapErr_error_iff.mp h
  exact ⟨cause, rfl⟩

/-- A block whose body matches is not refused for it. -/
theorem verifyOneL2Block_body {head : VerifiedHead} {height l1Tip : UInt32}
    {endAttestation : Option Attestation} {api : ApiClient} {esplora : EsploraClient}
    {block : L2Block} (hblock : api.getBlock height = some block)
    (hbody : block.BodyMatches prim) (computed header : H256) (h : UInt32) :
    verifyOneL2Block prim head height endAttestation l1Tip api esplora
      ≠ .error (.txsRoot computed header h) := by
  intro hrun
  simp only [verifyOneL2Block, prefetchL1ForBlock, bind_error_iff, ensure_error_iff,
    okOr_error_iff, mapErr_error_iff, okOr_ok_iff, hblock, Option.some.injEq, reduceCtorEq,
    and_false, exists_false, false_or, exists_eq_left', pure, Except.pure, or_false] at hrun
  obtain ⟨witness, -, hcheck |
    ⟨-, -, hpre | ⟨_, -, _, -, _, -, hroot | ⟨_, -, _, -, hown⟩⟩⟩⟩ := hrun
  · exact checkStructure_body hbody _ _ _ hcheck
  · obtain ⟨_, _, _, hne⟩ := prefetchFrom_error hpre
    cases hne
  · obtain ⟨_, hne⟩ := newAccountsRoot_error hroot
    cases hne
  · obtain ⟨_, hne⟩ := refreshOwn_error hown
    cases hne

/-- A block whose body does not match is. -/
theorem verifyOneL2Block_refuses {head : VerifiedHead} {l1Tip : UInt32} {api : ApiClient}
    {esplora : EsploraClient} {block : L2Block} {witness : BlockWitness}
    (hblock : api.getBlock block.header.height = some block)
    (hwitness : api.getWitness block.header.height = some witness)
    (hbody : ¬ block.BodyMatches prim) :
    verifyOneL2Block prim head block.header.height none l1Tip api esplora
      = .error (.txsRoot (computeTxsRoot prim block.txs) block.header.txsRoot
          block.header.height) := by
  unfold L2Block.BodyMatches at hbody
  simp only [verifyOneL2Block, bind_error_iff, okOr_error_iff, okOr_ok_iff, hblock, hwitness,
    Option.some.injEq, reduceCtorEq, false_and, false_or, exists_eq_left']
  left
  simp [checkStructure, checkEndAttestation, bind_error_iff, ensure_error_iff, hbody]

/-! ### What the node stores -/

/-- A batch goes no further than the attested height, where the body is checked. -/
theorem mem_acceptedBlocks_body {served : Served} {att : Attestation} {block : L2Block} :
    ∀ {k : Nat} {n : NodeState}, block ∈ acceptedBlocks prim served att k n →
      n.head.height.toNat + k ≤ att.height.toNat →
      block.header.height < att.height ∨ block.BodyMatches prim := by
  intro k
  induction k with
  | zero => intro n hmem _; simp [acceptedBlocks] at hmem
  | succ k ih =>
      intro n hmem hk
      have hbound := att.height.toNat_lt
      unfold acceptedBlocks at hmem
      cases haccept : acceptNext prim served att n with
      | none => simp [haccept] at hmem
      | some row =>
          obtain ⟨first, next⟩ := row
          simp only [haccept, List.mem_cons] at hmem
          rcases hmem with rfl | hrest
          · obtain ⟨hheight, hend, -⟩ := checkL2Block_ok_iff.mp (acceptNext_some_iff.mp haccept).2
            by_cases hlast : n.head.height + 1 = att.height
            · rw [endAttestation, if_pos hlast, validateEnd, validateBlock_ok_iff] at hend
              exact Or.inr hend.2.2.2
            · left
              rw [hheight, UInt32.lt_iff_toNat_lt]
              have hne : (n.head.height + 1).toNat ≠ att.height.toNat := fun h =>
                hlast (UInt32.toNat_inj.mp h)
              rw [UInt32.toNat_add, UInt32.toNat_one, Nat.mod_eq_of_lt (by omega)] at hne ⊢
              omega
          · refine ih hrest ?_
            rw [accept_height haccept, UInt32.toNat_add, UInt32.toNat_one,
              Nat.mod_eq_of_lt (by omega)]
            omega

/-- Blocks of a batch whose lower bodies match all match. -/
theorem Batch.BodiesMatch.accepted {b : Batch} (h : b.BodiesMatch prim) :
    ∀ block ∈ b.accepted prim, block.BodyMatches prim := by
  intro block hblock
  have hsize : b.size ≠ 0 := by
    intro hzero
    unfold Batch.accepted at hblock
    rw [hzero] at hblock
    simp [acceptedBlocks] at hblock
  have hrange : b.node.head.height.toNat + b.size ≤ b.advance.attestation.height.toNat := by
    unfold Batch.size batchSize at hsize ⊢
    omega
  rcases mem_acceptedBlocks_body hblock hrange with hlower | hbody
  · exact h block hblock hlower
  · exact hbody

/--
**The node stores no body that a light client refuses for its `txs_root`, as long as the
blocks it accepts below an attested one have the bodies of their headers.**
-/
theorem persisted_bodiesMatch {allowed : Env → Prop} {w₀ w : World}
    (hrun : NodeRun prim allowed w₀ w) (hbodies : ∀ b ∈ w.log, b.BodiesMatch prim) :
    ∀ height block, w.store.getBlock height = some block →
      w₀.store.getBlock height = some block ∨ block.BodyMatches prim ∧
        ∀ head h att l1Tip api esplora, ApiClient.getBlock api h = some block →
          ∀ computed header k, verifyOneL2Block prim head h att l1Tip api esplora
            ≠ .error (.txsRoot computed header k) := by
  intro height block hblock
  have hkept := (runKeeps_persisted (C := Batch.BodiesMatch prim)
    (fun b hb => hb.accepted) w₀.toNodeState).run
    ⟨fun _ _ _ h => Or.inl h, Or.inl rfl⟩ hrun
  refine (hkept.blocks hbodies height block hblock).imp_right fun hbody => ⟨hbody, ?_⟩
  intro head h att l1Tip api esplora hserved computed header k
  exact verifyOneL2Block_body hserved hbody computed header k

end

/-! ### A body that is not the header's -/

/-- `block1` with a header for another body. -/
def strayBody1 : L2Block :=
  { block1 with header := { block1.header with txsRoot := ⟨ByteArr.ofNat 32 1⟩ } }

def strayBody2 : L2Block := emptyBlock strayBody1 0

/-- The batch goes through, and the node has stored a block that every light client refuses. -/
theorem persisted_strayBody :
    (∃ w, startWorld = some w ∧ w.store.getBlock 1 = none ∧
      (tick Primitives.headers (shortEnv [strayBody1, strayBody2] strayBody2 none) 2 w).1
        = .ok () ∧
      (tick Primitives.headers (shortEnv [strayBody1, strayBody2] strayBody2 none) 2
        w).2.store.getBlock 1 = some strayBody1) ∧
    ∀ head l1Tip api esplora witness, ApiClient.getBlock api 1 = some strayBody1 →
      api.getWitness 1 = some witness →
      verifyOneL2Block Primitives.headers head 1 none l1Tip api esplora
        = .error (.txsRoot (computeTxsRoot Primitives.headers strayBody1.txs)
            strayBody1.header.txsRoot 1) := by
  constructor
  · have hrun : startWorld.map (fun w => (w.store.getBlock 1,
        (tick Primitives.headers (shortEnv [strayBody1, strayBody2] strayBody2 none) 2 w).1,
        (tick Primitives.headers (shortEnv [strayBody1, strayBody2] strayBody2 none) 2
          w).2.store.getBlock 1)) = some (none, .ok (), some strayBody1) := by
      decide +kernel
    obtain ⟨w, hw, hfields⟩ := Option.map_eq_some_iff.mp hrun
    simp only [Prod.mk.injEq] at hfields
    exact ⟨w, hw, hfields⟩
  · intro head l1Tip api esplora witness hblock hwitness
    have hheight : strayBody1.header.height = 1 := by decide
    have hbody : ¬ strayBody1.BodyMatches Primitives.headers := by
      unfold L2Block.BodyMatches
      decide
    rw [← hheight] at hblock hwitness
    have hrefused := @verifyOneL2Block_refuses Primitives.headers head l1Tip api esplora _ _ hblock
      hwitness hbody
    rwa [hheight] at hrefused

/-- An honest server: the bodies match. -/
theorem persisted_bodiesMatch_honest : ∃ w w', startWorld = some w ∧
    tick Primitives.headers (shortEnv [block1, block2] block2 none) 2 w = (.ok (), w') ∧
    ∀ height block, w'.store.getBlock height = some block →
      w.store.getBlock height = some block ∨ block.BodyMatches Primitives.headers ∧
        ∀ head h att l1Tip api esplora, ApiClient.getBlock api h = some block →
          ∀ computed header k, verifyOneL2Block Primitives.headers head h att l1Tip api esplora
            ≠ .error (.txsRoot computed header k) := by
  have hread : startWorld.map (fun w => (
      (tick Primitives.headers (shortEnv [block1, block2] block2 none) 2 w).1,
      (tick Primitives.headers (shortEnv [block1, block2] block2 none) 2 w).2.log.all fun b =>
        (b.accepted Primitives.headers).all fun block =>
          computeTxsRoot Primitives.headers block.txs == block.header.txsRoot))
      = some (.ok (), true) := by
    decide +kernel
  obtain ⟨w, hw, hfields⟩ := Option.map_eq_some_iff.mp hread
  simp only [Prod.mk.injEq, List.all_eq_true, beq_iff_eq] at hfields
  obtain ⟨hok, hbodies⟩ := hfields
  rcases hrun : tick Primitives.headers (shortEnv [block1, block2] block2 none) 2 w with ⟨r, w'⟩
  rw [hrun] at hok hbodies
  obtain rfl : r = .ok () := hok
  exact ⟨w, w', hw, hrun, @persisted_bodiesMatch _ (fun _ => True) _ _
    (.single (.tick trivial hrun (by simp) (by simp)))
    fun b hb block hblock _ => hbodies b hb block hblock⟩

end Hodlchain
