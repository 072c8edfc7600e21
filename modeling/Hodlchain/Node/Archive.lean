/-
What a node serves to wallets.

A block goes into the store with the ledger after it and the witness that the ledger
before it builds.  A node that climbs along rows has all of them up to its head, so
each block it serves comes with the witness of the row below.
-/
import Hodlchain.Node.Feed
import Hodlchain.Node.Sections
import Hodlchain.Wallet.Served

namespace Hodlchain

/-! ### What a node answers -/

/-- `get_witness`. -/
def NodeStore.getWitness (s : NodeStore) (height : UInt32) : Option BlockWitness :=
  s.blockWitnesses[height]?

/-- The handlers that a wallet calls. -/
def NodeState.api (prim : Primitives) (n : NodeState) : ApiServer where
  getBlock := n.store.getBlock
  getWitness := n.store.getWitness
  balance addr := some (n.getBalance prim addr)
  getNullifiers := some n.state.consumedNullifiers.toList

theorem NodeStore.getWitness_insertBlock (s : NodeStore) (block : L2Block) (state : LedgerState)
    (witness : BlockWitness) (height : UInt32) :
    (s.insertBlock block state witness).getWitness height
      = if block.header.height = height then some witness else s.getWitness height := by
  unfold getWitness insertBlock
  rw [Std.ExtTreeMap.getElem?_insert]
  simp

/-- The rows up to the head are in the store, each with the witness that the ledger below it
builds. -/
structure Archived (prim : Primitives) (row : UInt32 → Option Row) (n : NodeState) : Prop where
  block : ∀ k, k ≤ n.head.height → ∃ r, row k = some r ∧ n.store.getBlock k = some r.block
  witness : ∀ k, k < n.head.height → ∃ p r, row k = some p ∧ row (k + 1) = some r ∧
    n.store.getWitness (k + 1) = some (BlockWitness.build prim p.state r.block.txs (k + 1))

section

variable {prim : Primitives} {served : Served} {row row' : UInt32 → Option Row} {n : NodeState}
  {r : Row} {m : UInt32} {att : Attestation}

theorem Archived.mono (h : Archived prim row n) (hrow : ∀ k r, row k = some r → row' k = some r) :
    Archived prim row' n := by
  refine ⟨fun k hk => ?_, fun k hk => ?_⟩
  · obtain ⟨r, hr, hblock⟩ := h.block k hk
    exact ⟨r, hrow k r hr, hblock⟩
  · obtain ⟨p, r, hp, hr, hwitness⟩ := h.witness k hk
    exact ⟨p, r, hrow k p hp, hrow _ r hr, hwitness⟩

/-- The next row is archived with the block that is accepted. -/
theorem Archived.accept (h : Archived prim row n) (hn : OnRow prim r n)
    (hr : row n.head.height = some r) {block : L2Block} {next : Accepted}
    (haccept : acceptNext prim served att n = some (block, next)) {r' : Row}
    (hr' : row (n.head.height + 1) = some r') (hblock : r'.block = block)
    (hup : (n.head.height + 1).toNat = n.head.height.toNat + 1) :
    Archived prim row (n.accept block next) := by
  obtain ⟨-, hcheck⟩ := acceptNext_some_iff.mp haccept
  obtain ⟨hheight, -, -, -, -, -, -, hwitness⟩ := checkL2Block_ok_iff.mp hcheck
  have hhead : (n.accept block next).head.height = n.head.height + 1 := accept_height haccept
  have hbelow : ∀ k : UInt32, k ≤ n.head.height → n.head.height + 1 ≠ k := by
    intro k hk heq
    rw [UInt32.le_iff_toNat_le, ← heq, hup] at hk
    omega
  refine ⟨fun k hk => ?_, fun k hk => ?_⟩
  · rw [hhead] at hk
    unfold NodeState.accept
    rw [NodeStore.getBlock_insertBlock, hheight]
    by_cases htop : n.head.height + 1 = k
    · rw [if_pos htop, ← htop, ← hblock]
      exact ⟨r', hr', rfl⟩
    · rw [if_neg htop]
      refine h.block k ?_
      have hne : (n.head.height + 1).toNat ≠ k.toNat := fun hc => htop (UInt32.toNat_inj.mp hc)
      rw [UInt32.le_iff_toNat_le] at hk ⊢
      omega
  · rw [hhead, UInt32.lt_iff_toNat_lt, hup] at hk
    unfold NodeState.accept
    rw [NodeStore.getWitness_insertBlock, hheight]
    by_cases htop : k = n.head.height
    · rw [htop, if_pos rfl]
      refine ⟨r, r', hr, hr', ?_⟩
      rw [hwitness, hn.state, hblock]
    · have hlt : k < n.head.height := by
        have hne : k.toNat ≠ n.head.height.toNat := fun hc => htop (UInt32.toNat_inj.mp hc)
        rw [UInt32.lt_iff_toNat_lt]
        omega
      have hle : k + 1 ≤ n.head.height := by
        rw [UInt32.le_iff_toNat_le, succ_toNat hlt]
        exact UInt32.lt_iff_toNat_lt.mp hlt
      rw [if_neg (hbelow _ hle)]
      exact h.witness k hlt

/-- So it is after each block of a batch. -/
theorem RangeEnds.archived (hfeed : Feed prim served row m)
    (hatt : ∀ r', row att.height = some r' → att = r'.block.attestation prim) (hm : att.height ≤ m)
    {k : ℕ} {result : Except Halt Unit} {n' : NodeState} {hits : List (CallSite × Fault)}
    (hends : RangeEnds prim served att k n result n' hits) (hresult : result = .ok ())
    (hk : n.head.height.toNat + k ≤ att.height.toNat) (h : Archived prim row n)
    (hn : ∃ r, OnRow prim r n ∧ row n.head.height = some r) : Archived prim row n' := by
  induction hends with
  | done => exact h
  | halted _ => cases hresult
  | @more k n n' result hits block next haccept _ _ ih =>
      obtain ⟨r, hrow, hr⟩ := hn
      rw [UInt32.le_iff_toNat_le] at hm
      have hroom : n.head.height < att.height := by
        rw [UInt32.lt_iff_toNat_lt]
        omega
      have hup : (n.head.height + 1).toNat = n.head.height.toNat + 1 := succ_toNat hroom
      obtain ⟨r', next', hr', haccept', hstate⟩ := hfeed.acceptNext hrow hr
        (UInt32.lt_of_lt_of_le hroom (UInt32.le_iff_toNat_le.mpr hm)) hatt
      obtain ⟨rfl, rfl⟩ := Prod.mk.inj (Option.some.inj (haccept'.symm.trans haccept))
      have hhead : (n.accept r'.block next').head.height = n.head.height + 1 :=
        accept_height haccept
      refine ih hresult (by rw [hhead, hup]; omega) (h.accept hrow hr haccept hr' rfl hup)
        ⟨r', ⟨hrow.synced.accept haccept hroom, hstate, (acceptNext_head haccept).2.2⟩, ?_⟩
      rw [hhead]
      exact hr'

/-- And after the call around the batch. -/
theorem AdvanceEnds.archived (hfeed : Feed prim served row m) {adv : ChainAdvance}
    (hatt : ∀ r', row adv.attestation.height = some r' →
      adv.attestation = r'.block.attestation prim)
    (hm : adv.attestation.height ≤ m) {n' : NodeState} {hits : List (CallSite × Fault)}
    (hends : AdvanceEnds prim served adv n (.ok ()) n' hits) (h : Archived prim row n)
    (hn : OnRow prim r n) (hr : row n.head.height = some r) : Archived prim row n' := by
  cases hends with
  | known => exact h
  | @done n₁ hlt hrange =>
      rw [UInt32.lt_iff_toNat_lt] at hlt
      have hafter := hrange.archived hfeed hatt hm rfl (by unfold batchSize; omega) h ⟨r, hn, hr⟩
      exact ⟨hafter.block, hafter.witness⟩

end

end Hodlchain
