/-
The sequencer's SQLite store.

As for the node: tables are maps, `kv` rows are fields, and `writeBlockAndState` is
one SQL transaction whose inserts carry no conflict clause.  The list of pending
attestations is one `kv` row.
-/
import Hodlchain.Node.Store

namespace Hodlchain.Sequencer

/-- An attestation posted and not yet final. -/
structure PendingAttestation where
  txid : Txid
  /-- The anchor it spent. -/
  spentAnchor : OutPoint
  /-- The anchor it created. -/
  newAnchor : OutPoint
  l2HeadHeight : UInt32
  postedAtL1Height : UInt32
deriving DecidableEq, Repr

structure Store where
  blocks : Std.ExtTreeMap UInt32 L2Block
  stateSnapshots : Std.ExtTreeMap UInt32 LedgerState
  blockWitnesses : Std.ExtTreeMap UInt32 BlockWitness
  l2HeadHeight : Option UInt32
  l1Cursor : Option UInt32
  anchor : Option OutPoint
  lastAttestedL1Height : Option UInt32
  pendingAttestations : List PendingAttestation

namespace Store

/-- `Store::open` on a new file. -/
def empty : Store := ⟨∅, ∅, ∅, none, none, none, none, []⟩

/-- The three rows of a block, and its height as the head's. -/
def insertBlock (s : Store) (block : L2Block) (state : LedgerState) (witness : BlockWitness) :
    Store :=
  { s with
    blocks := s.blocks.insert block.header.height block
    stateSnapshots := s.stateSnapshots.insert block.header.height state
    blockWitnesses := s.blockWitnesses.insert block.header.height witness
    l2HeadHeight := some block.header.height }

/-- `write_block_and_state`. -/
def writeBlockAndState (s : Store) (block : L2Block) (state : LedgerState)
    (witness : BlockWitness) : Except StoreError Store :=
  let height := block.header.height
  if height ∈ s.blocks then .error (.duplicateHeight height)
  else if height ∈ s.stateSnapshots then .error (.duplicateHeight height)
  else if height ∈ s.blockWitnesses then .error (.duplicateHeight height)
  else .ok (s.insertBlock block state witness)

/-- `load_latest_state`. -/
def loadLatestState (s : Store) : Option (UInt32 × LedgerState) := lastRow? s.stateSnapshots

/-- `get_block`. -/
def getBlock (s : Store) (height : UInt32) : Option L2Block := s.blocks[height]?

/-- `get_witness`. -/
def getWitness (s : Store) (height : UInt32) : Option BlockWitness := s.blockWitnesses[height]?

/-- `set_l1_cursor`. -/
def setL1Cursor (s : Store) (l1Height : UInt32) : Store := { s with l1Cursor := some l1Height }

/-- `set_anchor`. -/
def setAnchor (s : Store) (op : OutPoint) : Store := { s with anchor := some op }

/-- `set_last_attested_l1_height`. -/
def setLastAttestedL1Height (s : Store) (l1Height : UInt32) : Store :=
  { s with lastAttestedL1Height := some l1Height }

/-- `set_pending_attestations`. -/
def setPendingAttestations (s : Store) (list : List PendingAttestation) : Store :=
  { s with pendingAttestations := list }

/-- When a write succeeds, and what it leaves. -/
theorem writeBlockAndState_ok_iff {s s' : Store} {block : L2Block} {state : LedgerState}
    {witness : BlockWitness} : s.writeBlockAndState block state witness = .ok s' ↔
      (block.header.height ∉ s.blocks ∧ block.header.height ∉ s.stateSnapshots ∧
        block.header.height ∉ s.blockWitnesses) ∧ s' = s.insertBlock block state witness := by
  unfold writeBlockAndState
  by_cases hb : block.header.height ∈ s.blocks
  · simp [hb]
  · by_cases hs : block.header.height ∈ s.stateSnapshots
    · simp [hb, hs]
    · by_cases hw : block.header.height ∈ s.blockWitnesses
      · simp [hb, hs, hw]
      · simp only [hb, hs, hw, if_false, Except.ok.injEq, not_false_eq_true, true_and]
        exact eq_comm

theorem getBlock_insertBlock (s : Store) (block : L2Block) (state : LedgerState)
    (witness : BlockWitness) (height : UInt32) :
    (s.insertBlock block state witness).getBlock height
      = if block.header.height = height then some block else s.getBlock height := by
  unfold getBlock insertBlock
  rw [Std.ExtTreeMap.getElem?_insert]
  by_cases h : block.header.height = height
  · rw [if_pos h, if_pos (Std.compare_eq_iff_eq.mpr h)]
  · rw [if_neg h, if_neg (mt Std.compare_eq_iff_eq.mp h)]

/-- The other blocks are still there. -/
theorem getBlock_insertBlock_of_some {s : Store} {height : UInt32} {block block' : L2Block}
    (h : s.getBlock height = some block) (hfree : block'.header.height ∉ s.blocks)
    (state : LedgerState) (witness : BlockWitness) :
    (s.insertBlock block' state witness).getBlock height = some block := by
  have hne : block'.header.height ≠ height := by
    rintro rfl
    exact hfree (Std.ExtTreeMap.isSome_getElem?_iff_mem.mp (Option.isSome_of_eq_some h))
  rw [getBlock_insertBlock, if_neg hne]
  exact h

end Store

end Hodlchain.Sequencer
