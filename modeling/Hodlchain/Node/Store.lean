/-
The node's SQLite store.

The tables are maps, with the values their rows decode to; the `kv` rows are
fields.  `writeBlockAndState` is one SQL transaction: its inserts carry no conflict
clause, so a height that is already there fails all of it.
-/
import Hodlchain.Core.Block
import Hodlchain.Core.Witness
import Hodlchain.Lib.Table

namespace Hodlchain

open Bytes

/-- The two columns an outpoint is stored in, as one key. -/
def OutPoint.rowKey (op : OutPoint) : Bytes := op.txid.raw ++ be32 op.vout

theorem OutPoint.rowKey_inj {a b : OutPoint} (h : a.rowKey = b.rowKey) : a = b := by
  obtain ⟨htxid, hvout⟩ := (append_split (by simp)).mp h
  cases a; cases b
  simp_all

instance : Ord OutPoint := ⟨compareOn OutPoint.rowKey⟩

instance : Std.TransOrd OutPoint := inferInstanceAs (Std.TransCmp (compareOn OutPoint.rowKey))

instance : Std.LawfulEqOrd OutPoint where
  eq_of_compare {_ _} h := OutPoint.rowKey_inj (Std.LawfulEqOrd.eq_of_compare (α := Bytes) h)

/-- The node's tables. -/
structure NodeStore where
  blocks : Std.ExtTreeMap UInt32 L2Block
  stateSnapshots : Std.ExtTreeMap UInt32 LedgerState
  blockWitnesses : Std.ExtTreeMap UInt32 BlockWitness
  /-- From an anchor to the transaction that spent it, and its L1 height. -/
  anchorSpends : Std.ExtTreeMap OutPoint (Txid × Nat)
  l2HeadHeight : Option UInt32
  l1Cursor : Option Nat
  anchor : Option OutPoint

inductive StoreError where
  /-- The database refused a call. -/
  | io
  /-- A row with this primary key exists. -/
  | duplicateHeight (height : UInt32)
  /-- `anyhow!("inconsistent: state snapshot at h={height} without block")`. -/
  | snapshotWithoutBlock (height : UInt32)
deriving DecidableEq, Repr

namespace NodeStore

/-- `Store::open` on a new file. -/
def empty : NodeStore := ⟨∅, ∅, ∅, ∅, none, none, none⟩

/-- The three rows of a block, and its height as the head's. -/
def insertBlock (s : NodeStore) (block : L2Block) (state : LedgerState) (witness : BlockWitness) :
    NodeStore :=
  { s with
    blocks := s.blocks.insert block.header.height block
    stateSnapshots := s.stateSnapshots.insert block.header.height state
    blockWitnesses := s.blockWitnesses.insert block.header.height witness
    l2HeadHeight := some block.header.height }

/-- `write_block_and_state`. -/
def writeBlockAndState (s : NodeStore) (block : L2Block) (state : LedgerState)
    (witness : BlockWitness) : Except StoreError NodeStore :=
  let height := block.header.height
  if height ∈ s.blocks then .error (.duplicateHeight height)
  else if height ∈ s.stateSnapshots then .error (.duplicateHeight height)
  else if height ∈ s.blockWitnesses then .error (.duplicateHeight height)
  else .ok (s.insertBlock block state witness)

/-- `load_latest_state`: the row with the greatest height. -/
def loadLatestState (s : NodeStore) : Option (UInt32 × LedgerState) := lastRow? s.stateSnapshots

/-- `get_block`. -/
def getBlock (s : NodeStore) (height : UInt32) : Option L2Block := s.blocks[height]?

/-- `set_l1_cursor`. -/
def setL1Cursor (s : NodeStore) (l1Height : Nat) : NodeStore := { s with l1Cursor := some l1Height }

/-- `set_anchor`. -/
def setAnchor (s : NodeStore) (op : OutPoint) : NodeStore := { s with anchor := some op }

/-- `record_anchor_spend`. -/
def recordAnchorSpend (s : NodeStore) (spent : OutPoint) (spenderTxid : Txid)
    (spenderL1Height : Nat) : NodeStore :=
  { s with anchorSpends := s.anchorSpends.insert spent (spenderTxid, spenderL1Height) }

/-- `get_anchor_spender`. -/
def getAnchorSpender (s : NodeStore) (spent : OutPoint) : Option (Txid × Nat) :=
  s.anchorSpends[spent]?

/-- When a write succeeds, and what it leaves. -/
theorem writeBlockAndState_ok_iff {s s' : NodeStore} {block : L2Block} {state : LedgerState}
    {witness : BlockWitness} : s.writeBlockAndState block state witness = .ok s' ↔
      (block.header.height ∉ s.blocks ∧ block.header.height ∉ s.stateSnapshots ∧
        block.header.height ∉ s.blockWitnesses) ∧ s' = s.insertBlock block state witness := by
  unfold writeBlockAndState
  by_cases hb : block.header.height ∈ s.blocks
  · simp [hb]
  · by_cases hs : block.header.height ∈ s.stateSnapshots
    · simp [hb, hs]
    · by_cases hw : block.header.height ∈ s.blockWitnesses
      · simp [hb, hs, hw]
      · simp only [hb, hs, hw, if_false, Except.ok.injEq, not_false_eq_true, true_and]
        exact eq_comm

theorem getBlock_insertBlock (s : NodeStore) (block : L2Block) (state : LedgerState)
    (witness : BlockWitness) (height : UInt32) :
    (s.insertBlock block state witness).getBlock height
      = if block.header.height = height then some block else s.getBlock height := by
  unfold getBlock insertBlock
  rw [Std.ExtTreeMap.getElem?_insert]
  simp

theorem mem_blocks_of_getBlock {s : NodeStore} {height : UInt32} {block : L2Block}
    (h : s.getBlock height = some block) : height ∈ s.blocks := by
  unfold getBlock at h
  exact Std.ExtTreeMap.mem_iff_isSome_getElem?.mpr (by simp [h])

end NodeStore

end Hodlchain
