/-
What a reader of `GET /balance` sees while a block is committed.

Both daemons commit a block in three steps: the ledger in memory is replaced, the rows
are written, the head is moved.  `Cells` has the two cells a reader reads, the rows, and
the bodies that are in the ledger and not under the head yet.  The ledger is always what
these bodies make of the row at the head, so an answer is about one block when they are
all empty.
-/
import Mathlib.Logic.Relation
import Hodlchain.Core.Accepted
import Hodlchain.Core.Rpc
import Hodlchain.Node.Feed

namespace Hodlchain

open LedgerState

section

variable (prim : Primitives)

/-- An answer about one block: the height and the root are in its header, the values are those of
the ledger after it. -/
structure BalanceResponse.Of (r : Row) (resp : BalanceResponse) : Prop where
  l2Height : resp.l2Height = r.block.header.height
  stateRoot : resp.stateRoot = r.block.header.stateRoot
  balance : resp.balance = r.state.balanceOf resp.address
  nonce : resp.nonce = r.state.nonceOf resp.address
  proof : resp.proof = r.state.accountInclusionProof prim resp.address
  stateComponents : resp.stateComponents = r.state.components prim
  totalMintedAtoms : resp.totalMintedAtoms = r.state.totalMintedAtoms

/-! ### The commit of a block -/

/-- How far it is. -/
inductive Phase where
  | idle
  | swapped (block : L2Block)
  | written (block : L2Block)

structure Cells where
  rows : UInt32 → Option Row
  state : LedgerState
  height : UInt32
  /-- The bodies swapped in since the head was set. -/
  since : List (List L2Tx)
  phase : Phase

inductive CellStep (c : Cells) : Cells → Prop
  | swap {block : L2Block} {state : LedgerState} (hphase : c.phase = .idle)
      (hstate : state = c.state.applyAll prim block.txs)
      (hroot : block.header.stateRoot = state.stateRoot prim) :
      CellStep c { c with
        state := state
        since := c.since ++ [block.txs]
        phase := .swapped block }
  | write {block : L2Block} {rows : UInt32 → Option Row} (hphase : c.phase = .swapped block)
      (hfree : c.rows block.header.height = none)
      (hrows : ∀ k, rows k = if block.header.height = k then some ⟨block, c.state⟩ else c.rows k) :
      CellStep c { c with rows := rows, phase := .written block }
  | setHead {block : L2Block} (hphase : c.phase = .written block) :
      CellStep c { c with height := block.header.height, since := [], phase := .idle }
  /-- A call ends where it is. -/
  | leave : CellStep c { c with phase := .idle }
  | restart {k : UInt32} {r : Row} (hrow : c.rows k = some r) :
      CellStep c ⟨c.rows, r.state, r.block.header.height, [], .idle⟩

/-- Any number of steps. -/
abbrev CellRun : Cells → Cells → Prop := Relation.ReflTransGen (CellStep prim)

/-- A block in memory has its root, and a written one its row. -/
def Phase.Sound (rows : UInt32 → Option Row) (state : LedgerState) : Phase → Prop
  | .idle => True
  | .swapped block => block.header.stateRoot = state.stateRoot prim
  | .written block => rows block.header.height = some ⟨block, state⟩

structure Cells.Sound (c : Cells) : Prop where
  rows : ∀ k r, c.rows k = some r →
    r.block.header.height = k ∧ r.block.header.stateRoot = r.state.stateRoot prim
  /-- The ledger is the row at the head and what was swapped in since. -/
  shown : ∃ r, c.rows c.height = some r ∧ c.state = r.state.applyAll prim c.since.flatten
  phase : c.phase.Sound prim c.rows c.state

end

section

variable {prim : Primitives} {c c' : Cells}

theorem Cells.Sound.step (h : c.Sound prim) (hstep : CellStep prim c c') : c'.Sound prim := by
  cases hstep with
  | @swap block state hphase hstate hroot =>
      obtain ⟨r, hrow, hshown⟩ := h.shown
      refine ⟨h.rows, ⟨r, hrow, ?_⟩, hroot⟩
      show state = r.state.applyAll prim (c.since ++ [block.txs]).flatten
      rw [hstate, hshown, List.flatten_append, List.flatten_singleton, applyAll_append]
  | @write block rows hphase hfree hrows =>
      have hphased := h.phase
      rw [hphase] at hphased
      refine ⟨fun k r hr => ?_, ?_, ?_⟩
      · have hr' : rows k = some r := hr
        rw [hrows] at hr'
        by_cases hk : block.header.height = k
        · rw [if_pos hk] at hr'
          rw [← Option.some.inj hr']
          exact ⟨hk, hphased⟩
        · rw [if_neg hk] at hr'
          exact h.rows k r hr'
      · obtain ⟨r, hrow, hshown⟩ := h.shown
        refine ⟨r, ?_, hshown⟩
        have hne : block.header.height ≠ c.height := by
          intro heq
          rw [← heq, hfree] at hrow
          cases hrow
        exact (hrows _).trans ((if_neg hne).trans hrow)
      · exact (hrows _).trans (if_pos rfl)
  | @setHead block hphase =>
      have hphased := h.phase
      rw [hphase] at hphased
      exact ⟨h.rows, ⟨_, hphased, rfl⟩, trivial⟩
  | leave => exact ⟨h.rows, h.shown, trivial⟩
  | @restart k r hrow =>
      refine ⟨h.rows, ⟨r, ?_, rfl⟩, trivial⟩
      show c.rows r.block.header.height = some r
      rw [(h.rows k r hrow).1]
      exact hrow

theorem Cells.Sound.run (h : c.Sound prim) (hrun : CellRun prim c c') : c'.Sound prim := by
  induction hrun with
  | refl => exact h
  | tail _ hstep ih => exact ih.step hstep

/-- **While nothing but empty bodies is ahead of the head, an answer is about the block there.** -/
theorem Cells.Sound.answer (h : c.Sound prim) (hempty : ∀ body ∈ c.since, body = [])
    (addr : L2Address) (effectiveNonce : UInt64) : ∃ r, c.rows c.height = some r ∧
      (c.state.balanceResponse prim c.height addr effectiveNonce).Of prim r := by
  obtain ⟨r, hrow, hshown⟩ := h.shown
  obtain ⟨hheight, hroot⟩ := h.rows _ r hrow
  rw [List.flatten_eq_nil_iff.mpr hempty] at hshown
  have hstate : c.state = r.state := hshown
  rw [hstate]
  exact ⟨r, hrow, hheight.symm, hroot.symm, rfl, rfl, rfl, rfl, rfl⟩

end

end Hodlchain
