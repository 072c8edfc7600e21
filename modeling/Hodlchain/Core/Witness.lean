/-
Block witnesses: the accounts a block touches, with their proofs before it.
-/
import Hodlchain.Core.State

namespace Hodlchain

/-- Proofs, against the prior state, of every account a block touches. -/
structure BlockWitness where
  height : UInt32
  priorAccountsRoot : H256
  preProofs : List InclusionProof
deriving DecidableEq, Repr

/-- One round of the loop of `touched_addresses`, over the set so far and whether a
transfer was seen. -/
def touch (acc : Std.ExtTreeSet L2Address × Bool) : L2Tx → Std.ExtTreeSet L2Address × Bool
  | .mint entry => (acc.1.insert entry.event.l2Destination, acc.2)
  | .transfer t => ((acc.1.insert t.body.sender).insert t.body.recipient, true)

/-- `touched_addresses`. -/
def touchedAddresses (txs : List L2Tx) (feeAddress : Option L2Address) : List L2Address :=
  let acc := txs.foldl touch (∅, false)
  let set :=
    if acc.2 then
      match feeAddress with
      | some addr => acc.1.insert addr
      | none => acc.1
    else acc.1
  set.toList

/-- `BlockWitness::build`. -/
def BlockWitness.build (prim : Primitives) (priorState : LedgerState) (txs : List L2Tx)
    (height : UInt32) : BlockWitness :=
  let touched := touchedAddresses txs priorState.sequencerFeeAddress
  { height := height
    priorAccountsRoot := priorState.accountsRoot prim
    preProofs := touched.map fun addr => priorState.accountInclusionProof prim addr }

/-! ### The touched set -/

/-- The addresses one transaction reads or writes, under a fee address. -/
def L2Tx.Touches (feeAddress : Option L2Address) (tx : L2Tx) (a : L2Address) : Prop :=
  match tx with
  | .mint entry => a = entry.event.l2Destination
  | .transfer t => a = t.body.sender ∨ a = t.body.recipient ∨ feeAddress = some a

theorem mem_foldl_touch {txs : List L2Tx} {a : L2Address} :
    ∀ acc : Std.ExtTreeSet L2Address × Bool,
      a ∈ (txs.foldl touch acc).1 ↔ a ∈ acc.1 ∨ ∃ tx ∈ txs, tx.Touches none a := by
  induction txs with
  | nil => simp
  | cons tx txs ih =>
      intro acc
      rw [List.foldl_cons, ih]
      cases tx with
      | mint entry =>
          simp only [touch, Std.ExtTreeSet.mem_insert, Std.compare_eq_iff_eq, List.mem_cons,
            exists_eq_or_imp, L2Tx.Touches, eq_comm (a := a)]
          tauto
      | transfer t =>
          simp only [touch, Std.ExtTreeSet.mem_insert, Std.compare_eq_iff_eq, List.mem_cons,
            exists_eq_or_imp, L2Tx.Touches, eq_comm (a := a), reduceCtorEq, or_false]
          tauto

/-- The flag is set by the transfers. -/
theorem foldl_touch_flag {txs : List L2Tx} :
    ∀ acc : Std.ExtTreeSet L2Address × Bool,
      (txs.foldl touch acc).2 = true ↔ acc.2 = true ∨ ∃ t, L2Tx.transfer t ∈ txs := by
  induction txs with
  | nil => simp
  | cons tx txs ih =>
      intro acc
      rw [List.foldl_cons, ih]
      cases tx with
      | mint entry => simp [touch]
      | transfer t => simp [touch]

/-- **`touched_addresses` lists exactly the addresses some transaction touches.** -/
theorem mem_touchedAddresses {txs : List L2Tx} {feeAddress : Option L2Address} {a : L2Address} :
    a ∈ touchedAddresses txs feeAddress ↔ ∃ tx ∈ txs, tx.Touches feeAddress a := by
  have hnone : (∃ tx ∈ txs, tx.Touches none a) ∨
      ((∃ t, L2Tx.transfer t ∈ txs) ∧ feeAddress = some a)
        ↔ ∃ tx ∈ txs, tx.Touches feeAddress a := by
    constructor
    · rintro (⟨tx, htx, h⟩ | ⟨⟨t, ht⟩, h⟩)
      · refine ⟨tx, htx, ?_⟩
        cases tx with
        | mint entry => exact h
        | transfer t => rcases h with h | h | h <;> simp_all [L2Tx.Touches]
      · exact ⟨_, ht, Or.inr (Or.inr h)⟩
    · rintro ⟨tx, htx, h⟩
      cases tx with
      | mint entry => exact Or.inl ⟨_, htx, h⟩
      | transfer t =>
          rcases h with h | h | h
          · exact Or.inl ⟨_, htx, Or.inl h⟩
          · exact Or.inl ⟨_, htx, Or.inr (Or.inl h)⟩
          · exact Or.inr ⟨⟨t, htx⟩, h⟩
  have hset := @mem_foldl_touch txs a (∅, false)
  have hflag := @foldl_touch_flag txs (∅, false)
  simp only [Std.ExtTreeSet.not_mem_empty, false_or, Bool.false_eq_true] at hset hflag
  rw [← hnone, ← hset, ← hflag]
  simp only [touchedAddresses, Std.ExtTreeSet.mem_toList]
  cases (txs.foldl touch (∅, false)).2 with
  | false => simp
  | true =>
      cases feeAddress with
      | none => simp
      | some addr =>
          simp only [if_true, Std.ExtTreeSet.mem_insert, Std.compare_eq_iff_eq, true_and,
            Option.some.injEq]
          exact or_comm

/-- The list is sorted and free of duplicates. -/
theorem touchedAddresses_pairwise (txs : List L2Tx) (feeAddress : Option L2Address) :
    (touchedAddresses txs feeAddress).Pairwise fun a b => compare a b = .lt :=
  Std.ExtTreeSet.ordered_toList

theorem touchedAddresses_nodup (txs : List L2Tx) (feeAddress : Option L2Address) :
    (touchedAddresses txs feeAddress).Nodup := by
  refine (touchedAddresses_pairwise txs feeAddress).imp ?_
  rintro a b h rfl
  simp at h

end Hodlchain
