/-
A ledger of the touched accounts, beside the full one.

`Agrees` ties a light client's head to a full ledger.  Once the pre-proofs are the
ledger's own proofs at the touched addresses, the sparse ledger agrees with the
full one on what the block touches, the two replays go step by step together, and
the update list turns the old accounts into the new ones.
-/
import Hodlchain.Core.SmtUpdate
import Hodlchain.Core.StateTree
import Hodlchain.Core.Touched
import Hodlchain.Wallet.Verify

namespace Hodlchain

open LedgerState

/-- The head the light client holds describes the ledger `s`. -/
structure Agrees (prim : Primitives) (s : LedgerState) (head : VerifiedHead) : Prop where
  accountsRoot : head.accountsRoot = s.accountsRoot prim
  consumedNullifiers : head.consumedNullifiers = s.consumedNullifiers
  sequencerFeeAddress : head.sequencerFeeAddress = s.sequencerFeeAddress
  totalMintedAtoms : head.totalMintedAtoms = s.totalMintedAtoms
  ownLeaf : head.ownLeaf = (s.accountInclusionProof prim head.ownAddress).leaf
  ownPath : head.ownPath = (s.accountInclusionProof prim head.ownAddress).siblings

/-- Pre-proofs that are the ledger's own, one for each touched address. -/
structure GenuineProofs (prim : Primitives) (s : LedgerState) (txs : List L2Tx)
    (preProofs : List InclusionProof) : Prop where
  nodup : (preProofs.map (·.address)).Nodup
  proof : ∀ p ∈ preProofs, p = smtProof prim s.leaves p.address
  covers : ∀ a, a ∈ preProofs.map (·.address) ↔ a ∈ touchedAddresses txs s.sequencerFeeAddress

section

variable {prim : Primitives} {s : LedgerState} {txs : List L2Tx}
  {preProofs : List InclusionProof}

/-! ### The sparse ledger -/

theorem insertPreProof_get_ne {m : AccountMap} {p : InclusionProof} {a : L2Address}
    (h : p.address ≠ a) : (insertPreProof m p)[a]? = m[a]? := by
  rw [insertPreProof]
  split
  · rw [Std.ExtTreeMap.getElem?_insert, if_neg (by simpa using h)]
  · rfl

theorem insertPreProof_get_self {m : AccountMap} {p : InclusionProof}
    (h : m[p.address]? = none) : leafKindOf (insertPreProof m p)[p.address]? = p.leaf := by
  rw [insertPreProof]
  split
  · rename_i hleaf
    simp [hleaf, leafKindOf]
  · rename_i hleaf
    rw [h, hleaf]
    rfl

theorem foldl_insertPreProof_get_of_not_mem {a : L2Address} {ps : List InclusionProof} :
    ∀ {m : AccountMap}, a ∉ ps.map (·.address) → (ps.foldl insertPreProof m)[a]? = m[a]? := by
  induction ps with
  | nil => intro m _; rfl
  | cons p ps ih =>
      intro m ha
      simp only [List.map_cons, List.mem_cons, not_or] at ha
      rw [List.foldl_cons, ih ha.2, insertPreProof_get_ne (Ne.symm ha.1)]

theorem foldl_insertPreProof_get {p : InclusionProof} {ps : List InclusionProof} :
    ∀ {m : AccountMap}, (ps.map (·.address)).Nodup → p ∈ ps → m[p.address]? = none →
      leafKindOf (ps.foldl insertPreProof m)[p.address]? = p.leaf := by
  induction ps with
  | nil => intro m _ hp; simp at hp
  | cons q ps ih =>
      intro m hnd hp hm
      obtain ⟨hq, hnd'⟩ := List.nodup_cons.mp hnd
      rw [List.foldl_cons]
      rcases List.mem_cons.mp hp with rfl | hp'
      · rw [foldl_insertPreProof_get_of_not_mem hq, insertPreProof_get_self hm]
      · have hne : q.address ≠ p.address := fun hc =>
          hq (List.mem_map.mpr ⟨p, hp', hc.symm⟩)
        exact ih hnd' hp' (by rw [insertPreProof_get_ne hne, hm])

/-- The sparse ledger holds, at a proof's address, the account the proof shows. -/
theorem sparseAccounts_get (hnd : (preProofs.map (·.address)).Nodup) {p : InclusionProof}
    (hp : p ∈ preProofs) : leafKindOf (sparseAccounts preProofs)[p.address]? = p.leaf :=
  foldl_insertPreProof_get hnd hp (by simp)

theorem leafKindOf_inj {o o' : Option Account} : leafKindOf o = leafKindOf o' ↔ o = o' := by
  refine ⟨fun h => ?_, fun h => h ▸ rfl⟩
  rcases o with _ | ⟨b, n⟩ <;> rcases o' with _ | ⟨b', n'⟩ <;> simp_all [leafKindOf]

/-- **The sparse ledger agrees with the full one on what the block touches.** -/
theorem GenuineProofs.agreeOn {head : VerifiedHead} {witness : BlockWitness}
    (h : GenuineProofs prim s txs witness.preProofs) (hagree : Agrees prim s head) :
    AgreeOn (· ∈ touchedAddresses txs s.sequencerFeeAddress) s (sparseLedger head witness) where
  accounts a ha := by
    obtain ⟨p, hp, rfl⟩ := List.mem_map.mp ((h.covers a).mpr ha)
    have hleaf := sparseAccounts_get h.nodup hp
    rw [h.proof p hp] at hleaf
    exact (leafKindOf_inj.mp hleaf).symm
  consumedNullifiers := hagree.consumedNullifiers.symm
  totalMintedAtoms := hagree.totalMintedAtoms.symm
  sequencerFeeAddress := hagree.sequencerFeeAddress.symm

theorem touches_mem_touchedAddresses (fee : Option L2Address) :
    ∀ tx ∈ txs, ∀ a, tx.Touches fee a → a ∈ touchedAddresses txs fee :=
  fun tx htx _ ha => mem_touchedAddresses.mpr ⟨tx, htx, ha⟩

/-! ### The new accounts -/

theorem updateAddresses_sparseUpdates (sparse : LedgerState) :
    updateAddresses (sparseUpdates preProofs sparse) = preProofs.map (·.address) := by
  simp [updateAddresses, sparseUpdates]

theorem GenuineProofs.genuine (h : GenuineProofs prim s txs preProofs) (sparse : LedgerState) :
    Genuine prim s.leaves [] (sparseUpdates preProofs sparse) where
  under u _ := under_nil _
  proof u hu := by
    obtain ⟨p, hp, rfl⟩ := List.mem_map.mp hu
    exact h.proof p hp

/-- The update list turns the accounts before the block into those after it. -/
theorem GenuineProofs.postLeaves (h : GenuineProofs prim s txs preProofs) {s' sparse : LedgerState}
    (hagree : AgreeOn (· ∈ touchedAddresses txs s.sequencerFeeAddress) s' sparse)
    (hs' : s.replay prim txs = .ok s') :
    postLeaves (sparseUpdates preProofs sparse) s.leaves = s'.leaves := by
  funext a
  by_cases ha : a ∈ touchedAddresses txs s.sequencerFeeAddress
  · obtain ⟨p, hp, rfl⟩ := List.mem_map.mp ((h.covers a).mpr ha)
    have hfind : ∃ u, (sparseUpdates preProofs sparse).find?
        (fun u => u.preProof.address == p.address) = some u := by
      refine Option.isSome_iff_exists.mp (List.find?_isSome.mpr ⟨_, List.mem_map_of_mem hp, ?_⟩)
      simp
    obtain ⟨u, hu⟩ := hfind
    obtain ⟨q, hq, rfl⟩ := List.mem_map.mp (List.mem_of_find?_eq_some hu)
    have haddr : q.address = p.address := by simpa using List.find?_some hu
    simp only [Hodlchain.postLeaves, hu, haddr, leaves, hagree.accounts _ ha]
  · have hun : ∀ tx ∈ txs, ¬ tx.Touches s.sequencerFeeAddress a := fun tx htx hc =>
      ha (touches_mem_touchedAddresses _ tx htx a hc)
    rw [postLeaves_of_not_mem, leaves, leaves, replayFrom_get_of_untouched hun hs']
    intro u hu hc
    refine ha ((h.covers a).mp ?_)
    rw [← updateAddresses_sparseUpdates sparse]
    exact hc ▸ List.mem_map_of_mem hu

/-- **The two roots the client computes are the full ledger's**: the new accounts root, and
the refreshed proof of its own account. -/
theorem GenuineProofs.newRoots (h : GenuineProofs prim s txs preProofs) {head : VerifiedHead}
    (hagree : Agrees prim s head) {s' sparse : LedgerState}
    (hafter : AgreeOn (· ∈ touchedAddresses txs s.sequencerFeeAddress) s' sparse)
    (hs' : s.replay prim txs = .ok s') (height : UInt32) :
    newAccountsRoot prim height (sparseUpdates preProofs sparse) head.accountsRoot
        = .ok (s'.accountsRoot prim)
      ∧ refreshOwn prim height ⟨head.ownAddress, head.ownLeaf, head.ownPath⟩
          (sparseUpdates preProofs sparse) head.accountsRoot
        = .ok (s'.accountInclusionProof prim head.ownAddress) := by
  have hpost := h.postLeaves hafter hs'
  have hgen := h.genuine sparse
  have hnd : (updateAddresses (sparseUpdates preProofs sparse)).Nodup := by
    rw [updateAddresses_sparseUpdates]
    exact h.nodup
  have hown : (⟨head.ownAddress, head.ownLeaf, head.ownPath⟩ : InclusionProof)
      = smtProof prim s.leaves head.ownAddress := by
    simp only [hagree.ownLeaf, hagree.ownPath, accountInclusionProof_eq, smtProof]
  rw [hagree.accountsRoot, hown, accountsRoot_eq, accountsRoot_eq, accountInclusionProof_eq,
    ← hpost]
  by_cases hempty : sparseUpdates preProofs sparse = []
  · simp only [hempty, newAccountsRoot, refreshOwn, List.isEmpty_nil, if_true, postLeaves_nil,
      and_self]
  · have hne : (sparseUpdates preProofs sparse).isEmpty = false := by simpa using hempty
    simp only [newAccountsRoot, refreshOwn, hne, Bool.false_eq_true, if_false,
      applyUpdates_eq hgen hnd hempty, refreshObserver_eq hgen hnd, mapErr, and_self]

end

end Hodlchain
