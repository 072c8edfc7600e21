/-
The accounts root of a ledger is the root of its accounts.

`LedgerState.leaves` forgets how the account map is stored: it is the assignment
of a leaf to every address that the map makes.  The root and the proofs the ledger
computes are that assignment's.
-/
import Hodlchain.Core.SmtSpec
import Hodlchain.Core.State

namespace Hodlchain

theorem leafOf_toList (m : AccountMap) (a : L2Address) :
    leafOf m.toList a = leafKindOf m[a]? := by
  rw [leafOf]
  cases hfind : m.toList.find? (fun e => e.1 == a) with
  | none =>
      have hnone : m[a]? = none := by
        refine Std.ExtTreeMap.getElem?_eq_none fun hmem => ?_
        obtain ⟨acct, hacct⟩ := Option.isSome_iff_exists.mp
          (Std.ExtTreeMap.mem_iff_isSome_getElem?.mp hmem)
        have := List.find?_eq_none.mp hfind _
          (Std.ExtTreeMap.mem_toList_iff_getElem?_eq_some.mpr hacct)
        simp at this
      rw [hnone]
      rfl
  | some e =>
      obtain ⟨k, acct⟩ := e
      have hk : k = a := by simpa using List.find?_some hfind
      have hmem := Std.ExtTreeMap.mem_toList_iff_getElem?_eq_some.mp
        (List.mem_of_find?_eq_some hfind)
      rw [← hk, hmem]
      rfl

namespace LedgerState

/-- The leaf of every address. -/
def leaves (s : LedgerState) : Leaves := fun a => leafKindOf s.accounts[a]?

theorem leafOf_accounts (s : LedgerState) : leafOf s.accounts.toList = s.leaves :=
  funext fun a => leafOf_toList s.accounts a

theorem accountsRoot_eq (prim : Primitives) (s : LedgerState) :
    s.accountsRoot prim = smtRoot prim s.leaves := by
  rw [accountsRoot, computeRoot_eq, leafOf_accounts]

theorem accountInclusionProof_eq (prim : Primitives) (s : LedgerState) (a : L2Address) :
    s.accountInclusionProof prim a = smtProof prim s.leaves a := by
  rw [accountInclusionProof, computeProof_eq, leafOf_accounts]

end LedgerState

end Hodlchain
