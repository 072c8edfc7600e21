/-
A hash to evaluate the tree on.

The statements about the tree assume that some finite set of strings has no
collision.  A hash that counts has none among the strings of an empty tree: it
gives an empty subtree a number that grows with its height.
-/
import Hodlchain.Core.StateTree

namespace Hodlchain

open LedgerState Bytes MerkleTree

/-- A hash that counts: one more than the number its input spells, in 32 bytes. -/
def countingHash (x : Bytes) : H256 := ⟨ByteArr.ofNat 32 (beValue x + 1)⟩

/-- `Primitives.sample` with `countingHash`, which has no collision in an empty tree. -/
def Primitives.counting : Primitives := { Primitives.sample with sha256 := countingHash }

theorem beValue_countingHash (x : Bytes) :
    beValue (countingHash x).raw = (beValue x + 1) % 256 ^ 32 := beValue_beBytes 32 _

theorem beValue_emptyLeafPreimage : beValue emptyLeafPreimage < 256 ^ 22 := by decide

/-- An empty subtree counts its height. -/
theorem beValue_emptySubtreeHash {d : Nat} (hd : d ≤ treeDepth) :
    beValue (emptySubtreeHash Primitives.counting d).raw = beValue emptyLeafPreimage + 1 + d := by
  have hleaf := beValue_emptyLeafPreimage
  unfold treeDepth at hd
  induction d with
  | zero =>
      show beValue (countingHash emptyLeafPreimage).raw = _
      rw [beValue_countingHash]
      omega
  | succ d ih =>
      have hbelow := ih (by omega)
      show beValue (countingHash (branchPreimage (emptySubtreeHash Primitives.counting d)
        (emptySubtreeHash Primitives.counting d))).raw = _
      rw [beValue_countingHash, branchPreimage, beValue_append, H256.length_raw, hbelow]
      omega

/-- The strings hashed on a path of the empty tree, lowest first. -/
def emptyPreimage : Nat → Bytes
  | 0 => emptyLeafPreimage
  | d + 1 => branchPreimage (emptySubtreeHash Primitives.counting d)
      (emptySubtreeHash Primitives.counting d)

theorem countingHash_emptyPreimage (d : Nat) :
    Primitives.counting.sha256 (emptyPreimage d) = emptySubtreeHash Primitives.counting d := by
  cases d <;> rfl

theorem pathPreimages_empty (a : XOnlyPublicKey) {x : Bytes}
    (hx : x ∈ pathPreimages Primitives.counting LedgerState.new.leaves a) :
    ∃ d ≤ treeDepth, x = emptyPreimage d := by
  have hleaves : ∀ a, LedgerState.new.leaves a = .empty := fun a => by
    simp [leaves, LedgerState.new, leafKindOf]
  have hconst : ∀ p, treeLeaf Primitives.counting LedgerState.new.leaves p
      = emptyLeafHash Primitives.counting :=
    fun p => treeLeaf_of_empty fun a _ => by rw [hleaves a]; rfl
  rw [pathPreimages, pathPairs_const _ hconst, hleaves] at hx
  simp only [List.mem_cons, List.mem_map, List.mem_reverse, List.mem_range, length_path] at hx
  rcases hx with rfl | ⟨_, ⟨d, hd, rfl⟩, rfl⟩
  · exact ⟨0, Nat.zero_le _, rfl⟩
  · refine ⟨d + 1, hd, ?_⟩
    simp only [emptyPreimage, emptySubtreeHash_eq_constRoot]

theorem injOn_emptyPreimages {P : Set Bytes}
    (hP : ∀ x ∈ P, ∃ d ≤ treeDepth, x = emptyPreimage d) :
    Set.InjOn Primitives.counting.sha256 P := by
  intro x hx y hy hxy
  obtain ⟨d, hd, rfl⟩ := hP x hx
  obtain ⟨e, he, rfl⟩ := hP y hy
  rw [countingHash_emptyPreimage, countingHash_emptyPreimage] at hxy
  have hval := congrArg (fun h => beValue h.raw) hxy
  simp only [beValue_emptySubtreeHash hd, beValue_emptySubtreeHash he] at hval
  rw [show d = e by omega]

end Hodlchain
