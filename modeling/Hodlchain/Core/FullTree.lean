/-
The plain full tree.

Every address has its slot in the complete tree of 256 levels, and every slot its
address.  Hashed without a shortcut, with the leaf of each address at its slot, the
tree has the root that `compute_root` gets from a list of the accounts: whatever the
order of the list, by a recursion that answers for an empty part from a table and
comes to a slot at full depth with one account in hand.
-/
import Mathlib.Data.Nat.Bitwise
import Hodlchain.Core.SmtSpec

namespace Hodlchain

open Bytes MerkleTree

/-! ### Slots -/

/-- The address whose bits are those of a path. -/
def addressAt (p : List Bool) : XOnlyPublicKey :=
  ⟨Vector.ofFn fun i : Fin 32 =>
    UInt8.ofNat (Nat.ofBits fun k : Fin 8 => p.getD (8 * i + (7 - k)) false)⟩

theorem bitAt_addressAt (p : List Bool) {d : Nat} (hd : d < treeDepth) :
    (bitAt (addressAt p) d != 0) = p.getD d false := by
  have hbyte : d / 8 < 32 := by
    unfold treeDepth at hd
    omega
  have hget : (addressAt p).serialize.getD (d / 8) 0
      = UInt8.ofNat (Nat.ofBits fun k : Fin 8 => p.getD (8 * (d / 8) + (7 - k)) false) := by
    simp [addressAt, XOnlyPublicKey.serialize, hbyte]
  have hfit : Nat.ofBits (fun k : Fin 8 => p.getD (8 * (d / 8) + (7 - k)) false) < 2 ^ 8 :=
    Nat.ofBits_lt_two_pow _
  unfold bitAt
  rw [hget]
  show ((_ >>> UInt8.ofNat (7 - d % 8)) &&& 1 != 0) = _
  rw [bit_eq_testBit _ (by omega), UInt8.toNat_ofNat_of_lt' hfit,
    Nat.testBit_ofBits_lt _ _ (by omega)]
  show p.getD (8 * (d / 8) + (7 - (7 - d % 8))) false = _
  rw [show 8 * (d / 8) + (7 - (7 - d % 8)) = d by omega]

/-- **Every slot is an address's.** -/
theorem path_addressAt {p : List Bool} (hp : p.length = treeDepth) : path (addressAt p) = p := by
  refine List.ext_getElem? fun d => ?_
  by_cases hd : d < treeDepth
  · rw [path_getElem? _ hd, bitAt_addressAt p hd, List.getD_eq_getElem?_getD]
    rw [List.getElem?_eq_getElem (hp ▸ hd), Option.getD_some]
  · rw [List.getElem?_eq_none (by simpa using Nat.le_of_not_lt hd),
      List.getElem?_eq_none (by omega)]

/-! ### The tree -/

section

variable (prim : Primitives)

/-- The leaf hash of an address in a map of accounts. -/
def slotHash (m : XOnlyPublicKey → Option Account) (a : XOnlyPublicKey) : H256 :=
  match m a with
  | some acct => populatedLeafHash prim a acct.balance acct.nonce
  | none => emptyLeafHash prim

/-- The hash of the node at a path, `height` levels above the slots. -/
def fullNode (m : XOnlyPublicKey → Option Account) (height : Nat) (p : List Bool) : H256 :=
  subRoot (branchHash prim) (fun slot => slotHash prim m (addressAt slot)) height p

/-- The root of the complete tree. -/
def fullRoot (m : XOnlyPublicKey → Option Account) : H256 := fullNode prim m treeDepth []

end

/-- A list of accounts has each account of the map once. -/
structure Enumerates (accounts : List (XOnlyPublicKey × Account))
    (m : XOnlyPublicKey → Option Account) : Prop where
  nodup : (accounts.map (·.1)).Nodup
  mem : ∀ a acct, (a, acct) ∈ accounts ↔ m a = some acct

/-- The calls that `root_recursive` makes: the levels left and the part it is given. -/
inductive RootCall (populated : List (XOnlyPublicKey × H256)) :
    Nat → List (XOnlyPublicKey × H256) → Prop
  | root : RootCall populated treeDepth populated
  | left {height : Nat} {part : List (XOnlyPublicKey × H256)} :
      RootCall populated (height + 1) part → part ≠ [] →
        RootCall populated height
          (part.partition fun e => bitAt e.1 (treeDepth - (height + 1)) == 0).1
  | right {height : Nat} {part : List (XOnlyPublicKey × H256)} :
      RootCall populated (height + 1) part → part ≠ [] →
        RootCall populated height
          (part.partition fun e => bitAt e.1 (treeDepth - (height + 1)) == 0).2

section

variable {prim : Primitives}

/-- What a list enumerates is what it has at each address. -/
theorem Enumerates.leafOf {accounts : List (XOnlyPublicKey × Account)}
    {m : XOnlyPublicKey → Option Account} (h : Enumerates accounts m) (a : XOnlyPublicKey) :
    leafOf accounts a = leafKindOf (m a) := by
  unfold Hodlchain.leafOf
  cases hfind : accounts.find? fun e => e.1 == a with
  | none =>
      cases hm : m a with
      | none => rfl
      | some acct =>
          have hmem := (h.mem a acct).mpr hm
          have hne := List.find?_eq_none.mp hfind _ hmem
          simp at hne
  | some e =>
      obtain ⟨a', acct⟩ := e
      have heq : a' = a := by simpa using List.find?_some hfind
      rw [← heq, (h.mem a' acct).mp (List.mem_of_find?_eq_some hfind)]
      rfl

theorem slotHash_eq {accounts : List (XOnlyPublicKey × Account)}
    {m : XOnlyPublicKey → Option Account} (h : Enumerates accounts m) (a : XOnlyPublicKey) :
    slotHash prim m a = (leafOf accounts a).leafHash prim a := by
  unfold slotHash
  rw [h.leafOf]
  cases m a <;> rfl

/-- The nodes of the full tree are those of the assignment that the list makes. -/
theorem fullNode_eq {accounts : List (XOnlyPublicKey × Account)}
    {m : XOnlyPublicKey → Option Account} (h : Enumerates accounts m) {height : Nat}
    {q : List Bool} (hq : q.length + height = treeDepth) : fullNode prim m height q
      = subRoot (branchHash prim) (treeLeaf prim (leafOf accounts)) height q := by
  refine subRoot_congr _ _ _ fun p hp => ?_
  have hpath : path (addressAt (q ++ p)) = q ++ p := by
    refine path_addressAt ?_
    rw [List.length_append, hp, hq]
  show slotHash prim m (addressAt (q ++ p)) = treeLeaf prim (leafOf accounts) (q ++ p)
  rw [slotHash_eq h, ← treeLeaf_path, hpath]

/-- **A subtree without accounts has the hash of the table.** -/
theorem fullNode_empty {m : XOnlyPublicKey → Option Account} {height : Nat} {q : List Bool}
    (hq : q.length + height = treeDepth) (hnone : ∀ a, Under q a → m a = none) :
    fullNode prim m height q = emptySubtreeHash prim height := by
  rw [emptySubtreeHash_eq_constRoot]
  refine subRoot_const _ _ _ fun p hp => ?_
  have hpath : path (addressAt (q ++ p)) = q ++ p := by
    refine path_addressAt ?_
    rw [List.length_append, hp, hq]
  show slotHash prim m (addressAt (q ++ p)) = _
  unfold slotHash
  rw [hnone _ (Under.of_append hpath)]

/-- A call is given accounts of one subtree, each once. -/
theorem RootCall.under {populated part : List (XOnlyPublicKey × H256)} {height : Nat}
    (hnodup : (populated.map (·.1)).Nodup) (h : RootCall populated height part) :
    (part.map (·.1)).Nodup ∧ ∃ q, q.length + height = treeDepth ∧ ∀ e ∈ part, Under q e.1 := by
  induction h with
  | root => exact ⟨hnodup, [], by simp, fun e _ => under_nil e.1⟩
  | @left height part _ _ ih =>
      obtain ⟨hpart, q, hq, hunder⟩ := ih
      have hdepth : treeDepth - (height + 1) = q.length := by omega
      rw [hdepth, partition_eq_sides]
      refine ⟨hpart.sublist (List.filter_sublist.map _), q ++ [false], by simp; omega,
        fun e he => ?_⟩
      obtain ⟨hmem, hbit⟩ := List.mem_filter.mp he
      exact (under_snoc (by omega)).mpr ⟨hunder e hmem, by simpa using hbit⟩
  | @right height part _ _ ih =>
      obtain ⟨hpart, q, hq, hunder⟩ := ih
      have hdepth : treeDepth - (height + 1) = q.length := by omega
      rw [hdepth, partition_eq_sides]
      refine ⟨hpart.sublist (List.filter_sublist.map _), q ++ [true], by simp; omega,
        fun e he => ?_⟩
      obtain ⟨hmem, hbit⟩ := List.mem_filter.mp he
      exact (under_snoc (by omega)).mpr ⟨hunder e hmem, by simpa using hbit⟩

/-- **A slot reached has one account.** -/
theorem RootCall.length_eq_one {populated part : List (XOnlyPublicKey × H256)}
    (hnodup : (populated.map (·.1)).Nodup) (h : RootCall populated 0 part) (hne : part ≠ []) :
    part.length = 1 := by
  obtain ⟨hpart, q, hq, hunder⟩ := h.under hnodup
  match part with
  | [] => exact absurd rfl hne
  | [_] => rfl
  | e :: e' :: rest =>
      have hpath := (hunder e (by simp)).path_eq hq
      have hpath' := (hunder e' (by simp)).path_eq hq
      have hsame : e.1 = e'.1 := path_inj (hpath.trans hpath'.symm)
      simp [hsame] at hpart

/-- **`compute_root` is the root of the plain full tree.**  For every list that enumerates a map of
accounts: its root is that of the complete tree with each address's leaf at its slot; so it does not
depend on the order, a subtree without accounts has the hash of the table at every height, and a
call that comes to a slot has exactly one account. -/
theorem computeRoot_full (prim : Primitives) {accounts : List (XOnlyPublicKey × Account)}
    {m : XOnlyPublicKey → Option Account} (h : Enumerates accounts m) :
    computeRoot prim accounts = fullRoot prim m ∧
    (∀ accounts', Enumerates accounts' m → computeRoot prim accounts' = computeRoot prim accounts) ∧
    (∀ height q, q.length + height = treeDepth → (∀ a, Under q a → m a = none) →
      fullNode prim m height q = emptySubtreeHash prim height) ∧
    ∀ part, RootCall (populatedLeaves prim accounts) 0 part → part ≠ [] → part.length = 1 := by
  have hroot : ∀ accounts', Enumerates accounts' m →
      computeRoot prim accounts' = fullRoot prim m := by
    intro accounts' h'
    rw [computeRoot_eq]
    exact (fullNode_eq h' (by simp)).symm
  refine ⟨hroot accounts h, fun accounts' h' => (hroot accounts' h').trans (hroot accounts h).symm,
    fun height q hq hnone => fullNode_empty hq hnone, fun part hcall hne => ?_⟩
  refine hcall.length_eq_one ?_ hne
  unfold populatedLeaves
  rw [List.map_map]
  exact h.nodup

end

/-- Two accounts, in one order and in the other. -/
theorem computeRoot_full_swapped :
    let e : XOnlyPublicKey × Account := (⟨ByteArr.ofNat 32 1⟩, ⟨100, 0⟩)
    let e' : XOnlyPublicKey × Account := (⟨ByteArr.ofNat 32 2⟩, ⟨200, 1⟩)
    computeRoot Primitives.sample [e', e] = computeRoot Primitives.sample [e, e'] := by
  intro e e'
  have hne : e.1 ≠ e'.1 := by decide
  have hmem : ∀ a acct, (a, acct) ∈ [e, e'] ↔
      (if a = e.1 then some e.2 else if a = e'.1 then some e'.2 else none) = some acct := by
    intro a acct
    by_cases hfirst : a = e.1
    · simp [hfirst, Prod.ext_iff, hne, eq_comm]
    · by_cases hsecond : a = e'.1
      · simp [hsecond, Prod.ext_iff, hne, hne.symm, eq_comm]
      · simp [hfirst, hsecond, Prod.ext_iff]
  have henum : Enumerates [e, e'] _ := ⟨by simpa using hne, hmem⟩
  refine (computeRoot_full Primitives.sample henum).2.1 [e', e] ⟨by simpa using hne.symm, ?_⟩
  intro a acct
  rw [← hmem a acct]
  simp [or_comm]

end Hodlchain
