/-
What the sparse tree computes.

`Leaves` is the purpose of the component: an assignment of a leaf to every
address.  `smtRoot` and `smtProof` are the root and the proof of an assignment in
the complete 256-level tree, with no list, no shortcut for empty parts and no
caching.  The theorems here say the code computes those: `computeRoot` and
`computeProof` on a list of accounts, `applyUpdates` and `refreshObserver` on a
set of proofs.  The last two never see the account list, so what they rest on is
that an accepted proof is the assignment's own proof, `verify_sound`.
-/
import Hodlchain.Lib.MerkleTree
import Hodlchain.Core.Smt

namespace Hodlchain

open Bytes MerkleTree

/-! ### The path of an address -/

/-- The bits of an address, from the root down. -/
def path (a : XOnlyPublicKey) : List Bool := (List.range treeDepth).map fun d => bitAt a d != 0

@[simp] theorem length_path (a : XOnlyPublicKey) : (path a).length = treeDepth := by simp [path]

theorem path_getElem? (a : XOnlyPublicKey) {d : Nat} (hd : d < treeDepth) :
    (path a)[d]? = some (bitAt a d != 0) := by
  simp [path, hd]

/-- A bit of an address is 0 or 1, so comparing bits is comparing them with 0. -/
theorem bitAt_eq_iff {a b : XOnlyPublicKey} {d : Nat} :
    bitAt a d = bitAt b d ↔ (bitAt a d != 0) = (bitAt b d != 0) := by
  have hbit : ∀ x : UInt8, x &&& 1 = 0 ∨ x &&& 1 = 1 := by
    intro x
    have hval : (x &&& 1).toNat = x.toNat % 2 := by
      rw [UInt8.toNat_and]
      exact Nat.and_two_pow_sub_one_eq_mod _ 1
    rcases Nat.mod_two_eq_zero_or_one x.toNat with h | h
    · exact Or.inl (UInt8.toNat_inj.mp (hval.trans h))
    · exact Or.inr (UInt8.toNat_inj.mp (hval.trans h))
  refine ⟨fun h => by rw [h], fun h => ?_⟩
  rcases hbit (a.serialize.getD (d / 8) 0 >>> UInt8.ofNat (7 - d % 8)) with ha | ha <;>
    rcases hbit (b.serialize.getD (d / 8) 0 >>> UInt8.ofNat (7 - d % 8)) with hb | hb <;>
    simp_all [bitAt]

theorem bit_eq_testBit (x : UInt8) {k : Nat} (hk : k < 8) :
    ((x >>> UInt8.ofNat k) &&& 1 != 0) = x.toNat.testBit k := by
  have hk' : k % 256 % 8 = k := by omega
  have hval : ((x >>> UInt8.ofNat k) &&& 1).toNat = x.toNat / 2 ^ k % 2 := by
    rw [UInt8.toNat_and, UInt8.toNat_shiftRight]
    simp only [UInt8.toNat_ofNat', hk', Nat.shiftRight_eq_div_pow]
    exact Nat.and_two_pow_sub_one_eq_mod _ 1
  rw [Nat.testBit_eq_decide_div_mod_eq, ← hval]
  by_cases h : (x >>> UInt8.ofNat k) &&& 1 = 0
  · simp [h]
  · have hne : ((x >>> UInt8.ofNat k) &&& 1).toNat ≠ 0 := fun hc => h (UInt8.toNat_inj.mp hc)
    have hone : ((x >>> UInt8.ofNat k) &&& 1).toNat = 1 := by omega
    simp [h, hone]

/-- Distinct addresses have distinct paths. -/
theorem path_inj {a b : XOnlyPublicKey} (h : path a = path b) : a = b := by
  refine XOnlyPublicKey.serialize_inj.mp (List.ext_getElem (by simp) fun i hi hi' => ?_)
  have hi32 : i < 32 := by simpa using hi
  refine UInt8.toNat_inj.mp (Nat.eq_of_testBit_eq fun k => ?_)
  by_cases hk : k < 8
  · -- bit `k` of byte `i` is the bit at depth `8 i + (7 - k)`
    have hd : 8 * i + (7 - k) < treeDepth := by unfold treeDepth; omega
    have hbit := congrArg (·[8 * i + (7 - k)]?) h
    simp only [path_getElem? _ hd, Option.some.injEq] at hbit
    have hbyte : (8 * i + (7 - k)) / 8 = i := by omega
    have hoff : 7 - (8 * i + (7 - k)) % 8 = k := by omega
    simp only [bitAt, hbyte, hoff, List.getD_eq_getElem?_getD, List.getElem?_eq_getElem hi,
      List.getElem?_eq_getElem hi', Option.getD_some, bit_eq_testBit _ hk] at hbit
    exact hbit
  · have hpow : (256 : Nat) ≤ 2 ^ k :=
      Nat.pow_le_pow_right (by decide : 0 < 2) (by omega : 8 ≤ k)
    rw [Nat.testBit_lt_two_pow (Nat.lt_of_lt_of_le (UInt8.toNat_lt _) hpow),
      Nat.testBit_lt_two_pow (Nat.lt_of_lt_of_le (UInt8.toNat_lt _) hpow)]

/-- `a` lies in the subtree under `q`. -/
def Under (q : List Bool) (a : XOnlyPublicKey) : Prop := q <+: path a

theorem under_nil (a : XOnlyPublicKey) : Under [] a := List.nil_prefix

theorem under_snoc {q : List Bool} {a : XOnlyPublicKey} {b : Bool} (hq : q.length < treeDepth) :
    Under (q ++ [b]) a ↔ Under q a ∧ (bitAt a q.length != 0) = b := by
  have hbit := path_getElem? a hq
  constructor
  · rintro ⟨t, ht⟩
    refine ⟨⟨b :: t, by simpa using ht⟩, ?_⟩
    rw [← ht] at hbit
    simpa using hbit.symm
  · rintro ⟨⟨t, ht⟩, hb⟩
    rw [← ht, List.getElem?_append_right (Nat.le_refl _), Nat.sub_self] at hbit
    cases t with
    | nil => simp at hbit
    | cons c t =>
        simp only [List.getElem?_cons_zero, Option.some.injEq] at hbit
        exact ⟨t, by rw [← ht, hbit, hb]; simp⟩

/-- At full depth a subtree holds one address. -/
theorem Under.path_eq {q : List Bool} {a : XOnlyPublicKey} (h : Under q a)
    (hq : q.length = treeDepth) : path a = q :=
  (h.eq_of_length (by simp [hq])).symm

theorem Under.of_append {q p : List Bool} {a : XOnlyPublicKey} (h : path a = q ++ p) : Under q a :=
  ⟨p, h.symm⟩

/-! ### Assignments and their tree -/

/-- A leaf for every address. -/
abbrev Leaves := XOnlyPublicKey → LeafKind

section

variable (prim : Primitives)

/-- The leaf hash at the end of a path; a path of no address is an empty leaf. -/
noncomputable def treeLeaf (L : Leaves) (p : List Bool) : H256 :=
  open Classical in
  if h : ∃ a, path a = p then (L h.choose).leafHash prim h.choose else emptyLeafHash prim

/-- The root of an assignment. -/
noncomputable def smtRoot (L : Leaves) : H256 :=
  subRoot (branchHash prim) (treeLeaf prim L) treeDepth []

/-- The proof an assignment has for an address. -/
noncomputable def smtProof (L : Leaves) (a : XOnlyPublicKey) : InclusionProof :=
  { address := a
    leaf := L a
    siblings := (siblings (branchHash prim) (treeLeaf prim L) [] (path a)).reverse }

variable {prim}

theorem treeLeaf_path (L : Leaves) (a : XOnlyPublicKey) :
    treeLeaf prim L (path a) = (L a).leafHash prim a := by
  have h : ∃ b, path b = path a := ⟨a, rfl⟩
  rw [treeLeaf, dif_pos h, path_inj h.choose_spec]

theorem treeLeaf_of_empty {L : Leaves} {p : List Bool}
    (h : ∀ a, path a = p → (L a).leafHash prim a = emptyLeafHash prim) :
    treeLeaf prim L p = emptyLeafHash prim := by
  by_cases hp : ∃ a, path a = p
  · obtain ⟨a, rfl⟩ := hp
    rw [treeLeaf_path, h a rfl]
  · rw [treeLeaf, dif_neg hp]

/-- Subtrees agree where the assignments do. -/
theorem subRoot_treeLeaf_congr {L L' : Leaves} {q : List Bool} (height : Nat)
    (h : ∀ a, Under q a → L a = L' a) :
    subRoot (branchHash prim) (treeLeaf prim L) height q
      = subRoot (branchHash prim) (treeLeaf prim L') height q := by
  refine subRoot_congr _ _ _ fun p _ => ?_
  by_cases hp : ∃ a, path a = q ++ p
  · obtain ⟨a, ha⟩ := hp
    rw [← ha, treeLeaf_path, treeLeaf_path, h a (Under.of_append ha)]
  · rw [treeLeaf, treeLeaf, dif_neg hp, dif_neg hp]

theorem emptySubtreeHash_eq_constRoot (d : Nat) :
    emptySubtreeHash prim d = constRoot (branchHash prim) (emptyLeafHash prim) d := by
  induction d with
  | zero => rfl
  | succ d ih => rw [emptySubtreeHash, constRoot, ih]

/-! ### Roots and proofs of a list -/

/-- The hash a list of populated leaves has at an address. -/
def hashAt (prim : Primitives) (populated : List (XOnlyPublicKey × H256))
    (a : XOnlyPublicKey) : H256 :=
  ((populated.find? fun e => e.1 == a).map (·.2)).getD (emptyLeafHash prim)

theorem hashAt_filter {populated : List (XOnlyPublicKey × H256)} {a : XOnlyPublicKey}
    (keep : XOnlyPublicKey → Bool) (ha : keep a = true) :
    hashAt prim (populated.filter fun e => keep e.1) a = hashAt prim populated a := by
  have : (fun e : XOnlyPublicKey × H256 => decide (keep e.1 = true ∧ (e.1 == a) = true))
      = fun e => e.1 == a := by
    funext e
    by_cases he : e.1 = a
    · simp [he, ha]
    · simp [he]
  rw [hashAt, hashAt, List.find?_filter, this]

/-- The part of a list that represents an assignment under `q`. -/
structure Represents (prim : Primitives) (L : Leaves) (q : List Bool)
    (populated : List (XOnlyPublicKey × H256)) : Prop where
  under : ∀ e ∈ populated, Under q e.1
  hash : ∀ a, Under q a → hashAt prim populated a = (L a).leafHash prim a

/-- The side of a list under `q ++ [b]`. -/
theorem Represents.side {L : Leaves} {q : List Bool} {populated : List (XOnlyPublicKey × H256)}
    (h : Represents prim L q populated) (hq : q.length < treeDepth) (b : Bool) :
    Represents prim L (q ++ [b])
      (populated.filter fun e => (bitAt e.1 q.length != 0) == b) where
  under e he := by
    obtain ⟨hmem, hbit⟩ := List.mem_filter.mp he
    exact (under_snoc hq).mpr ⟨h.under e hmem, by simpa using hbit⟩
  hash a ha := by
    obtain ⟨hqa, hbit⟩ := (under_snoc hq).mp ha
    rw [hashAt_filter (fun k => (bitAt k q.length != 0) == b) (by simpa using hbit)]
    exact h.hash a hqa

/-- The split at a depth, as the two sides of the prefix. -/
theorem partition_eq_sides {α : Type} (key : α → XOnlyPublicKey) (l : List α) (d : Nat) :
    l.partition (fun x => bitAt (key x) d == 0)
      = (l.filter (fun x => (bitAt (key x) d != 0) == false),
         l.filter (fun x => (bitAt (key x) d != 0) == true)) := by
  rw [List.partition_eq_filter_filter]
  congr 1 <;> refine List.filter_congr fun x _ => ?_
  · cases h : bitAt (key x) d == 0 <;> simp [bne, h]
  · cases h : bitAt (key x) d == 0 <;> simp [bne, h]

/-- A leaf of the tree, read off the part that represents it. -/
theorem Represents.leaf {L : Leaves} {q : List Bool} {populated : List (XOnlyPublicKey × H256)}
    (h : Represents prim L q populated) (hq : q.length = treeDepth) :
    (populated.head?.map (·.2)).getD (emptyLeafHash prim) = treeLeaf prim L q := by
  cases populated with
  | nil =>
      refine (treeLeaf_of_empty fun a ha => ?_).symm
      exact (h.hash a (Under.of_append (p := []) (by simpa using ha))).symm
  | cons e rest =>
      have he := h.under e (by simp)
      rw [← he.path_eq hq, treeLeaf_path, ← h.hash e.1 he]
      simp [hashAt]

/-- An empty part is an empty subtree. -/
theorem Represents.empty {L : Leaves} {q : List Bool} (h : Represents prim L q []) (height : Nat) :
    subRoot (branchHash prim) (treeLeaf prim L) height q = emptySubtreeHash prim height := by
  rw [emptySubtreeHash_eq_constRoot]
  refine subRoot_const _ _ _ fun p _ => treeLeaf_of_empty fun a ha => ?_
  exact (h.hash a (Under.of_append ha)).symm

/-- **The list recursion computes the node of the assignment it represents.** -/
theorem rootRecursive_eq {L : Leaves} :
    ∀ (height : Nat) (q : List Bool) (populated : List (XOnlyPublicKey × H256)),
      q.length + height = treeDepth → Represents prim L q populated →
      rootRecursive prim height populated
        = subRoot (branchHash prim) (treeLeaf prim L) height q := by
  intro height
  induction height with
  | zero => intro q populated hq h; exact h.leaf hq
  | succ height ih =>
      intro q populated hq h
      have hlt : q.length < treeDepth := by omega
      have hdepth : treeDepth - (height + 1) = q.length := by omega
      cases populated with
      | nil => exact (h.empty (height + 1)).symm
      | cons e rest =>
          have hside : ∀ b, rootRecursive prim height
              ((e :: rest).filter fun e => (bitAt e.1 q.length != 0) == b)
                = subRoot (branchHash prim) (treeLeaf prim L) height (q ++ [b]) :=
            fun b => ih (q ++ [b]) _ (by simp; omega) (h.side hlt b)
          rw [rootRecursive, if_neg (by simp)]
          simp only [hdepth, partition_eq_sides, subRoot, hside]

/-- The siblings pushed are the assignment's, from the leaf up. -/
theorem proofRecursive_eq {L : Leaves} (target : XOnlyPublicKey) :
    ∀ (height : Nat) (q p : List Bool) (populated : List (XOnlyPublicKey × H256)),
      q ++ p = path target → p.length = height → Represents prim L q populated →
      proofRecursive prim target height populated
        = (subRoot (branchHash prim) (treeLeaf prim L) height q,
           (siblings (branchHash prim) (treeLeaf prim L) q p).reverse) := by
  intro height
  induction height with
  | zero =>
      intro q p populated hpath hp h
      obtain rfl : p = [] := List.length_eq_zero_iff.mp hp
      have hq : q.length = treeDepth := by
        rw [← length_path target, ← hpath, List.append_nil]
      rw [proofRecursive, ← emptyLeafHash, h.leaf hq]
      rfl
  | succ height ih =>
      intro q p populated hpath hp h
      have hlen : q.length + p.length = treeDepth := by
        rw [← length_path target, ← hpath, List.length_append]
      have hlt : q.length < treeDepth := by omega
      have hdepth : treeDepth - (height + 1) = q.length := by omega
      cases p with
      | nil => simp at hp
      | cons b p =>
          have hp' : p.length = height := by simpa using hp
          have hbit : (bitAt target q.length != 0) = b := by
            have := path_getElem? target hlt
            rw [← hpath, List.getElem?_append_right (Nat.le_refl _)] at this
            simpa using this.symm
          have hthis := ih (q ++ [b]) p _ (by simpa using hpath) hp' (h.side hlt b)
          have hother := rootRecursive_eq height (q ++ [!b]) _ (by simp; omega) (h.side hlt (!b))
          rw [proofRecursive]
          simp only [hdepth, partition_eq_sides]
          cases b with
          | false =>
              have h0 : bitAt target q.length = 0 := by simpa using hbit
              simp only [Bool.not_false] at hother
              simp only [if_pos h0, hthis, hother]
              simp [subRoot, siblings, hp']
          | true =>
              have h0 : bitAt target q.length ≠ 0 := by simpa using hbit
              simp only [Bool.not_true] at hother
              simp only [if_neg h0, hthis, hother]
              simp [subRoot, siblings, hp']

theorem hashAt_populatedLeaves (accounts : List (XOnlyPublicKey × Account)) (a : XOnlyPublicKey) :
    hashAt prim (populatedLeaves prim accounts) a = (leafOf accounts a).leafHash prim a := by
  induction accounts with
  | nil => rfl
  | cons e rest ih =>
      by_cases he : e.1 = a
      · simp [hashAt, populatedLeaves, leafOf, he, LeafKind.leafHash]
      · simpa [hashAt, populatedLeaves, leafOf, he] using ih

theorem represents_populatedLeaves (accounts : List (XOnlyPublicKey × Account)) :
    Represents prim (leafOf accounts) [] (populatedLeaves prim accounts) where
  under e _ := under_nil e.1
  hash a _ := hashAt_populatedLeaves accounts a

/-- **`compute_root` is the root of the assignment the list makes.** -/
theorem computeRoot_eq (accounts : List (XOnlyPublicKey × Account)) :
    computeRoot prim accounts = smtRoot prim (leafOf accounts) :=
  rootRecursive_eq treeDepth [] _ (by simp) (represents_populatedLeaves accounts)

/-- **`compute_proof` is the proof of the assignment the list makes.** -/
theorem computeProof_eq (accounts : List (XOnlyPublicKey × Account)) (a : XOnlyPublicKey) :
    computeProof prim accounts a = smtProof prim (leafOf accounts) a := by
  have h := proofRecursive_eq a treeDepth [] (path a) _ (by simp) (by simp)
    (@represents_populatedLeaves prim accounts)
  simp only [computeProof, smtProof, h]

/-! ### Verifying a proof

The loop of `verify` runs from the deepest bit up, so it climbs the path with the
siblings reversed.
-/

theorem foldl_eq_climb (a : XOnlyPublicKey) (sibs : List H256) (leaf : H256)
    (hlen : sibs.length = treeDepth) :
    ∀ (n k : Nat), k + n = treeDepth →
      (List.range' k n).reverse.foldl (fun current d =>
          if bitAt a d = 0 then branchHash prim current (sibs.getD (treeDepth - 1 - d) default)
          else branchHash prim (sibs.getD (treeDepth - 1 - d) default) current) leaf
        = climb (branchHash prim) leaf ((path a).drop k) (sibs.reverse.drop k) := by
  intro n
  induction n with
  | zero =>
      intro k hk
      have hnil : (path a).drop k = [] := List.drop_eq_nil_of_le (by simp; omega)
      simp [hnil, climb]
  | succ n ih =>
      intro k hk
      have hkd : k < treeDepth := by omega
      have hrev : k < sibs.reverse.length := by simp [hlen, hkd]
      have hpath : k < (path a).length := by simp [hkd]
      have hbit : (path a)[k] = (bitAt a k != 0) := by
        have := path_getElem? a hkd
        rw [List.getElem?_eq_getElem hpath] at this
        simpa using this
      have hsib : sibs.reverse[k] = sibs.getD (treeDepth - 1 - k) default := by
        rw [List.getElem_reverse, List.getD_eq_getElem?_getD, List.getElem?_eq_getElem (by omega)]
        simp [hlen]
      rw [List.range'_succ, List.reverse_cons, List.foldl_append, ih (k + 1) (by omega),
        List.drop_eq_getElem_cons hpath, List.drop_eq_getElem_cons hrev, hbit, hsib]
      by_cases h0 : bitAt a k = 0 <;> simp [climb, h0]

/-- `verify` is one length check and one climb. -/
theorem verify_iff (p : InclusionProof) (root : H256) :
    p.verify prim root = true ↔
      p.siblings.length = treeDepth ∧
        climb (branchHash prim) (p.leaf.leafHash prim p.address) (path p.address)
          p.siblings.reverse = root := by
  by_cases hlen : p.siblings.length = treeDepth
  · have hfold := @foldl_eq_climb prim p.address p.siblings
      (p.leaf.leafHash prim p.address) hlen treeDepth 0 (by simp)
    rw [List.drop_zero, List.drop_zero, ← List.range_eq_range'] at hfold
    simp only [InclusionProof.verify, hlen, ne_eq, not_true_eq_false, if_false, hfold, beq_iff_eq,
      true_and]
  · simp [InclusionProof.verify, hlen]

@[simp] theorem length_siblings_smtProof (L : Leaves) (a : XOnlyPublicKey) :
    (smtProof prim L a).siblings.length = treeDepth := by simp [smtProof]

/-- **An assignment's proof verifies against its root.** -/
theorem verify_smtProof (L : Leaves) (a : XOnlyPublicKey) :
    (smtProof prim L a).verify prim (smtRoot prim L) = true := by
  rw [verify_iff]
  refine ⟨by simp, ?_⟩
  have h := climb_siblings (branchHash prim) (treeLeaf prim L) (path a) []
  rw [List.nil_append, length_path, treeLeaf_path] at h
  simpa [smtProof, smtRoot] using h

/-! ### Binding

The strings hashed while a proof is verified, and those hashed at the nodes of the
tree above the proof's address.  A collision among them is the only way to pass
with a leaf or a sibling that is not the tree's.
-/

theorem populatedLeafPreimage_inj {a : XOnlyPublicKey} {b n b' n' : UInt64} :
    populatedLeafPreimage a b n = populatedLeafPreimage a b' n' ↔ b = b' ∧ n = n' := by
  simp [populatedLeafPreimage, append_split]

theorem leafPreimage_inj {a : XOnlyPublicKey} {l l' : LeafKind}
    (h : l.leafPreimage a = l'.leafPreimage a) : l = l' := by
  have hlen : ∀ b n, (populatedLeafPreimage a b n).length ≠ emptyLeafPreimage.length := by
    intro b n
    simp [populatedLeafPreimage, emptyLeafPreimage]
    decide
  cases l with
  | account b n =>
      cases l' with
      | account b' n' => rw [(populatedLeafPreimage_inj.mp h).1, (populatedLeafPreimage_inj.mp h).2]
      | empty => exact absurd (congrArg List.length h) (hlen b n)
  | empty =>
      cases l' with
      | account b n => exact absurd (congrArg List.length h).symm (hlen b n)
      | empty => rfl

theorem branchPreimage_inj {l r l' r' : H256} :
    branchPreimage l r = branchPreimage l' r' ↔ l = l' ∧ r = r' := by
  simp [branchPreimage, append_split]

theorem leafHash_eq (a : XOnlyPublicKey) (l : LeafKind) :
    l.leafHash prim a = prim.sha256 (l.leafPreimage a) := by
  cases l <;> rfl

variable (prim) in
/-- The strings `verify` hashes on a proof. -/
def InclusionProof.preimages (p : InclusionProof) : List Bytes :=
  p.leaf.leafPreimage p.address ::
    (climbPairs (branchHash prim) (p.leaf.leafHash prim p.address) (path p.address)
      p.siblings.reverse).map fun x => branchPreimage x.1 x.2

variable (prim) in
/-- The strings hashed in the tree of an assignment on the way to an address. -/
noncomputable def pathPreimages (L : Leaves) (a : XOnlyPublicKey) : List Bytes :=
  (L a).leafPreimage a ::
    (pathPairs (branchHash prim) (treeLeaf prim L) [] (path a)).map
      fun x => branchPreimage x.1 x.2

/-- An assignment's own proof hashes the strings of its tree. -/
theorem preimages_smtProof (L : Leaves) (a : XOnlyPublicKey) :
    (smtProof prim L a).preimages prim = pathPreimages prim L a := by
  have h := climbPairs_siblings (branchHash prim) (treeLeaf prim L) (path a) []
  rw [List.nil_append, treeLeaf_path] at h
  simp only [InclusionProof.preimages, pathPreimages, smtProof, List.reverse_reverse, h]

/--
**An accepted proof is the assignment's own proof.**  Nothing is assumed of the
leaf or the siblings; only the strings met on the way must not collide.
-/
theorem verify_sound {L : Leaves} {p : InclusionProof}
    (hcf : Set.InjOn prim.sha256
      {x | x ∈ p.preimages prim ∨ x ∈ pathPreimages prim L p.address})
    (h : p.verify prim (smtRoot prim L) = true) : p = smtProof prim L p.address := by
  obtain ⟨hlen, hclimb⟩ := (verify_iff p _).mp h
  have hinj : Set.InjOn (fun x : H256 × H256 => branchHash prim x.1 x.2)
      {x | x ∈ climbPairs (branchHash prim) (p.leaf.leafHash prim p.address) (path p.address)
          p.siblings.reverse
        ∨ x ∈ pathPairs (branchHash prim) (treeLeaf prim L) [] (path p.address)} := by
    intro x hx y hy hxy
    have hmem : ∀ z, (z ∈ climbPairs (branchHash prim) (p.leaf.leafHash prim p.address)
          (path p.address) p.siblings.reverse
        ∨ z ∈ pathPairs (branchHash prim) (treeLeaf prim L) [] (path p.address)) →
        branchPreimage z.1 z.2 ∈
          {x | x ∈ p.preimages prim ∨ x ∈ pathPreimages prim L p.address} := by
      rintro z (hz | hz)
      · exact Or.inl (List.mem_cons_of_mem _ (List.mem_map.mpr ⟨z, hz, rfl⟩))
      · exact Or.inr (List.mem_cons_of_mem _ (List.mem_map.mpr ⟨z, hz, rfl⟩))
    have := branchPreimage_inj.mp (hcf (hmem x hx) (hmem y hy) hxy)
    exact Prod.ext this.1 this.2
  obtain ⟨hleaf, hsibs⟩ := climb_sound (branchHash prim) (treeLeaf prim L) _ (path p.address) []
    p.siblings.reverse (by simp [hlen]) hinj (by simpa [smtRoot] using hclimb)
  rw [List.nil_append, treeLeaf_path, leafHash_eq, leafHash_eq] at hleaf
  have hkind : p.leaf = L p.address :=
    leafPreimage_inj (hcf (Or.inl List.mem_cons_self) (Or.inr List.mem_cons_self) hleaf)
  obtain ⟨address, leaf, sibs⟩ := p
  simp only at hkind hsibs
  simp [smtProof, hkind, ← hsibs]

end

end Hodlchain
