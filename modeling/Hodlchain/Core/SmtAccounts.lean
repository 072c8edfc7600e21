/-
The sparse tree on lists of accounts.

`SmtSpec` and `SmtUpdate` speak of assignments; here the same facts are said of the
lists the code is given.  What is hashed on the way is assumed to be in a set of
strings without a collision, the adversary's proofs included; completeness needs no
such assumption.
-/
import Hodlchain.Core.SmtUpdate
import Hodlchain.Core.Weighing

namespace Hodlchain

open LedgerState MerkleTree

section

variable {prim : Primitives}

/-- The strings `verify` hashes on a proof are in `U`. -/
def InclusionProof.In (prim : Primitives) (U : Set Bytes) (p : InclusionProof) : Prop :=
  ∀ x ∈ p.preimages prim, x ∈ U

/-- Only the tree's own proof is accepted, as far as `U` has no collision. -/
theorem InclusionProof.In.sound {U : Set Bytes} {L : Leaves} {p : InclusionProof}
    (hp : p.In prim U) (hcf : Set.InjOn prim.sha256 U)
    (htree : (smtProof prim L p.address).In prim U)
    (h : p.verify prim (smtRoot prim L) = true) : p = smtProof prim L p.address := by
  refine verify_sound (hcf.mono fun x hx => ?_) h
  rw [← preimages_smtProof] at hx
  exact hx.elim (hp x) (htree x)

/-- Two proofs accepted for one address under one root are the same proof, as far as `U` has no
collision. -/
theorem InclusionProof.In.unique {U : Set Bytes} (hcf : Set.InjOn prim.sha256 U)
    {p q : InclusionProof} (hp : p.In prim U) (hq : q.In prim U) (haddress : p.address = q.address)
    {root : H256} (hproof : p.verify prim root = true) (hproof' : q.verify prim root = true) :
    p = q := by
  obtain ⟨address, leaf, sibs⟩ := p
  obtain ⟨address', leaf', sibs'⟩ := q
  dsimp only at haddress
  subst haddress
  obtain ⟨hlen, hclimb⟩ := (verify_iff _ _).mp hproof
  obtain ⟨hlen', hclimb'⟩ := (verify_iff _ _).mp hproof'
  dsimp only at hlen hlen' hclimb hclimb'
  have hmem : ∀ z, (z ∈ climbPairs (branchHash prim) (leaf.leafHash prim address) (path address)
        sibs.reverse ∨ z ∈ climbPairs (branchHash prim) (leaf'.leafHash prim address) (path address)
        sibs'.reverse) → branchPreimage z.1 z.2 ∈ U := by
    intro z hz
    rcases hz with hz | hz
    · exact hp _ (List.mem_cons_of_mem _ (List.mem_map.mpr ⟨z, hz, rfl⟩))
    · exact hq _ (List.mem_cons_of_mem _ (List.mem_map.mpr ⟨z, hz, rfl⟩))
  have hinj : Set.InjOn (fun x : H256 × H256 => branchHash prim x.1 x.2)
      {x | x ∈ climbPairs (branchHash prim) (leaf.leafHash prim address) (path address) sibs.reverse
        ∨ x ∈ climbPairs (branchHash prim) (leaf'.leafHash prim address) (path address)
          sibs'.reverse} := by
    intro x hx y hy hxy
    obtain ⟨hleft, hright⟩ := branchPreimage_inj.mp (hcf (hmem x hx) (hmem y hy) hxy)
    exact Prod.ext hleft hright
  obtain ⟨hleaf, hsibs⟩ := climb_inj (branchHash prim) _ _ (path address) sibs.reverse sibs'.reverse
    (by simp [hlen]) (by simp [hlen']) hinj (hclimb.trans hclimb'.symm)
  rw [leafHash_eq, leafHash_eq] at hleaf
  have hkind : leaf = leaf' :=
    leafPreimage_inj (hcf (hp _ List.mem_cons_self) (hq _ List.mem_cons_self) hleaf)
  rw [hkind, List.reverse_injective hsibs]

/-! ### Proofs of a list -/

theorem leafOf_of_mem {accounts : List (XOnlyPublicKey × Account)} {a : XOnlyPublicKey}
    {acct : Account} (hnd : (accounts.map Prod.fst).Nodup) (h : (a, acct) ∈ accounts) :
    leafOf accounts a = .account acct.balance acct.nonce := by
  induction accounts with
  | nil => cases h
  | cons e rest ih =>
      obtain ⟨hfirst, hrest⟩ := List.nodup_cons.mp hnd
      by_cases he : e.1 = a
      · rcases List.mem_cons.mp h with rfl | hmem
        · simp [leafOf]
        · exact absurd (List.mem_map.mpr ⟨_, hmem, he.symm⟩) hfirst
      · have hmem : (a, acct) ∈ rest :=
          (List.mem_cons.mp h).resolve_left fun heq => he (congrArg Prod.fst heq).symm
        simpa [leafOf, he] using ih hrest hmem

theorem leafOf_of_not_mem {accounts : List (XOnlyPublicKey × Account)} {a : XOnlyPublicKey}
    (h : a ∉ accounts.map Prod.fst) : leafOf accounts a = .empty := by
  have hnone : accounts.find? (fun e => e.1 == a) = none := by
    refine List.find?_eq_none.mpr fun e he => ?_
    simpa using fun heq => h (List.mem_map.mpr ⟨e, he, heq⟩)
  simp only [leafOf, hnone]

theorem address_computeProof (prim : Primitives) (accounts : List (XOnlyPublicKey × Account))
    (a : XOnlyPublicKey) : (computeProof prim accounts a).address = a := rfl

theorem verify_computeProof (prim : Primitives) (accounts : List (XOnlyPublicKey × Account))
    (a : XOnlyPublicKey) :
    (computeProof prim accounts a).verify prim (computeRoot prim accounts) = true := by
  rw [computeProof_eq, computeRoot_eq]
  exact verify_smtProof _ _

/--
**`compute_proof` answers for every address, and nothing else is accepted.**
-/
theorem computeProof_complete_sound {accounts : List (XOnlyPublicKey × Account)}
    (hnd : (accounts.map Prod.fst).Nodup) (a : XOnlyPublicKey) :
    (let p := computeProof prim accounts a
     p.address = a ∧ p.siblings.length = treeDepth ∧
      (∀ acct, (a, acct) ∈ accounts → p.leaf = .account acct.balance acct.nonce) ∧
      (a ∉ accounts.map Prod.fst → p.leaf = .empty) ∧
      p.verify prim (computeRoot prim accounts) = true) ∧
    ∀ U, Set.InjOn prim.sha256 U → (computeProof prim accounts a).In prim U →
      (∀ q : InclusionProof, q.address = a → q.In prim U →
        q.verify prim (computeRoot prim accounts) = true →
        q.leaf = (computeProof prim accounts a).leaf ∧
          q.siblings = (computeProof prim accounts a).siblings) ∧
      ∀ leaf, (∃ q : InclusionProof, q.address = a ∧ q.leaf = leaf ∧ q.In prim U ∧
          q.verify prim (computeRoot prim accounts) = true) ↔
        leaf = (computeProof prim accounts a).leaf := by
  have hverify := verify_computeProof prim accounts a
  constructor
  · refine ⟨rfl, ?_, fun acct h => leafOf_of_mem hnd h, leafOf_of_not_mem, hverify⟩
    rw [computeProof_eq]
    exact length_siblings_smtProof _ _
  · intro U hcf htree
    have hsound : ∀ q : InclusionProof, q.address = a → q.In prim U →
        q.verify prim (computeRoot prim accounts) = true → q = computeProof prim accounts a := by
      intro q hq hin h
      rw [computeRoot_eq] at h
      rw [computeProof_eq] at htree ⊢
      subst hq
      exact hin.sound hcf htree h
    refine ⟨fun q hq hin h => by rw [hsound q hq hin h]; exact ⟨rfl, rfl⟩, fun leaf => ⟨?_, ?_⟩⟩
    · rintro ⟨q, hq, rfl, hin, h⟩
      rw [hsound q hq hin h]
    · rintro rfl
      exact ⟨_, rfl, rfl, htree, hverify⟩

/-! ### Updates of a list -/

/-- The account a leaf is. -/
def LeafKind.account? : LeafKind → Option Account
  | .account balance nonce => some ⟨balance, nonce⟩
  | .empty => none

/-- The accounts with every touched address set to its post state. -/
def withPostStates (accounts : List (XOnlyPublicKey × Account)) (updates : List Update) :
    List (XOnlyPublicKey × Account) :=
  accounts.filter (fun e => updates.all fun u => u.preProof.address != e.1)
    ++ updates.filterMap fun u => u.postState.account?.map fun acct => (u.preProof.address, acct)

/-- Post states alone, as a list. -/
private theorem leafOf_posts {updates : List Update} (hnd : (updateAddresses updates).Nodup)
    (a : XOnlyPublicKey) :
    leafOf (updates.filterMap fun u => u.postState.account?.map fun acct =>
      (u.preProof.address, acct)) a = postLeaves updates (fun _ => .empty) a := by
  induction updates with
  | nil => rfl
  | cons u rest ih =>
      obtain ⟨hfirst, hrest⟩ := List.nodup_cons.mp hnd
      have hih := ih hrest
      by_cases hu : u.preProof.address = a
      · cases hpost : u.postState with
        | account b n => simp [leafOf, postLeaves, hu, hpost, LeafKind.account?]
        | empty =>
            have hnone : postLeaves rest (fun _ => .empty) a = .empty :=
              postLeaves_of_not_mem fun v hv heq => hfirst
                (List.mem_map.mpr ⟨v, hv, heq.trans hu.symm⟩)
            rw [List.filterMap_cons_none (by simp [hpost, LeafKind.account?]), hih, hnone]
            simp [postLeaves, hu, hpost]
      · have hpost : postLeaves (u :: rest) (fun _ => .empty) a
            = postLeaves rest (fun _ => .empty) a := by simp [postLeaves, hu]
        rw [hpost, ← hih]
        cases hacct : u.postState.account? with
        | none => rw [List.filterMap_cons_none (by simp [hacct])]
        | some acct =>
            rw [List.filterMap_cons_some (b := (u.preProof.address, acct)) (by simp [hacct])]
            simp [leafOf, hu]

private theorem leafOf_append (l r : List (XOnlyPublicKey × Account)) (a : XOnlyPublicKey) :
    leafOf (l ++ r) a = if a ∈ l.map Prod.fst then leafOf l a else leafOf r a := by
  rw [leafOf, leafOf, leafOf, List.find?_append]
  cases hfind : l.find? fun e => e.1 == a with
  | some e =>
      have hmem : a ∈ l.map Prod.fst :=
        List.mem_map.mpr ⟨e, List.mem_of_find?_eq_some hfind, by simpa using List.find?_some hfind⟩
      rw [if_pos hmem, Option.some_or]
  | none =>
      have hmem : a ∉ l.map Prod.fst := by
        intro h
        obtain ⟨e, he, rfl⟩ := List.mem_map.mp h
        simpa using List.find?_eq_none.mp hfind e he
      rw [if_neg hmem, Option.none_or]

private theorem leafOf_filter {accounts : List (XOnlyPublicKey × Account)} {a : XOnlyPublicKey}
    (keep : XOnlyPublicKey → Bool) (ha : keep a = true) :
    leafOf (accounts.filter fun e => keep e.1) a = leafOf accounts a := by
  have : (fun e : XOnlyPublicKey × Account => decide (keep e.1 = true ∧ (e.1 == a) = true))
      = fun e => e.1 == a := by
    funext e
    by_cases he : e.1 = a
    · simp [he, ha]
    · simp [he]
  rw [leafOf, leafOf, List.find?_filter, this]

/-- The list is the updated assignment. -/
theorem leafOf_withPostStates {accounts : List (XOnlyPublicKey × Account)} {updates : List Update}
    (hnd : (updateAddresses updates).Nodup) :
    leafOf (withPostStates accounts updates) = postLeaves updates (leafOf accounts) := by
  funext a
  rw [withPostStates, leafOf_append, leafOf_posts hnd]
  by_cases htouched : ∃ u ∈ updates, u.preProof.address = a
  · obtain ⟨u, hu, rfl⟩ := htouched
    rw [if_neg]
    · obtain ⟨v, hv⟩ : ∃ v, updates.find? (fun v => v.preProof.address == u.preProof.address)
          = some v := Option.isSome_iff_exists.mp (List.find?_isSome.mpr ⟨u, hu, by simp⟩)
      simp only [postLeaves, hv]
    · intro hmem
      obtain ⟨e, he, heq⟩ := List.mem_map.mp hmem
      have hkeep := List.all_eq_true.mp (List.mem_filter.mp he).2 u hu
      simp [heq] at hkeep
  · have hkeep : (updates.all fun u => u.preProof.address != a) = true :=
      List.all_eq_true.mpr fun u hu => by simpa using fun heq => htouched ⟨u, hu, heq⟩
    have hout : ∀ L : Leaves, postLeaves updates L a = L a := fun L =>
      postLeaves_of_not_mem fun u hu heq => htouched ⟨u, hu, heq⟩
    rw [hout, hout, leafOf_filter (fun k => updates.all fun u => u.preProof.address != k) hkeep]
    split_ifs with hmem
    · rfl
    · refine (leafOf_of_not_mem fun hmem' => hmem ?_).symm
      obtain ⟨e, he, rfl⟩ := List.mem_map.mp hmem'
      exact List.mem_map.mpr ⟨e, List.mem_filter.mpr ⟨he, hkeep⟩, rfl⟩

/-! ### The recursion cannot fail

`postRootChecked` is `post_root_recursive` with every place where the source can panic
written out: the assertion at the leaf, the `unwrap` of a side and the index into its
siblings.
-/

/-- `side.first().unwrap().pre_proof.siblings[TREE_DEPTH - 1 - depth]`. -/
def carriedSibling? (depth : Nat) (side : List Update) : Option H256 := do
  let u ← side.head?
  u.preProof.siblings[treeDepth - 1 - depth]?

def postRootChecked (prim : Primitives) : Nat → List Update → Option H256
  | 0, [u] => some (u.postState.leafHash prim u.preProof.address)
  | 0, _ => none
  | height + 1, updates =>
      let depth := treeDepth - (height + 1)
      let parts := updates.partition fun u => bitAt u.preProof.address depth == 0
      let lh :=
        if parts.1.isEmpty then carriedSibling? depth parts.2
        else postRootChecked prim height parts.1
      let rh :=
        if parts.2.isEmpty then carriedSibling? depth parts.1
        else postRootChecked prim height parts.2
      lh.bind fun l => rh.map fun r => branchHash prim l r

/-- Updates under a prefix, on distinct addresses and with proofs of full length. -/
structure Splits (q : List Bool) (updates : List Update) : Prop where
  under : ∀ u ∈ updates, Under q u.preProof.address
  distinct : (updateAddresses updates).Nodup
  siblings : ∀ u ∈ updates, u.preProof.siblings.length = treeDepth

theorem Splits.side {q : List Bool} {updates : List Update} (h : Splits q updates)
    (hq : q.length < treeDepth) (b : Bool) :
    Splits (q ++ [b]) (updates.filter fun u => (bitAt u.preProof.address q.length != 0) == b) where
  under u hu := by
    obtain ⟨hmem, hbit⟩ := List.mem_filter.mp hu
    exact (under_snoc hq).mpr ⟨h.under u hmem, by simpa using hbit⟩
  distinct := h.distinct.sublist (List.filter_sublist.map _)
  siblings u hu := h.siblings u (List.mem_filter.mp hu).1

/-- The unwrap and the index behind a carried sibling. -/
theorem Splits.carried {q : List Bool} {updates : List Update} (h : Splits q updates)
    (hne : updates ≠ []) (hq : q.length < treeDepth) :
    carriedSibling? q.length updates = some (carriedSibling q.length updates) := by
  cases updates with
  | nil => exact absurd rfl hne
  | cons u rest =>
      have hidx : treeDepth - 1 - q.length < u.preProof.siblings.length := by
        rw [h.siblings u (by simp)]
        omega
      simp [carriedSibling?, carriedSibling, List.getElem?_eq_getElem hidx]

/-- At full depth the updates are one, since they are distinct. -/
theorem Splits.leaf {q : List Bool} {u : Update} {rest : List Update} (h : Splits q (u :: rest))
    (hq : q.length = treeDepth) : rest = [] := by
  refine List.eq_nil_iff_forall_not_mem.mpr fun v hv => ?_
  have hu := (h.under u (by simp)).path_eq hq
  have hv' := (h.under v (by simp [hv])).path_eq hq
  exact (List.nodup_cons.mp h.distinct).1
    (List.mem_map.mpr ⟨v, hv, path_inj (hv'.trans hu.symm)⟩)

/-- One side, walked into or read off the other. -/
private theorem side_checked {q : List Bool} {updates : List Update} {height : Nat}
    (h : Splits q updates) (hq : q.length < treeDepth) (hne : updates ≠ [])
    (ih : ∀ b, (updates.filter fun u => (bitAt u.preProof.address q.length != 0) == b) ≠ [] →
      postRootChecked prim height
          (updates.filter fun u => (bitAt u.preProof.address q.length != 0) == b)
        = some (postRootRecursive prim height
          (updates.filter fun u => (bitAt u.preProof.address q.length != 0) == b)))
    (b : Bool) :
    (if (updates.filter fun u => (bitAt u.preProof.address q.length != 0) == b).isEmpty then
        carriedSibling? q.length
          (updates.filter fun u => (bitAt u.preProof.address q.length != 0) == !b)
      else postRootChecked prim height
        (updates.filter fun u => (bitAt u.preProof.address q.length != 0) == b))
    = some (if (updates.filter fun u => (bitAt u.preProof.address q.length != 0) == b).isEmpty then
        carriedSibling q.length
          (updates.filter fun u => (bitAt u.preProof.address q.length != 0) == !b)
      else postRootRecursive prim height
        (updates.filter fun u => (bitAt u.preProof.address q.length != 0) == b)) := by
  by_cases hside : (updates.filter fun u => (bitAt u.preProof.address q.length != 0) == b) = []
  · have hother : (updates.filter fun u => (bitAt u.preProof.address q.length != 0) == !b)
        = updates := by
      refine List.filter_eq_self.mpr fun u hu => ?_
      have := List.filter_eq_nil_iff.mp hside u hu
      cases hb : (bitAt u.preProof.address q.length != 0) <;> cases b <;> simp_all
    rw [if_pos (by simp [hside]), if_pos (by simp [hside]), hother, h.carried hne hq]
  · rw [if_neg (by simpa using hside), if_neg (by simpa using hside), ih b hside]

/-- **No unwrap, index or assertion of `post_root_recursive` fails.** -/
theorem postRootChecked_eq (prim : Primitives) :
    ∀ (height : Nat) (q : List Bool) (updates : List Update), q.length + height = treeDepth →
      Splits q updates → updates ≠ [] →
      postRootChecked prim height updates = some (postRootRecursive prim height updates) := by
  intro height
  induction height with
  | zero =>
      intro q updates hq h hne
      obtain ⟨u, rest, rfl⟩ := List.exists_cons_of_ne_nil hne
      obtain rfl := h.leaf (by simpa using hq)
      rfl
  | succ height ih =>
      intro q updates hq h hne
      have hlt : q.length < treeDepth := by omega
      have hdepth : treeDepth - (height + 1) = q.length := by omega
      have hside := @side_checked prim _ _ _ h hlt hne fun b =>
        ih (q ++ [b]) _ (by simp; omega) (h.side hlt b)
      have hleft := hside false
      have hright := hside true
      simp only [Bool.not_false, Bool.not_true] at hleft hright
      rw [postRootChecked, postRootRecursive]
      simp only [hdepth, partition_eq_sides fun u : Update => u.preProof.address, hleft, hright,
        Option.bind_some, Option.map_some]

/-! ### Updating a list, and observing the update -/

/-- What `apply_updates` and `refresh_observer` check of a list of updates. -/
def Accepts (prim : Primitives) (updates : List Update) (root : H256) : Prop :=
  (updateAddresses updates).Nodup ∧ ∀ u ∈ updates, u.preProof.verify prim root = true

/-- Accepted proofs are the tree's, as far as `U` has no collision. -/
theorem Accepts.genuine {U : Set Bytes} {L : Leaves} {updates : List Update}
    (h : Accepts prim updates (smtRoot prim L)) (hcf : Set.InjOn prim.sha256 U)
    (hin : ∀ u ∈ updates, u.preProof.In prim U ∧ (smtProof prim L u.preProof.address).In prim U) :
    Genuine prim L [] updates where
  under _ _ := under_nil _
  proof u hu := (hin u hu).1.sound hcf (hin u hu).2 (h.2 u hu)

theorem Accepts.splits {updates : List Update} {root : H256} (h : Accepts prim updates root) :
    Splits [] updates where
  under _ _ := under_nil _
  distinct := h.1
  siblings u hu := ((verify_iff _ _).mp (h.2 u hu)).1

theorem nodup_withPostStates {accounts : List (XOnlyPublicKey × Account)} {updates : List Update}
    (hnd : (accounts.map Prod.fst).Nodup) (hups : (updateAddresses updates).Nodup) :
    ((withPostStates accounts updates).map Prod.fst).Nodup := by
  have hposts : ((updates.filterMap fun u => u.postState.account?.map fun acct =>
      (u.preProof.address, acct)).map Prod.fst).Sublist (updateAddresses updates) := by
    induction updates with
    | nil => exact List.Sublist.refl _
    | cons u rest ih =>
        have hrest := ih (List.nodup_cons.mp hups).2
        cases hacct : u.postState.account? with
        | none =>
            rw [List.filterMap_cons_none (by simp [hacct])]
            exact hrest.cons _
        | some acct =>
            rw [List.filterMap_cons_some (b := (u.preProof.address, acct)) (by simp [hacct])]
            exact hrest.cons_cons _
  rw [withPostStates, List.map_append, List.nodup_append]
  refine ⟨hnd.sublist (List.filter_sublist.map _), hups.sublist hposts, ?_⟩
  intro a ha b hb heq
  obtain ⟨e, he, rfl⟩ := List.mem_map.mp ha
  obtain ⟨u, hu, hub⟩ := List.mem_map.mp (hposts.subset hb)
  have hkeep := List.all_eq_true.mp (List.mem_filter.mp he).2 u hu
  simp [hub, heq] at hkeep

/--
**`apply_updates` accepts what it says it accepts, and answers the root of the updated
accounts**, without a panic on the way.
-/
theorem applyUpdates_recomputes {U : Set Bytes} (hcf : Set.InjOn prim.sha256 U)
    {accounts : List (XOnlyPublicKey × Account)} (hnd : (accounts.map Prod.fst).Nodup)
    {updates : List Update} (hin : ∀ u ∈ updates, u.preProof.In prim U ∧
      (computeProof prim accounts u.preProof.address).In prim U) :
    ((∃ root, applyUpdates prim updates (computeRoot prim accounts) = .ok root) ↔
      updates ≠ [] ∧ (updates.map fun u => u.preProof.address).Nodup ∧
        ∀ u ∈ updates, u.preProof.verify prim (computeRoot prim accounts) = true) ∧
    ∀ root, applyUpdates prim updates (computeRoot prim accounts) = .ok root →
      ((withPostStates accounts updates).map Prod.fst).Nodup ∧
        root = computeRoot prim (withPostStates accounts updates) ∧
        postRootChecked prim treeDepth updates = some root := by
  have haccepts : ∀ root, applyUpdates prim updates (computeRoot prim accounts) = .ok root →
      updates ≠ [] ∧ Accepts prim updates (computeRoot prim accounts) := fun root h =>
    ⟨(applyUpdates_ok h).1, validateUpdates_ok_iff.mp (applyUpdates_ok h).2⟩
  constructor
  · constructor
    · rintro ⟨root, h⟩
      exact ⟨(haccepts root h).1, (haccepts root h).2⟩
    · rintro ⟨hne, hdistinct, hverify⟩
      refine ⟨postRootRecursive prim treeDepth updates, ?_⟩
      rw [applyUpdates, if_neg (by simpa using hne),
        validateUpdates_ok_iff.mpr ⟨hdistinct, hverify⟩]
  · intro root h
    obtain ⟨hne, hacc⟩ := haccepts root h
    have hvalid := (applyUpdates_ok h).2
    have hpost : root = postRootRecursive prim treeDepth updates := by
      rw [applyUpdates, if_neg (by simpa using hne), hvalid] at h
      exact (Except.ok.inj h).symm
    refine ⟨nodup_withPostStates hnd hacc.1, ?_, ?_⟩
    · rw [computeRoot_eq] at h hacc
      simp only [computeProof_eq] at hin
      rw [applyUpdates_eq (hacc.genuine hcf hin) hacc.1 hne] at h
      rw [computeRoot_eq, leafOf_withPostStates hacc.1]
      exact (Except.ok.inj h).symm
    · rw [hpost]
      exact postRootChecked_eq prim treeDepth [] updates (by simp) hacc.splits hne

/--
**`refresh_observer` answers the observer's proof in the updated accounts.**
-/
theorem refreshObserver_recomputes {U : Set Bytes} (hcf : Set.InjOn prim.sha256 U)
    {accounts : List (XOnlyPublicKey × Account)} {updates : List Update}
    (hin : ∀ u ∈ updates, u.preProof.In prim U ∧
      (computeProof prim accounts u.preProof.address).In prim U)
    {observer : InclusionProof} (hobs : observer.In prim U ∧
      (computeProof prim accounts observer.address).In prim U)
    (hverify : observer.verify prim (computeRoot prim accounts) = true)
    (haccepts : Accepts prim updates (computeRoot prim accounts)) :
    refreshObserver prim observer updates (computeRoot prim accounts)
        = .ok (computeProof prim (withPostStates accounts updates) observer.address) ∧
      ∀ root, applyUpdates prim updates (computeRoot prim accounts) = .ok root →
        (computeProof prim (withPostStates accounts updates) observer.address).verify prim root
          = true := by
  simp only [computeRoot_eq, computeProof_eq, leafOf_withPostStates haccepts.1] at *
  have hgenuine := haccepts.genuine hcf hin
  have hown := hobs.1.sound hcf hobs.2 hverify
  constructor
  · have hrefresh := refreshObserver_eq hgenuine haccepts.1 observer.address
    rwa [← hown] at hrefresh
  · intro root h
    rw [applyUpdates_eq hgenuine haccepts.1 (applyUpdates_ok h).1] at h
    rw [← Except.ok.inj h]
    exact verify_smtProof _ _

end

/-! ### A list of two -/

theorem computeProof_two_in (a b c : XOnlyPublicKey) :
    (computeProof Primitives.weighing (twoAccounts a b) c).In Primitives.weighing
      (twoStrings a b) := by
  intro x hx
  rw [computeProof_eq, preimages_smtProof] at hx
  exact ⟨c, hx⟩

theorem nodup_twoAccounts {a b : XOnlyPublicKey} (hab : a ≠ b) :
    ((twoAccounts a b).map Prod.fst).Nodup := by simp [twoAccounts, hab]

/-- The first two have an account, and all three share the first 254 bits of their paths. -/
def firstKey : XOnlyPublicKey := ⟨ByteArr.ofNat 32 1⟩

def secondKey : XOnlyPublicKey := ⟨ByteArr.ofNat 32 2⟩

def thirdKey : XOnlyPublicKey := ⟨ByteArr.ofNat 32 3⟩

theorem keys_distinct : firstKey ≠ secondKey ∧ thirdKey ≠ firstKey ∧ thirdKey ≠ secondKey := by
  decide

/-- No other leaf is accepted for an account, nor for an address without one. -/
theorem computeProof_complete_sound_two :
    (computeProof Primitives.weighing (twoAccounts firstKey secondKey) firstKey).leaf
      = .account 500 1 ∧
    ∀ q : InclusionProof, q.In Primitives.weighing (twoStrings firstKey secondKey) →
      q.verify Primitives.weighing
        (computeRoot Primitives.weighing (twoAccounts firstKey secondKey)) = true →
      (q.address = firstKey → q.leaf = .account 500 1) ∧
        (q.address = thirdKey → q.leaf = .empty) := by
  obtain ⟨hab, hca, hcb⟩ := keys_distinct
  revert hab hca hcb
  generalize firstKey = a, secondKey = b, thirdKey = c
  intro hab hca hcb
  have hnd := nodup_twoAccounts hab
  obtain ⟨⟨-, -, hleaf, -, -⟩, hsound⟩ :=
    @computeProof_complete_sound Primitives.weighing (twoAccounts a b) hnd a
  obtain ⟨⟨-, -, -, hempty, -⟩, hsound'⟩ :=
    @computeProof_complete_sound Primitives.weighing (twoAccounts a b) hnd c
  have hcf := injOn_twoStrings hab
  have hfirst := hleaf ⟨500, 1⟩ (by simp [twoAccounts])
  refine ⟨hfirst, fun q hin h => ⟨fun hq => ?_, fun hq => ?_⟩⟩
  · exact ((hsound _ hcf (computeProof_two_in a b a)).1 q hq hin h).1.trans hfirst
  · have hthird := hempty (by simp [twoAccounts, hca, hcb])
    exact ((hsound' _ hcf (computeProof_two_in a b c)).1 q hq hin h).1.trans hthird

/-- The account of `a` pays 60 to `c`, which has none. -/
def twoUpdates (a b c : XOnlyPublicKey) : List Update :=
  [⟨computeProof Primitives.weighing (twoAccounts a b) a, .account 440 2⟩,
    ⟨computeProof Primitives.weighing (twoAccounts a b) c, .account 60 0⟩]

theorem accepts_twoUpdates {a c : XOnlyPublicKey} (hca : c ≠ a) (b : XOnlyPublicKey) :
    Accepts Primitives.weighing (twoUpdates a b c)
      (computeRoot Primitives.weighing (twoAccounts a b)) := by
  refine ⟨by simp [updateAddresses, twoUpdates, address_computeProof, Ne.symm hca], fun u hu => ?_⟩
  rcases List.mem_pair.mp hu with rfl | rfl
  · exact verify_computeProof _ _ a
  · exact verify_computeProof _ _ c

theorem twoUpdates_in (a b c : XOnlyPublicKey) :
    ∀ u ∈ twoUpdates a b c, u.preProof.In Primitives.weighing (twoStrings a b) ∧
      (computeProof Primitives.weighing (twoAccounts a b) u.preProof.address).In
        Primitives.weighing (twoStrings a b) := by
  intro u hu
  refine ⟨?_, computeProof_two_in a b _⟩
  rcases List.mem_pair.mp hu with rfl | rfl
  · exact computeProof_two_in a b a
  · exact computeProof_two_in a b c

theorem withPostStates_twoUpdates {a b c : XOnlyPublicKey} (hab : a ≠ b) (hcb : c ≠ b) :
    withPostStates (twoAccounts a b) (twoUpdates a b c)
      = [(b, ⟨700, 2⟩), (a, ⟨440, 2⟩), (c, ⟨60, 0⟩)] := by
  simp [withPostStates, twoAccounts, twoUpdates, address_computeProof, LeafKind.account?, hab, hcb]

theorem applyUpdates_recomputes_two : ∃ root, applyUpdates Primitives.weighing
      (twoUpdates firstKey secondKey thirdKey)
      (computeRoot Primitives.weighing (twoAccounts firstKey secondKey)) = .ok root ∧
    root = computeRoot Primitives.weighing
      [(secondKey, ⟨700, 2⟩), (firstKey, ⟨440, 2⟩), (thirdKey, ⟨60, 0⟩)] ∧
    postRootChecked Primitives.weighing treeDepth (twoUpdates firstKey secondKey thirdKey)
      = some root := by
  obtain ⟨hab, hca, hcb⟩ := keys_distinct
  revert hab hca hcb
  generalize firstKey = a, secondKey = b, thirdKey = c
  intro hab hca hcb
  obtain ⟨hiff, hroot⟩ := applyUpdates_recomputes (injOn_twoStrings hab) (nodup_twoAccounts hab)
    (twoUpdates_in a b c)
  obtain ⟨root, h⟩ := hiff.mpr ⟨by simp [twoUpdates], accepts_twoUpdates hca b⟩
  rw [withPostStates_twoUpdates hab hcb] at hroot
  exact ⟨root, h, (hroot root h).2⟩

/-- An observer of the account that pays, and one of the account that does not change. -/
theorem refreshObserver_recomputes_two :
    ([firstKey, secondKey].map fun observer => refreshObserver Primitives.weighing
        (computeProof Primitives.weighing (twoAccounts firstKey secondKey) observer)
        (twoUpdates firstKey secondKey thirdKey)
        (computeRoot Primitives.weighing (twoAccounts firstKey secondKey)))
      = [firstKey, secondKey].map fun observer => .ok (computeProof Primitives.weighing
        [(secondKey, ⟨700, 2⟩), (firstKey, ⟨440, 2⟩), (thirdKey, ⟨60, 0⟩)] observer) := by
  obtain ⟨hab, hca, hcb⟩ := keys_distinct
  revert hab hca hcb
  generalize firstKey = a, secondKey = b, thirdKey = c
  intro hab hca hcb
  refine List.map_congr_left fun observer _ => ?_
  have hrefresh := (refreshObserver_recomputes (injOn_twoStrings hab) (twoUpdates_in a b c)
    ⟨computeProof_two_in a b observer, computeProof_two_in a b _⟩
    (verify_computeProof _ _ observer) (accepts_twoUpdates hca b)).1
  rwa [withPostStates_twoUpdates hab hcb] at hrefresh

end Hodlchain
