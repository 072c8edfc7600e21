/-
Sparse updates compute the updated assignment's root and proofs.

`postLeaves` is what a block does to an assignment: the touched addresses take
their post state, the rest keep theirs.  `applyUpdates` and `refreshObserver` are
handed only proofs against the old root, and the invariant of both recursions is
that every update in hand lies under the current prefix and carries the old
tree's siblings.  A side no update lies under is the same in both trees, and the
proofs of the other side carry its hash.
-/
import Hodlchain.Core.SmtSpec

namespace Hodlchain

open MerkleTree

/-- The assignment after a list of updates. -/
def postLeaves (updates : List Update) (L : Leaves) : Leaves := fun a =>
  match updates.find? (fun u => u.preProof.address == a) with
  | some u => u.postState
  | none => L a

section

variable {prim : Primitives}

@[simp] theorem postLeaves_nil (L : Leaves) : postLeaves [] L = L := rfl

theorem postLeaves_of_not_mem {updates : List Update} {L : Leaves} {a : XOnlyPublicKey}
    (h : ∀ u ∈ updates, u.preProof.address ≠ a) : postLeaves updates L a = L a := by
  have hnone : updates.find? (fun u => u.preProof.address == a) = none :=
    List.find?_eq_none.mpr fun u hu => by simpa using h u hu
  simp only [postLeaves, hnone]

theorem postLeaves_filter {updates : List Update} {L : Leaves} {a : XOnlyPublicKey}
    (keep : XOnlyPublicKey → Bool) (ha : keep a = true) :
    postLeaves (updates.filter fun u => keep u.preProof.address) L a = postLeaves updates L a := by
  have : (fun u : Update => decide (keep u.preProof.address = true
      ∧ (u.preProof.address == a) = true)) = fun u => u.preProof.address == a := by
    funext u
    by_cases hu : u.preProof.address = a
    · simp [hu, ha]
    · simp [hu]
  rw [postLeaves, postLeaves, List.find?_filter, this]

/-! ### The new root -/

/-- Updates under a prefix that carry the proofs of an assignment. -/
structure Genuine (prim : Primitives) (L : Leaves) (q : List Bool) (updates : List Update) :
    Prop where
  under : ∀ u ∈ updates, Under q u.preProof.address
  proof : ∀ u ∈ updates, u.preProof = smtProof prim L u.preProof.address

theorem Genuine.side {L : Leaves} {q : List Bool} {updates : List Update}
    (h : Genuine prim L q updates) (hq : q.length < treeDepth) (b : Bool) :
    Genuine prim L (q ++ [b])
      (updates.filter fun u => (bitAt u.preProof.address q.length != 0) == b) where
  under u hu := by
    obtain ⟨hmem, hbit⟩ := List.mem_filter.mp hu
    exact (under_snoc hq).mpr ⟨h.under u hmem, by simpa using hbit⟩
  proof u hu := h.proof u (List.mem_filter.mp hu).1

/-- The sibling an assignment's proof carries at a depth is the node beside the path. -/
theorem smtProof_sibling {L : Leaves} {a : XOnlyPublicKey} {d : Nat} (hd : d < treeDepth) :
    (smtProof prim L a).siblings.getD (treeDepth - 1 - d) default
      = subRoot (branchHash prim) (treeLeaf prim L) (treeDepth - (d + 1))
          ((path a).take d ++ [!(bitAt a d != 0)]) := by
  have hget := siblings_getElem? (branchHash prim) (treeLeaf prim L) (path a) [] d
    (bitAt a d != 0) (path_getElem? a hd)
  have hidx : treeDepth - 1 - (treeDepth - 1 - d) = d := by omega
  have hheight : treeDepth - d - 1 = treeDepth - (d + 1) := by omega
  rw [List.nil_append, length_path, hheight] at hget
  rw [smtProof, List.getD_eq_getElem?_getD,
    List.getElem?_reverse (by rw [length_siblings, length_path]; omega), length_siblings,
    length_path, hidx, hget, Option.getD_some]

theorem Under.take_eq {q : List Bool} {a : XOnlyPublicKey} (h : Under q a) :
    (path a).take q.length = q := by
  obtain ⟨t, ht⟩ := h
  rw [← ht, List.take_left']
  rfl

/-- The updates on the side `b`, or the hash carried for it, give the new node there. -/
private theorem side_root {L L' : Leaves} {q : List Bool} {updates : List Update} {height : Nat}
    (hq : q.length + (height + 1) = treeDepth)
    (h : Genuine prim L q updates) (hne : updates ≠ [])
    (hL' : ∀ a, Under q a → L' a = postLeaves updates L a)
    (ih : ∀ (q : List Bool) (us : List Update), q.length + height = treeDepth →
      Genuine prim L q us → us ≠ [] → (∀ a, Under q a → L' a = postLeaves us L a) →
      postRootRecursive prim height us
        = subRoot (branchHash prim) (treeLeaf prim L') height q)
    (b : Bool) :
    (if (updates.filter fun u => (bitAt u.preProof.address q.length != 0) == b).isEmpty then
        carriedSibling q.length
          (updates.filter fun u => (bitAt u.preProof.address q.length != 0) == !b)
      else postRootRecursive prim height
        (updates.filter fun u => (bitAt u.preProof.address q.length != 0) == b))
      = subRoot (branchHash prim) (treeLeaf prim L') height (q ++ [b]) := by
  have hlt : q.length < treeDepth := by omega
  by_cases hside : (updates.filter fun u => (bitAt u.preProof.address q.length != 0) == b) = []
  · -- nothing is touched on this side, so the other side is not empty and carries its hash
    have hall : ∀ u ∈ updates, (bitAt u.preProof.address q.length != 0) = !b := by
      intro u hu
      have := List.filter_eq_nil_iff.mp hside u hu
      cases hb : (bitAt u.preProof.address q.length != 0) <;> cases b <;> simp_all
    have hother : (updates.filter fun u => (bitAt u.preProof.address q.length != 0) == !b)
        = updates := List.filter_eq_self.mpr fun u hu => by simp [hall u hu]
    obtain ⟨u, rest, rfl⟩ := List.exists_cons_of_ne_nil hne
    rw [if_pos (by simp [hside]), hother]
    have hu := h.under u (by simp)
    have hbit := hall u (by simp)
    have hheight : treeDepth - (q.length + 1) = height := by omega
    simp only [carriedSibling, List.head?_cons]
    rw [h.proof u (by simp), smtProof_sibling hlt, hu.take_eq, hbit, Bool.not_not, hheight]
    refine subRoot_treeLeaf_congr height fun a ha => ?_
    obtain ⟨hqa, hba⟩ := (under_snoc hlt).mp ha
    rw [hL' a hqa, postLeaves_of_not_mem]
    rintro v hv rfl
    have := hall v hv
    rw [hba] at this
    cases b <;> simp at this
  · rw [if_neg (by simpa using hside)]
    refine ih (q ++ [b]) _ (by simp; omega) (h.side hlt b) hside fun a ha => ?_
    obtain ⟨hqa, hba⟩ := (under_snoc hlt).mp ha
    rw [hL' a hqa, postLeaves_filter (fun k => (bitAt k q.length != 0) == b)
      (by simpa using hba)]

/-- **The recursion over updates computes the node of the updated assignment.** -/
theorem postRootRecursive_eq {L L' : Leaves} :
    ∀ (height : Nat) (q : List Bool) (updates : List Update), q.length + height = treeDepth →
      Genuine prim L q updates → updates ≠ [] →
      (∀ a, Under q a → L' a = postLeaves updates L a) →
      postRootRecursive prim height updates
        = subRoot (branchHash prim) (treeLeaf prim L') height q := by
  intro height
  induction height with
  | zero =>
      intro q updates hq h hne hL'
      obtain ⟨u, rest, rfl⟩ := List.exists_cons_of_ne_nil hne
      have hu := h.under u (by simp)
      have hpost : L' u.preProof.address = u.postState := by
        rw [hL' _ hu]
        simp [postLeaves]
      rw [subRoot, ← hu.path_eq (by simpa using hq), treeLeaf_path, hpost]
      rfl
  | succ height ih =>
      intro q updates hq h hne hL'
      have hdepth : treeDepth - (height + 1) = q.length := by omega
      have hside := side_root hq h hne hL' ih
      have hleft := hside false
      have hright := hside true
      simp only [Bool.not_false, Bool.not_true] at hleft hright
      rw [postRootRecursive]
      simp only [hdepth, partition_eq_sides (fun u : Update => u.preProof.address)]
      rw [hleft, hright, subRoot]

/-! ### The observer -/

/-- Agreeing with the observer on the first bits is lying under that prefix of its path. -/
theorem agrees_iff_under {observer k : XOnlyPublicKey} {depth : Nat} (hd : depth ≤ treeDepth) :
    ((List.range depth).all fun d => bitAt k d == bitAt observer d) = true
      ↔ Under ((path observer).take depth) k := by
  have htake : ((path observer).take depth).length = depth := by simp [hd]
  rw [List.all_eq_true]
  constructor
  · intro h
    refine List.prefix_iff_eq_take.mpr (List.ext_getElem? fun i => ?_)
    rw [htake]
    by_cases hi : i < depth
    · have hsame := h i (List.mem_range.mpr hi)
      rw [List.getElem?_take_of_lt hi, List.getElem?_take_of_lt hi,
        path_getElem? _ (by omega), path_getElem? _ (by omega), (beq_iff_eq.mp hsame)]
    · rw [List.getElem?_eq_none (by rw [htake]; omega),
        List.getElem?_eq_none (by rw [List.length_take]; omega)]
  · rintro ⟨t, ht⟩ i hi
    have hid : i < depth := List.mem_range.mp hi
    have hk := path_getElem? k (d := i) (by omega)
    rw [← ht, List.getElem?_append_left (by rw [htake]; exact hid), List.getElem?_take_of_lt hid,
      path_getElem? _ (by omega)] at hk
    simp only [Option.some.injEq] at hk
    exact beq_iff_eq.mpr (bitAt_eq_iff.mpr hk.symm)

theorem mem_onPath {observer : XOnlyPublicKey} {updates : List Update} {depth : Nat} {u : Update}
    (hd : depth ≤ treeDepth) :
    u ∈ onPath observer updates depth
      ↔ u ∈ updates ∧ Under ((path observer).take depth) u.preProof.address := by
  rw [onPath, List.mem_filter, agrees_iff_under hd]

/-- Leaving the observer's path at a depth is lying beside it. -/
theorem leaves_iff_beside {observer k : XOnlyPublicKey} {depth : Nat} (hd : depth < treeDepth) :
    Under ((path observer).take depth ++ [!(bitAt observer depth != 0)]) k
      ↔ Under ((path observer).take depth) k ∧ bitAt k depth ≠ bitAt observer depth := by
  have hlen : ((path observer).take depth).length = depth := by
    rw [List.length_take, length_path]; omega
  rw [under_snoc (by rw [hlen]; exact hd), hlen, ne_eq, bitAt_eq_iff]
  refine and_congr_right fun _ => ?_
  cases (bitAt k depth != 0) <;> cases (bitAt observer depth != 0) <;> simp

/-- The part of the updates beside the observer's path at a depth. -/
theorem genuine_opposite {L : Leaves} {observer : XOnlyPublicKey} {updates : List Update}
    {depth : Nat} (hd : depth < treeDepth) (h : Genuine prim L [] updates) :
    Genuine prim L ((path observer).take depth ++ [!(bitAt observer depth != 0)])
      ((onPath observer updates depth).filter fun u =>
        bitAt u.preProof.address depth != bitAt observer depth) where
  under u hu := by
    obtain ⟨hon, hbit⟩ := List.mem_filter.mp hu
    exact (leaves_iff_beside hd).mpr
      ⟨((mem_onPath (Nat.le_of_lt hd)).mp hon).2, bne_iff_ne.mp hbit⟩
  proof u hu := h.proof u ((mem_onPath (Nat.le_of_lt hd)).mp (List.mem_filter.mp hu).1).1

/-- Beside the path, the updates on that side decide the new leaf. -/
theorem postLeaves_opposite {L : Leaves} {observer a : XOnlyPublicKey} {updates : List Update}
    {depth : Nat} (hd : depth < treeDepth)
    (ha : Under ((path observer).take depth ++ [!(bitAt observer depth != 0)]) a) :
    postLeaves ((onPath observer updates depth).filter fun u =>
        bitAt u.preProof.address depth != bitAt observer depth) L a = postLeaves updates L a := by
  obtain ⟨hon, hbit⟩ := (leaves_iff_beside hd).mp ha
  rw [onPath, List.filter_filter]
  refine postLeaves_filter (fun k => (bitAt k depth != bitAt observer depth)
    && (List.range depth).all fun d => bitAt k d == bitAt observer d) ?_
  simp only [Bool.and_eq_true, bne_iff_ne]
  exact ⟨hbit, (agrees_iff_under (Nat.le_of_lt hd)).mpr hon⟩

/-- The new sibling of the observer at a depth, and what it is when nothing beside
the path is touched. -/
theorem sibling_untouched {L L' : Leaves} {observer : XOnlyPublicKey} {updates : List Update}
    {depth : Nat} (hd : depth < treeDepth) (hL' : ∀ a, L' a = postLeaves updates L a)
    (hnone : ∀ u ∈ updates, ¬ Under ((path observer).take depth
      ++ [!(bitAt observer depth != 0)]) u.preProof.address) :
    (smtProof prim L' observer).siblings.getD (treeDepth - 1 - depth) default
      = (smtProof prim L observer).siblings.getD (treeDepth - 1 - depth) default := by
  rw [smtProof_sibling hd, smtProof_sibling hd]
  refine subRoot_treeLeaf_congr _ fun a ha => ?_
  rw [hL' a, postLeaves_of_not_mem]
  rintro u hu rfl
  exact hnone u hu ha

/-- **The depth loop leaves the observer with the siblings of the new assignment.** -/
theorem refreshSiblings_spec {L L' : Leaves} {observer : XOnlyPublicKey} {updates : List Update}
    (hgen : Genuine prim L [] updates) (hL' : ∀ a, L' a = postLeaves updates L a) :
    ∀ (n k : Nat) (sibs : List H256), k + n = treeDepth → sibs.length = treeDepth →
      (∀ d, k ≤ d → d < treeDepth → sibs.getD (treeDepth - 1 - d) default
        = (smtProof prim L observer).siblings.getD (treeDepth - 1 - d) default) →
      (refreshSiblings prim observer updates (List.range' k n) sibs).length = treeDepth ∧
      ∀ d, d < treeDepth →
        (refreshSiblings prim observer updates (List.range' k n) sibs).getD
            (treeDepth - 1 - d) default
          = if k ≤ d then (smtProof prim L' observer).siblings.getD (treeDepth - 1 - d) default
            else sibs.getD (treeDepth - 1 - d) default := by
  intro n
  induction n with
  | zero =>
      intro k sibs hk hlen _
      refine ⟨hlen, fun d hd => ?_⟩
      rw [if_neg (by omega)]
      rfl
  | succ n ih =>
      intro k sibs hk hlen hold
      have hkd : k < treeDepth := by omega
      rw [List.range'_succ, refreshSiblings]
      by_cases hhere : (onPath observer updates k).isEmpty
      · -- no touched key shares the prefix, so no sibling from here down changes
        simp only [if_pos hhere]
        refine ⟨hlen, fun d hd => ?_⟩
        by_cases hkd' : k ≤ d
        · rw [if_pos hkd', hold d hkd' hd]
          refine (sibling_untouched hd hL' fun u hu hc => ?_).symm
          have hd' : (path observer).take k <+: (path observer).take d :=
            List.take_prefix_take_left hkd'
          have hunder : Under ((path observer).take k) u.preProof.address :=
            hd'.trans ((leaves_iff_beside hd).mp hc).1
          have hmem := (mem_onPath (Nat.le_of_lt hkd)).mpr ⟨hu, hunder⟩
          rw [List.isEmpty_iff.mp hhere] at hmem
          simp at hmem
        · rw [if_neg hkd']
      · simp only [if_neg hhere]
        by_cases hopp : ((onPath observer updates k).filter fun u =>
            bitAt u.preProof.address k != bitAt observer k).isEmpty
        · simp only [if_pos hopp]
          obtain ⟨hlen', hget⟩ := ih (k + 1) sibs (by omega) hlen fun d hd => hold d (by omega)
          refine ⟨hlen', fun d hd => ?_⟩
          rw [hget d hd]
          by_cases hdk : d = k
          · subst hdk
            rw [if_neg (by omega), if_pos (Nat.le_refl _), hold d (Nat.le_refl _) hd]
            refine (sibling_untouched hd hL' fun u hu hc => ?_).symm
            obtain ⟨hon, hbit⟩ := (leaves_iff_beside hd).mp hc
            have hmem : u ∈ (onPath observer updates d).filter fun u =>
                bitAt u.preProof.address d != bitAt observer d :=
              List.mem_filter.mpr ⟨(mem_onPath (Nat.le_of_lt hd)).mpr ⟨hu, hon⟩,
                bne_iff_ne.mpr hbit⟩
            rw [List.isEmpty_iff.mp hopp] at hmem
            simp at hmem
          · by_cases hle : k ≤ d
            · rw [if_pos (by omega), if_pos hle]
            · rw [if_neg (by omega), if_neg hle]
        · simp only [if_neg hopp]
          have hnew := @postRootRecursive_eq prim L L'
            (treeDepth - (k + 1))
            ((path observer).take k ++ [!(bitAt observer k != 0)]) _
            (by rw [List.length_append, List.length_take, length_path]; simp; omega)
            (genuine_opposite hkd hgen) (by simpa using hopp)
            (fun a ha => by rw [hL' a, postLeaves_opposite hkd ha])
          rw [← smtProof_sibling hkd] at hnew
          obtain ⟨hlen', hget⟩ := ih (k + 1)
            (sibs.set (treeDepth - 1 - k) (postRootRecursive prim (treeDepth - (k + 1))
              ((onPath observer updates k).filter fun u =>
                bitAt u.preProof.address k != bitAt observer k)))
            (by omega) (by simpa using hlen) (fun d hd hdt => by
              rw [List.getD_eq_getElem?_getD, List.getElem?_set_ne (by omega),
                ← List.getD_eq_getElem?_getD]
              exact hold d (by omega) hdt)
          refine ⟨hlen', fun d hd => ?_⟩
          rw [hget d hd]
          by_cases hdk : d = k
          · subst hdk
            rw [if_neg (by omega), if_pos (Nat.le_refl _), hnew, List.getD_eq_getElem?_getD,
              List.getElem?_set_self (by omega), Option.getD_some]
          · by_cases hle : k ≤ d
            · rw [if_pos (by omega), if_pos hle]
            · rw [if_neg (by omega), if_neg hle, List.getD_eq_getElem?_getD,
                List.getElem?_set_ne (by omega), ← List.getD_eq_getElem?_getD]

/-! ### The two entry points -/

/-- The addresses of an update list. -/
def updateAddresses (updates : List Update) : List XOnlyPublicKey :=
  updates.map fun u => u.preProof.address

theorem findDuplicate_eq_none {updates : List Update} :
    findDuplicate updates = none ↔ (updateAddresses updates).Nodup := by
  induction updates with
  | nil => simp [findDuplicate, updateAddresses]
  | cons u rest ih =>
      have hany : rest.any (fun u2 => u.preProof.address == u2.preProof.address) = true
          ↔ u.preProof.address ∈ updateAddresses rest := by
        simp only [updateAddresses, List.any_eq_true, List.mem_map, beq_iff_eq]
        exact exists_congr fun v => and_congr_right fun _ => eq_comm
      simp only [findDuplicate, updateAddresses, List.map_cons, List.nodup_cons]
      by_cases h : rest.any (fun u2 => u.preProof.address == u2.preProof.address) = true
      · simp only [if_pos h, reduceCtorEq, false_iff]
        exact fun hc => hc.1 (hany.mp h)
      · rw [if_neg h, ih]
        exact ⟨fun hn => ⟨fun hc => h (hany.mpr hc), hn⟩, fun hn => hn.2⟩

/-- What passing the checks means. -/
theorem validateUpdates_ok_iff {updates : List Update} {root : H256} :
    validateUpdates prim updates root = .ok () ↔
      (updateAddresses updates).Nodup ∧ ∀ u ∈ updates, u.preProof.verify prim root = true := by
  rw [← findDuplicate_eq_none, validateUpdates]
  cases hdup : findDuplicate updates with
  | some a => simp
  | none =>
      cases hfind : updates.find? (fun u => !u.preProof.verify prim root) with
      | none =>
          simp only [true_and, true_iff]
          exact fun u hu => by simpa using List.find?_eq_none.mp hfind u hu
      | some u =>
          have hbad : u.preProof.verify prim root = false := by simpa using List.find?_some hfind
          simp only [reduceCtorEq, true_and, false_iff]
          exact fun hall => by simp [hall u (List.mem_of_find?_eq_some hfind)] at hbad

/-- Genuine proofs on distinct addresses pass the checks. -/
theorem Genuine.validate {L : Leaves} {updates : List Update} (h : Genuine prim L [] updates)
    (hnd : (updateAddresses updates).Nodup) :
    validateUpdates prim updates (smtRoot prim L) = .ok () := by
  refine validateUpdates_ok_iff.mpr ⟨hnd, fun u hu => ?_⟩
  rw [h.proof u hu]
  exact verify_smtProof L _

/-- **`apply_updates` on genuine proofs is the root of the updated assignment.** -/
theorem applyUpdates_eq {L : Leaves} {updates : List Update} (h : Genuine prim L [] updates)
    (hnd : (updateAddresses updates).Nodup) (hne : updates ≠ []) :
    applyUpdates prim updates (smtRoot prim L) = .ok (smtRoot prim (postLeaves updates L)) := by
  have hroot := @postRootRecursive_eq prim L (postLeaves updates L) treeDepth [] updates (by simp)
    h hne fun _ _ => rfl
  rw [applyUpdates, if_neg (by simpa using hne), h.validate hnd]
  simp only [hroot, smtRoot]

theorem applyUpdates_ok {updates : List Update} {root root' : H256}
    (h : applyUpdates prim updates root = .ok root') :
    updates ≠ [] ∧ validateUpdates prim updates root = .ok () := by
  rw [applyUpdates] at h
  split at h
  · cases h
  · rename_i hne
    refine ⟨by simpa using hne, ?_⟩
    cases hval : validateUpdates prim updates root with
    | error e => rw [hval] at h; cases h
    | ok u => rfl

/-- Two lists of one length with the same entries, read from the far end. -/
private theorem siblings_ext {s t : List H256} (hs : s.length = treeDepth)
    (ht : t.length = treeDepth)
    (h : ∀ d, d < treeDepth → s.getD (treeDepth - 1 - d) default
      = t.getD (treeDepth - 1 - d) default) : s = t := by
  refine List.ext_getElem (hs.trans ht.symm) fun i hi hi' => ?_
  have hd := h (treeDepth - 1 - i) (by omega)
  have hidx : treeDepth - 1 - (treeDepth - 1 - i) = i := by omega
  rw [hidx, List.getD_eq_getElem?_getD, List.getD_eq_getElem?_getD, List.getElem?_eq_getElem hi,
    List.getElem?_eq_getElem hi'] at hd
  exact hd

/-- **`refresh_observer` takes the observer's proof to its proof in the updated assignment.** -/
theorem refreshObserver_eq {L : Leaves} {updates : List Update} (h : Genuine prim L [] updates)
    (hnd : (updateAddresses updates).Nodup) (observer : XOnlyPublicKey) :
    refreshObserver prim (smtProof prim L observer) updates (smtRoot prim L)
      = .ok (smtProof prim (postLeaves updates L) observer) := by
  rw [refreshObserver, verify_smtProof]
  by_cases hne : updates = []
  · subst hne
    simp only [Bool.not_true, Bool.false_eq_true, if_false, List.isEmpty_nil, if_true,
      postLeaves_nil]
  · obtain ⟨hlen, hget⟩ := @refreshSiblings_spec prim L (postLeaves updates L) _ _ h (fun _ => rfl)
      treeDepth 0 (smtProof prim L observer).siblings (by simp) (by simp) fun d _ _ => rfl
    rw [← List.range_eq_range'] at hlen hget
    have hsibs : refreshSiblings prim observer updates (List.range treeDepth)
        (smtProof prim L observer).siblings
          = (smtProof prim (postLeaves updates L) observer).siblings :=
      siblings_ext hlen (by simp) fun d hd => by simpa using hget d hd
    have hempty : updates.isEmpty = false := by simpa using hne
    have haddr : (smtProof prim L observer).address = observer := rfl
    simp only [h.validate hnd, hempty, Bool.not_true, Bool.false_eq_true, if_false, haddr, hsibs]
    cases hfind : updates.find? fun u => u.preProof.address == observer with
    | none => simp only [smtProof, postLeaves, hfind]
    | some u => simp only [smtProof, postLeaves, hfind]

end

end Hodlchain
