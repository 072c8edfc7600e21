/-
A hash that weighs the tree.

The counting hash has no collision in an empty tree; this one has none in a tree of two
accounts.  A populated leaf weighs its nonce, a subtree what its leaves weigh, and a
hash spells the weight and the height.  Two nodes of one height and one weight are the
same node, or they are both empty: so their strings are the same.
-/
import Mathlib.Data.List.Nodup
import Hodlchain.Core.Counting

namespace Hodlchain

open Bytes MerkleTree

/-- The weight of what a string says, in units of 512, and the height below them. -/
def weigh (x : Bytes) : Nat :=
  if x.take 18 = utf8 "hodl-smt-branch-v0" then
    let left := beValue ((x.drop 18).take 32)
    left - left % 512 + beValue (x.drop 50) + 1
  else if x.take 16 = utf8 "hodl-smt-leaf-v0" then 512 * beValue (x.drop 56)
  else if x = emptyLeafPreimage then 0
  else 2 ^ 32 + x.length

def weighingHash (x : Bytes) : H256 := ⟨ByteArr.ofNat 32 (weigh x)⟩

/-- `Primitives.sample` with `weighingHash`. -/
def Primitives.weighing : Primitives := { Primitives.sample with sha256 := weighingHash }

theorem H256.beValue_inj {x y : H256} (h : beValue x.raw = beValue y.raw) : x = y := by
  have hx := beBytes_beValue x.raw
  have hy := beBytes_beValue y.raw
  rw [length_raw] at hx hy
  rw [← raw_inj, ← hx, ← hy, h]

/-! ### What the three kinds of strings weigh -/

theorem beValue_weighingHash {x : Bytes} (h : weigh x < 256 ^ 32) :
    beValue (weighingHash x).raw = weigh x :=
  (beValue_beBytes 32 _).trans (Nat.mod_eq_of_lt h)

theorem weigh_branch (l r : H256) : weigh (branchPreimage l r)
    = beValue l.raw - beValue l.raw % 512 + beValue r.raw + 1 := by
  have htag : (utf8 "hodl-smt-branch-v0").length = 18 := by decide
  have hleft : (utf8 "hodl-smt-branch-v0" ++ l.raw).length = 50 := by
    rw [List.length_append, htag, H256.length_raw]
  have htake : (branchPreimage l r).take 18 = utf8 "hodl-smt-branch-v0" := by
    rw [branchPreimage, List.append_assoc, ← htag, List.take_left]
  have hmid : ((branchPreimage l r).drop 18).take 32 = l.raw := by
    rw [branchPreimage, List.append_assoc, ← htag, List.drop_left, ← l.length_raw, List.take_left]
  have hdrop : (branchPreimage l r).drop 50 = r.raw := by
    rw [branchPreimage, ← hleft, List.drop_left]
  unfold weigh
  rw [if_pos htake, hmid, hdrop]

/-- Two nodes of one height: their weights add up, and the height goes up by one. -/
theorem weigh_sides {l r : H256} {left right i : Nat} (hl : beValue l.raw = 512 * left + i)
    (hr : beValue r.raw = 512 * right + i) (hi : i < 512) :
    weigh (branchPreimage l r) = 512 * (left + right) + (i + 1) := by
  rw [weigh_branch, hl, hr]
  omega

theorem weigh_populatedLeaf (a : XOnlyPublicKey) (balance nonce : UInt64) :
    weigh (populatedLeafPreimage a balance nonce) = 512 * nonce.toNat := by
  have htag : (utf8 "hodl-smt-leaf-v0").length = 16 := by decide
  have htake : (populatedLeafPreimage a balance nonce).take 16 = utf8 "hodl-smt-leaf-v0" := by
    rw [populatedLeafPreimage, List.append_assoc, List.append_assoc, ← htag, List.take_left]
  have hother : (populatedLeafPreimage a balance nonce).take 18 ≠ utf8 "hodl-smt-branch-v0" := by
    intro h
    have hshort := congrArg (List.take 16) h
    rw [List.take_take, show min 16 18 = 16 from rfl, htake] at hshort
    revert hshort
    decide
  have hdrop : (populatedLeafPreimage a balance nonce).drop 56 = be64 nonce := by
    have hfront : (utf8 "hodl-smt-leaf-v0" ++ a.serialize ++ be64 balance).length = 56 := by
      rw [List.length_append, List.length_append, htag, XOnlyPublicKey.length_serialize,
        length_be64]
    rw [populatedLeafPreimage, ← hfront, List.drop_left]
  have hvalue : beValue (be64 nonce) = nonce.toNat := by
    rw [be64, beValue_beBytes]
    exact Nat.mod_eq_of_lt nonce.toNat_lt
  unfold weigh
  rw [if_neg hother, if_pos htake, hdrop, hvalue]

theorem weigh_emptyLeaf : weigh emptyLeafPreimage = 0 := by decide

/-! ### Two accounts -/

/-- Two accounts, of nonces 1 and 2. -/
def twoAccounts (a b : XOnlyPublicKey) : List (XOnlyPublicKey × Account) :=
  [(a, ⟨500, 1⟩), (b, ⟨700, 2⟩)]

instance (q : List Bool) (a : XOnlyPublicKey) : Decidable (Under q a) :=
  inferInstanceAs (Decidable (q <+: path a))

/-- What the accounts under a prefix weigh. -/
def weightUnder (a b : XOnlyPublicKey) (q : List Bool) : Nat :=
  (if Under q a then 1 else 0) + if Under q b then 2 else 0

section

variable {a b : XOnlyPublicKey} {q q' : List Bool}

theorem weightUnder_le (a b : XOnlyPublicKey) (q : List Bool) : weightUnder a b q ≤ 3 := by
  unfold weightUnder
  split_ifs <;> decide

theorem weightUnder_sides (hq : q.length < treeDepth) : weightUnder a b q
    = weightUnder a b (q ++ [false]) + weightUnder a b (q ++ [true]) := by
  unfold weightUnder
  simp only [under_snoc hq]
  by_cases ha : Under q a
  · by_cases hb : Under q b
    · cases (bitAt a q.length != 0) <;> cases (bitAt b q.length != 0) <;> simp [ha, hb]
    · cases (bitAt a q.length != 0) <;> simp [ha, hb]
  · by_cases hb : Under q b
    · cases (bitAt b q.length != 0) <;> simp [ha, hb]
    · simp [ha, hb]

/-- Prefixes of one length that weigh the same are one, or there is nothing under them. -/
theorem weightUnder_eq (hlen : q.length = q'.length) (h : weightUnder a b q = weightUnder a b q') :
    q = q' ∨ weightUnder a b q = 0 ∧ weightUnder a b q' = 0 := by
  have hsame : ∀ {c}, Under q c → Under q' c → q = q' := fun hc hc' =>
    (List.prefix_of_prefix_length_le hc hc' hlen.le).eq_of_length hlen
  unfold weightUnder at h ⊢
  by_cases ha : Under q a
  · by_cases ha' : Under q' a
    · exact .inl (hsame ha ha')
    · rw [if_pos ha, if_neg ha'] at h
      split_ifs at h <;> omega
  · by_cases ha' : Under q' a
    · rw [if_neg ha, if_pos ha'] at h
      split_ifs at h <;> omega
    · by_cases hb : Under q b
      · by_cases hb' : Under q' b
        · exact .inl (hsame hb hb')
        · simp [ha, ha', hb, hb'] at h
      · rw [if_neg ha, if_neg hb] at h ⊢
        exact .inr ⟨rfl, h.symm⟩

theorem under_path_iff {c d : XOnlyPublicKey} : Under (path c) d ↔ c = d :=
  ⟨fun h => path_inj (h.path_eq (length_path c)).symm, fun h => h ▸ List.prefix_rfl⟩

theorem leafOf_of_weightless {c : XOnlyPublicKey} (h : weightUnder a b (path c) = 0) :
    leafOf (twoAccounts a b) c = .empty := by
  unfold weightUnder at h
  simp only [under_path_iff] at h
  have ha : ¬ a = c := fun hc => by simp [hc] at h
  have hb : ¬ b = c := fun hc => by simp [hc] at h
  simp [leafOf, twoAccounts, ha, hb]

/-- At full depth a prefix weighs what its leaf does. -/
theorem weigh_leafPreimage (hab : a ≠ b) (c : XOnlyPublicKey) :
    weigh ((leafOf (twoAccounts a b) c).leafPreimage c) = 512 * weightUnder a b (path c) := by
  unfold weightUnder leafOf twoAccounts
  simp only [under_path_iff]
  by_cases ha : a = c
  · subst ha
    simp [weigh_populatedLeaf, LeafKind.leafPreimage, hab]
  · by_cases hb : b = c
    · subst hb
      simp [weigh_populatedLeaf, LeafKind.leafPreimage, ha, Ne.symm hab]
    · have ha' : ¬ c = a := fun h => ha h.symm
      have hb' : ¬ c = b := fun h => hb h.symm
      simp [LeafKind.leafPreimage, weigh_emptyLeaf, ha, hb, ha', hb']

/-- The hash of a subtree of height `i` under `q`. -/
noncomputable def twoNode (a b : XOnlyPublicKey) : Nat → List Bool → H256 :=
  subRoot (branchHash Primitives.weighing) (treeLeaf Primitives.weighing (leafOf (twoAccounts a b)))

/-- A branch of two sides that spell their weights and their height. -/
theorem weigh_branch_of_sides {i : Nat} (hq : q.length + i + 1 = treeDepth)
    (hside : ∀ side, beValue (twoNode a b i (q ++ [side])).raw
      = 512 * weightUnder a b (q ++ [side]) + i) :
    weigh (branchPreimage (twoNode a b i (q ++ [false])) (twoNode a b i (q ++ [true])))
      = 512 * weightUnder a b q + (i + 1) := by
  have hheight : i < 512 := by
    unfold treeDepth at hq
    omega
  rw [weigh_sides (hside false) (hside true) hheight, ← weightUnder_sides (by omega)]

/-- **A subtree's hash spells its weight and its height.** -/
theorem beValue_twoNode (hab : a ≠ b) : ∀ (i : Nat) (q : List Bool), q.length + i = treeDepth →
    beValue (twoNode a b i q).raw = 512 * weightUnder a b q + i := by
  intro i
  induction i with
  | zero =>
      intro q hq
      unfold twoNode
      rw [subRoot]
      by_cases hpath : ∃ c, path c = q
      · obtain ⟨c, rfl⟩ := hpath
        have hweigh := weigh_leafPreimage hab c
        have hsmall := weightUnder_le a b (path c)
        rw [treeLeaf_path, leafHash_eq]
        exact (beValue_weighingHash (by rw [hweigh]; omega)).trans hweigh
      · -- no address, and no account
        have hnone : ∀ c, ¬ Under q c := fun c h => hpath ⟨c, h.path_eq hq⟩
        rw [treeLeaf_of_empty fun c hc => absurd ⟨c, hc⟩ hpath]
        unfold weightUnder
        rw [if_neg (hnone a), if_neg (hnone b)]
        exact (beValue_weighingHash (by rw [weigh_emptyLeaf]; decide)).trans weigh_emptyLeaf
  | succ i ih =>
      intro q hq
      have hheight : i < treeDepth := by omega
      unfold treeDepth at hheight
      have hweigh := weigh_branch_of_sides (by omega) fun side => ih (q ++ [side]) (by simp; omega)
      have hsmall := weightUnder_le a b q
      have hnode : twoNode a b (i + 1) q = weighingHash
          (branchPreimage (twoNode a b i (q ++ [false])) (twoNode a b i (q ++ [true]))) := rfl
      rw [hnode, beValue_weighingHash (by rw [hweigh]; omega), hweigh]

/-- Nodes of one height that weigh the same have the same two sides. -/
theorem twoNode_side (hab : a ≠ b) {i : Nat} (hq : q.length + i + 1 = treeDepth)
    (hq' : q'.length + i + 1 = treeDepth) (h : weightUnder a b q = weightUnder a b q')
    (side : Bool) :
    twoNode a b i (q ++ [side]) = twoNode a b i (q' ++ [side]) := by
  rcases weightUnder_eq (by omega) h with rfl | ⟨hzero, hzero'⟩
  · rfl
  · -- nothing is under either, and the height alone is left
    have hlight : ∀ {r : List Bool}, r.length + i + 1 = treeDepth → weightUnder a b r = 0 →
        beValue (twoNode a b i (r ++ [side])).raw = i := by
      intro r hr hnone
      rw [weightUnder_sides (by omega)] at hnone
      rw [beValue_twoNode hab i _ (by simp; omega)]
      cases side <;> omega
    exact H256.beValue_inj ((hlight hq hzero).trans (hlight hq' hzero').symm)

/-! ### No collision -/

/-- The strings of the tree, on the way to any address. -/
def twoStrings (a b : XOnlyPublicKey) : Set Bytes :=
  {x | ∃ c, x ∈ pathPreimages Primitives.weighing (leafOf (twoAccounts a b)) c}

/-- Each is that of a leaf or of a branch. -/
theorem mem_twoStrings {x : Bytes} (h : x ∈ twoStrings a b) :
    (∃ c, x = (leafOf (twoAccounts a b) c).leafPreimage c) ∨
      ∃ q i, q.length + i + 1 = treeDepth ∧
        x = branchPreimage (twoNode a b i (q ++ [false])) (twoNode a b i (q ++ [true])) := by
  obtain ⟨c, hc⟩ := h
  rcases List.mem_cons.mp hc with hleaf | hbranch
  · exact .inl ⟨c, hleaf⟩
  · obtain ⟨pair, hpair, rfl⟩ := List.mem_map.mp hbranch
    obtain ⟨r, i, hlen, rfl⟩ := mem_pathPairs _ hpair
    rw [length_path] at hlen
    exact .inr ⟨r, i, hlen, rfl⟩

theorem weigh_twoBranch (hab : a ≠ b) {i : Nat} (hq : q.length + i + 1 = treeDepth) :
    weigh (branchPreimage (twoNode a b i (q ++ [false])) (twoNode a b i (q ++ [true])))
      = 512 * weightUnder a b q + (i + 1) :=
  weigh_branch_of_sides hq fun side => beValue_twoNode hab i (q ++ [side]) (by simp; omega)

/-- Its strings weigh little. -/
theorem weigh_twoStrings (hab : a ≠ b) {x : Bytes} (h : x ∈ twoStrings a b) : weigh x < 2 ^ 32 := by
  rcases mem_twoStrings h with ⟨c, rfl⟩ | ⟨q, i, hlen, rfl⟩
  · have hsmall := weightUnder_le a b (path c)
    rw [weigh_leafPreimage hab]
    omega
  · have hsmall := weightUnder_le a b q
    unfold treeDepth at hlen
    rw [weigh_twoBranch hab hlen]
    omega

/-- **The hash has no collision in the tree.** -/
theorem injOn_twoStrings (hab : a ≠ b) : Set.InjOn Primitives.weighing.sha256 (twoStrings a b) := by
  intro x hx y hy hxy
  have hweigh : weigh x = weigh y := by
    have hx' := weigh_twoStrings hab hx
    have hy' := weigh_twoStrings hab hy
    have hvalue := congrArg (fun h : H256 => beValue h.raw) hxy
    exact (beValue_weighingHash (by omega)).symm.trans
      (hvalue.trans (beValue_weighingHash (by omega)))
  have hlow : ∀ {r : List Bool} {i : Nat}, r.length + i + 1 = treeDepth → i < 256 := by
    intro r i hlen
    unfold treeDepth at hlen
    omega
  rcases mem_twoStrings hx with ⟨c, rfl⟩ | ⟨q, i, hlen, rfl⟩
  · rcases mem_twoStrings hy with ⟨d, rfl⟩ | ⟨q', i', hlen', rfl⟩
    · rw [weigh_leafPreimage hab, weigh_leafPreimage hab] at hweigh
      rcases @weightUnder_eq a b (path c) (path d) (by simp) (by omega) with hpath | ⟨hzero, hzero'⟩
      · rw [path_inj hpath]
      · rw [leafOf_of_weightless hzero, leafOf_of_weightless hzero']
        rfl
    · have hbelow := hlow hlen'
      rw [weigh_leafPreimage hab, weigh_twoBranch hab hlen'] at hweigh
      omega
  · have hbelow := hlow hlen
    rcases mem_twoStrings hy with ⟨d, rfl⟩ | ⟨q', i', hlen', rfl⟩
    · rw [weigh_leafPreimage hab, weigh_twoBranch hab hlen] at hweigh
      omega
    · have hbelow' := hlow hlen'
      rw [weigh_twoBranch hab hlen, weigh_twoBranch hab hlen'] at hweigh
      obtain rfl : i = i' := by omega
      have hsame : weightUnder a b q = weightUnder a b q' := by omega
      rw [twoNode_side hab hlen hlen' hsame, twoNode_side hab hlen hlen' hsame]

/-! ### The other strings -/

/-- A string of no tree, of which the hash shows the length. -/
structure Plain (x : Bytes) : Prop where
  tag : x.take 9 ≠ utf8 "hodl-smt-"
  short : x.length < 2 ^ 32

theorem plain_of_prefix (tag : Bytes) {x : Bytes} (h : tag <+: x) (hlen : 9 ≤ tag.length)
    (htag : tag.take 9 ≠ utf8 "hodl-smt-") (hshort : x.length < 2 ^ 32) : Plain x := by
  obtain ⟨rest, rfl⟩ := h
  exact ⟨by rwa [List.take_append_of_le_length hlen], hshort⟩

theorem Plain.weigh {x : Bytes} (h : Plain x) : weigh x = 2 ^ 32 + x.length := by
  -- the tags of a tree's strings begin alike
  have hother : ∀ (n : Nat) (tag : Bytes), 9 ≤ n → tag.take 9 = utf8 "hodl-smt-" →
      x.take n ≠ tag := by
    intro n tag hn htag heq
    have hfront := congrArg (List.take 9) heq
    rw [List.take_take, Nat.min_eq_left hn] at hfront
    exact h.tag (hfront.trans htag)
  have hempty : x ≠ emptyLeafPreimage := by
    intro heq
    exact h.tag (heq ▸ by decide)
  unfold Hodlchain.weigh
  rw [if_neg (hother 18 _ (by decide) (by decide)), if_neg (hother 16 _ (by decide) (by decide)),
    if_neg hempty]

/-- The strings of the tree, with others of different lengths. -/
theorem injOn_twoStrings_plain (hab : a ≠ b) {others : List Bytes} (hplain : ∀ x ∈ others, Plain x)
    (hlen : (others.map List.length).Nodup) :
    Set.InjOn Primitives.weighing.sha256 (twoStrings a b ∪ {x | x ∈ others}) := by
  have hvalue : ∀ x, weigh x < 2 ^ 34 → beValue (Primitives.weighing.sha256 x).raw = weigh x :=
    fun x h => beValue_weighingHash (by omega)
  have hother : ∀ x ∈ others, beValue (Primitives.weighing.sha256 x).raw = 2 ^ 32 + x.length := by
    intro x hx
    have hweigh := (hplain x hx).weigh
    have hshort := (hplain x hx).short
    rw [hvalue x (by omega), hweigh]
  have htree : ∀ x ∈ twoStrings a b, beValue (Primitives.weighing.sha256 x).raw < 2 ^ 32 := by
    intro x hx
    have hlight := weigh_twoStrings hab hx
    rwa [hvalue x (by omega)]
  rintro x (hx | hx) y (hy | hy) hxy
  · exact injOn_twoStrings hab hx hy hxy
  · have hx' := htree x hx
    rw [hxy, hother y hy] at hx'
    omega
  · have hy' := htree y hy
    rw [← hxy, hother x hx] at hy'
    omega
  · have hx' := hother x hx
    rw [hxy, hother y hy] at hx'
    exact List.inj_on_of_nodup_map hlen hx hy (by omega)

end

end Hodlchain
