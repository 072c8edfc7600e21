/-
Complete binary hash trees over bit paths.

The tree is never built: it is a leaf function `f` on paths, a branch hash, and
`subRoot`, the hash of the subtree under a prefix.  A proof for a path is the leaf
and the siblings along it, listed from the root down, and `climb` is the root a
verifier recomputes from them.

The one fact that is not bookkeeping is `climb_sound`.  The siblings are whatever
an adversary chose; what pins them is that the value climbed to is a node of the
tree.  Peeling the top branch off both sides makes the sibling and the value below
it the tree's own, and so on down.  Only the pairs met on the way have to be free
of collisions.
-/
import Mathlib.Tactic.Common
import Mathlib.Data.Set.Function
import Mathlib.Data.List.Basic

namespace Hodlchain.MerkleTree

section

variable {D : Type} (branch : D → D → D)

/-! ### Nodes -/

/-- The hash of the subtree of height `i` under the prefix `q`. -/
def subRoot (f : List Bool → D) : Nat → List Bool → D
  | 0, q => f q
  | i + 1, q => branch (subRoot f i (q ++ [false])) (subRoot f i (q ++ [true]))

/-- The subtree under `q` reads only the leaves under `q`. -/
theorem subRoot_congr {f g : List Bool → D} :
    ∀ (i : Nat) (q : List Bool), (∀ p, p.length = i → f (q ++ p) = g (q ++ p)) →
      subRoot branch f i q = subRoot branch g i q := by
  intro i
  induction i with
  | zero => intro q h; simpa [subRoot] using h [] rfl
  | succ i ih =>
      intro q h
      have hside : ∀ b, subRoot branch f i (q ++ [b]) = subRoot branch g i (q ++ [b]) := by
        intro b
        refine ih _ fun p hp => ?_
        simpa using h (b :: p) (by simp [hp])
      rw [subRoot, subRoot, hside, hside]

/-- The hash of a subtree of height `i` all of whose leaves are `e`. -/
def constRoot (e : D) : Nat → D
  | 0 => e
  | i + 1 => branch (constRoot e i) (constRoot e i)

theorem subRoot_const {f : List Bool → D} {e : D} :
    ∀ (i : Nat) (q : List Bool), (∀ p, p.length = i → f (q ++ p) = e) →
      subRoot branch f i q = constRoot branch e i := by
  intro i
  induction i with
  | zero => intro q h; simpa [subRoot, constRoot] using h [] rfl
  | succ i ih =>
      intro q h
      have hside : ∀ b, subRoot branch f i (q ++ [b]) = constRoot branch e i := by
        intro b
        refine ih _ fun p hp => ?_
        simpa using h (b :: p) (by simp [hp])
      rw [subRoot, constRoot, hside, hside]

/-! ### Proofs -/

/-- The siblings along `p` under the prefix `q`, from the top down. -/
def siblings (f : List Bool → D) : List Bool → List Bool → List D
  | _, [] => []
  | q, b :: p => subRoot branch f p.length (q ++ [!b]) :: siblings f (q ++ [b]) p

/-- The root recomputed from a leaf, a path and its siblings. -/
def climb (leaf : D) : List Bool → List D → D
  | b :: p, s :: ss =>
      if b then branch s (climb leaf p ss) else branch (climb leaf p ss) s
  | _, _ => leaf

@[simp] theorem length_siblings (f : List Bool → D) :
    ∀ (q p : List Bool), (siblings branch f q p).length = p.length := by
  intro q p
  induction p generalizing q with
  | nil => rfl
  | cons b p ih => simp [siblings, ih]

/-- **A tree's own siblings climb to the tree's node.** -/
theorem climb_siblings (f : List Bool → D) :
    ∀ (p q : List Bool),
      climb branch (f (q ++ p)) p (siblings branch f q p) = subRoot branch f p.length q := by
  intro p
  induction p with
  | nil => intro q; simp [climb, subRoot]
  | cons b p ih =>
      intro q
      have hbelow : climb branch (f (q ++ b :: p)) p (siblings branch f (q ++ [b]) p)
          = subRoot branch f p.length (q ++ [b]) := by
        simpa using ih (q ++ [b])
      cases b <;> simp [climb, siblings, subRoot, hbelow]

/-- The pairs hashed while climbing. -/
def climbPairs (leaf : D) : List Bool → List D → List (D × D)
  | b :: p, s :: ss =>
      (if b then (s, climb branch leaf p ss) else (climb branch leaf p ss, s))
        :: climbPairs leaf p ss
  | _, _ => []

/-- The pairs hashed in the tree at the nodes above `p`. -/
def pathPairs (f : List Bool → D) : List Bool → List Bool → List (D × D)
  | _, [] => []
  | q, b :: p =>
      (subRoot branch f p.length (q ++ [false]), subRoot branch f p.length (q ++ [true]))
        :: pathPairs f (q ++ [b]) p

/-- The pairs above a path are those of the nodes on it. -/
theorem mem_pathPairs {f : List Bool → D} {x : D × D} :
    ∀ {p q : List Bool}, x ∈ pathPairs branch f q p → ∃ r i, r.length + i + 1 = p.length ∧
      x = (subRoot branch f i (q ++ r ++ [false]), subRoot branch f i (q ++ r ++ [true])) := by
  intro p
  induction p with
  | nil =>
      intro q h
      cases h
  | cons b p ih =>
      intro q h
      rcases List.mem_cons.mp h with rfl | hbelow
      · exact ⟨[], p.length, by simp, by simp⟩
      · obtain ⟨r, i, hlen, rfl⟩ := ih hbelow
        refine ⟨b :: r, i, ?_, by simp⟩
        rw [List.length_cons, List.length_cons]
        omega

/-- A tree's own proof hashes the pairs of the tree. -/
theorem climbPairs_siblings (f : List Bool → D) :
    ∀ (p q : List Bool),
      climbPairs branch (f (q ++ p)) p (siblings branch f q p) = pathPairs branch f q p := by
  intro p
  induction p with
  | nil => intro q; rfl
  | cons b p ih =>
      intro q
      have hnode := climb_siblings branch f p (q ++ [b])
      have hbelow := ih (q ++ [b])
      simp only [List.append_assoc, List.singleton_append] at hnode hbelow
      rw [siblings, climbPairs, pathPairs, hnode, hbelow]
      cases b <;> rfl

/-- Where all leaves are one, the pairs above a path are the constant subtrees. -/
theorem pathPairs_const {f : List Bool → D} {e : D} (h : ∀ p, f p = e) :
    ∀ (p q : List Bool), pathPairs branch f q p
      = (List.range p.length).reverse.map fun i =>
        (constRoot branch e i, constRoot branch e i) := by
  intro p
  induction p with
  | nil => intro q; rfl
  | cons b p ih =>
      intro q
      have hsub : ∀ (i : Nat) (q : List Bool), subRoot branch f i q = constRoot branch e i :=
        fun i q => subRoot_const branch i q fun p _ => h (q ++ p)
      rw [pathPairs, ih, hsub, hsub, List.length_cons, List.range_succ, List.reverse_append]
      rfl

/--
**An accepted proof is the tree's own.**  Whatever the siblings, a climb that ends
at the tree's node has the tree's leaf and the tree's siblings, provided no two of
the pairs met on the way collide.
-/
theorem climb_sound (f : List Bool → D) (leaf : D) :
    ∀ (p q : List Bool) (ss : List D), ss.length = p.length →
      Set.InjOn (fun x : D × D => branch x.1 x.2)
        {x | x ∈ climbPairs branch leaf p ss ∨ x ∈ pathPairs branch f q p} →
      climb branch leaf p ss = subRoot branch f p.length q →
      leaf = f (q ++ p) ∧ ss = siblings branch f q p := by
  intro p
  induction p with
  | nil =>
      intro q ss hlen _ h
      refine ⟨by simpa [climb, subRoot] using h, ?_⟩
      simpa [siblings] using hlen
  | cons b p ih =>
      intro q ss hlen hinj h
      cases ss with
      | nil => simp at hlen
      | cons s ss =>
          have hmem : ∀ x, x ∈ climbPairs branch leaf p ss ∨ x ∈ pathPairs branch f (q ++ [b]) p →
              x ∈ climbPairs branch leaf (b :: p) (s :: ss)
                ∨ x ∈ pathPairs branch f q (b :: p) := by
            rintro x (hx | hx)
            · exact Or.inl (List.mem_cons_of_mem _ hx)
            · exact Or.inr (List.mem_cons_of_mem _ hx)
          -- the top branch of both sides, so the two pairs are the same pair
          have htop := hinj (Or.inl List.mem_cons_self) (Or.inr List.mem_cons_self)
            (by cases b <;> simpa [climb, subRoot] using h)
          have hboth : climb branch leaf p ss = subRoot branch f p.length (q ++ [b])
              ∧ s = subRoot branch f p.length (q ++ [!b]) := by
            cases b
            · simpa using htop
            · simpa [and_comm] using htop
          obtain ⟨hleaf, hss⟩ := ih (q ++ [b]) ss (by simpa using hlen)
            (hinj.mono hmem) hboth.1
          exact ⟨by simpa using hleaf, by rw [siblings, ← hss, ← hboth.2]⟩

/-- Two climbs along one path that end at one node started at one leaf, with the same siblings,
provided no two of the pairs met on the way collide. -/
theorem climb_inj (leaf leaf' : D) :
    ∀ (p : List Bool) (ss ss' : List D), ss.length = p.length → ss'.length = p.length →
      Set.InjOn (fun x : D × D => branch x.1 x.2)
        {x | x ∈ climbPairs branch leaf p ss ∨ x ∈ climbPairs branch leaf' p ss'} →
      climb branch leaf p ss = climb branch leaf' p ss' → leaf = leaf' ∧ ss = ss' := by
  intro p
  induction p with
  | nil =>
      intro ss ss' hlen hlen' _ h
      rw [List.length_nil, List.length_eq_zero_iff] at hlen hlen'
      rw [hlen, hlen'] at h ⊢
      exact ⟨h, rfl⟩
  | cons b p ih =>
      intro ss ss' hlen hlen' hinj h
      cases ss with
      | nil => simp at hlen
      | cons s ss =>
          cases ss' with
          | nil => simp at hlen'
          | cons s' ss' =>
              have hmem : ∀ x, x ∈ climbPairs branch leaf p ss ∨ x ∈ climbPairs branch leaf' p ss' →
                  x ∈ climbPairs branch leaf (b :: p) (s :: ss)
                    ∨ x ∈ climbPairs branch leaf' (b :: p) (s' :: ss') := by
                intro x hx
                exact hx.imp (List.mem_cons_of_mem _) (List.mem_cons_of_mem _)
              have htop := hinj (Or.inl List.mem_cons_self) (Or.inr List.mem_cons_self)
                (by cases b <;> simpa [climb] using h)
              have hboth : climb branch leaf p ss = climb branch leaf' p ss' ∧ s = s' := by
                cases b
                · simpa using htop
                · simpa [and_comm] using htop
              obtain ⟨hleaf, hss⟩ := ih ss ss' (by simpa using hlen) (by simpa using hlen')
                (hinj.mono hmem) hboth.1
              exact ⟨hleaf, by rw [hss, hboth.2]⟩

/-- The sibling at depth `d` is the node beside the path there. -/
theorem siblings_getElem? (f : List Bool → D) :
    ∀ (p q : List Bool) (d : Nat) (b : Bool), p[d]? = some b →
      (siblings branch f q p)[d]?
        = some (subRoot branch f (p.length - d - 1) (q ++ p.take d ++ [!b])) := by
  intro p
  induction p with
  | nil => intro q d b h; simp at h
  | cons c p ih =>
      intro q d b h
      cases d with
      | zero =>
          simp only [List.getElem?_cons_zero, Option.some.injEq] at h
          subst h
          simp [siblings]
      | succ d =>
          rw [List.getElem?_cons_succ] at h
          rw [siblings, List.getElem?_cons_succ, ih (q ++ [c]) d b h]
          have hsub : p.length - d - 1 = p.length + 1 - (d + 1) - 1 := by omega
          simp [hsub]

end

end Hodlchain.MerkleTree
