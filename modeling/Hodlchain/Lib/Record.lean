/-
Lists of records, changed in place and appended to.

`iter_mut().find(p)` gives the first record that satisfies `p`; a change made through
it leaves every other record, and the order, alone.  Under such changes and pushes a
list only grows: the old records are still there, in their places, each related to
what it was.
-/
import Mathlib.Data.List.Basic
import Mathlib.Tactic.Common

namespace Hodlchain

section

variable {α : Type}

/-- Change the first record that satisfies `p`. -/
def modifyFirst (p : α → Bool) (f : α → α) : List α → List α
  | [] => []
  | a :: l => if p a then f a :: l else a :: modifyFirst p f l

theorem modifyFirst_nil (p : α → Bool) (f : α → α) : modifyFirst p f [] = [] := rfl

theorem modifyFirst_cons (p : α → Bool) (f : α → α) (a : α) (l : List α) :
    modifyFirst p f (a :: l) = if p a then f a :: l else a :: modifyFirst p f l := rfl

theorem length_modifyFirst (p : α → Bool) (f : α → α) (l : List α) :
    (modifyFirst p f l).length = l.length := by
  induction l with
  | nil => rfl
  | cons a l ih =>
      rw [modifyFirst_cons]
      by_cases hp : p a = true
      · rw [if_pos hp]
        rfl
      · rw [if_neg hp, List.length_cons, List.length_cons, ih]

/-- A list is left alone where its first hit is. -/
theorem modifyFirst_eq_self_iff {p : α → Bool} {f : α → α} {l : List α} :
    modifyFirst p f l = l ↔ ∀ a, l.find? p = some a → f a = a := by
  induction l with
  | nil => simp [modifyFirst_nil]
  | cons a l ih =>
      rw [modifyFirst_cons]
      by_cases ha : p a
      · rw [if_pos ha, List.find?_cons_of_pos ha]
        simp
      · rw [if_neg ha, List.find?_cons_of_neg ha, List.cons_inj_right, ih]

theorem modifyFirst_append_left {p : α → Bool} (f : α → α) {l : List α} (h : l.any p = true)
    (back : List α) : modifyFirst p f (l ++ back) = modifyFirst p f l ++ back := by
  induction l with
  | nil => simp at h
  | cons a l ih =>
      rw [List.cons_append, modifyFirst_cons, modifyFirst_cons]
      by_cases hp : p a = true
      · rw [if_pos hp, if_pos hp, List.cons_append]
      · rw [if_neg hp, if_neg hp, List.cons_append, ih (by simpa [hp] using h)]

theorem modifyFirst_append_right {p : α → Bool} (f : α → α) {l : List α} (h : l.any p = false)
    (back : List α) : modifyFirst p f (l ++ back) = l ++ modifyFirst p f back := by
  induction l with
  | nil => rfl
  | cons a l ih =>
      rw [List.any_cons, Bool.or_eq_false_iff] at h
      rw [List.cons_append, modifyFirst_cons, if_neg (by simp [h.1]), ih h.2, List.cons_append]

/-- A test that a change does not touch finds the same records after it. -/
theorem any_modifyFirst {p q : α → Bool} {f : α → α} (hq : ∀ a, q (f a) = q a) (l : List α) :
    (modifyFirst p f l).any q = l.any q := by
  induction l with
  | nil => rfl
  | cons a l ih =>
      rw [modifyFirst_cons]
      by_cases hp : p a = true
      · rw [if_pos hp, List.any_cons, List.any_cons, hq]
      · rw [if_neg hp, List.any_cons, List.any_cons, ih]

theorem countP_modifyFirst {p q : α → Bool} {f : α → α} (hq : ∀ a, q (f a) = q a) (l : List α) :
    (modifyFirst p f l).countP q = l.countP q := by
  induction l with
  | nil => rfl
  | cons a l ih =>
      rw [modifyFirst_cons]
      by_cases hp : p a = true
      · rw [if_pos hp, List.countP_cons, List.countP_cons, hq]
      · rw [if_neg hp, List.countP_cons, List.countP_cons, ih]

theorem modifyFirst_modifyFirst {p : α → Bool} {f g : α → α} (hp : ∀ a, p (g a) = p a)
    (l : List α) :
    modifyFirst p f (modifyFirst p g l) = modifyFirst p (f ∘ g) l := by
  induction l with
  | nil => rfl
  | cons a l ih =>
      rw [modifyFirst_cons, modifyFirst_cons]
      by_cases ha : p a = true
      · rw [if_pos ha, if_pos ha, modifyFirst_cons, if_pos ((hp a).trans ha)]
        rfl
      · rw [if_neg ha, if_neg ha, modifyFirst_cons, if_neg ha, ih]

/-- Changes that no record is subject to both of do not see each other. -/
theorem modifyFirst_comm {p q : α → Bool} {f g : α → α} (hpq : ∀ a, p a = true → q a = false)
    (hp : ∀ a, p (g a) = p a) (hq : ∀ a, q (f a) = q a) (l : List α) :
    modifyFirst p f (modifyFirst q g l) = modifyFirst q g (modifyFirst p f l) := by
  induction l with
  | nil => rfl
  | cons a l ih =>
      by_cases hpa : p a = true
      · have hqa : ¬ q a = true := by simp [hpq a hpa]
        rw [modifyFirst_cons, if_neg hqa, modifyFirst_cons, if_pos hpa,
          modifyFirst_cons, if_pos hpa, modifyFirst_cons, if_neg (by rwa [hq])]
      · by_cases hqa : q a = true
        · rw [modifyFirst_cons, if_pos hqa, modifyFirst_cons, if_neg (by rwa [hp]),
            modifyFirst_cons, if_neg hpa, modifyFirst_cons, if_pos hqa]
        · rw [modifyFirst_cons, if_neg hqa, modifyFirst_cons, if_neg hpa,
            modifyFirst_cons, if_neg hpa, modifyFirst_cons, if_neg hqa, ih]

/-- A record is an old one, or what the change has made of one that satisfies `p`. -/
theorem mem_modifyFirst {p : α → Bool} {f : α → α} {l : List α} {b : α}
    (h : b ∈ modifyFirst p f l) :
    b ∈ l ∨ ∃ a ∈ l, p a = true ∧ b = f a := by
  induction l with
  | nil => exact .inl h
  | cons a l ih =>
      rw [modifyFirst_cons] at h
      by_cases hp : p a = true
      · rw [if_pos hp] at h
        rcases List.mem_cons.mp h with rfl | hl
        · exact .inr ⟨a, List.mem_cons_self, hp, rfl⟩
        · exact .inl (List.mem_cons_of_mem a hl)
      · rw [if_neg hp] at h
        rcases List.mem_cons.mp h with rfl | hl
        · exact .inl List.mem_cons_self
        · rcases ih hl with hold | ⟨c, hc, hpc, rfl⟩
          · exact .inl (List.mem_cons_of_mem a hold)
          · exact .inr ⟨c, List.mem_cons_of_mem a hc, hpc, rfl⟩

/-- `p` holds of nothing before place `i`. -/
def NoneBefore (p : α → Bool) (l : List α) (i : Nat) : Prop :=
  ∀ j < i, ∀ b, l[j]? = some b → p b = false

theorem noneBefore_succ {p : α → Bool} {a : α} {l : List α} {i : Nat} :
    NoneBefore p (a :: l) (i + 1) ↔ p a = false ∧ NoneBefore p l i := by
  constructor
  · intro h
    exact ⟨h 0 (Nat.succ_pos i) a rfl, fun j hj b hb => h (j + 1) (Nat.succ_lt_succ hj) b hb⟩
  · rintro ⟨ha, h⟩ j hj b hb
    cases j with
    | zero => rwa [Option.some.inj hb] at ha
    | succ j => exact h j (Nat.lt_of_succ_lt_succ hj) b hb

theorem getElem?_modifyFirst_of_first {p : α → Bool} {f : α → α} {l : List α} {i : Nat} {a : α}
    (ha : l[i]? = some a) (hp : p a = true) (hfirst : NoneBefore p l i) :
    (modifyFirst p f l)[i]? = some (f a) := by
  induction l generalizing i with
  | nil => simp at ha
  | cons b l ih =>
      rw [modifyFirst_cons]
      cases i with
      | zero =>
          obtain rfl : b = a := Option.some.inj ha
          rw [if_pos hp]
          rfl
      | succ i =>
          obtain ⟨hb, hrest⟩ := noneBefore_succ.mp hfirst
          rw [if_neg (by simp [hb])]
          exact ih ha hrest

theorem getElem?_modifyFirst_of_not {p : α → Bool} {f : α → α} {l : List α} {i : Nat} {a : α}
    (ha : l[i]? = some a) (h : ¬ (p a = true ∧ NoneBefore p l i)) :
    (modifyFirst p f l)[i]? = some a := by
  induction l generalizing i with
  | nil => simp at ha
  | cons b l ih =>
      rw [modifyFirst_cons]
      by_cases hb : p b = true
      · rw [if_pos hb]
        cases i with
        | zero =>
            obtain rfl : b = a := Option.some.inj ha
            exact absurd ⟨hb, nofun⟩ h
        | succ i => exact ha
      · rw [if_neg hb]
        cases i with
        | zero => exact ha
        | succ i =>
            refine ih ha fun hfirst => h ⟨hfirst.1, noneBefore_succ.mpr ⟨?_, hfirst.2⟩⟩
            exact Bool.eq_false_iff.mpr hb

/-! ### Growing -/

/-- `l'` has the records of `l` in their places, each as `R` allows, and possibly more. -/
inductive Extends (R : α → α → Prop) : List α → List α → Prop
  | nil (l' : List α) : Extends R [] l'
  | cons {a a' : α} {l l' : List α} (h : R a a') (hl : Extends R l l') :
    Extends R (a :: l) (a' :: l')

namespace Extends

variable {R : α → α → Prop} {l l' l'' : List α}

theorem append (hrefl : ∀ a, R a a) (l back : List α) : Extends R l (l ++ back) := by
  induction l with
  | nil => exact .nil back
  | cons a l ih => exact .cons (hrefl a) ih

theorem refl (hrefl : ∀ a, R a a) (l : List α) : Extends R l l := by
  simpa using append hrefl l []

theorem trans (htrans : ∀ {a b c}, R a b → R b c → R a c) (h : Extends R l l')
    (h' : Extends R l' l'') : Extends R l l'' := by
  induction h generalizing l'' with
  | nil => exact .nil l''
  | cons hab _ ih =>
      cases h' with
      | cons hbc h' => exact .cons (htrans hab hbc) (ih h')

/-- No record is lost. -/
theorem mem (h : Extends R l l') {a : α} (ha : a ∈ l) : ∃ a' ∈ l', R a a' := by
  induction h with
  | nil => simp at ha
  | @cons b b' l l' hb _ ih =>
      rcases List.mem_cons.mp ha with rfl | ha
      · exact ⟨b', by simp, hb⟩
      · obtain ⟨a', ha', hR⟩ := ih ha
        exact ⟨a', List.mem_cons_of_mem _ ha', hR⟩

theorem getElem? (h : Extends R l l') {k : Nat} {a : α} (ha : l[k]? = some a) :
    ∃ a', l'[k]? = some a' ∧ R a a' := by
  induction h generalizing k with
  | nil => simp at ha
  | @cons b b' l l' hb _ ih =>
      cases k with
      | zero => exact ⟨b', rfl, by simpa using Option.some.inj ha ▸ hb⟩
      | succ k => simpa using ih (by simpa using ha)

/-- Growth, said of each place. -/
theorem of_getElem? (h : ∀ (k : Nat) (a : α), l[k]? = some a → ∃ a', l'[k]? = some a' ∧ R a a') :
    Extends R l l' := by
  induction l generalizing l' with
  | nil => exact .nil l'
  | cons a l ih =>
      obtain ⟨a', ha', hR⟩ := h 0 a rfl
      cases l' with
      | nil => cases ha'
      | cons b l' =>
          obtain rfl : b = a' := Option.some.inj ha'
          exact .cons hR (ih fun k c hc => h (k + 1) c hc)

theorem modifyFirst (hrefl : ∀ a, R a a) {p : α → Bool} {f : α → α}
    (hf : ∀ a, l.find? p = some a → R a (f a)) : Extends R l (modifyFirst p f l) := by
  induction l with
  | nil => exact .nil []
  | cons a l ih =>
      rw [modifyFirst_cons]
      by_cases hp : p a
      · rw [if_pos hp]
        exact .cons (hf a (by simp [hp])) (refl hrefl l)
      · rw [if_neg hp]
        exact .cons (hrefl a) (ih fun b hb => hf b (by simpa [hp] using hb))

theorem modify (hrefl : ∀ a, R a a) {f : α → α} (hf : ∀ a, R a (f a)) (l : List α) (i : Nat) :
    Extends R l (l.modify i f) := by
  induction l generalizing i with
  | nil => exact .nil _
  | cons a l ih =>
      cases i with
      | zero => exact .cons (hf a) (refl hrefl l)
      | succ i => exact .cons (hrefl a) (ih i)

theorem map {f : α → α} (hf : ∀ a, R a (f a)) (l : List α) : Extends R l (l.map f) := by
  induction l with
  | nil => exact .nil _
  | cons a l ih => exact .cons (hf a) ih

end Extends

/-! ### A field that not every record has -/

variable {β : Type} {l : List α}

theorem bind_getElem?_set (f : α → Option β) {a : α} {i : Nat} (hi : l[i]? = some a) (a' : α)
    (j : Nat) : ((l.set i a')[j]?.bind f) = if i = j then f a' else l[j]?.bind f := by
  rw [List.getElem?_set]
  by_cases hij : i = j
  · have hlt : i < l.length := (List.getElem?_eq_some_iff.mp hi).1
    rw [if_pos hij, if_pos hij, if_pos (hij ▸ hlt), Option.bind_some]
  · rw [if_neg hij, if_neg hij]

/-- A record set to one with the same field. -/
theorem bind_getElem?_set_eq (f : α → Option β) {a : α} {i : Nat} (hi : l[i]? = some a) {a' : α}
    (hsame : f a' = f a) (j : Nat) : ((l.set i a')[j]?.bind f) = l[j]?.bind f := by
  rw [bind_getElem?_set f hi]
  by_cases hij : i = j
  · rw [if_pos hij, hsame, ← hij, hi, Option.bind_some]
  · rw [if_neg hij]

/-- A new record without the field. -/
theorem bind_getElem?_append (f : α → Option β) {a : α} (ha : f a = none) (j : Nat) :
    ((l ++ [a])[j]?.bind f) = l[j]?.bind f := by
  rw [List.getElem?_append]
  split_ifs with hlt
  · rfl
  · rw [List.getElem?_eq_none (Nat.le_of_not_lt hlt)]
    cases h : [a][j - l.length]? with
    | none => rfl
    | some b =>
        rw [List.mem_singleton.mp (List.mem_of_getElem? h)]
        exact ha

end

end Hodlchain
