/-
Writes where the last one to a place counts.

A write changes one place; a second write to the same place undoes the first, and writes
to two places do not see each other.  Then a list of writes can be run again, or after
any writes to its own places, without a difference, and it leaves a state alone exactly
when its last write to each place does.
-/
import Mathlib.Data.List.Basic
import Mathlib.Tactic.Common

namespace Hodlchain

/-- Writes of a `V` to a place of `K`, in states `X`. -/
structure Overwrite (K V X : Type) where
  write : K → V → X → X
  /-- The last write to a place counts. -/
  last : ∀ k v v' x, write k v (write k v' x) = write k v x
  /-- Writes to two places do not see each other. -/
  comm : ∀ {k k'}, k ≠ k' → ∀ v v' x, write k v (write k' v' x) = write k' v' (write k v x)

namespace Overwrite

variable {K V X : Type} (o : Overwrite K V X)

/-- One write after the other. -/
def run (l : List (K × V)) (x : X) : X := l.foldl (fun x e => o.write e.1 e.2 x) x

/-- Nothing after this write goes to its place. -/
def IsLast (l : List (K × V)) (e : K × V) : Prop :=
  ∃ front back, l = front ++ e :: back ∧ ∀ e' ∈ back, e'.1 ≠ e.1

variable {o} {k : K} {v : V} {x : X} {l m : List (K × V)}

@[simp] theorem run_nil : o.run [] x = x := rfl

@[simp] theorem run_cons (e : K × V) : o.run (e :: l) x = o.run l (o.write e.1 e.2 x) := rfl

theorem run_append : o.run (l ++ m) x = o.run m (o.run l x) := List.foldl_append

/-- A write to another place can wait. -/
theorem run_write_of_not_mem (hk : ∀ e ∈ l, e.1 ≠ k) :
    o.run l (o.write k v x) = o.write k v (o.run l x) := by
  induction l generalizing x with
  | nil => rfl
  | cons e l ih =>
      have hne : k ≠ e.1 := (hk e (by simp)).symm
      rw [run_cons, run_cons, ← o.comm hne, ih fun e' he' => hk e' (List.mem_cons_of_mem e he')]

/-- A write to a place that is written later has no effect. -/
theorem run_write_of_mem (hk : k ∈ l.map Prod.fst) : o.run l (o.write k v x) = o.run l x := by
  induction l generalizing x with
  | nil => simp at hk
  | cons e l ih =>
      rw [run_cons, run_cons]
      by_cases he : e.1 = k
      · subst he
        rw [o.last]
      · rw [o.comm he, ih]
        simpa [Ne.symm he] using hk

/-- **Writes are as good as their last ones**: what was written to their places before has no
effect. -/
theorem run_run (hkeys : ∀ e ∈ m, e.1 ∈ l.map Prod.fst) : o.run l (o.run m x) = o.run l x := by
  induction m generalizing x with
  | nil => rfl
  | cons e m ih =>
      rw [run_cons, ih fun e' he' => hkeys e' (List.mem_cons_of_mem e he'),
        run_write_of_mem (hkeys e (by simp))]

theorem run_self : o.run l (o.run l x) = o.run l x :=
  run_run fun _ he => List.mem_map_of_mem he

theorem isLast_cons {e : K × V} (h : IsLast l e) (e' : K × V) : IsLast (e' :: l) e := by
  obtain ⟨front, back, rfl, hback⟩ := h
  exact ⟨e' :: front, back, rfl, hback⟩

/-- **What a run leaves alone**: a state that every last write leaves alone. -/
theorem run_eq_self_iff : o.run l x = x ↔ ∀ e, IsLast l e → o.write e.1 e.2 x = x := by
  constructor
  · rintro hrun ⟨k, v⟩ ⟨front, back, rfl, hback⟩
    have hend : o.run (front ++ (k, v) :: back) x = o.write k v (o.run back (o.run front x)) := by
      rw [run_append, run_cons, run_write_of_not_mem hback]
    rw [hend] at hrun
    calc o.write k v x = o.write k v (o.write k v (o.run back (o.run front x))) := by rw [hrun]
      _ = o.write k v (o.run back (o.run front x)) := o.last ..
      _ = x := hrun
  · intro h
    induction l with
    | nil => rfl
    | cons e l ih =>
        have hrest := ih fun e' he' => h e' (isLast_cons he' e)
        rw [run_cons]
        by_cases he : e.1 ∈ l.map Prod.fst
        · rw [run_write_of_mem he, hrest]
        · have hlast : IsLast (e :: l) e := ⟨[], l, rfl, fun e' he' heq =>
            he (heq ▸ List.mem_map_of_mem he')⟩
          rw [h e hlast, hrest]

end Overwrite

end Hodlchain
