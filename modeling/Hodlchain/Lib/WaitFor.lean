/-
Who waits for whom.

A deadlock is a set of threads each of which waits for another of the set, so that none
of them can go on before the others do.  A rank that falls from a thread to the one it
waits for rules that out.
-/
import Mathlib.Data.Set.Basic
import Mathlib.Order.WellFounded

namespace Hodlchain

variable {T : Type} {waits : T → T → Prop}

/-- Some threads wait for each other, and for nothing else. -/
def Deadlocked (waits : T → T → Prop) : Prop :=
  ∃ S : Set T, S.Nonempty ∧ ∀ t ∈ S, ∃ t' ∈ S, waits t t'

/-- Two threads that wait for each other. -/
theorem Deadlocked.of_pair {t t' : T} (h : waits t t') (h' : waits t' t) : Deadlocked waits := by
  refine ⟨{t, t'}, ⟨t, by simp⟩, fun u hu => ?_⟩
  rcases hu with rfl | rfl
  · exact ⟨t', by simp, h⟩
  · exact ⟨t, by simp, h'⟩

/-- **Ranked waits end.** -/
theorem not_deadlocked_of_rank (rank : T → Nat) (h : ∀ {t t'}, waits t t' → rank t' < rank t) :
    ¬ Deadlocked waits := by
  rintro ⟨S, hne, hS⟩
  obtain ⟨m, hm, hmin⟩ := (measure rank).wf.has_min S hne
  obtain ⟨t, ht, hwait⟩ := hS m hm
  exact hmin t ht (h hwait)

end Hodlchain
