/-
The states a step function comes to.

A process that has one possible next step in every state is a partial function.
Wherever it is interrupted, carrying on from there leads to the same end.
-/
import Mathlib.Tactic.Common

namespace Hodlchain

section

variable {σ : Type} {f : σ → Option σ} {s t u : σ} {j k : Nat}

/-- The state after `k` steps, if there are so many. -/
def orbit (f : σ → Option σ) : Nat → σ → Option σ
  | 0, s => some s
  | k + 1, s => (f s).bind (orbit f k)

theorem orbit_succ (h : f s = some t) : orbit f (k + 1) s = orbit f k t := by
  rw [orbit, h, Option.bind_some]

theorem orbit_trans (h : orbit f j s = some t) : orbit f (j + k) s = orbit f k t := by
  induction j generalizing s with
  | zero =>
      obtain rfl := Option.some.inj h
      rw [Nat.zero_add]
  | succ j ih =>
      cases hstep : f s with
      | none => simp [orbit, hstep] at h
      | some s' =>
          rw [orbit_succ hstep] at h
          rw [Nat.add_right_comm, orbit_succ hstep, ih h]

/-- A function with more steps goes on in the same way. -/
theorem orbit_mono {g : σ → Option σ} (hg : ∀ s t, f s = some t → g s = some t)
    (h : orbit f k s = some t) : orbit g k s = some t := by
  induction k generalizing s with
  | zero => exact h
  | succ k ih =>
      cases hstep : f s with
      | none => simp [orbit, hstep] at h
      | some s' =>
          rw [orbit_succ hstep] at h
          rw [orbit_succ (hg s s' hstep), ih h]

/-- Where there is no step, there is nothing further. -/
theorem orbit_end (hend : f s = none) (h : orbit f k s = some t) : k = 0 ∧ t = s := by
  cases k with
  | zero => exact ⟨rfl, (Option.some.inj h).symm⟩
  | succ k => simp [orbit, hend] at h

/-- **Every state on the way leads to the end.** -/
theorem orbit_resume (hend : f t = none) (ht : orbit f k s = some t) (hu : orbit f j s = some u) :
    j ≤ k ∧ orbit f (k - j) u = some t := by
  rcases Nat.le_total j k with hle | hge
  · refine ⟨hle, ?_⟩
    rw [← ht, ← orbit_trans hu, Nat.add_sub_cancel' hle]
  · obtain ⟨d, rfl⟩ := Nat.exists_eq_add_of_le hge
    rw [orbit_trans ht] at hu
    obtain ⟨rfl, rfl⟩ := orbit_end hend hu
    exact ⟨Nat.le_refl k, by simp [orbit]⟩

end

end Hodlchain
