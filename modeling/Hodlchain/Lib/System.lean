/-
Transition systems and what holds of every state they reach.

A property that the first states have and every step keeps is one of all reachable
states.  A step may use that the state before it is reachable, so one invariant can
be proved on top of another.
-/
import Mathlib.Tactic.Common

namespace Hodlchain

/-- Where a system starts, and how it steps. -/
structure System (σ : Type) where
  init : σ → Prop
  step : σ → σ → Prop

namespace System

variable {σ : Type} {S T : System σ}

inductive Reachable (S : System σ) : σ → Prop
  | init {s : σ} (h : S.init s) : Reachable S s
  | step {s t : σ} (hs : Reachable S s) (h : S.step s t) : Reachable S t

/-- **The invariant rule.** -/
theorem Reachable.invariant {I : σ → Prop} (hinit : ∀ s, S.init s → I s)
    (hstep : ∀ s t, S.Reachable s → I s → S.step s t → I t) {s : σ} (h : S.Reachable s) : I s := by
  induction h with
  | init h => exact hinit _ h
  | step hs h ih => exact hstep _ _ hs ih h

/-- A system with fewer steps reaches no more. -/
theorem Reachable.mono (hinit : ∀ s, S.init s → T.init s)
    (hstep : ∀ s t, S.step s t → T.step s t) {s : σ} (h : S.Reachable s) : T.Reachable s := by
  induction h with
  | init h => exact .init (hinit _ h)
  | step _ h ih => exact .step ih (hstep _ _ h)

end System

end Hodlchain
