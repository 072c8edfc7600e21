/-
Sequencing fallible steps.

A function that runs one check after another answers `ok` exactly when every
check does.  The rules here turn such an answer into the conjunction of its
checks, and back, one step at a time.
-/
import Mathlib.Tactic.Common

namespace Hodlchain

section

variable {ε ε' α β : Type}

/-- Fail with `e` unless the condition holds. -/
def ensure (c : Prop) [Decidable c] (e : ε) : Except ε Unit := if c then .ok () else .error e

@[simp] theorem ensure_ok_iff {c : Prop} [Decidable c] {e : ε} {u : Unit} :
    ensure c e = .ok u ↔ c := by
  by_cases h : c <;> simp [ensure, h]

theorem ensure_error_iff {c : Prop} [Decidable c] {e e' : ε} :
    ensure c e = .error e' ↔ ¬ c ∧ e = e' := by
  by_cases h : c <;> simp [ensure, h]

/-- `Option::ok_or`. -/
def okOr (o : Option α) (e : ε) : Except ε α :=
  match o with
  | some a => .ok a
  | none => .error e

@[simp] theorem okOr_ok_iff {o : Option α} {e : ε} {a : α} : okOr o e = .ok a ↔ o = some a := by
  cases o <;> simp [okOr]

theorem okOr_error_iff {o : Option α} {e e' : ε} : okOr o e = .error e' ↔ o = none ∧ e = e' := by
  cases o <;> simp [okOr]

/-- `Result::map_err`. -/
def mapErr (f : ε → ε') : Except ε α → Except ε' α
  | .ok a => .ok a
  | .error e => .error (f e)

@[simp] theorem mapErr_ok_iff {f : ε → ε'} {r : Except ε α} {a : α} :
    mapErr f r = .ok a ↔ r = .ok a := by
  cases r <;> simp [mapErr]

theorem mapErr_error_iff {f : ε → ε'} {r : Except ε α} {e' : ε'} :
    mapErr f r = .error e' ↔ ∃ e, r = .error e ∧ f e = e' := by
  cases r <;> simp [mapErr]

@[simp] theorem bind_ok_iff {r : Except ε α} {f : α → Except ε β} {b : β} :
    (r >>= f) = .ok b ↔ ∃ a, r = .ok a ∧ f a = .ok b := by
  cases r with
  | error e => simp [bind, Except.bind]
  | ok a => simp [bind, Except.bind]

theorem bind_error_iff {r : Except ε α} {f : α → Except ε β} {e : ε} :
    (r >>= f) = .error e ↔ r = .error e ∨ ∃ a, r = .ok a ∧ f a = .error e := by
  cases r with
  | error e' => simp [bind, Except.bind]
  | ok a => simp [bind, Except.bind]

@[simp] theorem pure_ok_iff {a b : α} : (pure a : Except ε α) = .ok b ↔ a = b := by
  simp [pure, Except.pure]

theorem map_ok_iff {f : α → β} {r : Except ε α} {b : β} :
    r.map f = .ok b ↔ ∃ a, r = .ok a ∧ f a = b := by
  cases r with
  | error e => simp [Except.map]
  | ok a => simp [Except.map]

@[simp] theorem toOption_eq_some_iff {r : Except ε α} {a : α} :
    r.toOption = some a ↔ r = .ok a := by
  cases r with
  | error e => simp [Except.toOption]
  | ok b => simp [Except.toOption]

end

end Hodlchain
