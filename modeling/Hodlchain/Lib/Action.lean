/-
Computations that may halt part way, with the state they leave.

An `Action` runs on a state and answers a value or a reason to halt; either way it
leaves a state, so nothing done before the halt is undone.  `Triple` is the usual
specification of such a computation, with one postcondition for a value and one
for a halt, and the rules take a specification apart along the computation.
-/
import Mathlib.Tactic.Common

namespace Hodlchain

/-- A computation over the state `σ` that answers an `α` or halts with an `ε`. -/
def Action (σ ε α : Type) : Type := σ → Except ε α × σ

namespace Action

variable {σ ε α β : Type}

instance : Monad (Action σ ε) where
  pure a := fun s => (.ok a, s)
  bind x f := fun s =>
    match x s with
    | (.ok a, s') => f a s'
    | (.error e, s') => (.error e, s')

/-- The state as it is now. -/
def get : Action σ ε σ := fun s => (.ok s, s)

/-- Change the state. -/
def modify (f : σ → σ) : Action σ ε Unit := fun s => (.ok (), f s)

/-- Stop here, with the state as it is. -/
def halt (e : ε) : Action σ ε α := fun s => (.error e, s)

/-- A result that does not look at the state. -/
def lift (r : Except ε α) : Action σ ε α := fun s => (r, s)

/-- The same computation, with its reasons to halt translated. -/
def mapErr {ε' : Type} (f : ε → ε') (x : Action σ ε α) : Action σ ε' α := fun s =>
  match x s with
  | (.ok a, s') => (.ok a, s')
  | (.error e, s') => (.error (f e), s')

@[simp] theorem pure_run (a : α) (s : σ) : (pure a : Action σ ε α) s = (.ok a, s) := rfl

theorem bind_run (x : Action σ ε α) (f : α → Action σ ε β) (s : σ) :
    (x >>= f) s = match x s with
      | (.ok a, s') => f a s'
      | (.error e, s') => (.error e, s') := rfl

theorem bind_run_ok {x : Action σ ε α} {f : α → Action σ ε β} {s s' : σ} {a : α}
    (h : x s = (.ok a, s')) : (x >>= f) s = f a s' := by rw [bind_run, h]

theorem bind_run_error {x : Action σ ε α} {f : α → Action σ ε β} {s s' : σ} {e : ε}
    (h : x s = (.error e, s')) : (x >>= f) s = (.error e, s') := by rw [bind_run, h]

theorem bind_assoc_run {γ : Type} (x : Action σ ε α) (f : α → Action σ ε β) (g : β → Action σ ε γ)
    (s : σ) : ((x >>= f) >>= g) s = (x >>= fun a => f a >>= g) s := by
  simp only [bind_run]
  rcases x s with ⟨r, s'⟩
  cases r <;> rfl

@[simp] theorem get_run (s : σ) : (get : Action σ ε σ) s = (.ok s, s) := rfl

@[simp] theorem modify_run (f : σ → σ) (s : σ) :
    (modify f : Action σ ε Unit) s = (.ok (), f s) := rfl

@[simp] theorem halt_run (e : ε) (s : σ) : (halt e : Action σ ε α) s = (.error e, s) := rfl

@[simp] theorem lift_run (r : Except ε α) (s : σ) : (lift r : Action σ ε α) s = (r, s) := rfl

/-- How a sequence can have ended: in its first part, or in the rest. -/
theorem bind_run_cases (x : Action σ ε α) (f : α → Action σ ε β) (s : σ) :
    (∃ e s', x s = (.error e, s') ∧ (x >>= f) s = (.error e, s')) ∨
      ∃ a s', x s = (.ok a, s') ∧ (x >>= f) s = f a s' := by
  rcases h : x s with ⟨r, s'⟩
  cases r with
  | error e => exact Or.inl ⟨e, s', rfl, bind_run_error h⟩
  | ok a => exact Or.inr ⟨a, s', rfl, bind_run_ok h⟩

/-- A sequence that answers took a value from its first part to the rest. -/
theorem bind_ok_iff {x : Action σ ε α} {f : α → Action σ ε β} {s s' : σ} {b : β} :
    (x >>= f) s = (.ok b, s') ↔ ∃ a s₁, x s = (.ok a, s₁) ∧ f a s₁ = (.ok b, s') := by
  rcases h : x s with ⟨r, s₁⟩
  cases r with
  | error e => simp [bind_run_error h]
  | ok a => simp [bind_run_ok h]

@[simp] theorem get_bind_run (f : σ → Action σ ε β) (s : σ) : (get >>= f) s = f s s := rfl

@[simp] theorem modify_bind_run (g : σ → σ) (f : Unit → Action σ ε β) (s : σ) :
    (modify g >>= f) s = f () (g s) := rfl

theorem lift_ok_bind_run (a : α) (f : α → Action σ ε β) (s : σ) :
    (lift (.ok a) >>= f) s = f a s := rfl

theorem lift_error_bind_run (e : ε) (f : α → Action σ ε β) (s : σ) :
    (lift (.error e) >>= f) s = (.error e, s) := rfl

theorem lift_bind_ok_iff {r : Except ε α} {f : α → Action σ ε β} {s s' : σ} {b : β} :
    (lift r >>= f) s = (.ok b, s') ↔ ∃ a, r = .ok a ∧ f a s = (.ok b, s') := by
  cases r with
  | error e => simp [bind_run]
  | ok a => simp [bind_run]

/-- A sequence that halts did so in its first part, or in the rest. -/
theorem lift_bind_error_iff {r : Except ε α} {f : α → Action σ ε β} {s : σ} {e : ε} :
    ((lift r >>= f) s).1 = .error e ↔ r = .error e ∨ ∃ a, r = .ok a ∧ (f a s).1 = .error e := by
  cases r with
  | error e => simp [bind_run]
  | ok a => simp [bind_run]

/-- Where a sequence that halts has left the state. -/
theorem lift_bind_halted {r : Except ε α} {f : α → Action σ ε β} {s : σ} {e : ε}
    (h : ((lift r >>= f) s).1 = .error e) :
    (r = .error e ∧ ((lift r >>= f) s).2 = s) ∨ ∃ a, r = .ok a ∧ (lift r >>= f) s = f a s := by
  cases r with
  | error e' => exact .inl ⟨congrArg Except.error (Except.error.inj h), rfl⟩
  | ok a => exact .inr ⟨a, rfl, rfl⟩

theorem pure_ok_iff {a b : α} {s s' : σ} :
    (pure a : Action σ ε α) s = (.ok b, s') ↔ a = b ∧ s = s' := by simp

theorem mapErr_ok_iff {ε' : Type} {f : ε → ε'} {x : Action σ ε α} {s s' : σ} {a : α} :
    mapErr f x s = (.ok a, s') ↔ x s = (.ok a, s') := by
  rw [mapErr]
  rcases x s with ⟨r, s₁⟩
  cases r <;> simp

/-- Stop before a call of the kind `site`, where that is the call to stop before. -/
def stopBefore {ι : Type} [DecidableEq ι] (stop : Option ι) (site : ι) (e : ε) : Action σ ε Unit :=
  if stop = some site then halt e else pure ()

theorem stopBefore_bind_run {ι : Type} [DecidableEq ι] (stop : Option ι) (site : ι) (e : ε)
    (f : Unit → Action σ ε β) (s : σ) :
    (stopBefore stop site e >>= f) s = if stop = some site then (.error e, s) else f () s := by
  unfold stopBefore
  split <;> rfl

/-! ### Triples -/

/-- From a state of `P`, a value leaves a state of `Q` and a halt a state of `R`. -/
def Triple (P : σ → Prop) (x : Action σ ε α) (Q : α → σ → Prop) (R : ε → σ → Prop) : Prop :=
  ∀ s, P s → match x s with
    | (.ok a, s') => Q a s'
    | (.error e, s') => R e s'

section

variable {P : σ → Prop} {Q : α → σ → Prop} {R : ε → σ → Prop}

theorem Triple.bind {S : β → σ → Prop} {x : Action σ ε α} {f : α → Action σ ε β}
    (hx : Triple P x Q R) (hf : ∀ a, Triple (Q a) (f a) S R) : Triple P (x >>= f) S R := by
  intro s hs
  have hfirst := hx s hs
  rw [bind_run]
  rcases h : x s with ⟨r, s'⟩
  rw [h] at hfirst
  cases r with
  | error e => exact hfirst
  | ok a => exact hf a s' hfirst

theorem Triple.pure {a : α} (h : ∀ s, P s → Q a s) : Triple P (pure a) Q R := fun s hs => h s hs

theorem Triple.halt {e : ε} (h : ∀ s, P s → R e s) : Triple P (halt e) Q R := fun s hs => h s hs

theorem Triple.get {Q : σ → σ → Prop} (h : ∀ s, P s → Q s s) : Triple P get Q R :=
  fun s hs => h s hs

theorem Triple.modify {f : σ → σ} {Q : Unit → σ → Prop} (h : ∀ s, P s → Q () (f s)) :
    Triple P (modify f) Q R := fun s hs => h s hs

theorem Triple.lift {r : Except ε α} (hok : ∀ a s, r = .ok a → P s → Q a s)
    (herror : ∀ e s, r = .error e → P s → R e s) : Triple P (lift r) Q R := by
  intro s hs
  cases r with
  | ok a => exact hok a s rfl hs
  | error e => exact herror e s rfl hs

end

/-- `I` survives the computation, however it ends. -/
abbrev Keeps (I : σ → Prop) (x : Action σ ε α) : Prop := Triple I x (fun _ => I) fun _ => I

theorem Keeps.run {I : σ → Prop} {x : Action σ ε α} (h : Keeps I x) {s : σ} (hs : I s) :
    I (x s).2 := by
  have hrun := h s hs
  rcases hx : x s with ⟨r, s'⟩
  rw [hx] at hrun
  cases r <;> exact hrun

/-! ### All or nothing -/

/-- Where it halts it leaves the state it found. -/
def Atomic (x : Action σ ε α) : Prop := ∀ s e, (x s).1 = .error e → (x s).2 = s

theorem Atomic.pure (a : α) : Atomic (pure a : Action σ ε α) := fun _ _ _ => rfl

theorem Atomic.get_bind {f : σ → Action σ ε β} (hf : ∀ s, Atomic (f s)) : Atomic (get >>= f) :=
  fun s => hf s s

theorem Atomic.lift_bind {r : Except ε α} {f : α → Action σ ε β} (hf : ∀ a, Atomic (f a)) :
    Atomic (lift r >>= f) := by
  intro s e h
  cases r with
  | ok a => exact hf a s e h
  | error e' => rfl

/-- A change of the state may stand before a value. -/
theorem Atomic.modify_bind_pure (g : σ → σ) (a : α) :
    Atomic (modify g >>= fun _ => (Pure.pure a : Action σ ε α)) := fun _ _ h => by cases h

/-! ### Moves -/

/-- However it ends, it leaves a state that is `R`-after the one it found. -/
def Moves (R : σ → σ → Prop) (x : Action σ ε α) : Prop := ∀ s, R s (x s).2

section

variable {R : σ → σ → Prop}

theorem Moves.bind [IsTrans σ R] {x : Action σ ε α} {f : α → Action σ ε β} (hx : Moves R x)
    (hf : ∀ a, Moves R (f a)) : Moves R (x >>= f) := by
  intro s
  have hfirst := hx s
  rcases bind_run_cases x f s with ⟨e, s', hrun, hall⟩ | ⟨a, s', hrun, hall⟩
  · rw [hrun] at hfirst
    rw [hall]
    exact hfirst
  · rw [hrun] at hfirst
    rw [hall]
    exact IsTrans.trans _ _ _ hfirst (hf a s')

theorem Moves.pure [Std.Refl R] (a : α) : Moves R (pure a : Action σ ε α) := fun s => refl_of R s

theorem Moves.halt [Std.Refl R] (e : ε) : Moves R (halt e : Action σ ε α) := fun s => refl_of R s

theorem Moves.get_bind {f : σ → Action σ ε β} (hf : ∀ s, Moves R (f s)) :
    Moves R (get >>= f) := fun s => hf s s

theorem Moves.lift_bind [Std.Refl R] {r : Except ε α} {f : α → Action σ ε β}
    (hf : ∀ a, Moves R (f a)) : Moves R (lift r >>= f) := by
  intro s
  cases r with
  | ok a => exact hf a s
  | error e => exact refl_of R s

theorem Moves.modify_bind [IsTrans σ R] {g : σ → σ} {f : Unit → Action σ ε β} (hg : ∀ s, R s (g s))
    (hf : Moves R (f ())) : Moves R (modify g >>= f) :=
  fun s => IsTrans.trans _ _ _ (hg s) (hf (g s))

theorem Moves.mapErr {ε' : Type} (g : ε → ε') {x : Action σ ε α} (h : Moves R x) :
    Moves R (mapErr g x) := by
  intro s
  have hrun := h s
  rw [Action.mapErr]
  rcases hx : x s with ⟨r, s'⟩
  rw [hx] at hrun
  cases r <;> exact hrun

end

end Action

end Hodlchain
