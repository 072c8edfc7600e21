/-
What a tick writes down.

A world lists the calls that did not succeed and the batches that were started.  Every
part of a tick adds to the lists and takes nothing out, so a property of the lists that
survives one fault and one batch survives the tick.
-/
import Hodlchain.Node.Batch

namespace Hodlchain

section

variable {prim : Primitives} {env : Env} {P : List (CallSite × Fault) → List Batch → Prop}

/-- `P` of the lists so far. -/
private abbrev Lists (P : List (CallSite × Fault) → List Batch → Prop) (w : World) : Prop :=
  P w.hits w.log

/-- `P` stays true when a fault of the environment is added, and when a batch is. -/
private structure Grows (env : Env) (P : List (CallSite × Fault) → List Batch → Prop) : Prop where
  fault : ∀ {m site f hits log}, env.faults m = some f → P hits log → P (hits ++ [(site, f)]) log
  batch : ∀ {node adv i hits log}, P hits log → P hits (log ++ [⟨node, adv, env.served i⟩])

private theorem keeps_bind {α β : Type} {x : Act α} {f : α → Act β}
    (hx : Action.Keeps (Lists P) x) (hf : ∀ a, Action.Keeps (Lists P) (f a)) :
    Action.Keeps (Lists P) (x >>= f) :=
  Action.Triple.bind hx hf

private theorem keeps_callSite (hP : Grows env P) (site : CallSite) :
    Action.Keeps (Lists P) (callSite env site) := by
  intro w hw
  rcases callSite_ends env site w with ⟨-, hcall⟩ | ⟨f, hf, hcall⟩
  · rw [hcall]
    exact hw
  · rw [hcall]
    exact hP.fault hf hw

/-- A call that changes the node and nothing else. -/
private theorem keeps_callModify (hP : Grows env P) (site : CallSite)
    {g : World → World} (hg : ∀ w, (g w).hits = w.hits ∧ (g w).log = w.log) :
    Action.Keeps (Lists P) (callSite env site >>= fun _ => Action.modify g) :=
  keeps_bind (keeps_callSite hP site) fun _ => .modify fun w hw => by
    rwa [Lists, (hg w).1, (hg w).2]

private theorem keeps_applyOneL2Block (hP : Grows env P) (served : Served)
    (height : UInt32) (att : Option Attestation) :
    Action.Keeps (Lists P) (applyOneL2Block prim env served height att) := by
  refine keeps_bind (keeps_bind (keeps_callSite hP _) fun _ => ?_) fun block => ?_
  · split
    · exact .pure fun _ hw => hw
    · exact .halt fun _ hw => hw
  refine keeps_bind (.get fun _ hw => hw) fun w => ?_
  refine keeps_bind (.lift (fun _ _ _ hw => hw) fun _ _ _ hw => hw) fun next => ?_
  refine keeps_bind (.modify fun _ hw => hw) fun _ => ?_
  refine keeps_bind (keeps_bind (keeps_callSite hP _) fun _ => ?_) fun _ =>
    .modify fun _ hw => hw
  refine keeps_bind (.get fun _ hw => hw) fun w => ?_
  split
  · exact .modify fun _ hw => hw
  · exact .halt fun _ hw => hw

private theorem keeps_applyRange (hP : Grows env P) (served : Served)
    (att : Attestation) : ∀ (k : Nat) (h : UInt32),
      Action.Keeps (Lists P) (applyRange prim env served att k h) := by
  intro k
  induction k with
  | zero => exact fun _ => .pure fun _ hw => hw
  | succ k ih => exact fun h => keeps_bind (keeps_applyOneL2Block hP _ _ _) fun _ => ih _

private theorem keeps_processAdvance (hP : Grows env P) (adv : ChainAdvance) :
    Action.Keeps (Lists P) (processAdvance prim env adv) := by
  refine keeps_bind (.get fun _ hw => hw) fun w => ?_
  refine keeps_bind (.modify fun _ hw => hP.batch hw) fun _ => ?_
  split
  · exact .pure fun _ hw => hw
  · refine keeps_bind (keeps_applyRange hP _ _ _ _) fun _ => ?_
    exact keeps_bind (keeps_callModify hP _ fun _ => ⟨rfl, rfl⟩) fun _ =>
      keeps_callModify hP _ fun _ => ⟨rfl, rfl⟩

private theorem keeps_findAdvance (hP : Grows env P) (h : Nat) :
    Action.Keeps (Lists P) (findAdvance env h) := by
  refine keeps_bind (keeps_bind (keeps_callSite hP _) fun _ => ?_) fun anchor => ?_
  · refine keeps_bind (.get fun _ hw => hw) fun w => ?_
    split
    · exact .pure fun _ hw => hw
    · exact .halt fun _ hw => hw
  · refine keeps_bind (keeps_callSite hP _) fun _ => ?_
    split
    · exact .pure fun _ hw => hw
    · exact .halt fun _ hw => hw

private theorem keeps_scanLoop (hP : Grows env P) (h : Nat) :
    ∀ fuel, Action.Keeps (Lists P) (scanLoop prim env h fuel) := by
  intro fuel
  induction fuel with
  | zero => exact .halt fun _ hw => hw
  | succ fuel ih =>
      refine keeps_bind (keeps_findAdvance hP h) fun advance => ?_
      split
      · exact keeps_bind (keeps_processAdvance hP _) fun _ => ih
      · exact .pure fun _ hw => hw

private theorem keeps_scanHeights (hP : Grows env P) (fuel : Nat) :
    ∀ k h, Action.Keeps (Lists P) (scanHeights prim env fuel k h) := by
  intro k
  induction k with
  | zero => exact fun _ => .pure fun _ hw => hw
  | succ k ih =>
      exact fun h => keeps_bind (keeps_scanLoop hP h fuel) fun _ =>
        keeps_bind (keeps_callModify hP _ fun _ => ⟨rfl, rfl⟩) fun _ => ih _

private theorem keeps_tick (hP : Grows env P) (fuel : Nat) :
    Action.Keeps (Lists P) (tick prim env fuel) := by
  refine keeps_bind (keeps_bind (keeps_callSite hP _) fun _ => .pure fun _ hw => hw) fun tip => ?_
  refine keeps_bind (keeps_bind (keeps_callSite hP _) fun _ => ?_) fun cursor => ?_
  · exact keeps_bind (.get fun _ hw => hw) fun _ => .pure fun _ hw => hw
  · split
    · exact .pure fun _ hw => hw
    · exact keeps_scanHeights hP fuel _ _

/-! ### From one world to the next -/

variable {w w' w₁ w₂ w₃ : World} {hits hits₁ hits₂ : List (CallSite × Fault)}
  {log log₁ log₂ : List Batch}

/-- The calls that did not succeed and the batches that came, from one world to the next. -/
structure Adds (w w' : World) (hits : List (CallSite × Fault)) (log : List Batch) : Prop where
  hits : w'.hits = w.hits ++ hits
  log : w'.log = w.log ++ log

theorem Adds.trans (h : Adds w₁ w₂ hits₁ log₁) (h' : Adds w₂ w₃ hits₂ log₂) :
    Adds w₁ w₃ (hits₁ ++ hits₂) (log₁ ++ log₂) :=
  ⟨by rw [h'.hits, h.hits, List.append_assoc], by rw [h'.log, h.log, List.append_assoc]⟩

theorem Adds.unique (h : Adds w w' hits log) (h' : Adds w w' hits₁ log₁) :
    hits = hits₁ ∧ log = log₁ :=
  ⟨List.append_cancel_left (h.hits.symm.trans h'.hits),
    List.append_cancel_left (h.log.symm.trans h'.log)⟩

theorem Bookkept.adds (h : Bookkept w w' hits) : Adds w w' hits [] :=
  ⟨h.hits, by rw [h.log, List.append_nil]⟩

/-- The lists begin as they were. -/
private def Begin (w : World) (hits : List (CallSite × Fault)) (log : List Batch) : Prop :=
  w.hits <+: hits ∧ w.log <+: log

private theorem grows_begin (env : Env) (w : World) : Grows env (Begin w) where
  fault _ h := ⟨h.1.trans (List.prefix_append _ _), h.2⟩
  batch h := ⟨h.1, h.2.trans (List.prefix_append _ _)⟩

private theorem exists_adds {α : Type} {x : Act α} {r : Except Halt α}
    (hx : Action.Keeps (Lists (Begin w)) x) (hrun : x w = (r, w')) :
    ∃ hits log, Adds w w' hits log := by
  have hkept := hx.run (s := w) ⟨List.prefix_refl _, List.prefix_refl _⟩
  rw [hrun] at hkept
  obtain ⟨⟨hits, hhits⟩, log, hlog⟩ := hkept
  exact ⟨hits, log, hhits.symm, hlog.symm⟩

theorem scanLoop_adds {h fuel : Nat} {r : Except Halt Unit}
    (hrun : scanLoop prim env h fuel w = (r, w')) : ∃ hits log, Adds w w' hits log :=
  exists_adds (keeps_scanLoop (grows_begin env w) h fuel) hrun

theorem scanHeights_adds {h k fuel : Nat} {r : Except Halt Unit}
    (hrun : scanHeights prim env fuel k h w = (r, w')) : ∃ hits log, Adds w w' hits log :=
  exists_adds (keeps_scanHeights (grows_begin env w) fuel k h) hrun

theorem tick_adds {fuel : Nat} {r : Except Halt Unit} (hrun : tick prim env fuel w = (r, w')) :
    ∃ hits log, Adds w w' hits log :=
  exists_adds (keeps_tick (grows_begin env w) fuel) hrun

/-- The batches that were added are served by the environment. -/
private def AddsServed (env : Env) (w : World) (log : List Batch) : Prop :=
  ∃ new, log = w.log ++ new ∧ ∀ b ∈ new, ∃ i, b.served = env.served i

private theorem grows_served (env : Env) (w : World) :
    Grows env fun _ log => AddsServed env w log where
  fault _ h := h
  batch := by
    intro node adv i hits log h
    obtain ⟨new, rfl, hall⟩ := h
    refine ⟨new ++ [⟨node, adv, env.served i⟩], List.append_assoc _ _ _, fun b hb => ?_⟩
    rcases List.mem_append.mp hb with hold | hlast
    · exact hall b hold
    · rw [List.mem_singleton.mp hlast]
      exact ⟨i, rfl⟩

theorem tick_served {fuel : Nat} {r : Except Halt Unit} (hrun : tick prim env fuel w = (r, w'))
    (hlog : w'.log = w.log ++ log) {b : Batch} (hb : b ∈ log) : ∃ i, b.served = env.served i := by
  have hkept := (@keeps_tick prim _ _ (grows_served env w) fuel).run (s := w)
    ⟨[], (List.append_nil _).symm, fun b hb => absurd hb List.not_mem_nil⟩
  rw [hrun] at hkept
  obtain ⟨new, hnew, hall⟩ := hkept
  obtain rfl := List.append_cancel_left (hlog.symm.trans hnew)
  exact hall b hb

/-- Without faults no call is listed. -/
theorem tick_hits (hfaults : ∀ m, env.faults m = none) (fuel : Nat) (w : World) :
    (tick prim env fuel w).2.hits = w.hits := by
  refine (keeps_tick (P := fun hits _ => hits = w.hits) ⟨?_, fun h => h⟩ fuel).run rfl
  intro m site f hits log hf
  rw [hfaults m] at hf
  cases hf

end

end Hodlchain
