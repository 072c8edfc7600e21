/-
Ticking again after an error, and starting again after a stop.

The store alone says how many core steps a node has made, so after an interruption
between two of them the next tick carries on with the rest, and comes to where an
uninterrupted one would have come.
-/
import Hodlchain.Node.CoreStep

namespace Hodlchain

section

variable {prim : Primitives} {chain : Chain} {served : Served}

/-! ### Runs -/

/-- All of the chain, and no fault. -/
def Env.plain (chain : Chain) (served : Served) : Env := ⟨chain, fun _ => served, fun _ => none⟩

/-- A tick that sees all of the chain, in which nothing fails, and in which the mint checks answer
as in `served`. -/
structure Env.Undisturbed (prim : Primitives) (chain : Chain) (served : Served) (fuel : Nat)
    (w : World) (env : Env) : Prop where
  chain : env.chain = chain
  faults : ∀ i, env.faults i = none
  steady : ∀ log, (tick prim env fuel w).2.log = w.log ++ log → ∀ b ∈ log, b.Steady prim served

/-- A node that has just started. -/
def World.start (n : NodeState) : World := ⟨n, 0, [], []⟩

/-- A longer chain leads on from every state in the same way. -/
theorem coreStep_append {more : Chain} {n m : NodeState}
    (h : coreStep prim chain served n = some m) :
    coreStep prim (chain ++ more) served n = some m := by
  unfold coreStep at h ⊢
  have htip : ¬ chain.tip ≤ n.cursor := fun hle => by rw [if_pos hle] at h; cases h
  rw [if_neg htip] at h
  unfold Chain.tip at htip
  rw [if_neg (by rw [Chain.tip, List.length_append]; omega)]
  rw [← h]
  simp only [@scanBlock_append chain more _ _ (show n.cursor + 1 < chain.length by omega)]

/-- What is refused by none is the same. -/
theorem Served.admits_self (served : Served) (height : UInt32) : served.Admits prim served height :=
  ⟨rfl, fun _ _ h => h⟩

theorem Env.plain_undisturbed (fuel : Nat) (w : World) :
    (Env.plain chain served).Undisturbed prim chain served fuel w where
  chain := rfl
  faults _ := rfl
  steady log hlog b hb := by
    rcases hrun : tick prim (Env.plain chain served) fuel w with ⟨r, w'⟩
    rw [hrun] at hlog
    obtain ⟨i, hi⟩ := tick_served hrun hlog hb
    have hsame : b.served = served := hi
    intro height _
    rw [hsame]
    exact ⟨served.admits_self height, served.admits_self height⟩

section

variable {w w' : World} {hits : List (CallSite × Fault)} {log : List Batch}

/-- A step from one point between ticks to the next adds to the lists, and its batches are served by
an environment that is allowed. -/
theorem NodeStep.adds {allowed : Env → Prop} (hstep : NodeStep prim allowed w w') :
    ∃ hits log, Adds w w' hits log ∧
      ∀ b ∈ log, ∃ env i, allowed env ∧ b.served = env.served i := by
  cases hstep with
  | @tick env _ _ _ henv hrun _ _ =>
      obtain ⟨hits, log, hadds⟩ := tick_adds hrun
      refine ⟨hits, log, hadds, fun b hb => ?_⟩
      obtain ⟨i, hi⟩ := tick_served hrun hadds.log hb
      exact ⟨env, i, henv, hi⟩
  | @crash env _ _ _ _ henv hrun _ =>
      obtain ⟨hits, log, hadds⟩ := tick_adds hrun
      refine ⟨hits, log, ⟨hadds.hits, hadds.log⟩, fun b hb => ?_⟩
      obtain ⟨i, hi⟩ := tick_served hrun hadds.log hb
      exact ⟨env, i, henv, hi⟩
  | restart _ =>
      exact ⟨[], [], ⟨(List.append_nil _).symm, (List.append_nil _).symm⟩,
        fun b hb => absurd hb List.not_mem_nil⟩

theorem NodeStep.mono {allowed allowed' : Env → Prop} (hall : ∀ env, allowed env → allowed' env)
    (hstep : NodeStep prim allowed w w') : NodeStep prim allowed' w w' := by
  cases hstep with
  | tick henv hrun hfuel hstop => exact .tick (hall _ henv) hrun hfuel hstop
  | crash henv hrun hresume => exact .crash (hall _ henv) hrun hresume
  | restart hresume => exact .restart hresume

/-- From one point between ticks to the next, a node makes a number of core steps. -/
theorem NodeStep.lands (hstep : NodeStep prim (OnChain chain) w w') (hadds : Adds w w' hits log)
    (hsafe : ∀ hit ∈ hits, SafeHit hit) (hchecked : ∀ b ∈ log, b.Checked prim served)
    (hsync : Synced prim w.toNodeState) : ∃ steps,
      orbit (coreStep prim chain served) steps w.toNodeState = some w'.toNodeState ∧
      Synced prim w'.toNodeState := by
  cases hstep with
  | @tick env fuel r _ henv hrun _ hne =>
      obtain ⟨more, rfl⟩ := henv
      obtain ⟨steps, m, hlands, -⟩ := tick_lands hrun hadds hsafe hchecked hsync
      obtain rfl := hlands.memory fun h => absurd h hne
      exact ⟨steps, orbit_mono (fun _ _ => coreStep_append) hlands.orbit, hlands.synced⟩
  | @crash env fuel w' state head henv hrun hresume =>
      obtain ⟨more, rfl⟩ := henv
      obtain ⟨steps, m, hlands, -⟩ := tick_lands hrun ⟨hadds.hits, hadds.log⟩ hsafe hchecked hsync
      rw [hlands.store, hlands.synced.resume] at hresume
      obtain ⟨rfl, rfl⟩ := Prod.mk.inj (Option.some.inj (Except.ok.inj hresume))
      have hm : (⟨w'.store, m.state, m.head⟩ : NodeState) = m := by rw [hlands.store]
      rw [show ({ w' with state := m.state, head := m.head } : World).toNodeState = m from hm]
      exact ⟨steps, orbit_mono (fun _ _ => coreStep_append) hlands.orbit, hlands.synced⟩
  | restart hresume =>
      rw [hsync.resume] at hresume
      obtain ⟨rfl, rfl⟩ := Prod.mk.inj (Option.some.inj (Except.ok.inj hresume))
      exact ⟨0, rfl, hsync⟩

theorem NodeRun.lands (hrun : NodeRun prim (OnChain chain) w w')
    (hsync : Synced prim w.toNodeState) :
    (∀ hit ∈ w'.hits, SafeHit hit) → (∀ b ∈ w'.log, b.Checked prim served) → ∃ steps,
      orbit (coreStep prim chain served) steps w.toNodeState = some w'.toNodeState ∧
      Synced prim w'.toNodeState := by
  induction hrun with
  | refl => exact fun _ _ => ⟨0, rfl, hsync⟩
  | @tail w₁ w₂ _ hstep ih =>
      intro hsafe hchecked
      -- what was listed before the last step is still listed after it
      obtain ⟨hits, log, hadds, -⟩ := hstep.adds
      rw [hadds.hits] at hsafe
      rw [hadds.log] at hchecked
      obtain ⟨hsafe₁, hsafe₂⟩ := List.forall_mem_append.mp hsafe
      obtain ⟨hchecked₁, hchecked₂⟩ := List.forall_mem_append.mp hchecked
      obtain ⟨j, horbit, hsync₁⟩ := ih hsafe₁ hchecked₁
      obtain ⟨k, horbit', hsync₂⟩ := hstep.lands hadds hsafe₂ hchecked₂ hsync₁
      exact ⟨j + k, (orbit_trans horbit).trans horbit', hsync₂⟩

end

/-! ### The links from anchor to anchor -/

/-- Asking for spenders, starting with that of `a`, comes to `b`: what `/outspend` serves. -/
inductive SpendPath (s : NodeStore) : OutPoint → OutPoint → Prop
  | here {a : OutPoint} : SpendPath s a a
  | link {a b : OutPoint} {txid : Txid} {l1Height : Nat} :
      s.getAnchorSpender a = some (txid, l1Height) → SpendPath s ⟨txid, 1⟩ b → SpendPath s a b

/-- The links lead from `start` to the stored anchor. -/
def OnPath (start : OutPoint) (n : NodeState) : Prop :=
  ∃ anchor, n.store.anchor = some anchor ∧ SpendPath n.store start anchor

theorem SpendPath.congr {s : NodeStore} {a b : OutPoint} (hpath : SpendPath s a b) (t : NodeStore)
    (h : t.anchorSpends = s.anchorSpends) : SpendPath t a b := by
  induction hpath with
  | here => exact .here
  | link hspender _ ih =>
      rw [NodeStore.getAnchorSpender, ← h] at hspender
      exact .link hspender ih

/-- A link from the end of a path makes it one longer, also where the end has a link already:
the path is cut where it comes to its end first. -/
theorem SpendPath.record {s : NodeStore} {a b : OutPoint} {txid : Txid} {l1Height : Nat}
    (hpath : SpendPath s a b) : SpendPath (s.recordAnchorSpend b txid l1Height) a ⟨txid, 1⟩ := by
  have hlast : (s.recordAnchorSpend b txid l1Height).getAnchorSpender b =
      some (txid, l1Height) := by
    simp [NodeStore.getAnchorSpender, NodeStore.recordAnchorSpend]
  induction hpath with
  | here => exact .link hlast .here
  | @link a b _ l1Height' hspender _ ih =>
      by_cases heq : b = a
      · rw [← heq]
        exact .link hlast .here
      · refine @SpendPath.link _ a _ _ l1Height' ?_ (ih hlast)
        rw [NodeStore.getAnchorSpender, NodeStore.recordAnchorSpend,
          Std.ExtTreeMap.getElem?_insert, if_neg fun hc => heq (Std.LawfulEqOrd.eq_of_compare hc)]
        exact hspender

/-- A core step leaves the path unbroken. -/
theorem coreStep_onPath {n m : NodeState} {start : OutPoint}
    (h : coreStep prim chain served n = some m) (hpath : OnPath start n) : OnPath start m := by
  obtain ⟨anchor, hanchor, hpath⟩ := hpath
  unfold coreStep at h
  split at h
  · cases h
  simp only [hanchor] at h
  split at h
  · cases h
  · obtain rfl := Option.some.inj h
    exact ⟨anchor, hanchor, hpath.congr (n.store.setL1Cursor _) rfl⟩
  · rename_i adv hscan
    obtain ⟨⟨hspent, hnew, -⟩, -⟩ := scanBlock_some hscan
    unfold batchStep at h
    split at h
    · cases h
    split at h
    · cases h
    · simp only at h
      split at h
      · obtain rfl := Option.some.inj h
        refine ⟨⟨adv.txid, 1⟩, congrArg some hnew, ?_⟩
        show SpendPath (NodeStore.recordAnchorSpend _ adv.spentAnchor _ _) _ _
        rw [hspent]
        exact (hpath.congr ((n.accept _ _).store.setAnchor _) rfl).record
      · obtain rfl := Option.some.inj h
        exact ⟨anchor, hanchor, hpath.congr (n.accept _ _).store rfl⟩

theorem orbit_onPath {start : OutPoint} : ∀ {k : Nat} {n m : NodeState},
    orbit (coreStep prim chain served) k n = some m → OnPath start n → OnPath start m := by
  intro k
  induction k with
  | zero =>
      intro n m h hpath
      obtain rfl := Option.some.inj h
      exact hpath
  | succ k ih =>
      intro n m h hpath
      cases hstep : coreStep prim chain served n with
      | none => simp [orbit, hstep] at h
      | some n' =>
          rw [orbit_succ hstep] at h
          exact ih h (coreStep_onPath hstep hpath)

/-! ### Where every run leads -/

/-- A first row is the last one. -/
private theorem mem_insert_empty {α : Type} {key height : UInt32} {row : α}
    (h : height ∈ (∅ : Std.ExtTreeMap UInt32 α).insert key row) : height = key := by
  rcases Std.ExtTreeMap.mem_insert.mp h with heq | hold
  · exact (Std.LawfulEqOrd.eq_of_compare heq).symm
  · exact absurd hold Std.ExtTreeMap.not_mem_empty

/-- A node that has just started from a genesis block is synced, at the genesis anchor. -/
theorem bootstrap_synced {l1GenesisHeight : UInt32} {genesis : L2Block} {n : NodeState}
    (h : bootstrap prim l1GenesisHeight (some genesis) NodeStore.empty = .ok n) :
    Synced prim n ∧ ∃ anchor, genesis.header.anchorOutpoint = some anchor ∧ OnPath anchor n := by
  have hload : NodeStore.empty.loadLatestState = none := lastRow?_eq_none_iff.mpr rfl
  simp only [bootstrap, resume, hload, coldStart, bind_ok_iff, ensure_ok_iff, okOr_ok_iff,
    mapErr_ok_iff, pure_ok_iff] at h
  obtain ⟨_, hheight, _, -, _, -, anchor, hanchor, store, hwrite, rfl⟩ := h
  obtain ⟨-, rfl⟩ := NodeStore.writeBlockAndState_ok_iff.mp hwrite
  refine ⟨⟨?_, ⟨genesis, ?_, ?_⟩, ?_, ?_⟩, anchor, hanchor, anchor, rfl, .here⟩
  · show lastRow? (Std.ExtTreeMap.insert ∅ genesis.header.height _) = some (0, _)
    rw [← hheight]
    exact lastRow?_insert fun height hmem => absurd hmem Std.ExtTreeMap.not_mem_empty
  · show ((∅ : Std.ExtTreeMap UInt32 L2Block).insert genesis.header.height genesis)[(0 : UInt32)]?
      = some genesis
    rw [hheight, Std.ExtTreeMap.getElem?_insert_self]
  · rw [headOf, hheight]
  · intro height hmem
    rw [mem_insert_empty hmem, hheight]
    exact UInt32.le_refl 0
  · intro height hmem
    rw [mem_insert_empty hmem, hheight]
    exact UInt32.le_refl 0

/-- Where an undisturbed tick ends, there is nothing more to do. -/
theorem Env.Undisturbed.ends {env : Env} {w w' : World} {fuel : Nat} {r : Except Halt Unit}
    (henv : env.Undisturbed prim chain served fuel w) (hrun : tick prim env fuel w = (r, w'))
    (hsync : Synced prim w.toNodeState) :
    ∃ steps m, orbit (coreStep prim chain served) steps w.toNodeState = some m ∧
      (r ≠ .error .outOfFuel → m = w'.toNodeState ∧ coreStep prim chain served m = none ∧
        (r = .ok () ↔ chain.tip ≤ m.cursor)) ∧
      (r = .error .outOfFuel → Halted prim chain served m ∨ fuel ≤ steps) := by
  obtain ⟨hits, log, hadds⟩ := tick_adds hrun
  have hnone := @tick_hits prim env henv.faults fuel w
  rw [hrun] at hnone
  obtain rfl : hits = [] :=
    List.append_cancel_left (hadds.hits.symm.trans (hnone.trans (List.append_nil _).symm))
  have hsteady : ∀ b ∈ log, b.Steady prim served := henv.steady log (by rw [hrun]; exact hadds.log)
  obtain ⟨steps, m, hlands, hok, hfuel⟩ := tick_lands hrun hadds (by simp)
    (fun b hb => (hsteady b hb).checked) hsync
  rw [henv.chain] at hlands hok hfuel
  refine ⟨steps, m, hlands.orbit, fun hr => ?_, hfuel⟩
  cases r with
  | ok _ =>
      have htip : chain.tip ≤ m.cursor := hok rfl
      refine ⟨(hlands.memory fun _ => rfl).symm, ?_, by simpa using htip⟩
      rw [coreStep, if_pos htip]
  | error halt =>
      rcases hlands.error hsteady halt rfl (by simpa using hr) with ⟨htip, hend⟩ | hhits
      · exact ⟨(hlands.memory fun _ => rfl).symm, hend, by
          simpa using (show m.cursor < chain.tip from htip)⟩
      · exact absurd rfl hhits

/--
**Where an uninterrupted tick ends, every run that is interrupted at harmless points only ends as
well**, where no mint passes in the run that does not pass in that tick, and the mint checks of the
last tick answer as there.  On the way the state in memory is that of the store, and the links lead
from the genesis anchor to the stored one.
-/
theorem NodeRun.recovers {l1GenesisHeight : UInt32} {genesis : L2Block} {n₀ : NodeState}
    {w w₁ : World} {fuel : Nat} {r : Except Halt Unit}
    (hstart : bootstrap prim l1GenesisHeight (some genesis) NodeStore.empty = .ok n₀)
    (hplain : tick prim (Env.plain chain served) fuel (World.start n₀) = (r, w₁))
    (hr : r ≠ .error .outOfFuel) (hrun : NodeRun prim (OnChain chain) (World.start n₀) w)
    (hsafe : ∀ hit ∈ w.hits, SafeHit hit) (hchecked : ∀ b ∈ w.log, b.Checked prim served) :
    (resume prim w.store = .ok (some (w.state, w.head)) ∧
      ∃ anchor, genesis.header.anchorOutpoint = some anchor ∧ OnPath anchor w.toNodeState) ∧
    (∀ env fuel r' w', env.Undisturbed prim chain served fuel w →
      tick prim env fuel w = (r', w') → r' ≠ .error .outOfFuel →
      w'.toNodeState = w₁.toNodeState) ∧
    (r = .ok () → ∃ enough, ∀ env fuel, enough ≤ fuel →
      env.Undisturbed prim chain served fuel w → (tick prim env fuel w).1 = .ok ()) := by
  obtain ⟨hsync₀, anchor, hanchor, hpath⟩ := bootstrap_synced hstart
  obtain ⟨j, horbit, hsync⟩ := NodeRun.lands hrun hsync₀ hsafe hchecked
  obtain ⟨k, m₁, horbit₁, hend₁, -⟩ := (Env.plain_undisturbed _ _).ends hplain hsync₀
  obtain ⟨rfl, hend₁, htip₁⟩ := hend₁ hr
  obtain ⟨-, hrest⟩ := orbit_resume hend₁ horbit₁ horbit
  refine ⟨⟨hsync.resume, anchor, hanchor, orbit_onPath horbit hpath⟩, ?_, ?_⟩
  · intro env fuel r' w' henv htick hr'
    obtain ⟨steps, m, horbit', hend', -⟩ := henv.ends htick hsync
    obtain ⟨rfl, hend', -⟩ := hend' hr'
    obtain ⟨-, hlast⟩ := orbit_resume hend₁ hrest horbit'
    exact (orbit_end hend' hlast).2.symm
  · intro hok
    refine ⟨k + 1, fun env fuel hfuel henv => ?_⟩
    rcases htick : tick prim env fuel w with ⟨r', w'⟩
    obtain ⟨steps, m, horbit', hend', hfuel'⟩ := henv.ends htick hsync
    obtain ⟨hsteps, hlast⟩ := orbit_resume hend₁ hrest horbit'
    by_cases hr' : r' = .error .outOfFuel
    · rcases hfuel' hr' with ⟨htip, hhalted⟩ | hle
      · rw [← (orbit_end hhalted hlast).2] at htip
        exact absurd (htip₁.mp hok) (Nat.not_le.mpr htip)
      · omega
    · obtain ⟨rfl, hend', htip⟩ := hend' hr'
      rw [← (orbit_end hend' hlast).2] at htip
      exact htip.mpr (htip₁.mp hok)

end

/-! ### Two interruptions -/

theorem startWorld_some {w : World} (h : startWorld = some w) : ∃ n,
    bootstrap Primitives.headers 0 (some block0) NodeStore.empty = .ok n ∧ w = World.start n := by
  unfold startWorld at h
  split at h
  · rename_i n hn
    exact ⟨n, hn, (Option.some.inj h).symm⟩
  · cases h

set_option synthInstance.maxSize 400 in
/-- `record_anchor_spend` fails once.  The next tick reaches the tip, and the link that an
uninterrupted tick has made is missing. -/
theorem recordAnchorSpend_lost : ∃ w, startWorld = some w ∧
    let plain := shortEnv [block1] block1 none
    let failed := (tick Primitives.headers (shortEnv [block1] block1 (some (7, .fail))) 3 w).2
    (tick Primitives.headers plain 3 w).1 = .ok () ∧
    (tick Primitives.headers plain 3 w).2.store.getAnchorSpender anchor0
      = some (⟨ByteArr.ofNat 32 1⟩, 1) ∧
    (tick Primitives.headers plain 3 failed).1 = .ok () ∧
    (tick Primitives.headers plain 3 failed).2.store.anchor
      = (tick Primitives.headers plain 3 w).2.store.anchor ∧
    (tick Primitives.headers plain 3 failed).2.store.getAnchorSpender anchor0 = none := by
  have hread : startWorld.map (fun w =>
      let plain := shortEnv [block1] block1 none
      let failed := (tick Primitives.headers (shortEnv [block1] block1 (some (7, .fail))) 3 w).2
      ((tick Primitives.headers plain 3 w).1,
        (tick Primitives.headers plain 3 w).2.store.getAnchorSpender anchor0,
        (tick Primitives.headers plain 3 failed).1,
        (tick Primitives.headers plain 3 failed).2.store.anchor
          == (tick Primitives.headers plain 3 w).2.store.anchor,
        (tick Primitives.headers plain 3 failed).2.store.getAnchorSpender anchor0))
      = some (.ok (), some (⟨ByteArr.ofNat 32 1⟩, 1), .ok (), true, none) := by
    decide +kernel
  obtain ⟨w, hw, hfields⟩ := Option.map_eq_some_iff.mp hread
  simp only [Prod.mk.injEq, beq_iff_eq] at hfields
  exact ⟨w, hw, hfields⟩

/-- What the short tests serve. -/
def shortServed : Served := (shortEnv [block1] block1 none).served 0

set_option synthInstance.maxSize 400 in
/-- The process is stopped before it has written a block, and started again. -/
theorem recovers_interrupted : ∃ (n₀ : NodeState) (w w₁ : World),
    bootstrap Primitives.headers 0 (some block0) NodeStore.empty = .ok n₀ ∧
    w.hits = [(.writeBlockAndState block1, .stop)] ∧ w₁.head.height = 1 ∧
    ((resume Primitives.headers w.store = .ok (some (w.state, w.head)) ∧
        ∃ anchor, block0.header.anchorOutpoint = some anchor ∧ OnPath anchor w.toNodeState) ∧
      (∀ env fuel r' w',
        env.Undisturbed Primitives.headers [⟨[]⟩, ⟨[attestingTx block1]⟩] shortServed fuel w →
        tick Primitives.headers env fuel w = (r', w') → r' ≠ .error .outOfFuel →
        w'.toNodeState = w₁.toNodeState) ∧
      ((.ok () : Except Halt Unit) = .ok () → ∃ enough, ∀ env fuel, enough ≤ fuel →
        env.Undisturbed Primitives.headers [⟨[]⟩, ⟨[attestingTx block1]⟩] shortServed fuel w →
        (tick Primitives.headers env fuel w).1 = .ok ())) := by
  have hread : startWorld.map (fun w =>
      let plain := tick Primitives.headers (shortEnv [block1] block1 none) 3 w
      let stopped := tick Primitives.headers (shortEnv [block1] block1 (some (5, .stop))) 3 w
      (plain.1, plain.2.head.height, stopped.1, stopped.2.hits,
        (resume Primitives.headers stopped.2.store).toOption.join.isSome))
      = some (.ok (), 1, .error .stopped, [(.writeBlockAndState block1, .stop)], true) := by
    decide +kernel
  obtain ⟨w, hw, hfields⟩ := Option.map_eq_some_iff.mp hread
  obtain ⟨n₀, hstart, rfl⟩ := startWorld_some hw
  simp only [Prod.mk.injEq] at hfields
  obtain ⟨hok, hheight, hstop, hhits, hresumes⟩ := hfields
  rcases hplain : tick Primitives.headers (shortEnv [block1] block1 none) 3 (World.start n₀)
    with ⟨r, w₁⟩
  rcases hstopped : tick Primitives.headers (shortEnv [block1] block1 (some (5, .stop))) 3
    (World.start n₀) with ⟨r₂, w₂⟩
  rw [hplain] at hok hheight
  rw [hstopped] at hstop hhits hresumes
  obtain rfl : r = .ok () := hok
  obtain rfl : r₂ = .error .stopped := hstop
  obtain ⟨⟨state, head⟩, hrow⟩ := Option.isSome_iff_exists.mp hresumes
  have hresume := toOption_eq_some_iff.mp (Option.join_eq_some_iff.mp hrow)
  refine ⟨n₀, { w₂ with state := state, head := head }, w₁, hstart, hhits, hheight, ?_⟩
  have hwhole : OnChain [⟨[]⟩, ⟨[attestingTx block1]⟩]
    (shortEnv [block1] block1 (some (5, .stop))) := List.prefix_refl _
  refine NodeRun.recovers hstart hplain (by simp) (.single (.crash hwhole hstopped hresume))
    (fun hit hmem => ?_) fun b hb => ?_
  · rw [show hit = _ from List.mem_singleton.mp (hhits ▸ hmem)]
    trivial
  · obtain ⟨i, hi⟩ := tick_served hstopped (List.nil_append _).symm hb
    have hsame : b.served = shortServed := hi
    intro height _
    rw [hsame]
    exact shortServed.admits_self height

end Hodlchain
