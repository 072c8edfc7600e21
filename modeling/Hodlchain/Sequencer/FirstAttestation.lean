/-
Before the first attestation.

While no attestation has been posted the height of the last one is unknown, and
`check_and_attest` takes the L1 cursor for it.  That cursor was the genesis height
when the store was new, but every block produced since has moved it to the tip it
was produced under.  An advance of L1 is attested exactly when no block came first.
-/
import Hodlchain.Sequencer.Recording

namespace Hodlchain.Sequencer

section

variable (prim : Primitives)

/-- `check_and_attest` returns because the tip is attested already. -/
def ReturnsEarly (env : AttestEnv) (app : AppState) : Prop :=
  ∃ tip last, env.blockCount = some tip ∧ (lastAttested env.faults app).1 = .ok last ∧ tip ≤ last

/-- `check_and_attest` has an attestation broadcast. -/
def Posts (env : AttestEnv) (app : AppState) : Prop :=
  Attests env app ∧ ∃ mid anchor txid, produceBlock prim env.block app = (.ok (), mid) ∧
    mid.store.anchor = some anchor ∧
    env.post (Attestation.new mid.shared.head.height mid.shared.head.blockHash
      mid.shared.head.stateRoot) anchor = some txid

/-! ### Ticks and arrivals -/

/-- The sequencer and the chain it looks at. -/
structure Ticking where
  app : AppState
  l1Tip : UInt32
  /-- The L1 heights its blocks were produced under, of the blocks whose production went through;
  the genesis block is one. -/
  producedUnder : List UInt32

/-- The heights, after a call of `produce_block` at one. -/
def Ticking.after (w : Ticking) (h : UInt32) : Except Halt Unit → List UInt32
  | .ok () => h :: w.producedUnder
  | .error _ => w.producedUnder

/-- One step of a run in which no attestation is posted.  An L1 tick is a `monitorPending` and then
one of the two calls of `check_and_attest`. -/
inductive Ticking.Step (w : Ticking) : Ticking → Prop
  | arrival {h : UInt32} (hle : w.l1Tip ≤ h) : Step w { w with l1Tip := h }
  | submitMint (l1 : L1View) (now : UInt64) (proof : MintProofEnvelope)
    (l2Destination : L2Address) :
      Step w { w with app := (submitMint prim l1 now proof l2Destination w.app).2 }
  | submitTransfer (now : UInt64) (transfer : SignedTransfer) :
      Step w { w with app := (submitTransfer prim now transfer w.app).2 }
  | blockTick {env : BlockEnv} {app' : AppState}
      (htip : ∀ h, env.blockCount = some h → h = w.l1Tip)
      (h : settle prim (produceBlock prim env w.app) = some app') :
      Step w { w with
        app := app', producedUnder := w.after w.l1Tip (produceBlock prim env w.app).1 }
  | monitorPending {env : MonitorEnv} {app' : AppState}
      (h : settle prim (monitorPending env w.app) = some app') : Step w { w with app := app' }
  | checkIdle {env : AttestEnv} {app' : AppState} (hidle : ¬ Attests env w.app)
      (h : settle prim (checkAndAttest prim env w.app) = some app') : Step w { w with app := app' }
  | checkUnposted {env : AttestEnv} {app' : AppState} {l1Tip : UInt32}
    (hattests : Attests env w.app)
      (hunposted : ¬ Posts prim env w.app) (hle : w.l1Tip ≤ l1Tip)
      -- blocks may arrive after the tip has been compared
      (htip : ∀ h, env.block.blockCount = some h → h = l1Tip)
      (h : settle prim (checkAndAttest prim env w.app) = some app') :
      Step w ⟨app', l1Tip, w.after l1Tip (produceBlock prim env.block w.app).1⟩
  | restart {app' : AppState} (h : restart prim w.app = some app') : Step w { w with app := app' }

/-- A sequencer that has just bootstrapped over the L1 block at `g`. -/
def Ticking.Started (g : UInt32) (w : Ticking) : Prop :=
  (∃ identity l1BlockHash now anchor0,
    coldStart prim identity l1BlockHash g now anchor0 .empty = .ok w.app) ∧
  g ≤ w.l1Tip ∧ w.producedUnder = [g]

/-- The runs from a bootstrap at `g` in which no attestation is posted. -/
def unposted (g : UInt32) : System Ticking := ⟨Ticking.Started prim g, Ticking.Step prim⟩

end

variable {prim : Primitives} {app app' : AppState} {r : Except Halt Unit}

/-! ### How a call of `check_and_attest` goes on -/

theorem checkAndAttest_early {env : AttestEnv} (h : ReturnsEarly env app) :
    checkAndAttest prim env app = (.ok (), app) := by
  obtain ⟨tip, last, htip, hread, hle⟩ := h
  rw [checkAndAttest_run htip hread, if_pos hle]
  rfl

theorem checkAndAttest_attests {env : AttestEnv} {tip : UInt32} (h : Attests env app)
    (htip : env.blockCount = some tip) : checkAndAttest prim env app
      = (produceBlock prim env.block >>= fun _ => attestHead env tip) app := by
  obtain ⟨tip', last, htip', hread, hlt⟩ := h
  obtain rfl : tip = tip' := Option.some.inj (htip.symm.trans htip')
  rw [checkAndAttest_run htip hread, if_neg hlt]

/-! ### The cursor -/

/-- Nothing that `check_and_attest` looks at has changed. -/
structure SameMarks (store store' : Store) : Prop where
  last : store'.lastAttestedL1Height = store.lastAttestedL1Height
  pending : store'.pendingAttestations = store.pendingAttestations
  cursor : store'.l1Cursor = store.l1Cursor

theorem SameMarks.of_eq {store store' : Store} (h : store' = store) : SameMarks store store' := by
  rw [h]
  exact ⟨rfl, rfl, rfl⟩

theorem SameMarks.trans {s₁ s₂ s₃ : Store} (h : SameMarks s₁ s₂) (h' : SameMarks s₂ s₃) :
    SameMarks s₁ s₃ :=
  ⟨h'.last.trans h.last, h'.pending.trans h.pending, h'.cursor.trans h.cursor⟩

/-- Stopped or not, what goes on has the store that was left. -/
theorem settle_store (h : settle prim (r, app) = some app') : app'.store = app.store := by
  rcases settle_cases h with ⟨-, hrestart⟩ | ⟨-, rfl⟩
  · exact restart_store hrestart
  · rfl

/-- A call of `produce_block` moves the cursor to its tip, or nothing. -/
theorem produceBlock_marks {env : BlockEnv} (h : produceBlock prim env app = (r, app')) :
    (∃ e, r = .error e ∧ SameMarks app.store app'.store) ∨
    ∃ tip, r = .ok () ∧ env.blockCount = some tip ∧
      SameMarks { app.store with l1Cursor := some tip } app'.store := by
  cases produceBlock_ends h with
  | noTip htip => exact .inl ⟨_, rfl, ⟨rfl, rfl, rfl⟩⟩
  | unwritten htip hwrite hstop => exact .inl ⟨_, rfl, ⟨rfl, rfl, rfl⟩⟩
  | behind htip hwrite hcursor => exact .inl ⟨_, rfl, ⟨rfl, rfl, rfl⟩⟩
  | @done tip htip hwrite hcursor =>
      refine .inr ⟨tip.1, rfl, ?_, ⟨rfl, rfl, rfl⟩⟩
      unfold BlockEnv.l1Tip at htip
      simp only [bind_ok_iff, okOr_ok_iff, pure_ok_iff] at htip
      obtain ⟨height, hcount, hashHex, -, hash, -, rfl⟩ := htip
      exact hcount

/-- An attestation that is not broadcast leaves the store as the production left it. -/
theorem attestHead_unposted {env : AttestEnv} {tip : UInt32}
    (hunposted : ∀ anchor, app.store.anchor = some anchor →
      env.post (Attestation.new app.shared.head.height app.shared.head.blockHash
        app.shared.head.stateRoot) anchor = none)
    (h : attestHead env tip app = (r, app')) : app' = app := by
  unfold attestHead at h
  rw [Action.get_bind_run, Action.bind_run, storeCall_run] at h
  cases hfault : env.faults .getAnchor with
  | some f =>
      rw [hfault] at h
      exact (Prod.mk.inj h).2.symm
  | none =>
      rw [hfault] at h
      cases hanchor : app.store.anchor with
      | none =>
          rw [hanchor] at h
          exact (Prod.mk.inj h).2.symm
      | some anchor =>
          rw [hanchor] at h
          simp only [hunposted anchor hanchor] at h
          exact (Prod.mk.inj h).2.symm

/-- A call of `check_and_attest` that attests without a broadcast is one of `produce_block`, as
far as the store goes. -/
theorem checkAndAttest_unposted {env : AttestEnv} (hattests : Attests env app)
    (hunposted : ¬ Posts prim env app) (h : checkAndAttest prim env app = (r, app')) :
    app'.store = (produceBlock prim env.block app).2.store := by
  obtain ⟨tip, -, htip, -⟩ := id hattests
  rw [checkAndAttest_attests hattests htip] at h
  rcases hproduce : produceBlock prim env.block app with ⟨r₁, mid⟩
  cases r₁ with
  | error e =>
      rw [Action.bind_run_error hproduce] at h
      rw [← (Prod.mk.inj h).2]
  | ok u =>
      rw [Action.bind_run_ok hproduce] at h
      have hsame : app' = mid := by
        refine attestHead_unposted (fun anchor hanchor => ?_) h
        by_contra hpost
        obtain ⟨txid, htxid⟩ := Option.ne_none_iff_exists'.mp hpost
        exact hunposted ⟨hattests, mid, anchor, txid, hproduce, hanchor, htxid⟩
      rw [hsame]

/-- A round with nothing to follow does nothing. -/
theorem monitorPending_nothing {env : MonitorEnv} (hnone : app.store.pendingAttestations = [])
    (h : monitorPending env app = (r, app')) : app' = app := by
  unfold monitorPending at h
  rw [Action.bind_run, storeCall_run] at h
  cases hfault : env.faults .pendingAttestations with
  | some f =>
      rw [hfault] at h
      exact (Prod.mk.inj h).2.symm
  | none =>
      rw [hfault] at h
      simp only [Action.get_bind_run, if_pos hnone] at h
      exact (Prod.mk.inj h).2.symm

/-- Nothing has been posted, and the cursor is the highest L1 height a block was produced under. -/
structure Ticking.Unposted (w : Ticking) : Prop where
  last : w.app.store.lastAttestedL1Height = none
  pending : w.app.store.pendingAttestations = []
  cursor : ∃ c ∈ w.producedUnder, w.app.store.l1Cursor = some c ∧ ∀ h ∈ w.producedUnder, h ≤ c
  tip : ∀ h ∈ w.producedUnder, h ≤ w.l1Tip

theorem Ticking.Unposted.of_same {w : Ticking} {app' : AppState} (h : w.Unposted)
    (hsame : SameMarks w.app.store app'.store) : Ticking.Unposted { w with app := app' } where
  last := hsame.last.trans h.last
  pending := hsame.pending.trans h.pending
  cursor := by
    obtain ⟨c, hc, hcursor, hmax⟩ := h.cursor
    exact ⟨c, hc, hsame.cursor.trans hcursor, hmax⟩
  tip := h.tip

theorem Ticking.Unposted.arrival {w : Ticking} {h : UInt32} (hw : w.Unposted) (hle : w.l1Tip ≤ h) :
    Ticking.Unposted { w with l1Tip := h } :=
  ⟨hw.last, hw.pending, hw.cursor, fun k hk => UInt32.le_trans (hw.tip k hk) hle⟩

/-- A call of `produce_block` under the tip, and whatever else leaves the store as it left it. -/
theorem Ticking.Unposted.produced {w : Ticking} {env : BlockEnv} {app' : AppState} (hw : w.Unposted)
    (htip : ∀ h, env.blockCount = some h → h = w.l1Tip)
    (hstore : app'.store = (produceBlock prim env w.app).2.store) :
    Ticking.Unposted ⟨app', w.l1Tip, w.after w.l1Tip (produceBlock prim env w.app).1⟩ := by
  rcases hrun : produceBlock prim env w.app with ⟨r, mid⟩
  rw [hrun] at hstore
  rcases produceBlock_marks hrun with ⟨e, rfl, hsame⟩ | ⟨tip, rfl, hcount, hsame⟩
  · exact hw.of_same (hsame.trans (.of_eq hstore))
  · obtain rfl := htip tip hcount
    have hmarks := hsame.trans (.of_eq hstore)
    refine ⟨hmarks.last.trans hw.last, hmarks.pending.trans hw.pending, ?_, ?_⟩
    · refine ⟨w.l1Tip, List.mem_cons_self, hmarks.cursor, fun h hh => ?_⟩
      rcases List.mem_cons.mp hh with rfl | hh
      · exact UInt32.le_refl _
      · exact hw.tip h hh
    · intro h hh
      rcases List.mem_cons.mp hh with rfl | hh
      · exact UInt32.le_refl _
      · exact hw.tip h hh

/-- **One step.** -/
theorem Ticking.Unposted.step {w w' : Ticking} (hw : w.Unposted) (h : Ticking.Step prim w w') :
    w'.Unposted := by
  cases h with
  | arrival hle => exact hw.arrival hle
  | submitMint l1 now proof l2Destination =>
      exact submitMint_keeps (I := fun app => Ticking.Unposted { w with app := app })
        (fun _ _ => hw.of_same ⟨rfl, rfl, rfl⟩) l1 now proof l2Destination hw
  | submitTransfer now transfer =>
      exact submitTransfer_keeps (I := fun app => Ticking.Unposted { w with app := app })
        (fun _ _ => hw.of_same ⟨rfl, rfl, rfl⟩) now transfer hw
  | @blockTick env app' htip h => exact hw.produced htip (settle_store h)
  | @monitorPending env app' h =>
      rcases hrun : Sequencer.monitorPending env w.app with ⟨r, mid⟩
      rw [hrun] at h
      rw [monitorPending_nothing hw.pending hrun] at h
      exact hw.of_same (.of_eq (settle_store h))
  | @checkIdle env app' hidle h =>
      rcases hrun : checkAndAttest prim env w.app with ⟨r, mid⟩
      rw [hrun] at h
      rcases checkAndAttest_cases hrun with rfl | ⟨hattests, -⟩
      · exact hw.of_same (.of_eq (settle_store h))
      · exact absurd hattests hidle
  | @checkUnposted env app' l1Tip hattests hunposted hle htip h =>
      rcases hrun : checkAndAttest prim env w.app with ⟨r, mid⟩
      rw [hrun] at h
      have hstore := (settle_store h).trans (checkAndAttest_unposted hattests hunposted hrun)
      exact (hw.arrival hle).produced htip hstore
  | restart h => exact hw.of_same (.of_eq (restart_store h))

theorem Ticking.Started.unposted {g : UInt32} {w : Ticking} (h : Ticking.Started prim g w) :
    w.Unposted := by
  obtain ⟨⟨identity, l1BlockHash, now, anchor0, hstart⟩, hle, hproduced⟩ := h
  simp only [coldStart, bind_ok_iff, Store.writeBlockAndState_ok_iff, pure_ok_iff] at hstart
  obtain ⟨store, ⟨-, rfl⟩, happ⟩ := hstart
  obtain ⟨app, l1Tip, producedUnder⟩ := w
  obtain rfl : _ = app := happ
  obtain rfl : producedUnder = [g] := hproduced
  refine ⟨rfl, rfl, ⟨g, List.mem_cons_self, rfl, ?_⟩, ?_⟩
  · simp
  · simpa using hle

theorem unposted_of_reachable {g : UInt32} {w : Ticking} (h : (unposted prim g).Reachable w) :
    w.Unposted :=
  h.invariant (I := Ticking.Unposted) (fun w (hstarted : Ticking.Started prim g w) =>
    hstarted.unposted)
    fun _ _ _ hw hstep => hw.step hstep

/-- The cursor is taken for the last attested height, if it can be read. -/
theorem lastAttested_unposted {faults : StoreCall → Option Fault} {c : UInt32}
    (hlast : app.store.lastAttestedL1Height = none) (hcursor : app.store.l1Cursor = some c) :
    (lastAttested faults app).1 = match faults .lastAttestedL1Height, faults .l1Cursor with
      | some f, _ => .error (haltOf .lastAttestedL1Height f)
      | none, none => .ok c
      | none, some .fail => .ok 0
      | none, some .stop => .error .stopped := by
  unfold lastAttested
  rw [Action.bind_run, storeCall_run]
  cases faults .lastAttestedL1Height with
  | some f => rfl
  | none =>
      simp only [Action.get_bind_run, hlast, hcursor]
      cases faults .l1Cursor with
      | none => rfl
      | some f => cases f <;> rfl

/-- Above height zero, a call returns early when its reads answer and a block was produced under
the tip. -/
theorem Ticking.Unposted.returnsEarly_iff {w : Ticking} (hw : w.Unposted) {env : AttestEnv}
    (htip : env.blockCount = some w.l1Tip) (hpos : 0 < w.l1Tip) :
    ReturnsEarly env w.app ↔ env.faults .lastAttestedL1Height = none ∧
      env.faults .l1Cursor = none ∧ ∃ h ∈ w.producedUnder, w.l1Tip ≤ h := by
  obtain ⟨c, hc, hcursor, hmax⟩ := hw.cursor
  have hread := @lastAttested_unposted w.app env.faults c hw.last hcursor
  constructor
  · rintro ⟨tip, last, htip', hlast, hle⟩
    obtain rfl : w.l1Tip = tip := Option.some.inj (htip.symm.trans htip')
    rw [hread] at hlast
    cases hfirst : env.faults .lastAttestedL1Height with
    | some f => simp [hfirst] at hlast
    | none => cases hsecond : env.faults .l1Cursor with
        | none =>
            simp only [hfirst, hsecond, Except.ok.injEq] at hlast
            exact ⟨rfl, rfl, c, hc, hlast ▸ hle⟩
        | some f => cases f with
            | fail =>
                simp only [hfirst, hsecond, Except.ok.injEq] at hlast
                exact absurd (hlast ▸ hle) (UInt32.not_le.mpr hpos)
            | stop => simp [hfirst, hsecond] at hlast
  · rintro ⟨hfirst, hsecond, h, hh, hle⟩
    rw [hfirst, hsecond] at hread
    exact ⟨w.l1Tip, c, htip, hread, UInt32.le_trans hle (hmax h hh)⟩

/-- **Before the first attestation, an advance of L1 is attested exactly when no block was produced
under it first.**  In every run without a posted attestation, at a tip above the genesis height:
`check_and_attest` does not take the tip for attested if and only if, where its two reads of the
store answer, every block so far was produced under a lower tip.  Otherwise it does nothing, and if
it goes on it produces a block and hands the head to the wallet. -/
theorem first_attested_iff {g : UInt32} {w : Ticking} (hreach : (unposted prim g).Reachable w)
    {env : AttestEnv} (htip : env.blockCount = some w.l1Tip) (habove : g < w.l1Tip) :
    (¬ ReturnsEarly env w.app ↔ (env.faults .lastAttestedL1Height = none →
      env.faults .l1Cursor = none → ∀ h ∈ w.producedUnder, h < w.l1Tip)) ∧
    (ReturnsEarly env w.app → checkAndAttest prim env w.app = (.ok (), w.app)) ∧
    (¬ ReturnsEarly env w.app → env.faults .lastAttestedL1Height = none →
      env.faults .l1Cursor = none → checkAndAttest prim env w.app
        = (produceBlock prim env.block >>= fun _ => attestHead env w.l1Tip) w.app) := by
  have hw := unposted_of_reachable hreach
  have hpos : 0 < w.l1Tip := UInt32.lt_of_le_of_lt UInt32.zero_le habove
  have hearly := hw.returnsEarly_iff htip hpos
  refine ⟨?_, checkAndAttest_early, fun hgoes hfirst hsecond => ?_⟩
  · rw [hearly]
    refine ⟨fun hnot hfirst hsecond h hh => ?_, fun hlow hearly => ?_⟩
    · exact UInt32.not_le.mp fun hle => hnot ⟨hfirst, hsecond, h, hh, hle⟩
    · obtain ⟨hfirst, hsecond, h, hh, hle⟩ := hearly
      exact UInt32.not_le.mpr (hlow hfirst hsecond h hh) hle
  · obtain ⟨c, hc, hcursor, hmax⟩ := hw.cursor
    have hread := @lastAttested_unposted w.app env.faults c hw.last hcursor
    rw [hfirst, hsecond] at hread
    refine checkAndAttest_attests ⟨w.l1Tip, c, htip, hread, fun hle => hgoes ?_⟩ htip
    exact ⟨w.l1Tip, c, htip, hread, hle⟩

/-! ### A block first -/

/-- A wallet that would broadcast. -/
def willingEnv : AttestEnv where
  blockCount := some 1
  block := steadyEnv
  post _ _ := some firstAttestation.txid
  faults _ := none

/-- A new sequencer at genesis height 0, and one L1 block more. -/
theorem exists_advanced (prim : Primitives) : ∃ w : Ticking, (unposted prim 0).Reachable w ∧
    w.l1Tip = 1 ∧ w.producedUnder = [0] ∧ Writable steadyEnv w.app := by
  obtain ⟨app, happ⟩ := exists_coldStart prim sampleIdentity H256.zero 0 0 rootAnchor
  have hstarted : Ticking.Started prim 0 ⟨app, 0, [0]⟩ :=
    ⟨⟨_, _, _, _, happ⟩, UInt32.le_refl _, rfl⟩
  have hwritable := @Started.writable prim app steadyEnv ⟨_, _, _, _, _, happ⟩ rfl
  have hle : (0 : UInt32) ≤ 1 := by decide
  exact ⟨_, .step (.init hstarted) (.arrival hle), rfl, rfl, hwritable.2⟩

theorem first_attested_advanced : ∃ w : Ticking, (unposted Primitives.sample 0).Reachable w ∧
    w.l1Tip = 1 ∧ ¬ ReturnsEarly willingEnv w.app := by
  obtain ⟨w, hreach, htip, hproduced, -⟩ := exists_advanced Primitives.sample
  refine ⟨w, hreach, htip, ?_⟩
  refine (first_attested_iff hreach (by rw [htip]; rfl) (by rw [htip]; decide)).1.mpr ?_
  intro _ _ h hh
  rw [hproduced] at hh
  rw [htip, List.mem_singleton.mp hh]
  decide

/-- The block tick comes first, and the advance is not attested. -/
theorem first_attested_skipped : ∃ w : Ticking, (unposted Primitives.sample 0).Reachable w ∧
    willingEnv.blockCount = some w.l1Tip ∧ 0 < w.l1Tip ∧ ReturnsEarly willingEnv w.app ∧
    checkAndAttest Primitives.sample willingEnv w.app = (.ok (), w.app) := by
  obtain ⟨w, hreach, htip, -, hwrite⟩ := exists_advanced Primitives.sample
  obtain ⟨tip, hl1⟩ := steadyEnv_l1Tip
  have hproduce := @produceBlock_done Primitives.sample steadyEnv w.app tip hl1 hwrite rfl
  have hcount : ∀ h, steadyEnv.blockCount = some h → h = w.l1Tip := by
    intro h hh
    rw [htip]
    exact (Option.some.inj hh).symm
  have hstep := @Ticking.Step.blockTick Primitives.sample w steadyEnv _ hcount
    (by rw [hproduce]; rfl)
  rw [hproduce] at hstep
  have hafter := System.Reachable.step hreach hstep
  have hcheck : willingEnv.blockCount = some w.l1Tip := by
    rw [htip]
    rfl
  have hpos : 0 < w.l1Tip := by
    rw [htip]
    decide
  have hearly := ((unposted_of_reachable hafter).returnsEarly_iff hcheck hpos).mpr
    ⟨rfl, rfl, w.l1Tip, List.mem_cons_self, UInt32.le_refl _⟩
  exact ⟨_, hafter, hcheck, hpos, hearly, checkAndAttest_early hearly⟩

end Hodlchain.Sequencer
