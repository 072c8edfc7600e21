/-
When a tick ends.

The inner loop looks for the transaction that spends the stored anchor, and goes
round again whenever it finds one.  A batch that is applied moves the anchor and
raises the head to the attested height, so it cannot be found again and there are
only so many heights.  An attestation at or below the head is skipped with the
anchor left where it is: the next round finds the same transaction.

`Rounds` are the rounds a tick comes to.  The measure is the number of L1 heights
left and, within one of them, of L2 heights above the head.
-/
import Hodlchain.Node.Batch

namespace Hodlchain

section

variable (prim : Primitives) (env : Env)

/-- The rounds of the inner loop that follow the one at L1 height `h` in world `w`. -/
inductive Rounds : Nat → World → Nat → World → Prop
  | here {h : Nat} {w : World} : Rounds h w h w
  | advance {h h' : Nat} {w w₁ w₂ w' : World} {adv : ChainAdvance} :
      findAdvance env h w = (.ok (some adv), w₁) → processAdvance prim env adv w₁ = (.ok (), w₂) →
      Rounds h w₂ h' w' → Rounds h w h' w'
  | next {h h' : Nat} {w w₁ w₂ w' : World} : findAdvance env h w = (.ok none, w₁) →
      setL1Cursor env h w₁ = (.ok (), w₂) → h < env.chain.tip →
      Rounds (h + 1) w₂ h' w' → Rounds h w h' w'

/-- A round that a tick started in `w` comes to. -/
def TickRound (w : World) (h : Nat) (w' : World) : Prop :=
  w.cursor < env.chain.tip ∧ env.faults w.calls = none ∧ env.faults (w.calls + 1) = none ∧
    Rounds prim env (w.cursor + 1) { w with calls := w.calls + 2 } h w'

/-- The round finds an attestation of a height that the head has reached. -/
def FindsKnown (h : Nat) (w : World) : Prop :=
  ∃ adv w₁, findAdvance env h w = (.ok (some adv), w₁) ∧ adv.attestation.height ≤ w.head.height

/-- A round that neither ends the loop nor fails moves the anchor, to the second output of
the transaction it found. -/
def RoundMoves (h : Nat) (w : World) : Prop :=
  ∀ adv w₁ w₂, findAdvance env h w = (.ok (some adv), w₁) →
    processAdvance prim env adv w₁ = (.ok (), w₂) →
      w₂.store.anchor = some ⟨adv.txid, 1⟩ ∧ w₂.store.anchor ≠ w.store.anchor

/-- From some amount on, the fuel does not run out. -/
def Terminates (w : World) : Prop :=
  ∃ enough, ∀ fuel, enough ≤ fuel → (tick prim env fuel w).1 ≠ .error .outOfFuel

end

/-! ### One round -/

section

variable {prim : Primitives} {env : Env} {h : Nat} {w w₁ w₂ : World}

theorem callSite_ok_iff {site : CallSite} {u : Unit} :
    callSite env site w = (.ok u, w₁) ↔
      env.faults w.calls = none ∧ w₁ = { w with calls := w.calls + 1 } := by
  unfold callSite
  cases env.faults w.calls with
  | none => simp [eq_comm]
  | some f => simp

theorem readAnchor_ok_iff {anchor : OutPoint} :
    readAnchor env w = (.ok anchor, w₁) ↔
      w.store.anchor = some anchor ∧ env.faults w.calls = none ∧
        w₁ = { w with calls := w.calls + 1 } := by
  unfold readAnchor
  rw [Action.bind_ok_iff]
  constructor
  · rintro ⟨_, w', hcall, hrun⟩
    obtain ⟨hfault, rfl⟩ := callSite_ok_iff.mp hcall
    rw [Action.get_bind_run] at hrun
    cases hanchor : w.store.anchor with
    | none => simp [hanchor] at hrun
    | some anchor' =>
        simp only [hanchor, Action.pure_run, Prod.mk.injEq, Except.ok.injEq] at hrun
        exact ⟨congrArg some hrun.1, hfault, hrun.2.symm⟩
  · rintro ⟨hanchor, hfault, rfl⟩
    refine ⟨(), _, callSite_ok_iff.mpr ⟨hfault, rfl⟩, ?_⟩
    rw [Action.get_bind_run]
    simp [hanchor]

theorem scanBlock_ok_iff {anchor : OutPoint} {found : Option ChainAdvance} :
    scanBlock env h anchor w = (.ok found, w₁) ↔
      scanBlockForChainAdvance env.chain h anchor = .ok found ∧ env.faults w.calls = none ∧
        w₁ = { w with calls := w.calls + 1 } := by
  unfold scanBlock
  rw [Action.bind_ok_iff]
  constructor
  · rintro ⟨_, w', hcall, hrun⟩
    obtain ⟨hfault, rfl⟩ := callSite_ok_iff.mp hcall
    cases hscan : scanBlockForChainAdvance env.chain h anchor with
    | error e => simp [hscan] at hrun
    | ok found' =>
        simp only [hscan, Action.pure_run, Prod.mk.injEq, Except.ok.injEq] at hrun
        exact ⟨congrArg Except.ok hrun.1, hfault, hrun.2.symm⟩
  · rintro ⟨hscan, hfault, rfl⟩
    refine ⟨(), _, callSite_ok_iff.mpr ⟨hfault, rfl⟩, ?_⟩
    simp [hscan]

/-- When a round gets an answer from bitcoind, and which. -/
theorem findAdvance_ok_iff {found : Option ChainAdvance} :
    findAdvance env h w = (.ok found, w₁) ↔
      (∃ anchor, w.store.anchor = some anchor ∧
        scanBlockForChainAdvance env.chain h anchor = .ok found) ∧
      env.faults w.calls = none ∧ env.faults (w.calls + 1) = none ∧
      w₁ = { w with calls := w.calls + 2 } := by
  unfold findAdvance
  rw [Action.bind_ok_iff]
  constructor
  · rintro ⟨anchor, w', hread, hrun⟩
    obtain ⟨hanchor, hfirst, rfl⟩ := readAnchor_ok_iff.mp hread
    obtain ⟨hscan, hsecond, rfl⟩ := scanBlock_ok_iff.mp hrun
    exact ⟨⟨anchor, hanchor, hscan⟩, hfirst, hsecond, rfl⟩
  · rintro ⟨⟨anchor, hanchor, hscan⟩, hfirst, hsecond, rfl⟩
    exact ⟨anchor, _, readAnchor_ok_iff.mpr ⟨hanchor, hfirst, rfl⟩,
      scanBlock_ok_iff.mpr ⟨hscan, hsecond, rfl⟩⟩

theorem Fault.halt_ne (f : Fault) (site : CallSite) : f.halt site ≠ .outOfFuel := by
  cases f <;> simp [Fault.halt]

theorem FindEnds.halt_ne {n : NodeState} {halt : Halt} {hits : List (CallSite × Fault)}
    (hends : FindEnds env h n (.error halt) hits) : halt ≠ .outOfFuel := by
  cases hends with
  | anchorHit f => exact f.halt_ne _
  | unset _ => simp
  | scanHit f => exact f.halt_ne _
  | refused _ _ => simp

theorem RangeEnds.halt_ne {served : Served} {att : Attestation} {k : Nat} {n n' : NodeState}
    {r : Except Halt Unit} {hits : List (CallSite × Fault)}
    (hends : RangeEnds prim served att k n r n' hits) : r ≠ .error .outOfFuel := by
  induction hends with
  | done => simp
  | halted hone =>
      cases hone with
      | fetchHit f => simpa using f.halt_ne _
      | refused _ => simp
      | writeHit f _ => simpa using f.halt_ne _
      | writeRefused _ _ => simp
  | more _ _ _ ih => exact ih

theorem AdvanceEnds.halt_ne {served : Served} {adv : ChainAdvance} {n n' : NodeState}
    {r : Except Halt Unit} {hits : List (CallSite × Fault)}
    (hends : AdvanceEnds prim served adv n r n' hits) : r ≠ .error .outOfFuel := by
  cases hends with
  | known _ => simp
  | halted _ hrange => exact hrange.halt_ne
  | setAnchorHit f _ _ => simpa using f.halt_ne _
  | recordHit f _ _ => simpa using f.halt_ne _
  | done _ _ => simp

/-! ### Rounds that skip what they find -/

/-- What spends the stored anchor attests a height that the head has reached. -/
def SpentAtKnown (env : Env) (h : Nat) (n : NodeState) : Prop :=
  ∃ anchor adv, n.store.anchor = some anchor ∧
    scanBlockForChainAdvance env.chain h anchor = .ok (some adv) ∧
    adv.attestation.height ≤ n.head.height

/-- And no later call fails. -/
def Stuck (env : Env) (h : Nat) (w : World) : Prop :=
  SpentAtKnown env h w.toNodeState ∧ ∀ m, w.calls ≤ m → env.faults m = none

theorem findsKnown_iff : FindsKnown env h w ↔
    SpentAtKnown env h w.toNodeState ∧ env.faults w.calls = none ∧
      env.faults (w.calls + 1) = none := by
  unfold FindsKnown SpentAtKnown
  constructor
  · rintro ⟨adv, w₁, hfind, hle⟩
    obtain ⟨⟨anchor, hanchor, hscan⟩, hfirst, hsecond, -⟩ := findAdvance_ok_iff.mp hfind
    exact ⟨⟨anchor, adv, hanchor, hscan, hle⟩, hfirst, hsecond⟩
  · rintro ⟨⟨anchor, adv, hanchor, hscan, hle⟩, hfirst, hsecond⟩
    exact ⟨adv, _, findAdvance_ok_iff.mpr ⟨⟨anchor, hanchor, hscan⟩, hfirst, hsecond, rfl⟩, hle⟩

/-- A round that skips leaves the node as it was; the next one begins two calls later. -/
theorem scanLoop_known (hfind : FindsKnown env h w) :
    ∃ log, ∀ fuel, scanLoop prim env h (fuel + 1) w
      = scanLoop prim env h fuel { w with calls := w.calls + 2, log := log } := by
  obtain ⟨adv, w₁, hfind, hle⟩ := hfind
  obtain ⟨-, -, -, rfl⟩ := findAdvance_ok_iff.mp hfind
  refine ⟨w.log ++ [⟨w.toNodeState, adv, env.served w.log.length⟩], fun fuel => ?_⟩
  rw [scanLoop_some hfind,
    Action.bind_run_ok (processAdvance_known (w := { w with calls := w.calls + 2 }) hle)]

/-- **A skipped attestation is found again for ever**, unless a call fails. -/
theorem scanLoop_stuck :
    ∀ (fuel : Nat) {w : World}, Stuck env h w →
      (scanLoop prim env h fuel w).1 = .error .outOfFuel := by
  intro fuel
  induction fuel with
  | zero => intro w _; rfl
  | succ fuel ih =>
      intro w hstuck
      obtain ⟨hknown, hfaults⟩ := hstuck
      obtain ⟨log, hrun⟩ := @scanLoop_known prim env h w (findsKnown_iff.mpr
        ⟨hknown, hfaults _ (Nat.le_refl _), hfaults _ (Nat.le_add_right _ 1)⟩)
      rw [hrun]
      exact ih ⟨hknown, fun m hm => hfaults m (Nat.le_trans (Nat.le_add_right _ 2) hm)⟩

/-- When a round does not come to find it, a call has failed. -/
theorem scanLoop_hit (hknown : SpentAtKnown env h w.toNodeState) (hfind : ¬ FindsKnown env h w) :
    ∃ halt w', halt ≠ .outOfFuel ∧
      ∀ fuel, scanLoop prim env h (fuel + 1) w = (.error halt, w') := by
  obtain ⟨anchor, adv, hanchor, hscan, hle⟩ := hknown
  rcases hrun : findAdvance env h w with ⟨r, w'⟩
  cases r with
  | error halt =>
      obtain ⟨hits, hends, -, -⟩ := findAdvance_ends hrun
      exact ⟨halt, w', hends.halt_ne, fun fuel => scanLoop_error hrun⟩
  | ok found =>
      refine absurd ⟨adv, w', ?_, hle⟩ hfind
      obtain ⟨⟨anchor', hanchor', hscan'⟩, -⟩ := findAdvance_ok_iff.mp hrun
      obtain rfl := Option.some.inj (hanchor.symm.trans hanchor')
      obtain rfl := Except.ok.inj (hscan.symm.trans hscan')
      exact hrun

/-- A call that fails later ends the loop. -/
theorem scanLoop_spin {m : Nat} (hm : env.faults m ≠ none) :
    ∀ (d : Nat) {w : World}, SpentAtKnown env h w.toNodeState → w.calls ≤ m → m < w.calls + d →
      ∃ enough, ∀ fuel, enough ≤ fuel → ∃ halt w', halt ≠ .outOfFuel ∧
        scanLoop prim env h fuel w = (.error halt, w') := by
  intro d
  induction d with
  | zero => intro w _ hcalls hd; omega
  | succ d ih =>
      intro w hknown hcalls hd
      by_cases hfind : FindsKnown env h w
      · have hlater : w.calls + 2 ≤ m := by
          obtain ⟨-, hfirst, hsecond⟩ := findsKnown_iff.mp hfind
          by_contra hc
          rcases (by omega : m = w.calls ∨ m = w.calls + 1) with rfl | rfl
          · exact hm hfirst
          · exact hm hsecond
        obtain ⟨log, hrun⟩ := @scanLoop_known prim env h w hfind
        obtain ⟨enough, hends⟩ := @ih { w with calls := w.calls + 2, log := log } hknown hlater
          (show m < w.calls + 2 + d by omega)
        refine ⟨enough + 1, fun fuel hfuel => ?_⟩
        obtain ⟨k, rfl⟩ := Nat.exists_eq_add_of_le' hfuel
        rw [← Nat.add_assoc, hrun]
        exact hends _ (Nat.le_add_left _ _)
      · obtain ⟨halt, w', hne, hrun⟩ := @scanLoop_hit prim env h w hknown hfind
        refine ⟨1, fun fuel hfuel => ⟨halt, w', hne, ?_⟩⟩
        obtain ⟨k, rfl⟩ := Nat.exists_eq_add_of_le' hfuel
        exact hrun k

/-! ### The whole tick -/

/-- The rest of a tick from a round on: the inner loop with `fuel`, then the later heights
with `fuel'` each. -/
private def fromRound (prim : Primitives) (env : Env) (fuel fuel' h : Nat) : Act Unit := do
  scanLoop prim env h fuel
  setL1Cursor env h
  scanHeights prim env fuel' (env.chain.tip - h) (h + 1)

private theorem scanHeights_eq_fromRound {fuel : Nat} (hh : h < env.chain.tip) :
    scanHeights prim env fuel (env.chain.tip - h) (h + 1)
      = fromRound prim env fuel fuel (h + 1) := by
  rw [show env.chain.tip - h = env.chain.tip - (h + 1) + 1 by omega]
  rfl

private theorem fromRound_error {fuel fuel' : Nat} {halt : Halt}
    (hrun : scanLoop prim env h fuel w = (.error halt, w₁)) :
    fromRound prim env fuel fuel' h w = (.error halt, w₁) := Action.bind_run_error hrun

private theorem fromRound_advance {fuel fuel' : Nat} {adv : ChainAdvance}
    (hfind : findAdvance env h w = (.ok (some adv), w₁))
    (hadvance : processAdvance prim env adv w₁ = (.ok (), w₂)) :
    fromRound prim env (fuel + 1) fuel' h w = fromRound prim env fuel fuel' h w₂ := by
  have hloop : scanLoop prim env h (fuel + 1) w = scanLoop prim env h fuel w₂ := by
    rw [scanLoop_some hfind, Action.bind_run_ok hadvance]
  unfold fromRound
  rw [Action.bind_run, hloop, ← Action.bind_run]

private theorem fromRound_next {fuel fuel' : Nat}
    (hfind : findAdvance env h w = (.ok none, w₁)) :
    fromRound prim env (fuel + 1) fuel' h w
      = (setL1Cursor env h >>= fun _ =>
          scanHeights prim env fuel' (env.chain.tip - h) (h + 1)) w₁ :=
  Action.bind_run_ok (scanLoop_none hfind)

/-- A tick that comes to a stuck round uses any fuel up. -/
theorem Rounds.stuck {h' : Nat} {w' : World} (hrounds : Rounds prim env h w h' w')
    (hstuck : Stuck env h' w') :
    ∀ fuel fuel', (fromRound prim env fuel fuel' h w).1 = .error .outOfFuel := by
  induction hrounds with
  | @here h w =>
      intro fuel fuel'
      have hloop := @scanLoop_stuck prim env h fuel w hstuck
      rcases hrun : scanLoop prim env h fuel w with ⟨r, w₁⟩
      rw [hrun] at hloop
      obtain rfl : r = .error .outOfFuel := hloop
      rw [fromRound_error hrun]
  | advance hfind hadvance _ ih =>
      intro fuel fuel'
      cases fuel with
      | zero => rfl
      | succ fuel =>
          rw [fromRound_advance hfind hadvance]
          exact ih hstuck fuel fuel'
  | next hfind hset htip _ ih =>
      intro fuel fuel'
      cases fuel with
      | zero => rfl
      | succ fuel =>
          rw [fromRound_next hfind, Action.bind_run_ok hset, scanHeights_eq_fromRound htip]
          exact ih hstuck fuel' fuel'

/-- With enough fuel the rest of the tick does not run out of it. -/
private def RoundEnds (prim : Primitives) (env : Env) (h : Nat) (w : World) : Prop :=
  ∃ enough, ∀ fuel fuel', enough ≤ fuel → enough ≤ fuel' →
    (fromRound prim env fuel fuel' h w).1 ≠ .error .outOfFuel

private theorem roundEnds_error {halt : Halt} (hne : halt ≠ .outOfFuel)
    (hrun : ∀ fuel, scanLoop prim env h (fuel + 1) w = (.error halt, w₁)) :
    RoundEnds prim env h w := by
  refine ⟨1, fun fuel fuel' hfuel _ => ?_⟩
  obtain ⟨k, rfl⟩ := Nat.exists_eq_add_of_le' hfuel
  rw [fromRound_error (hrun k)]
  simpa using hne

private theorem roundEnds_advance {adv : ChainAdvance}
    (hfind : findAdvance env h w = (.ok (some adv), w₁))
    (hadvance : processAdvance prim env adv w₁ = (.ok (), w₂)) (hrest : RoundEnds prim env h w₂) :
    RoundEnds prim env h w := by
  obtain ⟨enough, hends⟩ := hrest
  refine ⟨enough + 1, fun fuel fuel' hfuel hfuel' => ?_⟩
  obtain ⟨k, rfl⟩ := Nat.exists_eq_add_of_le' hfuel
  rw [← Nat.add_assoc, fromRound_advance hfind hadvance]
  exact hends _ fuel' (by omega) (by omega)

/-- After the last link of a block: its cursor is written, and the next block begins. -/
private theorem roundEnds_next (hh : h ≤ env.chain.tip)
    (hfind : findAdvance env h w = (.ok none, w₁))
    (hrest : ∀ w₂, setL1Cursor env h w₁ = (.ok (), w₂) → h < env.chain.tip →
      RoundEnds prim env (h + 1) w₂) : RoundEnds prim env h w := by
  rcases callModify_ends env .setL1Cursor (fun w => { w with store := w.store.setL1Cursor h }) w₁
    with ⟨-, hset⟩ | ⟨f, -, hset⟩
  · by_cases htip : h < env.chain.tip
    · obtain ⟨enough, hends⟩ := hrest _ hset htip
      refine ⟨enough + 1, fun fuel fuel' hfuel hfuel' => ?_⟩
      obtain ⟨k, rfl⟩ := Nat.exists_eq_add_of_le' hfuel
      rw [← Nat.add_assoc, fromRound_next hfind, setL1Cursor, Action.bind_run_ok hset,
        scanHeights_eq_fromRound htip]
      exact hends fuel' fuel' (by omega) (by omega)
    · refine ⟨1, fun fuel fuel' hfuel _ => ?_⟩
      obtain ⟨k, rfl⟩ := Nat.exists_eq_add_of_le' hfuel
      rw [fromRound_next hfind, setL1Cursor, Action.bind_run_ok hset,
        show env.chain.tip - h = 0 by omega]
      simp [scanHeights]
  · refine ⟨1, fun fuel fuel' hfuel _ => ?_⟩
    obtain ⟨k, rfl⟩ := Nat.exists_eq_add_of_le' hfuel
    rw [fromRound_next hfind, setL1Cursor, Action.bind_run_error hset]
    simpa using f.halt_ne _

/-- The anchor is spent by a known attestation, and a call is still to fail. -/
private theorem roundEnds_known (hspent : SpentAtKnown env h w.toNodeState)
    (hfree : ¬ Stuck env h w) : RoundEnds prim env h w := by
  obtain ⟨m, hm, hfault⟩ : ∃ m, w.calls ≤ m ∧ env.faults m ≠ none := by
    by_contra hc
    push Not at hc
    exact hfree ⟨hspent, hc⟩
  obtain ⟨enough, hspin⟩ := @scanLoop_spin prim env h m hfault (m - w.calls + 1) w hspent hm
    (by omega)
  refine ⟨enough, fun fuel fuel' hfuel _ => ?_⟩
  obtain ⟨halt, w', hne, hrun⟩ := hspin fuel hfuel
  rw [fromRound_error hrun]
  simpa using hne

/-- A tick that comes to no stuck round ends: each link raises the head, and each block the
height. -/
theorem rounds_end :
    ∀ (n d : Nat) {h : Nat} {w : World}, env.chain.tip < h + n → h ≤ env.chain.tip →
      2 ^ 32 < w.head.height.toNat + d →
      (∀ h' w', Rounds prim env h w h' w' → ¬ Stuck env h' w') → RoundEnds prim env h w := by
  intro n
  induction n with
  | zero => intro d h w hn hh; omega
  | succ n ihn =>
      intro d
      induction d with
      | zero =>
          intro h w _ _ hd
          have := w.head.height.toNat_lt
          omega
      | succ d ihd =>
          intro h w hn hh hd hfree
          rcases hfind : findAdvance env h w with ⟨r, w₁⟩
          obtain ⟨hits, hends, hnode, -⟩ := findAdvance_ends hfind
          cases r with
          | error halt => exact roundEnds_error hends.halt_ne fun _ => scanLoop_error hfind
          | ok found =>
              cases found with
              | none =>
                  refine roundEnds_next hh hfind fun w₂ hset htip => ?_
                  exact ihn (2 ^ 32 + 1) (by omega) (by omega) (by omega)
                    fun h' w' hrounds => hfree h' w' (.next hfind hset htip hrounds)
              | some adv =>
                  rcases hadvance : processAdvance prim env adv w₁ with ⟨r₂, w₂⟩
                  obtain ⟨hits₂, hends₂, -, -, -⟩ := processAdvance_ends hadvance
                  cases r₂ with
                  | error halt =>
                      refine @roundEnds_error prim env h w w₂ halt ?_ fun fuel => ?_
                      · simpa using hends₂.halt_ne
                      · rw [scanLoop_some hfind, Action.bind_run_error hadvance]
                  | ok _ =>
                      rw [hnode] at hends₂
                      cases hends₂.ok_cases with
                      | inl hknown =>
                          exact roundEnds_known (findsKnown_iff.mp ⟨adv, w₁, hfind, hknown.1⟩).1
                            (hfree h w .here)
                      | inr hmoved =>
                          rw [UInt32.lt_iff_toNat_lt] at hmoved
                          have hraised : w.head.height.toNat < w₂.head.height.toNat := hmoved.1
                          exact roundEnds_advance hfind hadvance (ihd hn hh (by omega)
                            fun h' w' hrounds => hfree h' w' (.advance hfind hadvance hrounds))

/-- **A tick ends unless it comes to a stuck round.** -/
theorem tick_terminates_iff (prim : Primitives) (env : Env) (w : World) :
    Terminates prim env w ↔ ∀ h w', TickRound prim env w h w' → ¬ Stuck env h w' := by
  constructor
  · rintro ⟨enough, hends⟩ h w' ⟨htip, hfirst, hsecond, hrounds⟩ hstuck
    rcases tick_cases env enough w with ⟨_, f, _, hhit, -⟩ | ⟨-, -, hrun⟩
    · simp [hfirst, hsecond] at hhit
    · refine hends enough (Nat.le_refl _) ?_
      rw [hrun, scanHeights_eq_fromRound htip]
      exact hrounds.stuck hstuck enough enough
  · intro hfree
    by_cases hcalls : env.faults w.calls = none ∧ env.faults (w.calls + 1) = none ∧
        w.cursor < env.chain.tip
    · obtain ⟨hfirst, hsecond, htip⟩ := hcalls
      obtain ⟨enough, hends⟩ := @rounds_end prim env (env.chain.tip + 1) (2 ^ 32 + 1)
        (w.cursor + 1) { w with calls := w.calls + 2 } (by omega) (by omega) (by omega)
        fun h' w' hrounds => hfree h' w' ⟨htip, hfirst, hsecond, hrounds⟩
      refine ⟨enough, fun fuel hfuel => ?_⟩
      rcases tick_cases env fuel w with ⟨_, f, _, hhit, -⟩ | ⟨-, -, hrun⟩
      · simp [hfirst, hsecond] at hhit
      · rw [hrun, scanHeights_eq_fromRound htip]
        exact hends fuel fuel hfuel hfuel
    · refine ⟨0, fun fuel _ => ?_⟩
      rcases tick_cases env fuel w with ⟨_, f, _, -, hrun, -⟩ | ⟨hfirst, hsecond, hrun⟩
      · rw [hrun]
        simpa using f.halt_ne _
      · have htip : env.chain.tip - w.cursor = 0 := by
          by_contra hc
          exact hcalls ⟨hfirst, hsecond, by omega⟩
        rw [hrun, htip]
        simp [scanHeights]

/-- No transaction spends an output of its own. -/
def Chain.NoSelfSpend (c : Chain) : Prop := ∀ tx ∈ c.txs, ∀ op ∈ tx.input, op.txid ≠ tx.txid

/--
**A tick ends, and each of its rounds moves the anchor, exactly when no round finds an
attestation that the head has reached.**  One that does is skipped with the anchor left
where it is, and the rounds after it find it again.
-/
theorem tick_progresses_iff {prim : Primitives} {env : Env} {w : World}
    (hself : env.chain.NoSelfSpend) :
    (Terminates prim env w ∧ ∀ h w', TickRound prim env w h w' → RoundMoves prim env h w') ↔
      ∀ h w', TickRound prim env w h w' → ¬ FindsKnown env h w' := by
  constructor
  · rintro ⟨-, hmoves⟩ h w' hround ⟨adv, w₁, hfind, hle⟩
    obtain ⟨-, -, -, rfl⟩ := findAdvance_ok_iff.mp hfind
    exact (hmoves h w' hround adv _ _ hfind (processAdvance_known hle)).2 rfl
  · intro hfree
    constructor
    · refine (tick_terminates_iff prim env w).mpr fun h w' hround hstuck => ?_
      exact hfree h w' hround (findsKnown_iff.mpr ⟨hstuck.1, hstuck.2 _ (Nat.le_refl _),
        hstuck.2 _ (Nat.le_add_right _ 1)⟩)
    · intro h w' hround adv w₁ w₂ hfind hadvance
      obtain ⟨⟨anchor, hanchor, hscan⟩, -, -, rfl⟩ := findAdvance_ok_iff.mp hfind
      obtain ⟨hits, hends, -⟩ := processAdvance_ends hadvance
      rcases hends.ok_cases with ⟨hle, -⟩ | ⟨-, -, hmoved⟩
      · exact absurd ⟨adv, _, hfind, hle⟩ (hfree h w' hround)
      · obtain ⟨⟨-, hnew, -⟩, -, tx, htx, htxid, hspends⟩ := scanBlock_some hscan
        rw [hmoved, hnew, hanchor]
        refine ⟨rfl, fun hsame => hself tx htx anchor hspends ?_⟩
        rw [← Option.some.inj hsame, htxid]

end

/-! ### A batch that was interrupted

A short chain: the genesis block, two blocks without transactions after it, and an
L1 transaction that attests one of them.
-/

/-- A hash that tells headers apart, and nothing shorter. -/
def headerHash (x : Bytes) : H256 := if x.length < 160 then H256.zero else Primitives.polyHash x

/-- `Primitives.sample` with `headerHash`. -/
def Primitives.headers : Primitives := { Primitives.sample with sha256 := headerHash }

def anchor0 : OutPoint := ⟨⟨ByteArr.ofNat 32 9⟩, 1⟩

def block0 : L2Block := genesis Primitives.headers H256.zero 0 0 anchor0 none none

/-- A block without transactions on top of another. -/
def emptyBlock (prev : L2Block) (timestamp : UInt64) : L2Block where
  header :=
    { height := prev.header.height + 1
      prevHash := prev.hash Primitives.headers
      l1BlockHash := H256.zero
      l1Height := 0
      txsRoot := computeTxsRoot Primitives.headers []
      stateRoot := prev.header.stateRoot
      timestamp := timestamp
      anchorOutpoint := none
      producer := none
      sequencerFeeAddress := none }
  txs := []

def block1 : L2Block := emptyBlock block0 0

/-- The attestation of a block. -/
def attestationOf (block : L2Block) : Attestation :=
  Attestation.new block.header.height (block.hash Primitives.headers) block.header.stateRoot

/-- The transaction that attests a block and spends the first anchor. -/
def attestingTx (block : L2Block) : BtcTx :=
  ⟨⟨ByteArr.ofNat 32 1⟩, [anchor0], [⟨0, (attestationOf block).toScript⟩, ⟨1000, []⟩]⟩

/-- A sequencer that serves some blocks, an L1 whose block 1 attests a block, and a fault. -/
def shortEnv (blocks : List L2Block) (attested : L2Block) (fault : Option (Nat × Fault)) : Env where
  chain := [⟨[]⟩, ⟨[attestingTx attested]⟩]
  served _ :=
    { block := fun height => blocks.find? fun b => b.header.height == height
      view := fun _ => ⟨fun _ => none, 1⟩ }
  faults m := fault.bind fun f => if m = f.1 then some f.2 else none

/-- A world that has just started from the genesis block. -/
def startWorld : Option World :=
  match bootstrap Primitives.headers 0 (some block0) NodeStore.empty with
  | .ok n => some ⟨n, 0, [], []⟩
  | .error _ => none

/-- A node started again from its store. -/
def World.restart (prim : Primitives) (w : World) : Option World :=
  match bootstrap prim 0 none w.store with
  | .ok n => some { w with toNodeState := n }
  | .error _ => none

/-- The node is stopped between the last block of a batch and `set_anchor`, and started again. -/
def interrupted : Option World := do
  let w ← startWorld
  (tick Primitives.headers (shortEnv [block1] block1 (some (6, .stop))) 2 w).2.restart
    Primitives.headers

/-- What the first transaction after the anchor says of block 1. -/
def firstAdvance : ChainAdvance where
  attestation := attestationOf block1
  l1Height := 1
  txid := ⟨ByteArr.ofNat 32 1⟩
  spentAnchor := anchor0
  newAnchor := ⟨⟨ByteArr.ofNat 32 1⟩, 1⟩

theorem scan_shortEnv (blocks : List L2Block) (fault : Option (Nat × Fault)) :
    scanBlockForChainAdvance (shortEnv blocks block1 fault).chain 1 anchor0
      = .ok (some firstAdvance) := by
  show scanBlockForChainAdvance (shortEnv [] block1 none).chain 1 anchor0 = _
  decide +kernel

/-- Its next tick, without a single fault, does not end. -/
theorem interrupted_not_terminates : ∃ w, interrupted = some w ∧
    ¬ Terminates Primitives.headers (shortEnv [block1] block1 none) w := by
  have hread : interrupted.map (fun w => (w.store.anchor, w.head.height, w.cursor))
      = some (some anchor0, 1, 0) := by
    decide +kernel
  obtain ⟨w, hw, hfields⟩ := Option.map_eq_some_iff.mp hread
  simp only [Prod.mk.injEq] at hfields
  obtain ⟨hanchor, hheight, hcursor⟩ := hfields
  refine ⟨w, hw, fun hends => ?_⟩
  refine (tick_terminates_iff _ _ w).mp hends (w.cursor + 1) _ ⟨?_, rfl, rfl, .here⟩ ⟨?_, ?_⟩
  · rw [hcursor]
    decide
  · rw [hcursor]
    exact ⟨anchor0, firstAdvance, hanchor, scan_shortEnv _ _, by
      rw [hheight]
      exact UInt32.le_refl 1⟩
  · exact fun m _ => rfl

/-- A tick from the genesis block, with block 1 served and no fault. -/
theorem tick_progresses_iff_start : ∃ w, startWorld = some w ∧
    ((Terminates Primitives.headers (shortEnv [block1] block1 none) w ∧
        ∀ h w', TickRound Primitives.headers (shortEnv [block1] block1 none) w h w' →
          RoundMoves Primitives.headers (shortEnv [block1] block1 none) h w') ↔
      ∀ h w', TickRound Primitives.headers (shortEnv [block1] block1 none) w h w' →
        ¬ FindsKnown (shortEnv [block1] block1 none) h w') := by
  obtain ⟨w, hw⟩ := Option.isSome_iff_exists.mp (by decide +kernel : startWorld.isSome = true)
  exact ⟨w, hw, tick_progresses_iff (by unfold Chain.NoSelfSpend; decide)⟩

end Hodlchain
