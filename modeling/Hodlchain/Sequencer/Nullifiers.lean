/-
One acceptance for a nullifier.

`submit_mint` looks for the nullifier in the ledger first and in the mempool after, and
`produce_block` moves it the other way in two sections: from the mempool into a body it
has not shown to anyone, and from there into the ledger.  In between it is in neither
place, and a request that has looked at the ledger before looks at it no more.
-/
import Hodlchain.Sequencer.Honest
import Hodlchain.Sequencer.Interleaving

namespace Hodlchain.Sequencer

open LedgerState

/-- Of two mints of one nullifier, both among the given pushes, the earlier one was dropped. -/
def OneOf (d : Daemon) (pushed : Nat → Offer → Prop) : Prop :=
  ∀ i j o o' entry entry', i ≠ j → pushed i o → o.tx = .mint entry → pushed j o' →
    o'.tx = .mint entry' → entry.event.nullifierHex = entry'.event.nullifierHex →
      (o.batch < o'.batch ∧ o.Dropped d) ∨ (o'.batch < o.batch ∧ o'.Dropped d)

/-- The `i`-th request was answered `accepted: true`, with a receipt. -/
def Daemon.Accepted (d : Daemon) (i : Nat) (o : Offer) : Prop :=
  ∃ softConf heads, d.requests[i]? = some (.accepted o softConf heads)

/-- Of two mints of one nullifier, both accepted, the earlier one was dropped. -/
def OneAcceptance (d : Daemon) : Prop := OneOf d d.Accepted

/-- The nullifier is on its way: a call has drained it and not swapped it in, or it has been
swapped in since the request looked at the ledger. -/
def OnItsWay (d : Daemon) (nullifierHex : String) : Prop :=
  (∃ job, d.build.job? = some job ∧ ∃ entry ∈ job.mints, entry.event.nullifierHex = nullifierHex) ∨
    nullifierHex ∈ d.app.shared.state.consumedNullifiers

/-- No mint is pushed while its nullifier is on its way. -/
def OutOfTheGap : Event → Daemon → Prop
  | .request i _, d => ∀ entry seen, d.requests[i]? = some (.pushing (.mint entry) seen) →
      entry.event.nullifierHex ∉ d.app.shared.mempool.pendingNullifiers →
        ¬ OnItsWay d entry.event.nullifierHex
  | _, _ => True

section

variable {prim : Primitives} {d d' : Daemon} {e : Event} {start : LedgerState}

/-- Of two mints of one nullifier, both pushed, the earlier one was dropped. -/
def OnePush (d : Daemon) : Prop := OneOf d fun i o => d.offer? i = some o

/-- What was pushed for an earlier batch, and is not on its way, was dropped. -/
theorem dropped_of_not_onItsWay {i : Nat} {o : Offer} {entry : MintEntry}
    (hledgers : Ledgers prim start d) (hwaiting : Waiting d) (ho : d.offer? i = some o)
    (htx : o.tx = .mint entry)
    (hpending : entry.event.nullifierHex ∉ d.app.shared.mempool.pendingNullifiers)
    (hway : ¬ OnItsWay d entry.event.nullifierHex) : o.batch < d.drained ∧ o.Dropped d := by
  have hle := hwaiting.batch i o ho
  have hne : o.batch ≠ d.drained := by
    intro heq
    have hin := (hwaiting.holds (.mint entry)).mpr ⟨i, o, ho, heq, htx⟩
    exact hpending ((hwaiting.pending _).mpr ⟨entry, hin, rfl⟩)
  have hlt : o.batch < d.bodies.length := by
    cases hjob : d.build.job? with
    | none =>
        unfold Daemon.drained at hle hne
        rw [hjob] at hle hne
        exact Nat.lt_of_le_of_ne hle hne
    | some job =>
        have hbatch : o.batch ≠ d.bodies.length := by
          intro heq
          have hin := (hwaiting.job job hjob (.mint entry)).mpr ⟨i, o, ho, heq, htx⟩
          exact hway (.inl ⟨job, hjob, entry, hin, rfl⟩)
        unfold Daemon.drained at hle hne
        rw [hjob] at hle hne
        simp only [Option.isSome_some, if_true] at hle hne
        omega
  have hbody : d.bodies[o.batch]? = some d.bodies[o.batch] := List.getElem?_eq_getElem hlt
  refine ⟨Nat.lt_of_le_of_ne hle hne, _, hbody, fun htaken => hway (.inr ?_)⟩
  rw [htx] at htaken
  rw [hledgers.state]
  refine hledgers.allOk.consumed_of_takenIn (htaken.mono fun tx hin => ?_) ?_ hledgers.genuine
  · exact List.mem_flatten.mpr ⟨_, List.mem_of_getElem? hbody, hin⟩
  · unfold Daemon.offer? at ho
    obtain ⟨r, hr, hoffer⟩ := Option.bind_eq_some_iff.mp ho
    refine hledgers.requested r (List.mem_of_getElem? hr) _ ?_
    cases r with
    | signing o' =>
        obtain rfl := Option.some.inj hoffer
        rw [← htx]
        rfl
    | accepted o' softConf n =>
        obtain rfl := Option.some.inj hoffer
        rw [← htx]
        rfl
    | _ => cases hoffer

theorem OnePush.step (h : OnePush d) (hledgers : Ledgers prim start d) (hwaiting : Waiting d)
    (hallowed : OutOfTheGap e d) (hmoves : Moves prim d e d') : OnePush d' := by
  have hold : ∀ {o : Offer}, o.Dropped d → o.Dropped d' := fun hd => hd.step hmoves
  rcases hmoves.offer? with hoffer | ⟨i, now, tx, seen, mempool, rfl, hi, hpush, -, hoffer⟩
  · intro i j o o' entry entry' hij ho htx ho' htx' hsame
    rw [hoffer] at ho ho'
    exact (h i j o o' entry entry' hij ho htx ho' htx' hsame).imp
      (And.imp_right hold) (And.imp_right hold)
  · -- the earlier of two is one pushed before
    have hearlier : ∀ {j : Nat} {o : Offer} {entry entry' : MintEntry}, j ≠ i →
        d.offer? j = some o → o.tx = .mint entry → tx = .mint entry' →
          entry.event.nullifierHex = entry'.event.nullifierHex →
            o.batch < d.drained ∧ o.Dropped d' := by
      intro j o entry entry' hij ho htx htx' hsame
      have hfree := (pushToMempool_ok hpush).2.2 entry' htx'
      rw [htx'] at hi
      have hway := hallowed entry' seen hi hfree
      rw [← hsame] at hfree hway
      exact (dropped_of_not_onItsWay hledgers hwaiting ho htx hfree hway).imp_right hold
    intro j k o o' entry entry' hjk ho htx ho' htx' hsame
    rw [hoffer] at ho ho'
    by_cases hj : i = j
    · rw [if_pos hj] at ho
      rw [if_neg (hj ▸ hjk)] at ho'
      obtain rfl := Option.some.inj ho
      exact .inr (hearlier (fun hc => hjk (hj.symm.trans hc.symm)) ho' htx' htx hsame.symm)
    · rw [if_neg hj] at ho
      by_cases hk : i = k
      · rw [if_pos hk] at ho'
        obtain rfl := Option.some.inj ho'
        exact .inl (hearlier (Ne.symm hj) ho htx htx' hsame)
      · rw [if_neg hk] at ho'
        exact (h j k o o' entry entry' hjk ho htx ho' htx' hsame).imp
          (And.imp_right hold) (And.imp_right hold)

end

/-! ### A mint, submitted -/

/-- `shortMint` is submitted, and served at once. -/
def submitShortMint (i : Nat) : List Event :=
  [.submitMint (NodeL1.view lockChain) shortMint.witness shortMint.event.l2Destination,
    .request i 0, .request i 0, .request i 0]

theorem submitShortMint_quiet (i : Nat) :
    ∀ e ∈ submitShortMint i, (∀ env, e ≠ .produceBlock env) ∧ e ≠ .build := by
  simp [submitShortMint]

/-- The daemon after `submitShortMint`, when it was accepted. -/
def Daemon.withShortMint (d : Daemon) (softConf : SoftConf) : Daemon :=
  { d with
    app := d.app.setMempool
      { d.app.shared.mempool with
        pendingNullifiers :=
          d.app.shared.mempool.pendingNullifiers.insert shortMint.event.nullifierHex
        mints := d.app.shared.mempool.mints ++ [shortMint] }
    requests := d.requests ++ [.accepted ⟨.mint shortMint, d.drained, d.heads⟩ softConf d.heads] }

/-- It is accepted while its nullifier is in neither place. -/
theorem run_submitShortMint {d : Daemon}
    (hconsumed : shortMint.event.nullifierHex ∉ d.app.shared.state.consumedNullifiers)
    (hpending : shortMint.event.nullifierHex ∉ d.app.shared.mempool.pendingNullifiers) :
    ∃ softConf, d.run Primitives.sample (submitShortMint d.requests.length)
      = d.withShortMint softConf ∧
        softConf.targetL2Height = d.app.shared.head.height + 1 := by
  obtain ⟨credit, hcredit, hevent⟩ := shortMint_verify
  obtain ⟨event, nullifier⟩ := credit
  obtain rfl : event = shortMint.event := hevent
  have hrun := Daemon.run_submitMint hcredit hconsumed hpending 0
  simp only [submitMint, hcredit, hconsumed, hpending, if_false] at hrun
  exact ⟨_, hrun, rfl⟩

/-- It is refused while it waits. -/
theorem resubmitShortMint {d : Daemon}
    (hconsumed : shortMint.event.nullifierHex ∉ d.app.shared.state.consumedNullifiers)
    (hpending : shortMint.event.nullifierHex ∈ d.app.shared.mempool.pendingNullifiers) :
    d.run Primitives.sample (submitShortMint d.requests.length)
      = { d with requests := d.requests ++ [.refused "nullifier already in mempool"] } := by
  obtain ⟨credit, hcredit, hevent⟩ := shortMint_verify
  rw [← hevent] at hconsumed hpending
  simp only [submitShortMint, Daemon.run_cons, Daemon.run_nil, Daemon.next, hcredit]
  simp [Daemon.serve, refusedByState, hconsumed, pushToMempool, hpending]

/-- The daemon after the drain of the mempool. -/
def Daemon.afterDrain (d : Daemon) (env : BlockEnv) (tip : UInt32 × H256) : Daemon :=
  { d with
    app := d.app.setMempool .empty
    build := .drained ⟨env, tip, d.app.shared.mempool.mints, d.app.shared.mempool.transfers⟩ }

theorem next_produceBlock {prim : Primitives} {d : Daemon} {env : BlockEnv} {tip : UInt32 × H256}
    (hidle : d.build = .idle) (htip : env.l1Tip = .ok tip) :
    d.next prim (.produceBlock env) = d.afterDrain env tip := by
  simp only [Daemon.next, hidle, htip]
  rfl

theorem not_mem_start_consumed (n : String) (fee : Option L2Address) :
    n ∉ (LedgerState.start fee).consumedNullifiers := Std.ExtTreeSet.not_mem_empty

theorem not_mem_empty_pending (n : String) : n ∉ Mempool.empty.pendingNullifiers :=
  Std.ExtTreeSet.not_mem_empty

/-- No nullifier is known at the start. -/
theorem fresh_of_start {app : AppState} {fee : Option L2Address}
    (hstate : app.shared.state = LedgerState.start fee) (hmempool : app.shared.mempool = .empty)
    (n : String) :
    n ∉ app.shared.state.consumedNullifiers ∧ n ∉ app.shared.mempool.pendingNullifiers := by
  rw [hstate, hmempool]
  exact ⟨not_mem_start_consumed n fee, not_mem_empty_pending n⟩

/-- A new process, to which nothing has been submitted. -/
theorem exists_boot : ∃ app, Booted Primitives.sample app ∧ ∀ n,
    n ∉ app.shared.state.consumedNullifiers ∧ n ∉ app.shared.mempool.pendingNullifiers := by
  obtain ⟨app, hstarted, hstate, hmempool, -⟩ := exists_started Primitives.sample sampleIdentity
  exact ⟨app, .init ⟨app, hstarted, rfl⟩, fresh_of_start hstate hmempool⟩

/-- Nothing is in the gap while no call runs and no nullifier is consumed. -/
theorem outOfTheGap_of_idle {d : Daemon} (hidle : d.build = .idle)
    (hstate : ∀ n, n ∉ d.app.shared.state.consumedNullifiers) (e : Event) : OutOfTheGap e d := by
  cases e with
  | request i now =>
      intro entry seen _ _ hway
      rcases hway with ⟨job, hjob, -⟩ | hconsumed
      · rw [hidle] at hjob
        cases hjob
      · exact hstate _ hconsumed
  | _ => trivial

/-! ### One acceptance -/

/-- **One acceptance for a nullifier, out of the gap.**  In a run in which no mint is pushed while
its nullifier is on its way from the mempool to the ledger, or has got there since the request
looked, a second mint of a nullifier is accepted only after a build has dropped the first. -/
theorem one_acceptance {prim : Primitives} {d : Daemon}
    (h : (daemonSystem prim OutOfTheGap).Reachable d) : OneAcceptance d := by
  have hone : OnePush d := by
    refine h.invariant (I := OnePush) ?_ ?_
    · rintro d ⟨app, -, rfl⟩
      intro i j o o' entry entry' hij ho
      cases ho
    · rintro d d' hrun hpush ⟨e, hallowed, rfl⟩
      have hreach := daemons_of_reachable hrun
      obtain ⟨start, hledgers⟩ := ledgers_of_reachable hreach
      exact hpush.step hledgers (waiting_of_reachable hreach) hallowed (d.moves e)
  have hoffer : ∀ {i : Nat} {o : Offer}, d.Accepted i o → d.offer? i = some o := by
    rintro i o ⟨softConf, heads, hi⟩
    exact Daemon.offer?_of_request hi rfl
  intro i j o o' entry entry' hij hi htx hj htx' hsame
  exact hone i j o o' entry entry' hij (hoffer hi) htx (hoffer hj) htx' hsame

/-- A mint is accepted; submitted again while it waits, it is refused. -/
theorem one_acceptance_shortMint : ∃ d, (∃ o, d.Accepted 0 o ∧ o.tx = .mint shortMint) ∧
    d.requests[1]? = some (.refused "nullifier already in mempool") ∧ OneAcceptance d := by
  obtain ⟨app, hbooted, hfresh⟩ := exists_boot
  obtain ⟨softConf, hfirst, -⟩ :=
    @run_submitShortMint (.boot app) (hfresh _).1 (hfresh _).2
  let d := (Daemon.boot app).withShortMint softConf
  have hrun : (Daemon.boot app).run Primitives.sample (submitShortMint 0) = d := hfirst
  have hallowed : ∀ e, ∀ d' : Daemon, d'.build = .idle →
      d'.app.shared.state = app.shared.state → OutOfTheGap e d' := by
    intro e d' hidle hstate
    refine outOfTheGap_of_idle hidle (fun n => ?_) e
    rw [hstate]
    exact (hfresh n).1
  have hreach := @reachable_quiet Primitives.sample OutOfTheGap _
    (submitShortMint 0) (.init ⟨app, hbooted, rfl⟩) (submitShortMint_quiet _)
    fun e _ d' hidle hstate _ => hallowed e d' hidle hstate
  rw [hrun] at hreach
  have hwaiting := waiting_of_reachable (daemons_of_reachable hreach)
  have hpending : shortMint.event.nullifierHex ∈ d.app.shared.mempool.pendingNullifiers :=
    (hwaiting.pending _).mpr ⟨shortMint, (hwaiting.holds (.mint shortMint)).mpr
      ⟨0, _, rfl, rfl, rfl⟩, rfl⟩
  have hagain := @reachable_quiet _ _ _ (submitShortMint 1) hreach (submitShortMint_quiet _)
    fun e _ d' hidle hstate _ => hallowed e d' hidle hstate
  rw [show d.run Primitives.sample (submitShortMint 1) = _ from
    resubmitShortMint (hfresh _).1 hpending] at hagain
  exact ⟨_, ⟨_, ⟨_, _, rfl⟩, rfl⟩, rfl, one_acceptance hagain⟩

/-- A mint waits and a call drains it; the mint is submitted again before the swap, and accepted
again. -/
theorem second_acceptance : ∃ d,
    (daemonSystem Primitives.sample fun _ _ => True).Reachable d ∧ ¬ OneAcceptance d := by
  obtain ⟨app, hbooted, hfresh⟩ := exists_boot
  obtain ⟨tip, htip⟩ := steadyEnv_l1Tip
  obtain ⟨softConf, hfirst, -⟩ :=
    @run_submitShortMint (.boot app) (hfresh _).1 (hfresh _).2
  let d := (Daemon.boot app).withShortMint softConf
  have hdrain : d.next Primitives.sample (.produceBlock steadyEnv) = d.afterDrain steadyEnv tip :=
    next_produceBlock rfl htip
  -- the ledger has nothing yet, the mempool nothing any more
  obtain ⟨softConf', hsecond, -⟩ :=
    @run_submitShortMint (d.afterDrain steadyEnv tip) (hfresh _).1 (not_mem_empty_pending _)
  have hboot : (daemonSystem Primitives.sample fun _ _ => True).Reachable (.boot app) :=
    .init ⟨app, hbooted, rfl⟩
  have hreach := @reachable_run _ _ _ (submitShortMint 0 ++ .produceBlock steadyEnv ::
    submitShortMint 1) hboot fun _ _ _ _ => trivial
  have hend : (Daemon.boot app).run Primitives.sample (submitShortMint 0 ++
      .produceBlock steadyEnv :: submitShortMint 1)
        = (d.afterDrain steadyEnv tip).withShortMint softConf' := by
    rw [Daemon.run_append, show (Daemon.boot app).run _ (submitShortMint 0) = d from hfirst,
      Daemon.run_cons, hdrain]
    exact hsecond
  rw [hend] at hreach
  refine ⟨_, hreach, fun hone => ?_⟩
  rcases hone 0 1 _ _ shortMint shortMint Nat.zero_ne_one ⟨_, _, rfl⟩ rfl ⟨_, _, rfl⟩ rfl rfl with
    ⟨-, body, hbody, -⟩ | ⟨-, body, hbody, -⟩
  · cases hbody
  · cases hbody

end Hodlchain.Sequencer
