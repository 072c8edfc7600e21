/-
What holds however the sections interleave.

Only the swap of a call changes the ledger, to what the bodies swapped in so far make of
the first one; a call works on the ledger that is in memory; and what was pushed waits in
the mempool, or in the call that drained it, until that swap.
-/
import Hodlchain.Sequencer.Moves
import Hodlchain.Sequencer.Rows

namespace Hodlchain

open Bytes LedgerState

/-! ### Transactions and the bodies that take them -/

/-- A body has the transaction; of a mint, one of the same outpoint, with the event its witness
authorised when the body was built. -/
def L2Tx.TakenIn : L2Tx → List L2Tx → Prop
  | .mint entry, body => ∃ fresh, .mint fresh ∈ body ∧
      fresh.witness.outpoint = entry.witness.outpoint
  | .transfer t, body => .transfer t ∈ body

section

variable {prim : Primitives} {s : LedgerState} {txs : List L2Tx} {l1 : L1View}

theorem L2Tx.TakenIn.mono {tx : L2Tx} {more : List L2Tx} (h : tx.TakenIn txs)
    (hsub : ∀ tx ∈ txs, tx ∈ more) : tx.TakenIn more := by
  cases tx with
  | mint entry =>
      obtain ⟨fresh, hmem, hout⟩ := h
      exact ⟨fresh, hsub _ hmem, hout⟩
  | transfer t => exact hsub _ h

/-- A nonce that a run has used is not the next one, unless it has come round. -/
theorem LedgerState.AllOk.nonce_ne {t : SignedTransfer} (h : s.AllOk prim txs)
    (ht : L2Tx.transfer t ∈ txs)
    (hbound : (txs.countP fun tx => tx.sender? = some t.body.sender) < 2 ^ 64) :
    t.body.nonce ≠ (s.applyAll prim txs).nonceOf t.body.sender := by
  intro heq
  have hafter := h.nonceOf t.body.sender
  obtain ⟨front, back, rfl⟩ := List.append_of_mem ht
  obtain ⟨hfront, hok, -⟩ := allOk_append.mp h
  have hnonce : t.body.nonce = s.nonceOf t.body.sender
      + UInt64.ofNat (front.countP fun tx => tx.sender? = some t.body.sender) := by
    rw [← hfront.nonceOf]
    exact TransferOk.nonce hok
  rw [List.countP_append, List.countP_cons_of_pos (by simp [L2Tx.sender?])] at hbound hafter
  rw [hafter, hnonce, UInt64.add_right_inj] at heq
  have hless : (front.countP fun tx => tx.sender? = some t.body.sender) < 2 ^ 64 := by omega
  have hnat := congrArg UInt64.toNat heq
  rw [UInt64.toNat_ofNat_of_lt' hless, UInt64.toNat_ofNat_of_lt' hbound] at hnat
  omega

/-- The nullifier of a mint that a run has taken is consumed. -/
theorem LedgerState.AllOk.consumed_of_takenIn {entry : MintEntry} (h : s.AllOk prim txs)
    (htaken : (L2Tx.mint entry).TakenIn txs) (hgenuine : (L2Tx.mint entry).Genuine)
    (hmints : ∀ tx ∈ txs, tx.Genuine) :
    entry.event.nullifierHex ∈ (s.applyAll prim txs).consumedNullifiers := by
  obtain ⟨fresh, hmem, hout⟩ := htaken
  have hsame : fresh.event.nullifierHex = entry.event.nullifierHex := by
    have hfresh : (L2Tx.mint fresh).Genuine := hmints _ hmem
    unfold L2Tx.Genuine at hfresh hgenuine
    rw [hfresh, hgenuine, hout]
  refine (h.consumed _).mpr (.inr ⟨fresh, ?_, hsame⟩)
  exact List.mem_filterMap.mpr ⟨_, hmem, rfl⟩

/-- **What a run has taken is not fresh after it.** -/
theorem LedgerState.AllOk.not_fresh {tx : L2Tx} (h : s.AllOk prim txs) (htaken : tx.TakenIn txs)
    (hgenuine : tx.Genuine) (hmints : ∀ tx ∈ txs, tx.Genuine)
    (hbound : ∀ a, (txs.countP fun tx => tx.sender? = some a) < 2 ^ 64) :
    ¬ (s.applyAll prim txs).Fresh tx := by
  cases tx with
  | mint entry => exact not_not_intro (h.consumed_of_takenIn htaken hgenuine hmints)
  | transfer t => exact h.nonce_ne htaken (hbound _)

end

end Hodlchain

namespace Hodlchain.Sequencer

open Bytes LedgerState

/-! ### The ledger of a run -/

section

variable (prim : Primitives)

/-- A call works on the ledger `s`. -/
def Stage.Follows (s : LedgerState) : Stage → Prop
  | .built job prior state txs =>
      prior = s ∧ txs = body prim job.env.view s job.mints job.transfers ∧
        state = s.applyAll prim txs
  | .ready job state block _ =>
      block.txs = body prim job.env.view s job.mints job.transfers ∧
        state = s.applyAll prim block.txs ∧ block.header.stateRoot = state.stateRoot prim
  | _ => True

/-- A request that has passed on the ledger did so after the bodies it has seen. -/
def Request.Passed (start : LedgerState) (bodies : List (List L2Tx)) : Request → Prop
  | .pushing tx seen =>
      seen ≤ bodies.length ∧ (start.applyAll prim (bodies.take seen).flatten).Fresh tx
  | _ => True

/-- What a request is about. -/
def Request.tx? : Request → Option L2Tx
  | .checking tx => some tx
  | .pushing tx _ => some tx
  | .signing o => some o.tx
  | .accepted o _ _ => some o.tx
  | .refused _ => none

/-- The ledger in memory is what the bodies swapped in make of the first. -/
structure Ledgers (start : LedgerState) (d : Daemon) : Prop where
  allOk : start.AllOk prim d.bodies.flatten
  state : d.app.shared.state = start.applyAll prim d.bodies.flatten
  genuine : ∀ tx ∈ d.bodies.flatten, tx.Genuine
  follows : d.build.Follows prim d.app.shared.state
  passed : ∀ r ∈ d.requests, r.Passed prim start d.bodies
  requested : ∀ r ∈ d.requests, ∀ tx, r.tx? = some tx → tx.Genuine

end

section

variable {prim : Primitives} {d d' : Daemon} {e : Event} {start : LedgerState}

theorem genuine_of_mem_body {view : Nat → L1View} {s : LedgerState} {mints : List MintEntry}
    {transfers : List SignedTransfer} {tx : L2Tx} (h : tx ∈ body prim view s mints transfers) :
    tx.Genuine := by
  rcases List.mem_append.mp ((accepted_sublist _ _).mem h) with hmint | htransfer
  · obtain ⟨k, entry, -, hfresh⟩ := mem_freshMints.mp hmint
    unfold freshMint at hfresh
    split at hfresh
    · cases hfresh
    · next credit hverify =>
        rw [← Except.ok.inj hfresh]
        exact genuine_of_verify hverify
  · obtain ⟨t, -, rfl⟩ := List.mem_map.mp htransfer
    trivial

theorem Request.Passed.append {bodies : List (List L2Tx)} {r : Request}
    (h : r.Passed prim start bodies) (more : List (List L2Tx)) :
    r.Passed prim start (bodies ++ more) := by
  cases r with
  | pushing tx seen =>
      obtain ⟨hseen, hfresh⟩ := h
      refine ⟨?_, ?_⟩
      · rw [List.length_append]
        omega
      · rw [List.take_append_of_le_length hseen]
        exact hfresh
  | _ => trivial

/-- A request replaced by one that is in order. -/
theorem forall_mem_set {P : Request → Prop} {requests : List Request} {i : Nat} {r : Request}
    (h : ∀ r ∈ requests, P r) (hr : P r) : ∀ r' ∈ requests.set i r, P r' := by
  intro r' hr'
  rcases List.mem_or_eq_of_mem_set hr' with hold | rfl
  · exact h r' hold
  · exact hr

theorem Ledgers.step (h : Ledgers prim start d) (hmoves : Moves prim d e d') :
    Ledgers prim start d' := by
  have hat : ∀ {i : Nat} {r : Request}, d.requests[i]? = some r → r ∈ d.requests :=
    fun hi => List.mem_of_getElem? hi
  cases hmoves with
  | none => exact h
  | arrive r hr hchecking hpushing =>
      refine { h with passed := fun r' hr' => ?_, requested := fun r' hr' tx htx => ?_ }
      · rcases List.mem_append.mp hr' with hold | hnew
        · exact h.passed r' hold
        · rw [List.mem_singleton.mp hnew]
          cases r with
          | pushing tx seen => exact absurd rfl (hpushing tx seen)
          | _ => trivial
      · rcases List.mem_append.mp hr' with hold | hnew
        · exact h.requested r' hold tx htx
        · rw [List.mem_singleton.mp hnew] at htx
          cases r with
          | checking tx' => exact hchecking tx (by rw [← Option.some.inj htx])
          | pushing tx seen => exact absurd rfl (hpushing tx seen)
          | signing o => cases hr
          | accepted o softConf heads => cases hr
          | refused text => cases htx
  | refuse text hi hr =>
      exact { h with
        passed := forall_mem_set h.passed trivial
        requested := forall_mem_set h.requested nofun }
  | check hi hfresh =>
      refine { h with
        passed := forall_mem_set h.passed ⟨le_refl _, ?_⟩
        requested := forall_mem_set h.requested fun tx htx => h.requested _ (hat hi) tx htx }
      rw [List.take_length, ← h.state]
      exact hfresh
  | push hi hpush =>
      exact { h with
        passed := forall_mem_set h.passed trivial
        requested := forall_mem_set h.requested fun tx htx => h.requested _ (hat hi) tx htx }
  | sign hi =>
      exact { h with
        passed := forall_mem_set h.passed trivial
        requested := forall_mem_set h.requested fun tx htx => h.requested _ (hat hi) tx htx }
  | drain => exact { h with follows := trivial }
  | build => exact { h with follows := ⟨rfl, rfl, rfl⟩ }
  | readHead hbuild =>
      have hfollows := h.follows
      rw [hbuild] at hfollows
      exact { h with follows := ⟨hfollows.2.1, hfollows.2.2, rfl⟩ }
  | swap hbuild =>
      have hfollows := h.follows
      rw [hbuild] at hfollows
      obtain ⟨hbody, hstate, -⟩ := hfollows
      rename_i job state block witness
      have hflat : (d.bodies ++ [block.txs]).flatten = d.bodies.flatten ++ block.txs := by
        rw [List.flatten_append, List.flatten_singleton]
      refine ⟨?_, ?_, ?_, trivial, fun r hr => (h.passed r hr).append _, h.requested⟩
      · show start.AllOk prim (d.bodies ++ [block.txs]).flatten
        rw [hflat, allOk_append, ← h.state, hbody]
        exact ⟨h.allOk, allOk_accepted _ _⟩
      · show state = start.applyAll prim (d.bodies ++ [block.txs]).flatten
        rw [hflat, applyAll_append, ← h.state, hstate]
      · intro tx htx
        have htx' : tx ∈ d.bodies.flatten ++ block.txs := by
          rw [← hflat]
          exact htx
        rcases List.mem_append.mp htx' with hold | hnew
        · exact h.genuine tx hold
        · rw [hbody] at hnew
          exact genuine_of_mem_body hnew
  | write hbuild hrun =>
      obtain ⟨-, rfl⟩ := writeRows_ok hrun
      exact { h with follows := trivial }
  | fail hbuild hrun =>
      rcases writeRows_error hrun with rfl | ⟨-, rfl⟩
      · exact { h with follows := trivial }
      · exact { h with follows := trivial }
  | setHead => exact { h with follows := trivial }

end

/-! ### Where a pushed mint is -/

/-- A build has dropped what was pushed. -/
def Offer.Dropped (d : Daemon) (o : Offer) : Prop :=
  ∃ body, d.bodies[o.batch]? = some body ∧ ¬ o.tx.TakenIn body

/-- What is pushed waits in the mempool until the drain, and in the call that drained it until the
swap; no two mints of one nullifier wait together. -/
structure Waiting (d : Daemon) : Prop where
  batch : ∀ i o, d.offer? i = some o → o.batch ≤ d.drained
  holds : ∀ tx, d.app.shared.mempool.Holds tx ↔ d.Offered d.drained tx
  pending : ∀ n, n ∈ d.app.shared.mempool.pendingNullifiers ↔
    ∃ entry ∈ d.app.shared.mempool.mints, entry.event.nullifierHex = n
  job : ∀ job, d.build.job? = some job → ∀ tx, job.Holds tx ↔ d.Offered d.bodies.length tx
  distinct : ∀ i j o o' entry entry', d.offer? i = some o → d.offer? j = some o' →
    o.tx = .mint entry → o'.tx = .mint entry' → o.batch = o'.batch →
      entry.event.nullifierHex = entry'.event.nullifierHex → i = j

section

variable {prim : Primitives} {d d' : Daemon} {e : Event}

theorem Offer.Dropped.step {o : Offer} (h : o.Dropped d) (hmoves : Moves prim d e d') :
    o.Dropped d' := by
  obtain ⟨body, hbody, hdropped⟩ := h
  obtain ⟨more, hmore⟩ := hmoves.bodies
  refine ⟨body, ?_, hdropped⟩
  rw [hmore, List.getElem?_append_left (List.getElem?_eq_some_iff.mp hbody).1]
  exact hbody

theorem not_holds_empty (tx : L2Tx) : ¬ Mempool.empty.Holds tx := by
  cases tx with
  | mint entry => exact List.not_mem_nil
  | transfer t => exact List.not_mem_nil

theorem Waiting.congr (h : Waiting d) (hoffer : ∀ i, d'.offer? i = d.offer? i)
    (hmempool : d'.app.shared.mempool = d.app.shared.mempool)
    (hjob : d'.build.job? = d.build.job?) (hbodies : d'.bodies = d.bodies) : Waiting d' := by
  have hdrained : d'.drained = d.drained := by
    unfold Daemon.drained
    rw [hjob, hbodies]
  have hoffered : ∀ batch tx, d'.Offered batch tx ↔ d.Offered batch tx := by
    intro batch tx
    unfold Daemon.Offered
    simp only [hoffer]
  refine ⟨?_, ?_, ?_, ?_, ?_⟩
  · intro i o ho
    rw [hoffer] at ho
    rw [hdrained]
    exact h.batch i o ho
  · intro tx
    rw [hmempool, hdrained, hoffered]
    exact h.holds tx
  · rw [hmempool]
    exact h.pending
  · intro job hj tx
    rw [hjob] at hj
    rw [hbodies, hoffered]
    exact h.job job hj tx
  · intro i j o o' entry entry' ho ho'
    rw [hoffer] at ho ho'
    exact h.distinct i j o o' entry entry' ho ho'

/-- The push of a transaction. -/
theorem Waiting.push {i : Nat} {tx : L2Tx} {seen : Nat} {mempool : Mempool} (h : Waiting d)
    (hi : d.requests[i]? = some (.pushing tx seen))
    (hpush : pushToMempool d.app.shared.mempool tx = .ok mempool) :
    Waiting { d with
      app := d.app.setMempool mempool
      requests := d.requests.set i (.signing ⟨tx, d.drained, d.heads⟩) } := by
  obtain ⟨hholds, hpending, hfree⟩ := pushToMempool_ok hpush
  have hoffered := @Daemon.offered_push d i tx seen mempool hi
  -- the new offer, or an old one of another request
  have hcases : ∀ {j : Nat} {o : Offer},
      ((d.requests.set i (.signing ⟨tx, d.drained, d.heads⟩))[j]?.bind Request.offer?) = some o →
        (j = i ∧ o = ⟨tx, d.drained, d.heads⟩) ∨ (j ≠ i ∧ d.offer? j = some o) :=
    fun ho => Daemon.offer?_push hi ho
  -- a mint that waits already has another nullifier
  have hother : ∀ {j : Nat} {o : Offer} {entry entry' : MintEntry}, d.offer? j = some o →
      o.tx = .mint entry' → tx = .mint entry → d.drained = o.batch →
        entry.event.nullifierHex ≠ entry'.event.nullifierHex := by
    intro j o entry entry' ho htx' htx hbatch hsame
    have hwaits := (h.holds (.mint entry')).mpr ⟨j, o, ho, hbatch.symm, htx'⟩
    exact hfree entry htx ((h.pending _).mpr ⟨entry', hwaits, hsame.symm⟩)
  refine ⟨?_, ?_, ?_, ?_, ?_⟩
  · intro j o ho
    rcases hcases ho with ⟨-, rfl⟩ | ⟨-, hold⟩
    · exact le_refl _
    · exact h.batch j o hold
  · intro tx'
    refine (hholds tx').trans ((or_congr (h.holds tx') ?_).trans hoffered.symm)
    exact (and_iff_right rfl).symm
  · intro n
    refine (hpending n).trans ((or_congr_left (h.pending n)).trans ?_)
    constructor
    · rintro (⟨entry, hentry, hn⟩ | ⟨entry, htx, hn⟩)
      · exact ⟨entry, (hholds (.mint entry)).mpr (.inl hentry), hn⟩
      · exact ⟨entry, (hholds (.mint entry)).mpr (.inr htx), hn⟩
    · rintro ⟨entry, hentry, hn⟩
      rcases (hholds (.mint entry)).mp hentry with hold | htx
      · exact .inl ⟨entry, hold, hn⟩
      · exact .inr ⟨entry, htx, hn⟩
  · intro job hjob tx'
    have hunder : d.bodies.length ≠ d.drained := by
      have hsome : d.build.job? = some job := hjob
      unfold Daemon.drained
      rw [hsome]
      simp
    refine (h.job job hjob tx').trans (Iff.trans ?_ hoffered.symm)
    exact (or_iff_left fun hnew => hunder hnew.1).symm
  · intro j k o o' entry entry' ho ho' htx htx' hbatch hsame
    rcases hcases ho with ⟨rfl, rfl⟩ | ⟨-, hold⟩
    · rcases hcases ho' with ⟨rfl, -⟩ | ⟨-, hold'⟩
      · rfl
      · exact absurd hsame (hother hold' htx' htx hbatch)
    · rcases hcases ho' with ⟨rfl, rfl⟩ | ⟨-, hold'⟩
      · exact absurd hsame.symm (hother hold htx htx' hbatch.symm)
      · exact h.distinct j k o o' entry entry' hold hold' htx htx' hbatch hsame

theorem Waiting.step (h : Waiting d) (hmoves : Moves prim d e d') : Waiting d' := by
  rcases hmoves.offer? with hoffer | ⟨i, now, tx, seen, mempool, -, hi, hpush, rfl, -⟩
  · have hoffered : ∀ batch tx, d'.Offered batch tx ↔ d.Offered batch tx := by
      intro batch tx
      unfold Daemon.Offered
      simp only [hoffer]
    cases hmoves with
    | none => exact h
    | arrive => exact h.congr hoffer rfl rfl rfl
    | refuse => exact h.congr hoffer rfl rfl rfl
    | check => exact h.congr hoffer rfl rfl rfl
    | push hi hpush => exact h.push hi hpush
    | sign => exact h.congr hoffer rfl rfl rfl
    | @drain env tip hidle htip =>
        have hdrained : d.drained = d.bodies.length := by
          unfold Daemon.drained
          rw [hidle]
          rfl
        refine ⟨?_, ?_, ?_, ?_, ?_⟩
        · intro i o ho
          rw [hoffer] at ho
          have hle := h.batch i o ho
          rw [hdrained] at hle
          exact Nat.le_succ_of_le hle
        · intro tx
          refine iff_of_false (not_holds_empty tx) ?_
          rintro ⟨i, o, ho, hbatch, -⟩
          rw [hoffer] at ho
          have hle := h.batch i o ho
          rw [hdrained, hbatch] at hle
          exact absurd hle (Nat.not_succ_le_self _)
        · intro n
          refine iff_of_false Std.ExtTreeSet.not_mem_empty ?_
          rintro ⟨entry, hentry, -⟩
          cases hentry
        · intro job hjob tx
          rw [← Option.some.inj hjob]
          have hsame : Job.Holds ⟨env, tip, d.app.shared.mempool.mints,
              d.app.shared.mempool.transfers⟩ tx ↔ d.app.shared.mempool.Holds tx := by
            cases tx with
            | mint entry => exact Iff.rfl
            | transfer t => exact Iff.rfl
          refine hsame.trans ((h.holds tx).trans ?_)
          rw [hdrained]
          exact (hoffered _ _).symm
        · intro i j o o' entry entry' ho ho'
          rw [hoffer] at ho ho'
          exact h.distinct i j o o' entry entry' ho ho'
    | build hbuild => exact h.congr hoffer rfl (by rw [hbuild]; rfl) rfl
    | readHead hbuild => exact h.congr hoffer rfl (by rw [hbuild]; rfl) rfl
    | @swap job state block witness hbuild =>
        have hdrained : d.drained = (d.bodies ++ [block.txs]).length := by
          unfold Daemon.drained
          rw [hbuild, List.length_append]
          rfl
        refine ⟨?_, ?_, h.pending, nofun, ?_⟩
        · intro i o ho
          rw [hoffer] at ho
          exact (h.batch i o ho).trans_eq hdrained
        · intro tx
          refine (h.holds tx).trans ?_
          rw [hdrained]
          exact (hoffered _ _).symm
        · intro i j o o' entry entry' ho ho'
          rw [hoffer] at ho ho'
          exact h.distinct i j o o' entry entry' ho ho'
    | write hbuild hrun =>
        obtain ⟨-, rfl⟩ := writeRows_ok hrun
        exact h.congr hoffer rfl (by rw [hbuild]; rfl) rfl
    | fail hbuild hrun =>
        rcases writeRows_error hrun with rfl | ⟨-, rfl⟩
        · exact h.congr hoffer rfl (by rw [hbuild]; rfl) rfl
        · exact h.congr hoffer rfl (by rw [hbuild]; rfl) rfl
    | setHead hbuild => exact h.congr hoffer rfl (by rw [hbuild]; rfl) rfl
  · exact h.push hi hpush

end

/-! ### Runs -/

section

variable {prim : Primitives} {allowed : Event → Daemon → Prop} {d : Daemon} {app : AppState}

theorem ledgers_of_reachable (h : (daemons prim).Reachable d) :
    ∃ start, Ledgers prim start d := by
  have hboot : ∀ app, Ledgers prim app.shared.state (.boot app) :=
    fun app => ⟨trivial, rfl, nofun, trivial, nofun, nofun⟩
  refine daemons_invariant (I := fun d => ∃ start, Ledgers prim start d) ?_ ?_ ?_ h
  · exact fun app _ => ⟨_, hboot app⟩
  · exact fun _ app _ _ => ⟨_, hboot app⟩
  · rintro d e d' ⟨start, hledgers⟩ hmoves
    exact ⟨start, hledgers.step hmoves⟩

theorem waiting_boot (hmempool : app.shared.mempool = .empty) : Waiting (.boot app) := by
  refine ⟨nofun, fun tx => ?_, fun n => ?_, nofun, nofun⟩
  · refine iff_of_false ?_ ?_
    · show ¬ app.shared.mempool.Holds tx
      rw [hmempool]
      exact not_holds_empty tx
    · rintro ⟨i, o, ho, -⟩
      cases ho
  · refine iff_of_false ?_ ?_
    · show n ∉ app.shared.mempool.pendingNullifiers
      rw [hmempool]
      exact Std.ExtTreeSet.not_mem_empty
    · rintro ⟨entry, hentry, -⟩
      have hin : entry ∈ app.shared.mempool.mints := hentry
      rw [hmempool] at hin
      cases hin

theorem waiting_of_reachable (h : (daemons prim).Reachable d) : Waiting d := by
  refine daemons_invariant (I := Waiting) ?_ ?_ (fun d e d' => Waiting.step) h
  · rintro app ⟨identity, l1BlockHash, l1GenesisHeight, now, anchor0, hstart⟩
    obtain ⟨-, -, -, -, hmempool⟩ := coldStart_latest hstart
    exact waiting_boot hmempool
  · intro d app _ hrestart
    obtain ⟨state, head, -, rfl⟩ := restart_eq_some_iff.mp hrestart
    exact waiting_boot rfl

end

end Hodlchain.Sequencer
