/-
Two receipts for one transaction.

A receipt promises the height after the head it was signed under.  Two receipts for the
same hash therefore name one height when both were signed under one head.  What the
ledger has taken it refuses from then on; but a transaction that was dropped, or that
still waits, or that was taken after a request had looked, can be pushed again under a
later head, and a receipt can be signed under a later head than the one of its push.
-/
import Hodlchain.Sequencer.Honest
import Hodlchain.Sequencer.Interleaving
import Hodlchain.Sequencer.Nonce

namespace Hodlchain.Sequencer

open LedgerState

section

variable (prim : Primitives)

/-- No two receipts have one hash and two heights. -/
def NoEquivocation (d : Daemon) : Prop :=
  ∀ i j softConf softConf', d.Receipt i softConf → d.Receipt j softConf' →
    softConf.txHash = softConf'.txHash → softConf.targetL2Height = softConf'.targetL2Height

/-- A request that looked at the ledger when `seen` bodies were in it finds what was pushed: it was
taken by one of them, and neither SHA-256 nor a nonce that has come round hides it. -/
structure Offer.Found (d : Daemon) (tx : L2Tx) (seen : Nat) (o : Offer) : Prop where
  swapped : o.batch < seen
  taken : ¬ o.Dropped d
  collision : Set.InjOn prim.sha256 {x | x ∈ o.tx.preimages prim ∨ x ∈ tx.preimages prim}
  wrap : ∀ a, (d.bodies.flatten.countP fun tx => tx.sender? = some a) < 2 ^ 64

/-- A transaction is pushed again under the head it was pushed under, unless the ledger has it; and
its receipts are signed under that head. -/
def UnderOneHead : Event → Daemon → Prop
  | .request i _, d =>
      (∀ tx seen mempool, d.requests[i]? = some (.pushing tx seen) →
        pushToMempool d.app.shared.mempool tx = .ok mempool →
          ∀ j o, d.offer? j = some o → o.tx.hash prim = tx.hash prim →
            o.heads = d.heads ∨ o.Found prim d tx seen) ∧
      ∀ o, d.requests[i]? = some (.signing o) → ∀ j o', j ≠ i → d.offer? j = some o' →
        o'.tx.hash prim = o.tx.hash prim → o.heads = d.heads
  | _, _ => True

end

section

variable {prim : Primitives} {d d' : Daemon} {e : Event} {start : LedgerState}

/-- Transactions of one hash are in the same bodies. -/
theorem takenIn_of_hash {a b : L2Tx} {txs : List L2Tx}
    (hcollision : Set.InjOn prim.sha256 {x | x ∈ a.preimages prim ∨ x ∈ b.preimages prim})
    (hhash : a.hash prim = b.hash prim) (h : a.TakenIn txs) : b.TakenIn txs := by
  have herase := L2Tx.eraseClaimedHeight_of_hash prim hcollision hhash
  cases a with
  | mint entry =>
      cases b with
      | mint entry' =>
          obtain ⟨fresh, hmem, hout⟩ := h
          refine ⟨fresh, hmem, hout.trans ?_⟩
          simp only [L2Tx.eraseClaimedHeight, L2Tx.mint.injEq, MintEntry.mk.injEq] at herase
          have hsame := congrArg MintProofEnvelope.outpoint herase.2
          exact hsame
      | transfer t => cases herase
  | transfer t =>
      cases b with
      | mint entry => cases herase
      | transfer t' =>
          rw [← L2Tx.transfer.inj herase]
          exact h

/-- What a request would have found is not fresh, so the request was refused. -/
theorem Ledgers.not_found (h : Ledgers prim start d) {i : Nat} {tx : L2Tx} {seen : Nat} {o : Offer}
    (hi : d.requests[i]? = some (.pushing tx seen))
    (hhash : o.tx.hash prim = tx.hash prim) : ¬ o.Found prim d tx seen := by
  intro hfound
  obtain ⟨hseen, hfresh⟩ := h.passed _ (List.mem_of_getElem? hi)
  have hgenuine := h.requested _ (List.mem_of_getElem? hi) tx rfl
  have hlt : o.batch < d.bodies.length := Nat.lt_of_lt_of_le hfound.swapped hseen
  have hbody : d.bodies[o.batch]? = some d.bodies[o.batch] := List.getElem?_eq_getElem hlt
  have htaken : o.tx.TakenIn d.bodies[o.batch] := by
    by_contra hno
    exact hfound.taken ⟨_, hbody, hno⟩
  have hprefix :
      (d.bodies.take seen).flatten ++ (d.bodies.drop seen).flatten = d.bodies.flatten := by
    rw [← List.flatten_append, List.take_append_drop]
  have hallOk := h.allOk
  rw [← hprefix, allOk_append] at hallOk
  refine hallOk.1.not_fresh ?_ hgenuine (fun tx' htx' => ?_) (fun a => ?_) hfresh
  · refine takenIn_of_hash hfound.collision hhash (htaken.mono fun tx' htx' => ?_)
    refine List.mem_flatten.mpr ⟨d.bodies[o.batch], ?_, htx'⟩
    rw [List.mem_take_iff_getElem]
    exact ⟨o.batch, Nat.lt_min.mpr ⟨hfound.swapped, hlt⟩, rfl⟩
  · refine h.genuine tx' ?_
    rw [← hprefix]
    exact List.mem_append_left _ htx'
  · refine Nat.lt_of_le_of_lt ?_ (hfound.wrap a)
    rw [← hprefix, List.countP_append]
    exact Nat.le_add_right _ _

/-- What is pushed twice is pushed, and signed, under one head. -/
structure OneHead (prim : Primitives) (d : Daemon) : Prop where
  /-- The copies were pushed under one head. -/
  pushed : ∀ i j o o', d.offer? i = some o → d.offer? j = some o' →
    o.tx.hash prim = o'.tx.hash prim → o.heads = o'.heads
  pushedUnder : ∀ i o, d.offer? i = some o → o.heads ≤ d.heads
  txHash : ∀ i o softConf heads, d.receipt? i = some (o, softConf, heads) →
    softConf.txHash = o.tx.hash prim
  signedUnder : ∀ i o softConf heads, d.receipt? i = some (o, softConf, heads) →
    o.heads ≤ heads ∧ heads ≤ d.heads
  /-- A receipt names the height after the head it was signed under. -/
  target : ∀ i o softConf, d.receipt? i = some (o, softConf, d.heads) →
    softConf.targetL2Height = d.app.shared.head.height + 1
  targets : ∀ i j o o' softConf softConf' heads, d.receipt? i = some (o, softConf, heads) →
    d.receipt? j = some (o', softConf', heads) → softConf.targetL2Height = softConf'.targetL2Height
  /-- The receipt of a copy was signed under the head of its push. -/
  signed : ∀ i j o o' softConf heads, j ≠ i → d.receipt? i = some (o, softConf, heads) →
    d.offer? j = some o' → o'.tx.hash prim = o.tx.hash prim → heads = o.heads

/-- Nothing signed and nothing pushed. -/
theorem OneHead.congr (h : OneHead prim d) (hoffer : ∀ i, d'.offer? i = d.offer? i)
    (hreceipt : ∀ i, d'.receipt? i = d.receipt? i) (hheads : d.heads ≤ d'.heads)
    (hhead : d'.heads = d.heads → d'.app.shared.head = d.app.shared.head) : OneHead prim d' := by
  refine ⟨?_, ?_, ?_, ?_, ?_, ?_, ?_⟩
  · intro i j o o' ho ho'
    rw [hoffer] at ho ho'
    exact h.pushed i j o o' ho ho'
  · intro i o ho
    rw [hoffer] at ho
    exact (h.pushedUnder i o ho).trans hheads
  · intro i o softConf heads hi
    rw [hreceipt] at hi
    exact h.txHash i o softConf heads hi
  · intro i o softConf heads hi
    rw [hreceipt] at hi
    exact (h.signedUnder i o softConf heads hi).imp_right fun hle => hle.trans hheads
  · intro i o softConf hi
    rw [hreceipt] at hi
    have hsame := Nat.le_antisymm (h.signedUnder i o softConf _ hi).2 hheads
    rw [hsame] at hi
    rw [hhead hsame]
    exact h.target i o softConf hi
  · intro i j o o' softConf softConf' heads hi hj
    rw [hreceipt] at hi hj
    exact h.targets i j o o' softConf softConf' heads hi hj
  · intro i j o o' softConf heads hij hi ho'
    rw [hreceipt] at hi
    rw [hoffer] at ho'
    exact h.signed i j o o' softConf heads hij hi ho'

/-- A push under the head of its copies. -/
theorem OneHead.push (h : OneHead prim d) {i : Nat} {o : Offer}
    (hoffer : ∀ j, d'.offer? j = if i = j then some o else d.offer? j)
    (hreceipt : ∀ j, d'.receipt? j = d.receipt? j) (hheads : d'.heads = d.heads)
    (hhead : d'.app.shared.head = d.app.shared.head) (ho : o.heads = d.heads)
    (hcopies : ∀ j o', d.offer? j = some o' → o'.tx.hash prim = o.tx.hash prim →
      o'.heads = d.heads) : OneHead prim d' := by
  -- the new offer, or an old one
  have hcases : ∀ {j : Nat} {o' : Offer}, d'.offer? j = some o' →
      o' = o ∨ d.offer? j = some o' := by
    intro j o' ho'
    rw [hoffer] at ho'
    by_cases hij : i = j
    · rw [if_pos hij] at ho'
      exact .inl (Option.some.inj ho').symm
    · rw [if_neg hij] at ho'
      exact .inr ho'
  refine ⟨?_, ?_, ?_, ?_, ?_, ?_, ?_⟩
  · intro j k o₁ o₂ h₁ h₂ hhash
    rcases hcases h₁ with rfl | hold₁
    · rcases hcases h₂ with rfl | hold₂
      · rfl
      · exact ho.trans (hcopies k o₂ hold₂ hhash.symm).symm
    · rcases hcases h₂ with rfl | hold₂
      · exact (hcopies j o₁ hold₁ hhash).trans ho.symm
      · exact h.pushed j k o₁ o₂ hold₁ hold₂ hhash
  · intro j o' ho'
    rw [hheads]
    rcases hcases ho' with rfl | hold
    · exact ho.le
    · exact h.pushedUnder j o' hold
  · intro j o' softConf heads hj
    rw [hreceipt] at hj
    exact h.txHash j o' softConf heads hj
  · intro j o' softConf heads hj
    rw [hreceipt] at hj
    rw [hheads]
    exact h.signedUnder j o' softConf heads hj
  · intro j o' softConf hj
    rw [hreceipt, hheads] at hj
    rw [hhead]
    exact h.target j o' softConf hj
  · intro j k o₁ o₂ softConf softConf' heads hj hk
    rw [hreceipt] at hj hk
    exact h.targets j k o₁ o₂ softConf softConf' heads hj hk
  · intro j k o₁ o₂ softConf heads hkj hj hk hhash
    rw [hreceipt] at hj
    have h₁ := Daemon.offer?_of_receipt? hj
    rcases hcases hk with rfl | hold
    · -- a receipt for a copy of what is pushed now
      have hunder := h.signedUnder j o₁ softConf heads hj
      have hsame := hcopies j o₁ h₁ hhash.symm
      exact Nat.le_antisymm (hsame ▸ hunder.2) hunder.1
    · exact h.signed j k o₁ o₂ softConf heads hkj hj hold hhash

/-- A receipt signed under the head of its push, if there are copies. -/
theorem OneHead.sign (h : OneHead prim d) {i : Nat} {now : UInt64} {o : Offer}
    (hi : d.requests[i]? = some (.signing o)) (hoffer : ∀ j, d'.offer? j = d.offer? j)
    (hreceipt : ∀ j, d'.receipt? j = if i = j then
      some (o, signSoftConf prim d.app.shared (o.tx.hash prim) now, d.heads) else d.receipt? j)
    (happ : d'.app = d.app) (hheads : d'.heads = d.heads)
    (hcopies : ∀ j o', j ≠ i → d.offer? j = some o' → o'.tx.hash prim = o.tx.hash prim →
      o.heads = d.heads) : OneHead prim d' := by
  have ho : d.offer? i = some o := Daemon.offer?_of_request hi rfl
  -- the new receipt, or an old one
  have hcases : ∀ {j : Nat} {o' : Offer} {softConf : SoftConf} {heads : Nat},
      d'.receipt? j = some (o', softConf, heads) →
        (j = i ∧ o' = o ∧ softConf = signSoftConf prim d.app.shared (o.tx.hash prim) now ∧
          heads = d.heads) ∨ d.receipt? j = some (o', softConf, heads) := by
    intro j o' softConf heads hj
    rw [hreceipt] at hj
    by_cases hij : i = j
    · rw [if_pos hij] at hj
      obtain ⟨rfl, rfl, rfl⟩ : o = o' ∧ _ = softConf ∧ d.heads = heads := by
        simpa only [Option.some.injEq, Prod.mk.injEq] using hj
      exact .inl ⟨hij.symm, rfl, rfl, rfl⟩
    · rw [if_neg hij] at hj
      exact .inr hj
  refine ⟨?_, ?_, ?_, ?_, ?_, ?_, ?_⟩
  · intro j k o₁ o₂ h₁ h₂
    rw [hoffer] at h₁ h₂
    exact h.pushed j k o₁ o₂ h₁ h₂
  · intro j o' ho'
    rw [hoffer] at ho'
    rw [hheads]
    exact h.pushedUnder j o' ho'
  · intro j o' softConf heads hj
    rcases hcases hj with ⟨-, rfl, rfl, -⟩ | hold
    · rfl
    · exact h.txHash j o' softConf heads hold
  · intro j o' softConf heads hj
    rw [hheads]
    rcases hcases hj with ⟨-, rfl, -, rfl⟩ | hold
    · exact ⟨h.pushedUnder i o' ho, le_refl _⟩
    · exact h.signedUnder j o' softConf heads hold
  · intro j o' softConf hj
    rw [hheads] at hj
    rw [happ]
    rcases hcases hj with ⟨-, -, rfl, -⟩ | hold
    · rfl
    · exact h.target j o' softConf hold
  · intro j k o₁ o₂ softConf softConf' heads hj hk
    rcases hcases hj with ⟨-, -, rfl, rfl⟩ | holdj
    · rcases hcases hk with ⟨-, -, rfl, -⟩ | holdk
      · rfl
      · exact (h.target k o₂ softConf' holdk).symm
    · rcases hcases hk with ⟨-, -, rfl, rfl⟩ | holdk
      · exact h.target j o₁ softConf holdj
      · exact h.targets j k o₁ o₂ softConf softConf' heads holdj holdk
  · intro j k o₁ o₂ softConf heads hkj hj hk hhash
    rw [hoffer] at hk
    rcases hcases hj with ⟨rfl, rfl, -, rfl⟩ | hold
    · exact (hcopies k o₂ hkj hk hhash).symm
    · exact h.signed j k o₁ o₂ softConf heads hkj hold hk hhash

theorem OneHead.step (h : OneHead prim d) (hledgers : Ledgers prim start d)
    (hallowed : UnderOneHead prim e d) (hmoves : Moves prim d e d') : OneHead prim d' := by
  rcases hmoves.receipt? with hreceipt | ⟨i, now, o, rfl, hi, happ, hheads, hreceipt⟩
  · rcases hmoves.offer? with hoffer | ⟨i, now, tx, seen, mempool, rfl, hi, hpush, rfl, hoffer⟩
    · rcases hmoves.heads with ⟨hheads, hhead⟩ | ⟨hheads, -⟩
      · exact h.congr hoffer hreceipt hheads.ge fun _ => hhead
      · refine h.congr hoffer hreceipt ?_ fun hsame => ?_
        · rw [hheads]
          exact Nat.le_succ _
        · rw [hheads] at hsame
          exact absurd hsame (Nat.succ_ne_self _)
    · refine h.push hoffer hreceipt rfl rfl rfl fun j o' ho' hhash => ?_
      exact (hallowed.1 tx seen mempool hi hpush j o' ho' hhash).resolve_right
        (hledgers.not_found hi hhash)
  · have hoffer : ∀ j, d'.offer? j = d.offer? j := by
      refine hmoves.offer?.resolve_right ?_
      rintro ⟨i', now', tx, seen, mempool, he, hi', -⟩
      obtain ⟨rfl, -⟩ := Event.request.inj he
      rw [hi] at hi'
      cases hi'
    exact h.sign hi hoffer hreceipt happ hheads (hallowed.2 o hi)

/-- **No equivocation, under one head.**  In a run in which a transaction is pushed again only under
the head of its first push, or when the ledger already has it, and the receipts of its copies are
signed under that head, no two receipts have one hash and two heights. -/
theorem no_equivocation (h : (daemonSystem prim (UnderOneHead prim)).Reachable d) :
    NoEquivocation d := by
  have hone : OneHead prim d := by
    refine h.invariant (I := OneHead prim) ?_ ?_
    · rintro d ⟨app, -, rfl⟩
      exact ⟨nofun, nofun, nofun, nofun, nofun, nofun, nofun⟩
    · rintro d d' hrun hone ⟨e, hallowed, rfl⟩
      obtain ⟨start, hledgers⟩ := ledgers_of_reachable (daemons_of_reachable hrun)
      exact hone.step hledgers hallowed (d.moves e)
  intro i j softConf softConf' hi hj hhash
  obtain ⟨o, heads, hi⟩ := hi
  obtain ⟨o', heads', hj⟩ := hj
  rw [← Daemon.receipt?_eq_some_iff] at hi hj
  rw [hone.txHash i o softConf heads hi, hone.txHash j o' softConf' heads' hj] at hhash
  by_cases hij : j = i
  · rw [hij, hi] at hj
    obtain ⟨-, rfl, -⟩ : o = o' ∧ softConf = softConf' ∧ heads = heads' := by
      simpa only [Option.some.injEq, Prod.mk.injEq] using hj
    rfl
  · have hoffer := Daemon.offer?_of_receipt? hi
    have hoffer' := Daemon.offer?_of_receipt? hj
    have hheads : heads = heads' := calc
      heads = o.heads := hone.signed i j o o' softConf heads hij hi hoffer' hhash.symm
      _ = o'.heads := hone.pushed i j o o' hoffer hoffer' hhash
      _ = heads' := (hone.signed j i o' o softConf' heads' (Ne.symm hij) hj hoffer hhash).symm
    rw [← hheads] at hj
    exact hone.targets i j o o' softConf softConf' heads hi hj

end

/-! ### A transfer, submitted twice -/

/-- Before the first head, everything is pushed and signed under one head. -/
theorem reachable_underOneHead {prim : Primitives} {d : Daemon} {es : List Event}
    (h : (daemonSystem prim (UnderOneHead prim)).Reachable d)
    (hunder : ∀ i o, d.offer? i = some o → o.heads = d.heads) (hes : ∀ e ∈ es, e ≠ .build) :
    (daemonSystem prim (UnderOneHead prim)).Reachable (d.run prim es) := by
  induction es generalizing d with
  | nil => exact h
  | cons e es ih =>
      have hallowed : UnderOneHead prim e d := by
        cases e with
        | request i now =>
            refine ⟨fun tx seen mempool _ _ j o ho _ => .inl (hunder j o ho), ?_⟩
            intro o hi j o' _ _ _
            exact hunder i o (Daemon.offer?_of_request hi rfl)
        | _ => trivial
      have hmoves := @Daemon.moves prim d e
      have hheads : (d.next prim e).heads = d.heads := by
        have hbuild := hes e List.mem_cons_self
        generalize d.next prim e = d' at hmoves
        cases hmoves with
        | setHead => exact absurd rfl hbuild
        | _ => rfl
      refine ih (h.step ⟨e, hallowed, rfl⟩) (fun i o ho => ?_) fun e' he' => ?_
      · rw [hheads]
        rcases hmoves.offer? with hoffer | ⟨j, now, tx, seen, mempool, -, -, -, -, hoffer⟩
        · rw [hoffer] at ho
          exact hunder i o ho
        · rw [hoffer] at ho
          by_cases hji : j = i
          · rw [if_pos hji] at ho
            rw [← Option.some.inj ho]
          · rw [if_neg hji] at ho
            exact hunder i o ho
      · exact hes e' (List.mem_cons_of_mem _ he')

/-- `smallTransfer 0` is submitted, and served at once. -/
def submitSmallTransfer (i : Nat) : List Event :=
  [.submitTransfer (smallTransfer 0), .request i 0, .request i 0, .request i 0]

/-- The daemon after `submitSmallTransfer`, when it was accepted. -/
def Daemon.withSmallTransfer (d : Daemon) (softConf : SoftConf) : Daemon :=
  { d with
    app := d.app.push (smallTransfer 0)
    requests := d.requests
      ++ [.accepted ⟨.transfer (smallTransfer 0), d.drained, d.heads⟩ softConf d.heads] }

theorem run_submitSmallTransfer {d : Daemon}
    (hok : Admissible Primitives.sample d.app.shared.state (smallTransfer 0)) :
    ∃ softConf, d.run Primitives.sample (submitSmallTransfer d.requests.length)
      = d.withSmallTransfer softConf ∧
        softConf.txHash = (L2Tx.transfer (smallTransfer 0)).hash Primitives.sample ∧
        softConf.targetL2Height = d.app.shared.head.height + 1 :=
  ⟨_, Daemon.run_submitTransfer hok 0, rfl, rfl⟩

/-- A new ledger takes it for submission, though its sender has nothing. -/
theorem smallTransfer_admissible (fee : Option L2Address) :
    Admissible Primitives.sample (LedgerState.start fee) (smallTransfer 0) :=
  ⟨by decide +kernel, rfl⟩

theorem balanceOf_start (fee : Option L2Address) (a : L2Address) :
    (LedgerState.start fee).balanceOf a = 0 := by
  simp [LedgerState.start, LedgerState.new, balanceOf]

/-- And no block takes it. -/
theorem smallTransfer_dropped (fee : Option L2Address) :
    body Primitives.sample steadyEnv.view (LedgerState.start fee) [] [smallTransfer 0] = [] := by
  have hrefused : ¬ (LedgerState.start fee).TxOk Primitives.sample
      (.transfer (smallTransfer 0)) := by
    intro hok
    have hcovered := TransferOk.covered hok
    rw [balanceOf_start] at hcovered
    exact absurd hcovered (by decide)
  have hbody : body Primitives.sample steadyEnv.view (LedgerState.start fee) [] [smallTransfer 0]
      = (LedgerState.start fee).accepted Primitives.sample [.transfer (smallTransfer 0)] := rfl
  rw [hbody, accepted_cons_rejected hrefused]
  rfl

/-- A transfer is accepted twice under one head, with one height. -/
theorem no_equivocation_smallTransfer : ∃ d softConf softConf',
    d.Receipt 0 softConf ∧ d.Receipt 1 softConf' ∧ softConf.txHash = softConf'.txHash ∧
      NoEquivocation d := by
  obtain ⟨app, hstarted, hstate, -⟩ := exists_started Primitives.sample sampleIdentity
  have hok : Admissible Primitives.sample app.shared.state (smallTransfer 0) := by
    rw [hstate]
    exact smallTransfer_admissible _
  obtain ⟨softConf, hfirst, hhash, -⟩ := @run_submitSmallTransfer (.boot app) hok
  obtain ⟨softConf', hsecond, hhash', -⟩ :=
    @run_submitSmallTransfer ((Daemon.boot app).withSmallTransfer softConf) hok
  have hreach := @reachable_underOneHead Primitives.sample (.boot app)
    (submitSmallTransfer 0 ++ submitSmallTransfer 1)
    (.init ⟨app, .init ⟨app, hstarted, rfl⟩, rfl⟩) nofun (by simp [submitSmallTransfer])
  have hend : (Daemon.boot app).run Primitives.sample (submitSmallTransfer 0
    ++ submitSmallTransfer 1)
      = ((Daemon.boot app).withSmallTransfer softConf).withSmallTransfer softConf' := by
    rw [Daemon.run_append, show (Daemon.boot app).run _ (submitSmallTransfer 0) = _ from hfirst]
    exact hsecond
  rw [hend] at hreach
  exact ⟨_, softConf, softConf', ⟨_, _, rfl⟩, ⟨_, _, rfl⟩, hhash.trans hhash'.symm,
    no_equivocation hreach⟩

/-- A transfer is accepted for block 1 and dropped there, its sender having nothing; submitted
again, it is accepted for block 2. -/
theorem equivocation : ∃ d softConf softConf',
    (daemonSystem Primitives.sample fun _ _ => True).Reachable d ∧
      d.Receipt 0 softConf ∧ d.Receipt 1 softConf' ∧ softConf.txHash = softConf'.txHash ∧
      softConf.targetL2Height = 1 ∧ softConf'.targetL2Height = 2 ∧ ¬ NoEquivocation d := by
  obtain ⟨app, hstarted, hstate, hmempool, -⟩ := exists_started Primitives.sample sampleIdentity
  obtain ⟨tip, htip⟩ := steadyEnv_l1Tip
  obtain ⟨hheight, hwrite⟩ := @Started.writable _ _ steadyEnv hstarted rfl
  have hok : Admissible Primitives.sample app.shared.state (smallTransfer 0) := by
    rw [hstate]
    exact smallTransfer_admissible _
  obtain ⟨softConf, hfirst, hhash, htarget⟩ := @run_submitSmallTransfer (.boot app) hok
  -- block 1, which has nothing
  let d := (Daemon.boot app).withSmallTransfer softConf
  have hproduce := @produceBlock_done Primitives.sample steadyEnv d.app tip htip
    ⟨hwrite.call, hwrite.blocks, hwrite.stateSnapshots, hwrite.blockWitnesses⟩ rfl
  have hblock := Daemon.run_block (d := d) rfl htip hproduce
  have hsame : (steadyEnv.finished Primitives.sample tip d.app).shared.state =
      app.shared.state := by
    rw [finished_state]
    have hnext : steadyEnv.nextState Primitives.sample d.app = app.shared.state.applyAll
        Primitives.sample (body Primitives.sample steadyEnv.view app.shared.state
          app.shared.mempool.mints (app.shared.mempool.transfers ++ [smallTransfer 0])) := rfl
    rw [hnext, hmempool, hstate, show Mempool.empty.mints = [] from rfl,
      show Mempool.empty.transfers ++ [smallTransfer 0] = [smallTransfer 0] from rfl,
      smallTransfer_dropped]
    rfl
  -- the second submission
  let d' : Daemon := { d with
    app := steadyEnv.finished Primitives.sample tip d.app
    build := .idle
    bodies := d.bodies ++ [(steadyEnv.nextBlock Primitives.sample tip d.app).txs]
    heads := d.heads + 1
    settled := d.bodies.length + 1 }
  have hok' : Admissible Primitives.sample d'.app.shared.state (smallTransfer 0) := by
    show Admissible _ (steadyEnv.finished Primitives.sample tip d.app).shared.state _
    rw [hsame]
    exact hok
  obtain ⟨softConf', hsecond, hhash', htarget'⟩ := run_submitSmallTransfer hok'
  let es : List Event := submitSmallTransfer 0 ++ ([.produceBlock steadyEnv, .build, .build, .build,
    .build, .build] ++ submitSmallTransfer 1)
  have hend : (Daemon.boot app).run Primitives.sample es = d'.withSmallTransfer softConf' := by
    rw [Daemon.run_append, show (Daemon.boot app).run _ (submitSmallTransfer 0) = d from hfirst,
      Daemon.run_append, hblock]
    exact hsecond
  have hreach := @reachable_run Primitives.sample (fun _ _ => True) _ es
    (.init ⟨app, .init ⟨app, hstarted, rfl⟩, rfl⟩) fun _ _ _ _ => trivial
  rw [hend] at hreach
  have hone : softConf.targetL2Height = 1 := by
    rw [htarget, show (Daemon.boot app).app.shared.head.height = 0 from hheight]
    rfl
  have htwo : softConf'.targetL2Height = 2 := by
    rw [htarget', show d'.app.shared.head.height = app.shared.head.height + 1 from rfl, hheight]
    rfl
  refine ⟨_, softConf, softConf', hreach, ⟨_, _, rfl⟩, ⟨_, _, rfl⟩, hhash.trans hhash'.symm, hone,
    htwo, fun h => ?_⟩
  have hsameTarget := h 0 1 softConf softConf' ⟨_, _, rfl⟩ ⟨_, _, rfl⟩ (hhash.trans hhash'.symm)
  rw [hone, htwo] at hsameTarget
  exact absurd hsameTarget (by decide)

end Hodlchain.Sequencer
