/-
What an event can do.

`Moves` says it once, with every guard; what is shown of a run is shown of each move.
The offers and the receipts of a daemon are the parts of its requests that runs are
about: an event changes one of them at most.
-/
import Hodlchain.Lib.Record
import Hodlchain.Sequencer.Daemon
import Hodlchain.Sequencer.Mempool

namespace Hodlchain

open Bytes

/-- A mint declares the nullifier of the outpoint it claims. -/
def L2Tx.Genuine : L2Tx → Prop
  | .mint entry =>
      entry.event.nullifierHex = hexEncode (OutpointProof.outpointNullifier entry.witness.outpoint)
  | .transfer _ => True

/-- What `submit_mint` and `submit_transfer` ask of the ledger. -/
def LedgerState.Fresh (s : LedgerState) : L2Tx → Prop
  | .mint entry => entry.event.nullifierHex ∉ s.consumedNullifiers
  | .transfer t => t.body.nonce = s.nonceOf t.body.sender

section

variable {prim : Primitives} {l1 : L1View}

/-- A verified mint is genuine. -/
theorem genuine_of_verify {w : MintProofEnvelope} {dest : L2Address} {credit : MintCredit}
    (h : w.verify prim l1 dest = .ok credit) : (L2Tx.mint ⟨credit.event, w⟩).Genuine := by
  cases w with
  | v0Outpoint p =>
      obtain ⟨output, -, hverified⟩ := OutpointProof.verify_ok h
      unfold L2Tx.Genuine
      rw [hverified.event]
      rfl

end

end Hodlchain

namespace Hodlchain.Sequencer

open LedgerState

section

variable (prim : Primitives)

/-- What an event does to the daemon. -/
inductive Moves (d : Daemon) : Event → Daemon → Prop
  | none {e : Event} : Moves d e d
  | arrive {e : Event} (r : Request) (hr : r.offer? = .none)
      (hchecking : ∀ tx, r = .checking tx → tx.Genuine)
      (hpushing : ∀ tx seen, r ≠ .pushing tx seen) :
      Moves d e { d with requests := d.requests ++ [r] }
  | refuse {i : Nat} {now : UInt64} {r : Request} (text : String) (hi : d.requests[i]? = some r)
      (hr : r.offer? = .none) :
      Moves d (.request i now) { d with requests := d.requests.set i (.refused text) }
  | check {i : Nat} {now : UInt64} {tx : L2Tx} (hi : d.requests[i]? = some (.checking tx))
      (hfresh : d.app.shared.state.Fresh tx) :
      Moves d (.request i now) { d with requests := d.requests.set i (.pushing tx d.bodies.length) }
  | push {i : Nat} {now : UInt64} {tx : L2Tx} {seen : Nat} {mempool : Mempool}
      (hi : d.requests[i]? = some (.pushing tx seen))
      (hpush : pushToMempool d.app.shared.mempool tx = .ok mempool) :
      Moves d (.request i now)
        { d with
          app := d.app.setMempool mempool
          requests := d.requests.set i (.signing ⟨tx, d.drained, d.heads⟩) }
  | sign {i : Nat} {now : UInt64} {o : Offer} (hi : d.requests[i]? = some (.signing o)) :
      Moves d (.request i now)
        { d with
          requests := d.requests.set i
            (.accepted o (signSoftConf prim d.app.shared (o.tx.hash prim) now) d.heads) }
  | drain {env : BlockEnv} {tip : UInt32 × H256} (hidle : d.build = .idle)
      (htip : env.l1Tip = .ok tip) :
      Moves d (.produceBlock env)
        { d with
          app := d.app.setMempool .empty
          build := .drained ⟨env, tip, d.app.shared.mempool.mints, d.app.shared.mempool.transfers⟩ }
  | build {job : Job} (h : d.build = .drained job) :
      Moves d .build
        { d with
          build := .built job d.app.shared.state
            (d.app.shared.state.applyAll prim
              (body prim job.env.view d.app.shared.state job.mints job.transfers))
            (body prim job.env.view d.app.shared.state job.mints job.transfers) }
  | readHead {job : Job} {prior state : LedgerState} {txs : List L2Tx}
      (h : d.build = .built job prior state txs) :
      Moves d .build
        { d with
          build := .ready job state
            (buildBlock prim job.env.now job.tip.1 job.tip.2 d.app.shared state txs)
            (BlockWitness.build prim prior txs (d.app.shared.head.height + 1)) }
  | swap {job : Job} {state : LedgerState} {block : L2Block} {witness : BlockWitness}
      (h : d.build = .ready job state block witness) :
      Moves d .build
        { d with
          app := d.app.setState state
          build := .swapped job block witness
          bodies := d.bodies ++ [block.txs] }
  | write {job : Job} {block : L2Block} {witness : BlockWitness} {app : AppState}
      (h : d.build = .swapped job block witness)
      (hrun : writeRows job block witness d.app = (.ok (), app)) :
      Moves d .build { d with app := app, build := .written block }
  | fail {job : Job} {block : L2Block} {witness : BlockWitness} {halt : Halt} {app : AppState}
      (h : d.build = .swapped job block witness)
      (hrun : writeRows job block witness d.app = (.error halt, app)) :
      Moves d .build { d with app := app, build := .idle }
  | setHead {block : L2Block} (h : d.build = .written block) :
      Moves d .build
        { d with
          app := d.app.setHead (headOf prim block)
          build := .idle
          heads := d.heads + 1
          settled := d.bodies.length }

end

section

variable {prim : Primitives} {d d' : Daemon} {e : Event} {job : Job} {block : L2Block}
  {witness : BlockWitness} {app app' : AppState}

theorem refusedByState_eq_none_iff {state : LedgerState} {tx : L2Tx} :
    refusedByState state tx = none ↔ state.Fresh tx := by
  cases tx with
  | mint entry =>
      by_cases h : entry.event.nullifierHex ∈ state.consumedNullifiers
      · simp [refusedByState, Fresh, h]
      · simp [refusedByState, Fresh, h]
  | transfer t =>
      by_cases h : t.body.nonce = state.nonceOf t.body.sender
      · simp [refusedByState, Fresh, h]
      · simp [refusedByState, Fresh, h]

/-- The write of the rows, when the call is not cut short. -/
private theorem writeBlockAndState_run (faults : StoreCall → Option Fault) :
    (block.header.height ∉ app.store.blocks ∧ writeBlockAndState faults block witness app
      = (.ok (), ⟨app.shared, app.store.insertBlock block app.shared.state witness⟩)) ∨
    ∃ halt, writeBlockAndState faults block witness app = (.error halt, app) := by
  unfold writeBlockAndState
  have hcall := storeCall_run faults .writeBlockAndState app
  cases hfault : faults .writeBlockAndState with
  | some f =>
      rw [hfault] at hcall
      exact .inr ⟨_, Action.bind_run_error hcall⟩
  | none =>
      rw [hfault] at hcall
      rw [Action.bind_run_ok hcall, Action.get_bind_run]
      cases hwrite : app.store.writeBlockAndState block app.shared.state witness with
      | error e => exact .inr ⟨_, rfl⟩
      | ok store =>
          obtain ⟨⟨hfree, -⟩, rfl⟩ := Store.writeBlockAndState_ok_iff.mp hwrite
          exact .inl ⟨hfree, rfl⟩

private theorem setCursor_cases (faults : StoreCall → Option Fault) (cursor : UInt32) :
    setStore faults .setL1Cursor (·.setL1Cursor cursor) app
      = (.ok (), ⟨app.shared, app.store.setL1Cursor cursor⟩) ∨
    ∃ halt, setStore faults .setL1Cursor (·.setL1Cursor cursor) app = (.error halt, app) := by
  unfold setStore
  have hcall := storeCall_run faults .setL1Cursor app
  cases hfault : faults .setL1Cursor with
  | some f =>
      rw [hfault] at hcall
      exact .inr ⟨_, Action.bind_run_error hcall⟩
  | none =>
      rw [hfault] at hcall
      exact .inl (Action.bind_run_ok hcall)

/-- How a write ends: rows and cursor written, the rows only, or nothing. -/
theorem writeRows_cases (job : Job) (block : L2Block) (witness : BlockWitness) (app : AppState) :
    (block.header.height ∉ app.store.blocks ∧
      writeRows job block witness app = (.ok (), ⟨app.shared,
      (app.store.insertBlock block app.shared.state witness).setL1Cursor job.tip.1⟩)) ∨
    ∃ halt app', writeRows job block witness app = (.error halt, app') ∧ (app' = app ∨
      (block.header.height ∉ app.store.blocks ∧
        app' = ⟨app.shared, app.store.insertBlock block app.shared.state witness⟩)) := by
  unfold writeRows
  rcases @writeBlockAndState_run block witness app job.env.faults with
    ⟨hfree, hwrite⟩ | ⟨halt, hwrite⟩
  · rw [Action.bind_run_ok hwrite]
    rcases @setCursor_cases ⟨app.shared, app.store.insertBlock block app.shared.state witness⟩
      job.env.faults job.tip.1 with hcursor | ⟨halt, hcursor⟩
    · exact .inl ⟨hfree, hcursor⟩
    · exact .inr ⟨halt, _, hcursor, .inr ⟨hfree, rfl⟩⟩
  · exact .inr ⟨halt, app, Action.bind_run_error hwrite, .inl rfl⟩

theorem writeRows_ok (h : writeRows job block witness app = (.ok (), app')) :
    block.header.height ∉ app.store.blocks ∧ app' = ⟨app.shared,
      (app.store.insertBlock block app.shared.state witness).setL1Cursor job.tip.1⟩ := by
  rcases writeRows_cases job block witness app with ⟨hfree, hrun⟩ | ⟨halt, _, hrun, -⟩
  · rw [hrun] at h
    exact ⟨hfree, (Prod.mk.inj h).2.symm⟩
  · rw [hrun] at h
    cases h

theorem writeRows_error {halt : Halt} (h : writeRows job block witness app = (.error halt, app')) :
    app' = app ∨ (block.header.height ∉ app.store.blocks ∧
      app' = ⟨app.shared, app.store.insertBlock block app.shared.state witness⟩) := by
  rcases writeRows_cases job block witness app with ⟨-, hrun⟩ | ⟨halt, _, hrun, hleft⟩
  · rw [hrun] at h
    cases h
  · rw [hrun] at h
    rw [← (Prod.mk.inj h).2]
    exact hleft

private theorem serve_moves {i : Nat} {r : Request} (now : UInt64) (hi : d.requests[i]? = some r) :
    Moves prim d (.request i now) (d.serve prim i now r) := by
  cases r with
  | checking tx =>
      rw [Daemon.serve]
      cases hrefused : refusedByState d.app.shared.state tx with
      | some text => exact .refuse text hi rfl
      | none => exact .check hi (refusedByState_eq_none_iff.mp hrefused)
  | pushing tx seen =>
      rw [Daemon.serve]
      cases hpush : pushToMempool d.app.shared.mempool tx with
      | error text => exact .refuse text hi rfl
      | ok mempool => exact .push hi hpush
  | signing o => exact .sign hi
  | accepted o softConf heads => exact .none
  | refused text => exact .none

private theorem advance_moves {stage : Stage} (h : d.build = stage) :
    Moves prim d .build (d.advance prim stage) := by
  cases stage with
  | idle => exact .none
  | drained job =>
      have hmoves := @Moves.build prim d job h
      rw [Daemon.advance, buildBody_eq]
      exact hmoves
  | built job prior state txs => exact .readHead h
  | ready job state block witness => exact .swap h
  | swapped job block witness =>
      rw [Daemon.advance]
      rcases hrun : writeRows job block witness d.app with ⟨r, app⟩
      cases r with
      | ok u => exact .write h hrun
      | error halt => exact .fail h hrun
  | written block => exact .setHead h

/-- **An event does one of these things.** -/
theorem Daemon.moves (d : Daemon) (e : Event) : Moves prim d e (d.next prim e) := by
  cases e with
  | submitMint l1 proof l2Destination =>
      rw [Daemon.next]
      cases hverify : proof.verify prim l1 l2Destination with
      | error e => exact .arrive _ rfl (by rintro _ ⟨⟩) (by rintro _ _ ⟨⟩)
      | ok credit =>
          refine .arrive _ rfl (fun tx htx => ?_) (by rintro _ _ ⟨⟩)
          rw [← Request.checking.inj htx]
          exact genuine_of_verify hverify
  | submitTransfer t =>
      rw [Daemon.next]
      split_ifs
      · exact .arrive _ rfl (by rintro _ ⟨⟩) (by rintro _ _ ⟨⟩)
      · refine .arrive _ rfl (fun tx htx => ?_) (by rintro _ _ ⟨⟩)
        rw [← Request.checking.inj htx]
        trivial
  | request i now =>
      rw [Daemon.next]
      cases hi : d.requests[i]? with
      | none => exact .none
      | some r => exact serve_moves now hi
  | produceBlock env =>
      rw [Daemon.next]
      cases hbuild : d.build with
      | idle =>
          cases htip : env.l1Tip with
          | ok tip => exact .drain hbuild htip
          | error e => exact .none
      | _ => exact .none
  | build => exact advance_moves rfl

end

/-! ### Offers and receipts -/

/-- What the `i`-th request has pushed. -/
def Daemon.offer? (d : Daemon) (i : Nat) : Option Offer := d.requests[i]?.bind Request.offer?

/-- Some request has pushed the transaction for a batch. -/
def Daemon.Offered (d : Daemon) (batch : Nat) (tx : L2Tx) : Prop :=
  ∃ i o, d.offer? i = some o ∧ o.batch = batch ∧ o.tx = tx

/-- The `i`-th request was answered `accepted: true`, with the receipt. -/
def Daemon.Receipt (d : Daemon) (i : Nat) (softConf : SoftConf) : Prop :=
  ∃ o heads, d.requests[i]? = some (.accepted o softConf heads)

/-- What a request was answered with. -/
def Request.receipt? : Request → Option (Offer × SoftConf × Nat)
  | .accepted o softConf heads => some (o, softConf, heads)
  | _ => none

def Daemon.receipt? (d : Daemon) (i : Nat) : Option (Offer × SoftConf × Nat) :=
  d.requests[i]?.bind Request.receipt?

/-- A transaction waits in the mempool. -/
def Mempool.Holds (mempool : Mempool) : L2Tx → Prop
  | .mint entry => entry ∈ mempool.mints
  | .transfer t => t ∈ mempool.transfers

/-- A call has drained a transaction. -/
def Job.Holds (job : Job) : L2Tx → Prop
  | .mint entry => entry ∈ job.mints
  | .transfer t => t ∈ job.transfers

section

variable {prim : Primitives} {d d' : Daemon} {e : Event}

theorem Daemon.receipt?_eq_some_iff {i : Nat} {o : Offer} {softConf : SoftConf} {heads : Nat} :
    d.receipt? i = some (o, softConf, heads) ↔
      d.requests[i]? = some (.accepted o softConf heads) := by
  unfold receipt?
  constructor
  · intro h
    obtain ⟨r, hr, hreceipt⟩ := Option.bind_eq_some_iff.mp h
    cases r with
    | accepted o' softConf' heads' =>
        simp only [Request.receipt?, Option.some.injEq, Prod.mk.injEq] at hreceipt
        obtain ⟨rfl, rfl, rfl⟩ := hreceipt
        exact hr
    | _ => cases hreceipt
  · intro h
    rw [h]
    rfl

theorem Daemon.offer?_of_request {i : Nat} {r : Request} {o : Offer}
    (hi : d.requests[i]? = some r) (ho : r.offer? = some o) : d.offer? i = some o := by
  unfold offer?
  rw [hi]
  exact ho

theorem Daemon.offer?_of_receipt? {i : Nat} {o : Offer} {softConf : SoftConf} {heads : Nat}
    (h : d.receipt? i = some (o, softConf, heads)) : d.offer? i = some o :=
  offer?_of_request (receipt?_eq_some_iff.mp h) rfl

/-- An event pushes nothing, or what one request was about to. -/
theorem Moves.offer? (hmoves : Moves prim d e d') : (∀ j, d'.offer? j = d.offer? j) ∨
    ∃ i now tx seen mempool, e = .request i now ∧ d.requests[i]? = some (.pushing tx seen) ∧
      pushToMempool d.app.shared.mempool tx = .ok mempool ∧
      d' = { d with
        app := d.app.setMempool mempool
        requests := d.requests.set i (.signing ⟨tx, d.drained, d.heads⟩) } ∧
      ∀ j, d'.offer? j = if i = j then some ⟨tx, d.drained, d.heads⟩ else d.offer? j := by
  cases hmoves with
  | arrive r hr => exact .inl (bind_getElem?_append Request.offer? hr)
  | refuse text hi hr => exact .inl (bind_getElem?_set_eq Request.offer? hi hr.symm)
  | check hi => exact .inl (bind_getElem?_set_eq Request.offer? hi rfl)
  | push hi hpush =>
      exact .inr ⟨_, _, _, _, _, rfl, hi, hpush, rfl, bind_getElem?_set Request.offer? hi _⟩
  | sign hi => exact .inl (bind_getElem?_set_eq Request.offer? hi rfl)
  | _ => exact .inl fun _ => rfl

/-- After a push: the new offer, or an old one of another request. -/
theorem Daemon.offer?_push {i j : Nat} {tx : L2Tx} {seen : Nat} {o o' : Offer}
    (hi : d.requests[i]? = some (.pushing tx seen))
    (h : ((d.requests.set i (.signing o))[j]?.bind Request.offer?) = some o') :
    (j = i ∧ o' = o) ∨ (j ≠ i ∧ d.offer? j = some o') := by
  rw [bind_getElem?_set Request.offer? hi] at h
  by_cases hij : i = j
  · rw [if_pos hij] at h
    exact .inl ⟨hij.symm, (Option.some.inj h).symm⟩
  · rw [if_neg hij] at h
    exact .inr ⟨Ne.symm hij, h⟩

/-- What is offered after a push. -/
theorem Daemon.offered_push {i : Nat} {tx : L2Tx} {seen : Nat} {mempool : Mempool}
    (hi : d.requests[i]? = some (.pushing tx seen)) {batch : Nat} {tx' : L2Tx} :
    Daemon.Offered { d with
      app := d.app.setMempool mempool
      requests := d.requests.set i (.signing ⟨tx, d.drained, d.heads⟩) } batch tx' ↔
        d.Offered batch tx' ∨ (batch = d.drained ∧ tx = tx') := by
  have hoffer := bind_getElem?_set Request.offer? hi (.signing ⟨tx, d.drained, d.heads⟩)
  constructor
  · rintro ⟨j, o, ho, hbatch, htx⟩
    rcases Daemon.offer?_push hi ho with ⟨-, rfl⟩ | ⟨-, hold⟩
    · exact .inr ⟨hbatch.symm, htx⟩
    · exact .inl ⟨j, o, hold, hbatch, htx⟩
  · rintro (⟨j, o, ho, hbatch, htx⟩ | ⟨rfl, rfl⟩)
    · refine ⟨j, o, ?_, hbatch, htx⟩
      have hne : i ≠ j := by
        rintro rfl
        unfold Daemon.offer? at ho
        rw [hi] at ho
        cases ho
      exact (hoffer j).trans ((if_neg hne).trans ho)
    · exact ⟨i, ⟨tx, d.drained, d.heads⟩, (hoffer i).trans (if_pos rfl), rfl, rfl⟩

/-- What has pushed nothing has no receipt. -/
theorem Request.receipt?_eq_none {r : Request} (h : r.offer? = none) : r.receipt? = none := by
  cases r with
  | accepted o softConf heads => cases h
  | _ => rfl

/-- An event signs nothing, or what one request was about to. -/
theorem Moves.receipt? (hmoves : Moves prim d e d') : (∀ j, d'.receipt? j = d.receipt? j) ∨
    ∃ i now o, e = .request i now ∧ d.requests[i]? = some (.signing o) ∧
      d'.app = d.app ∧ d'.heads = d.heads ∧ ∀ j, d'.receipt? j = if i = j then
        some (o, signSoftConf prim d.app.shared (o.tx.hash prim) now, d.heads)
          else d.receipt? j := by
  have hkept : ∀ {i : Nat} {r r' : Request}, d.requests[i]? = some r → r.receipt? = .none →
      r'.receipt? = .none → ∀ j, ((d.requests.set i r')[j]?.bind Request.receipt?) = d.receipt? j :=
    fun hi hr hr' => bind_getElem?_set_eq Request.receipt? hi (hr'.trans hr.symm)
  cases hmoves with
  | arrive r hr => exact .inl (bind_getElem?_append Request.receipt? (r.receipt?_eq_none hr))
  | refuse text hi hr => exact .inl (hkept hi (Request.receipt?_eq_none hr) rfl)
  | check hi => exact .inl (hkept hi rfl rfl)
  | push hi => exact .inl (hkept hi rfl rfl)
  | sign hi => exact .inr ⟨_, _, _, rfl, hi, rfl, rfl, bind_getElem?_set Request.receipt? hi _⟩
  | _ => exact .inl fun _ => rfl

/-- An event leaves the head as it is, or sets the next one and does nothing to requests. -/
theorem Moves.heads (hmoves : Moves prim d e d') :
    (d'.heads = d.heads ∧ d'.app.shared.head = d.app.shared.head) ∨
      (d'.heads = d.heads + 1 ∧ d'.requests = d.requests) := by
  cases hmoves with
  | write hbuild hrun =>
      obtain ⟨-, rfl⟩ := writeRows_ok hrun
      exact .inl ⟨rfl, rfl⟩
  | fail hbuild hrun =>
      rcases writeRows_error hrun with rfl | ⟨-, rfl⟩
      · exact .inl ⟨rfl, rfl⟩
      · exact .inl ⟨rfl, rfl⟩
  | setHead => exact .inr ⟨rfl, rfl⟩
  | _ => exact .inl ⟨rfl, rfl⟩

theorem Moves.bodies (hmoves : Moves prim d e d') : ∃ more, d'.bodies = d.bodies ++ more := by
  cases hmoves with
  | swap => exact ⟨_, rfl⟩
  | _ => exact ⟨[], (List.append_nil _).symm⟩

/-- An event that is no step of a call leaves the call, the ledger and the head alone. -/
theorem Moves.quiet (hmoves : Moves prim d e d') (hproduce : ∀ env, e ≠ .produceBlock env)
    (hbuild : e ≠ .build) : d'.build = d.build ∧ d'.app.shared.state = d.app.shared.state ∧
      d'.app.shared.head = d.app.shared.head := by
  cases hmoves with
  | drain => exact absurd rfl (hproduce _)
  | build => exact absurd rfl hbuild
  | readHead => exact absurd rfl hbuild
  | swap => exact absurd rfl hbuild
  | write => exact absurd rfl hbuild
  | fail => exact absurd rfl hbuild
  | setHead => exact absurd rfl hbuild
  | _ => exact ⟨rfl, rfl, rfl⟩

/-- What a push does to the mempool. -/
theorem pushToMempool_ok {mempool mempool' : Mempool} {tx : L2Tx}
    (h : pushToMempool mempool tx = .ok mempool') :
    (∀ tx', mempool'.Holds tx' ↔ mempool.Holds tx' ∨ tx = tx') ∧
    (∀ n, n ∈ mempool'.pendingNullifiers ↔ n ∈ mempool.pendingNullifiers ∨
      ∃ entry, tx = .mint entry ∧ entry.event.nullifierHex = n) ∧
    ∀ entry, tx = .mint entry → entry.event.nullifierHex ∉ mempool.pendingNullifiers := by
  cases tx with
  | mint entry =>
      unfold pushToMempool at h
      by_cases hpending : entry.event.nullifierHex ∈ mempool.pendingNullifiers
      · simp [hpending] at h
      · simp only [hpending, if_false, Except.ok.injEq] at h
        rw [← h]
        refine ⟨fun tx' => ?_, fun n => ?_, fun e he => ?_⟩
        · cases tx' with
          | mint e => simp [Mempool.Holds, eq_comm]
          | transfer t => simp [Mempool.Holds]
        · simp [Std.ExtTreeSet.mem_insert, or_comm]
        · rw [← L2Tx.mint.inj he]
          exact hpending
  | transfer t =>
      unfold pushToMempool at h
      rw [← Except.ok.inj h]
      refine ⟨fun tx' => ?_, fun n => ?_, nofun⟩
      · cases tx' with
        | mint e => simp [Mempool.Holds]
        | transfer t' => simp [Mempool.Holds, eq_comm]
      · simp

end

/-! ### Runs -/

section

variable {prim : Primitives} {allowed : Event → Daemon → Prop} {d : Daemon} {app : AppState}

/-- A process is one of `daemons`. -/
theorem daemons_of_reachable (h : (daemonSystem prim allowed).Reachable d) :
    (daemons prim).Reachable d := by
  refine h.invariant (I := (daemons prim).Reachable) ?_ ?_
  · rintro d ⟨app, hbooted, rfl⟩
    exact hbooted
  · rintro d d' - hd ⟨e, -, rfl⟩
    exact hd.step (.inl ⟨e, rfl⟩)

/-- What the first daemons have, what a restart gives and what every event keeps, all have. -/
theorem daemons_invariant {I : Daemon → Prop} (hstart : ∀ app, Started prim app → I (.boot app))
    (hrestart : ∀ d app, I d → restart prim d.app = some app → I (.boot app))
    (hmoves : ∀ d e d', I d → Moves prim d e d' → I d') (h : (daemons prim).Reachable d) : I d := by
  refine h.invariant (I := I) ?_ ?_
  · rintro d ⟨app, hstarted, rfl⟩
    exact hstart app hstarted
  · rintro d d' - hd (⟨e, rfl⟩ | ⟨app, happ, rfl⟩)
    · exact hmoves d e _ hd (d.moves e)
    · exact hrestart d app hd happ

/-- A run of allowed events. -/
theorem reachable_run {es : List Event} (h : (daemonSystem prim allowed).Reachable d)
    (hallowed : ∀ front e back, es = front ++ e :: back → allowed e (d.run prim front)) :
    (daemonSystem prim allowed).Reachable (d.run prim es) := by
  induction es generalizing d with
  | nil => exact h
  | cons e es ih =>
      refine ih (.step h ⟨e, hallowed [] e es rfl, rfl⟩) fun front e' back hes => ?_
      exact hallowed (e :: front) e' back (by rw [hes]; rfl)

/-- Requests served while no call takes a step. -/
theorem reachable_quiet {es : List Event} (h : (daemonSystem prim allowed).Reachable d)
    (hes : ∀ e ∈ es, (∀ env, e ≠ .produceBlock env) ∧ e ≠ .build)
    (hallowed : ∀ e ∈ es, ∀ d' : Daemon, d'.build = d.build →
      d'.app.shared.state = d.app.shared.state → d'.app.shared.head = d.app.shared.head →
        allowed e d') :
    (daemonSystem prim allowed).Reachable (d.run prim es) := by
  induction es generalizing d with
  | nil => exact h
  | cons e es ih =>
      obtain ⟨hproduce, hbuild⟩ := hes e List.mem_cons_self
      obtain ⟨hsame, hstate, hhead⟩ := (@Daemon.moves prim d e).quiet hproduce hbuild
      refine ih (h.step ⟨e, hallowed e List.mem_cons_self d rfl rfl rfl, rfl⟩)
        (fun e' he' => hes e' (List.mem_cons_of_mem _ he')) fun e' he' d' hd' hs' hh' => ?_
      exact hallowed e' (List.mem_cons_of_mem _ he') d' (hd'.trans hsame) (hs'.trans hstate)
        (hh'.trans hhead)

/-- A mint that is served at once, and accepted. -/
theorem Daemon.run_submitMint {l1 : L1View} {proof : MintProofEnvelope} {l2Destination : L2Address}
    {credit : MintCredit} (hverify : proof.verify prim l1 l2Destination = .ok credit)
    (hconsumed : credit.event.nullifierHex ∉ d.app.shared.state.consumedNullifiers)
    (hpending : credit.event.nullifierHex ∉ d.app.shared.mempool.pendingNullifiers) (now : UInt64) :
    let tx := L2Tx.mint ⟨credit.event, proof⟩
    d.run prim [.submitMint l1 proof l2Destination, .request d.requests.length now,
        .request d.requests.length now, .request d.requests.length now]
      = { d with
          app := (submitMint prim l1 now proof l2Destination d.app).2
          requests := d.requests ++ [.accepted ⟨tx, d.drained, d.heads⟩
            (signSoftConf prim d.app.shared (tx.hash prim) now) d.heads] } := by
  intro tx
  simp [tx, Daemon.next, hverify, Daemon.serve, refusedByState, hconsumed, pushToMempool, hpending,
    submitMint, AppState.setMempool]
  exact ⟨rfl, rfl⟩

/-- A transfer that is served at once, and accepted. -/
theorem Daemon.run_submitTransfer {t : SignedTransfer}
    (hok : Admissible prim d.app.shared.state t) (now : UInt64) :
    d.run prim [.submitTransfer t, .request d.requests.length now, .request d.requests.length now,
        .request d.requests.length now]
      = { d with
          app := d.app.push t
          requests := d.requests ++ [.accepted ⟨.transfer t, d.drained, d.heads⟩
            (signSoftConf prim d.app.shared ((L2Tx.transfer t).hash prim) now) d.heads] } := by
  simp [Daemon.next, hok.signed, Daemon.serve, refusedByState, hok.nonce, pushToMempool,
    AppState.push, AppState.setMempool]
  exact ⟨rfl, rfl⟩

end

end Hodlchain.Sequencer
