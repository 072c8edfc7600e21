/-
The sequencer, one critical section at a time.

`submit_mint` and `submit_transfer` lock the ledger, then the mempool, then the head;
`produce_block` locks the mempool, the ledger, the head, the ledger again, the store
and the head again.  Between two of them anything else can run.  Here every section is
one step: a request waits for its next one, and so does the block that is being built.
Run back to back, the sections are the functions of `Shared` and `Producer`.

What no part of the program records stands beside it, for statements about runs: the
bodies swapped in so far, how many heads there have been, and what each request found.
-/
import Hodlchain.Core.TxsRoot
import Hodlchain.Sequencer.Production
import Hodlchain.Sequencer.Run

namespace Hodlchain.Sequencer

/-! ### The sections of a request -/

/-- On the ledger: why a transaction is refused. -/
def refusedByState (state : LedgerState) : L2Tx → Option String
  | .mint entry =>
      if entry.event.nullifierHex ∈ state.consumedNullifiers then some "nullifier already consumed"
      else none
  | .transfer t =>
      let expected := state.nonceOf t.body.sender
      if t.body.nonce ≠ expected then
        some s!"nonce mismatch: expected {expected}, got {t.body.nonce}"
      else none

/-- On the mempool: push a transaction, unless it is a mint of a pending nullifier. -/
def pushToMempool (mempool : Mempool) : L2Tx → Except String Mempool
  | .mint entry =>
      if entry.event.nullifierHex ∈ mempool.pendingNullifiers then
        .error "nullifier already in mempool"
      else
        .ok
          { mempool with
            pendingNullifiers := mempool.pendingNullifiers.insert entry.event.nullifierHex
            mints := mempool.mints ++ [entry] }
  | .transfer t => .ok { mempool with transfers := mempool.transfers ++ [t] }

/-- A transaction pushed: how many batches had been drained by then, and how many heads there had
been. -/
structure Offer where
  tx : L2Tx
  batch : Nat
  heads : Nat

/-- Where a request is. -/
inductive Request where
  /-- Verified; next is the ledger. -/
  | checking (tx : L2Tx)
  /-- Passed on the ledger, when so many bodies had been swapped in; next is the mempool. -/
  | pushing (tx : L2Tx) (seen : Nat)
  /-- Pushed; next is the head. -/
  | signing (o : Offer)
  /-- Answered with a receipt, when there had been so many heads. -/
  | accepted (o : Offer) (softConf : SoftConf) (heads : Nat)
  | refused (text : String)

/-- What `submit_mint` answers in the end. -/
def Request.mintResponse : Request → Option SubmitMintResponse
  | .accepted ⟨.mint entry, _, _⟩ softConf _ =>
      some
        { accepted := true
          error := none
          mintAmount := some entry.event.amount
          nullifierHex := some entry.event.nullifierHex
          softConf := some softConf }
  | .refused text => some (rejectMint text)
  | _ => none

/-- What `submit_transfer` answers in the end. -/
def Request.transferResponse : Request → Option SubmitTransferResponse
  | .accepted ⟨.transfer _, _, _⟩ softConf _ =>
      some { accepted := true, error := none, softConf := some softConf }
  | .refused text => some (rejectTransfer text)
  | _ => none

/-- What a request has pushed. -/
def Request.offer? : Request → Option Offer
  | .signing o => some o
  | .accepted o _ _ => some o
  | _ => none

/-! ### The sections of `produce_block` -/

/-- A call that has drained the mempool. -/
structure Job where
  env : BlockEnv
  tip : UInt32 × H256
  mints : List MintEntry
  transfers : List SignedTransfer

/-- How far a call is. -/
inductive Stage where
  | idle
  | drained (job : Job)
  | built (job : Job) (prior state : LedgerState) (txs : List L2Tx)
  | ready (job : Job) (state : LedgerState) (block : L2Block) (witness : BlockWitness)
  | swapped (job : Job) (block : L2Block) (witness : BlockWitness)
  | written (block : L2Block)

/-- What is drained and not swapped in yet. -/
def Stage.job? : Stage → Option Job
  | .drained job => some job
  | .built job _ _ _ => some job
  | .ready job _ _ _ => some job
  | _ => none

section

variable (prim : Primitives)

/-- Under the lock of the store: the rows of the block, and the cursor. -/
def writeRows (job : Job) (block : L2Block) (witness : BlockWitness) : Act Unit := do
  writeBlockAndState job.env.faults block witness
  setStore job.env.faults .setL1Cursor (·.setL1Cursor job.tip.1)

/-! ### The daemon -/

structure Daemon where
  app : AppState
  requests : List Request
  build : Stage
  /-- The bodies swapped in. -/
  bodies : List (List L2Tx)
  /-- How many times the head was set. -/
  heads : Nat
  /-- How many bodies had been swapped in when it was set last. -/
  settled : Nat

inductive Event where
  /-- A mint arrives, and is verified. -/
  | submitMint (l1 : L1View) (proof : MintProofEnvelope) (l2Destination : L2Address)
  /-- A transfer arrives, and its signature is verified. -/
  | submitTransfer (t : SignedTransfer)
  /-- The `i`-th request runs its next section. -/
  | request (i : Nat) (now : UInt64)
  /-- A call of `produce_block` has its answers from L1, and drains the mempool. -/
  | produceBlock (env : BlockEnv)
  /-- The call runs its next section. -/
  | build

namespace Daemon

/-- Nothing has been asked of the process yet. -/
def boot (app : AppState) : Daemon := ⟨app, [], .idle, [], 0, 0⟩

/-- How many batches have been drained. -/
def drained (d : Daemon) : Nat := d.bodies.length + if d.build.job?.isSome then 1 else 0

/-- The next section of a request. -/
def serve (d : Daemon) (i : Nat) (now : UInt64) : Request → Daemon
  | .checking tx =>
      match refusedByState d.app.shared.state tx with
      | some text => { d with requests := d.requests.set i (.refused text) }
      | none => { d with requests := d.requests.set i (.pushing tx d.bodies.length) }
  | .pushing tx _ =>
      match pushToMempool d.app.shared.mempool tx with
      | .error text => { d with requests := d.requests.set i (.refused text) }
      | .ok mempool =>
          { d with
            app := d.app.setMempool mempool
            requests := d.requests.set i (.signing ⟨tx, d.drained, d.heads⟩) }
  | .signing o =>
      let softConf := signSoftConf prim d.app.shared (o.tx.hash prim) now
      { d with requests := d.requests.set i (.accepted o softConf d.heads) }
  | .accepted _ _ _ => d
  | .refused _ => d

/-- The next section of a call of `produce_block`. -/
def advance (d : Daemon) : Stage → Daemon
  | .idle => d
  | .drained job =>
      let prior := d.app.shared.state
      let (state, txs) := buildBody prim job.env.view prior job.mints job.transfers
      { d with build := .built job prior state txs }
  | .built job prior state txs =>
      let block := buildBlock prim job.env.now job.tip.1 job.tip.2 d.app.shared state txs
      let witness := BlockWitness.build prim prior block.txs block.header.height
      { d with build := .ready job state block witness }
  | .ready job state block witness =>
      { d with
        app := d.app.setState state
        build := .swapped job block witness
        bodies := d.bodies ++ [block.txs] }
  | .swapped job block witness =>
      -- a stop of the process is no step here, and is taken for an error
      match writeRows job block witness d.app with
      | (.ok (), app) => { d with app := app, build := .written block }
      | (.error _, app) => { d with app := app, build := .idle }
  | .written block =>
      { d with
        app := d.app.setHead (headOf prim block)
        build := .idle
        heads := d.heads + 1
        settled := d.bodies.length }

/-- One event. -/
def next (d : Daemon) : Event → Daemon
  | .submitMint l1 proof l2Destination =>
      match proof.verify prim l1 l2Destination with
      | .error e => { d with requests := d.requests ++ [.refused e.text] }
      | .ok credit => { d with requests := d.requests ++ [.checking (.mint ⟨credit.event, proof⟩)] }
  | .submitTransfer t =>
      if !prim.verifySchnorr t.signature (t.body.sighash prim) t.body.sender then
        { d with requests := d.requests ++ [.refused "bad signature"] }
      else { d with requests := d.requests ++ [.checking (.transfer t)] }
  | .request i now =>
      match d.requests[i]? with
      | none => d
      | some r => d.serve prim i now r
  | .produceBlock env =>
      match d.build, env.l1Tip with
      | .idle, .ok tip =>
          let ((mints, transfers), mempool) := d.app.shared.mempool.drain
          { d with app := d.app.setMempool mempool, build := .drained ⟨env, tip, mints, transfers⟩ }
      | _, _ => d
  | .build => d.advance prim d.build

/-- Events in a row. -/
def run (d : Daemon) (es : List Event) : Daemon := es.foldl (next prim) d

end Daemon

/-- Processes one after another, each from what the one before it has persisted. -/
def daemons : System Daemon where
  init d := ∃ app, Started prim app ∧ d = .boot app
  step d d' := (∃ e, d' = d.next prim e) ∨ ∃ app, restart prim d.app = some app ∧ d' = .boot app

/-- What a process starts with. -/
def Booted (app : AppState) : Prop := (daemons prim).Reachable (.boot app)

/-- One process, with the events that are allowed. -/
def daemonSystem (allowed : Event → Daemon → Prop) : System Daemon where
  init d := ∃ app, Booted prim app ∧ d = .boot app
  step d d' := ∃ e, allowed e d ∧ d' = d.next prim e

end

/-! ### Sections back to back -/

section

variable {prim : Primitives} {d : Daemon}

@[simp] theorem Daemon.run_nil (d : Daemon) : d.run prim [] = d := rfl

@[simp] theorem Daemon.run_cons (d : Daemon) (e : Event) (es : List Event) :
    d.run prim (e :: es) = (d.next prim e).run prim es := rfl

theorem Daemon.run_append (d : Daemon) (front back : List Event) :
    d.run prim (front ++ back) = (d.run prim front).run prim back := List.foldl_append

/-- **A mint whose sections run back to back is `submit_mint`.** -/
theorem submitMint_sections (d : Daemon) (l1 : L1View) (now : UInt64) (proof : MintProofEnvelope)
    (l2Destination : L2Address) :
    let i := d.requests.length
    let d' := d.run prim
      [.submitMint l1 proof l2Destination, .request i now, .request i now, .request i now]
    d'.app = (submitMint prim l1 now proof l2Destination d.app).2 ∧
      d'.requests[i]?.bind Request.mintResponse
        = some (submitMint prim l1 now proof l2Destination d.app).1 := by
  intro i d'
  unfold submitMint
  cases hverify : proof.verify prim l1 l2Destination with
  | error e =>
      have hd' : d' = { d with requests := d.requests ++ [.refused e.text] } := by
        simp [d', i, Daemon.next, hverify, Daemon.serve]
      rw [hd']
      simp [i, Request.mintResponse]
  | ok credit =>
      by_cases hconsumed : credit.event.nullifierHex ∈ d.app.shared.state.consumedNullifiers
      · simp [d', i, Daemon.next, hverify, Daemon.serve, refusedByState, hconsumed,
          Request.mintResponse]
      · by_cases hpending : credit.event.nullifierHex ∈ d.app.shared.mempool.pendingNullifiers
        · simp [d', i, Daemon.next, hverify, Daemon.serve, refusedByState, hconsumed, pushToMempool,
            hpending, Request.mintResponse]
        · simp [d', i, Daemon.next, hverify, Daemon.serve, refusedByState, hconsumed, pushToMempool,
            hpending, Request.mintResponse, AppState.setMempool]

/-- **A transfer whose sections run back to back is `submit_transfer`.** -/
theorem submitTransfer_sections (d : Daemon) (now : UInt64) (t : SignedTransfer) :
    let i := d.requests.length
    let d' := d.run prim [.submitTransfer t, .request i now, .request i now, .request i now]
    d'.app = (submitTransfer prim now t d.app).2 ∧
      d'.requests[i]?.bind Request.transferResponse
        = some (submitTransfer prim now t d.app).1 := by
  intro i d'
  unfold submitTransfer
  by_cases hsig : prim.verifySchnorr t.signature (t.body.sighash prim) t.body.sender = true
  · by_cases hnonce : t.body.nonce = d.app.shared.state.nonceOf t.body.sender
    · simp [d', i, Daemon.next, hsig, Daemon.serve, refusedByState, hnonce, pushToMempool,
        Request.transferResponse, AppState.setMempool]
    · simp [d', i, Daemon.next, hsig, Daemon.serve, refusedByState, hnonce,
        Request.transferResponse]
  · simp [d', i, Daemon.next, hsig, Daemon.serve, Request.transferResponse]

/-- A call up to the swap. -/
theorem Daemon.run_swap (hidle : d.build = .idle) {env : BlockEnv} {tip : UInt32 × H256}
    (htip : env.l1Tip = .ok tip) :
    d.run prim [.produceBlock env, .build, .build, .build]
      = { d with
          app := env.swapped prim d.app
          build := .swapped
            ⟨env, tip, d.app.shared.mempool.mints, d.app.shared.mempool.transfers⟩
            (env.nextBlock prim tip d.app)
            (BlockWitness.build prim d.app.shared.state (env.nextBlock prim tip d.app).txs
              (env.nextBlock prim tip d.app).header.height)
          bodies := d.bodies ++ [(env.nextBlock prim tip d.app).txs] } := by
  simp only [Daemon.run_cons, Daemon.run_nil, Daemon.next, hidle, htip, Mempool.drain,
    Daemon.advance, buildBody_eq]
  rfl

section

variable {job : Job} {block : L2Block} {witness : BlockWitness} {app : AppState}
  (h : d.build = .swapped job block witness)

include h

/-- The sections after it, when the rows are written. -/
private theorem run_write (hwrite : writeRows job block witness d.app = (.ok (), app)) :
    d.run prim [.build, .build]
      = { d with
          app := app.setHead (headOf prim block)
          build := .idle
          heads := d.heads + 1
          settled := d.bodies.length } := by
  have hwritten : d.next prim .build = { d with app := app, build := .written block } := by
    simp only [Daemon.next, h, Daemon.advance, hwrite]
  rw [Daemon.run_cons, hwritten]
  rfl

/-- And when they are not. -/
private theorem run_fail {halt : Halt}
    (hwrite : writeRows job block witness d.app = (.error halt, app)) :
    d.run prim [.build, .build] = { d with app := app, build := .idle } := by
  have hfailed : d.next prim .build = { d with app := app, build := .idle } := by
    simp only [Daemon.next, h, Daemon.advance, hwrite]
  rw [Daemon.run_cons, hfailed]
  rfl

end

private theorem produceBlock_swapped (app : AppState) {env : BlockEnv} {tip : UInt32 × H256}
    (htip : env.l1Tip = .ok tip) (mints : List MintEntry) (transfers : List SignedTransfer) :
    produceBlock prim env app =
      (writeRows ⟨env, tip, mints, transfers⟩ (env.nextBlock prim tip app)
        (BlockWitness.build prim app.shared.state (env.nextBlock prim tip app).txs
          (env.nextBlock prim tip app).header.height) >>= fun _ =>
        Action.modify (·.setHead (headOf prim (env.nextBlock prim tip app))))
          (env.swapped prim app) := by
  rw [produceBlock_run htip]
  unfold writeRows
  rw [Action.bind_assoc_run]
  rfl

/-- A call that is not interleaved, and ends well. -/
theorem Daemon.run_block (hidle : d.build = .idle) {env : BlockEnv} {tip : UInt32 × H256}
    (htip : env.l1Tip = .ok tip) {app : AppState}
    (hrun : produceBlock prim env d.app = (.ok (), app)) :
    d.run prim [.produceBlock env, .build, .build, .build, .build, .build]
      = { d with
          app := app
          build := .idle
          bodies := d.bodies ++ [(env.nextBlock prim tip d.app).txs]
          heads := d.heads + 1
          settled := d.bodies.length + 1 } := by
  let job : Job := ⟨env, tip, d.app.shared.mempool.mints, d.app.shared.mempool.transfers⟩
  let block := env.nextBlock prim tip d.app
  let witness := BlockWitness.build prim d.app.shared.state block.txs block.header.height
  rw [produceBlock_swapped d.app htip job.mints job.transfers] at hrun
  rw [show [Event.produceBlock env, .build, .build, .build, .build, .build]
    = [.produceBlock env, .build, .build, .build] ++ [.build, .build] from rfl, Daemon.run_append,
    Daemon.run_swap hidle htip]
  rcases hwrite : writeRows job block witness (env.swapped prim d.app) with ⟨r, app'⟩
  cases r with
  | error e =>
      rw [Action.bind_run_error hwrite] at hrun
      cases hrun
  | ok u =>
      rw [Action.bind_run_ok hwrite, Action.modify_run] at hrun
      rw [run_write rfl hwrite, ← (Prod.mk.inj hrun).2, List.length_append, List.length_singleton]

/-- **A call whose sections run back to back is `produce_block`.** -/
theorem produceBlock_sections (d : Daemon) (hidle : d.build = .idle) (env : BlockEnv) :
    (d.run prim [.produceBlock env, .build, .build, .build, .build, .build]).app
      = (produceBlock prim env d.app).2 := by
  cases htip : env.l1Tip with
  | error e =>
      have hsame : d.next prim (.produceBlock env) = d := by
        simp only [Daemon.next, hidle, htip]
      have hbuild : d.next prim .build = d := by
        simp only [Daemon.next, hidle, Daemon.advance]
      simp only [Daemon.run_cons, hsame, hbuild, Daemon.run_nil, produceBlock, htip, mapErr,
        Action.bind_run, Action.lift_run]
  | ok tip =>
      let job : Job := ⟨env, tip, d.app.shared.mempool.mints, d.app.shared.mempool.transfers⟩
      let block := env.nextBlock prim tip d.app
      let witness := BlockWitness.build prim d.app.shared.state block.txs block.header.height
      rw [show [Event.produceBlock env, .build, .build, .build, .build, .build]
        = [.produceBlock env, .build, .build, .build] ++ [.build, .build] from rfl,
        Daemon.run_append, Daemon.run_swap hidle htip,
        produceBlock_swapped d.app htip job.mints job.transfers]
      rcases hwrite : writeRows job block witness (env.swapped prim d.app) with ⟨r, app⟩
      cases r with
      | error e => rw [Action.bind_run_error hwrite, run_fail rfl hwrite]
      | ok u => rw [Action.bind_run_ok hwrite, run_write rfl hwrite, Action.modify_run]

end

end Hodlchain.Sequencer
