/-
The producer loop.

`produceBlock` drains the mempool into a block on a copy of the ledger, then puts
the copy, the block and the new head in place, one after the other.
`checkAndAttest` posts one attestation of the head for an advance of L1, and
`monitorPending` follows the posted ones until they are final.

What a call meets outside is an argument: what bitcoind answers, and at which call
to the store it fails or the process stops.
-/
import Hodlchain.Core.OpReturn
import Hodlchain.Lib.Action
import Hodlchain.Lib.Result
import Hodlchain.Node.Follower
import Hodlchain.Sequencer.Shared

namespace Hodlchain.Sequencer

open Bytes

/-! ### Surroundings -/

/-- The calls to the store that can fail, or before which the process can stop. -/
inductive StoreCall where
  | writeBlockAndState
  | setL1Cursor
  | lastAttestedL1Height
  | l1Cursor
  | getAnchor
  | setAnchor
  | setLastAttestedL1Height
  | pendingAttestations
  | setPendingAttestations
deriving DecidableEq, Repr

/-- What a call of `produce_block` meets; `none` is a failed request. -/
structure BlockEnv where
  blockCount : Option UInt32
  blockHashHex : UInt32 → Option String
  /-- L1 as the check of each drained mint sees it. -/
  view : Nat → L1View
  now : UInt64
  faults : StoreCall → Option Fault

/-- What `attestation_status` answers about a transaction. -/
inductive AttestationStatus where
  | mempool
  | confirmed (confirmations : UInt32) (blockHeight : Option UInt32)
  | reorged
  | missing
deriving DecidableEq, Repr

/-- What a call of `check_and_attest` meets, beside the block it produces first. -/
structure AttestEnv where
  blockCount : Option UInt32
  block : BlockEnv
  /-- The transaction `post_attestation_chained` broadcasts. -/
  post : Attestation → OutPoint → Option Txid
  faults : StoreCall → Option Fault

/-- What a call of `monitor_pending` meets. -/
structure MonitorEnv where
  status : Txid → Option AttestationStatus
  faults : StoreCall → Option Fault

inductive ProducerError where
  | blockCount
  | blockHash
  | badBlockHash
  | badBlockHashLength (got : Nat)
  | call (site : StoreCall)
  | store (cause : StoreError)
  | anchorNotInitialised
  | attestationStatus (txid : Txid)
deriving DecidableEq, Repr

inductive Halt where
  | error (e : ProducerError)
  | stopped
deriving DecidableEq, Repr

abbrev Act (α : Type) := Action AppState Halt α

/-- A call to the store, before it takes effect. -/
def storeCall (faults : StoreCall → Option Fault) (site : StoreCall) : Act Unit :=
  match faults site with
  | none => pure ()
  | some .fail => Action.halt (.error (.call site))
  | some .stop => Action.halt .stopped

/-- `parse_l1_block_hash`. -/
def parseL1BlockHash (s : String) : Except ProducerError H256 :=
  match hexDecode s with
  | none => .error .badBlockHash
  | some bytes =>
      if h : bytes.length = 32 then .ok ⟨⟨bytes.toArray, size_toArray_32 h⟩⟩
      else .error (.badBlockHashLength bytes.length)

/-- The L1 tip a block is produced under: its height and hash. -/
def BlockEnv.l1Tip (env : BlockEnv) : Except ProducerError (UInt32 × H256) := do
  let l1Height ← okOr env.blockCount .blockCount
  let l1BlockHashHex ← okOr (env.blockHashHex l1Height) .blockHash
  let l1BlockHash ← parseL1BlockHash l1BlockHashHex
  pure (l1Height, l1BlockHash)

section

variable (prim : Primitives)

/-! ### Building a block -/

/-- Apply a transaction; put it in the body unless it is rejected. -/
def pushTx (acc : LedgerState × List L2Tx) (tx : L2Tx) : LedgerState × List L2Tx :=
  match acc.1.apply prim tx with
  | (.ok (), state) => (state, acc.2 ++ [tx])
  | (.error _, state) => (state, acc.2)

/-- Verify a mint again, and take the event its witness authorises now. -/
def freshMint (l1 : L1View) (entry : MintEntry) : Except MintError L2Tx :=
  match entry.witness.verify prim l1 entry.event.l2Destination with
  | .error e => .error e
  | .ok credit => .ok (.mint ⟨credit.event, entry.witness⟩)

/-- One round of the loop over the mints. -/
def pushMint (l1 : L1View) (acc : LedgerState × List L2Tx) (entry : MintEntry) :
    LedgerState × List L2Tx :=
  match freshMint prim l1 entry with
  | .error _ => acc
  | .ok tx => pushTx prim acc tx

/-- The loop over the mints, from the `i`-th on. -/
def pushMints (view : Nat → L1View) : Nat → LedgerState × List L2Tx → List MintEntry →
    LedgerState × List L2Tx
  | _, acc, [] => acc
  | i, acc, entry :: mints => pushMints view (i + 1) (pushMint prim (view i) acc entry) mints

/-- The loop over the transfers. -/
def pushTransfers (acc : LedgerState × List L2Tx) (transfers : List SignedTransfer) :
    LedgerState × List L2Tx :=
  transfers.foldl (fun acc t => pushTx prim acc (.transfer t)) acc

/-- A block body from a drained mempool, and the ledger after it. -/
def buildBody (view : Nat → L1View) (priorState : LedgerState) (mints : List MintEntry)
    (transfers : List SignedTransfer) : LedgerState × List L2Tx :=
  pushTransfers prim (pushMints prim view 0 (priorState, []) mints) transfers

/-- The block on top of the head, with a built body. -/
def buildBlock (now : UInt64) (l1Height : UInt32) (l1BlockHash : H256) (shared : Shared)
    (state : LedgerState) (txs : List L2Tx) : L2Block where
  header :=
    { height := shared.head.height + 1
      prevHash := shared.head.blockHash
      l1BlockHash := l1BlockHash
      l1Height := l1Height
      txsRoot := computeTxsRoot prim txs
      stateRoot := state.stateRoot prim
      timestamp := now
      anchorOutpoint := none
      producer := some shared.identityPubkey
      sequencerFeeAddress := none }
  txs := txs

/-- The head a block makes. -/
def headOf (block : L2Block) : HeadInfo where
  height := block.header.height
  blockHash := block.hash prim
  stateRoot := block.header.stateRoot
  l1Height := block.header.l1Height
  l1BlockHash := block.header.l1BlockHash

def AppState.setMempool (app : AppState) (mempool : Mempool) : AppState :=
  { app with shared := { app.shared with mempool := mempool } }

def AppState.setState (app : AppState) (state : LedgerState) : AppState :=
  { app with shared := { app.shared with state := state } }

def AppState.setHead (app : AppState) (head : HeadInfo) : AppState :=
  { app with shared := { app.shared with head := head } }

def writeBlockAndState (faults : StoreCall → Option Fault) (block : L2Block)
    (witness : BlockWitness) : Act Unit := do
  storeCall faults .writeBlockAndState
  let app ← Action.get
  match app.store.writeBlockAndState block app.shared.state witness with
  | .ok store => Action.modify fun app => { app with store := store }
  | .error e => Action.halt (.error (.store e))

/-- A setter of the store. -/
def setStore (faults : StoreCall → Option Fault) (site : StoreCall) (f : Store → Store) :
    Act Unit := do
  storeCall faults site
  Action.modify fun app => { app with store := f app.store }

/-- `produce_block`. -/
def produceBlock (env : BlockEnv) : Act Unit := do
  let (l1Height, l1BlockHash) ← Action.lift (mapErr Halt.error env.l1Tip)
  let app ← Action.get
  let ((mints, transfers), mempool) := app.shared.mempool.drain
  Action.modify (·.setMempool mempool)
  let priorState := app.shared.state
  let (state, txs) := buildBody prim env.view priorState mints transfers
  let block := buildBlock prim env.now l1Height l1BlockHash app.shared state txs
  let witness := BlockWitness.build prim priorState block.txs block.header.height
  Action.modify (·.setState state)
  writeBlockAndState env.faults block witness
  setStore env.faults .setL1Cursor (·.setL1Cursor l1Height)
  Action.modify (·.setHead (headOf prim block))

/-! ### Attesting -/

/-- `last_attested_l1_height`, or the cursor, or zero. -/
def lastAttested (faults : StoreCall → Option Fault) : Act UInt32 := do
  storeCall faults .lastAttestedL1Height
  let app ← Action.get
  match app.store.lastAttestedL1Height with
  | some h => pure h
  | none =>
      -- `l1_cursor().ok()`: an error of this call is not passed on
      match faults .l1Cursor with
      | none => pure (app.store.l1Cursor.getD 0)
      | some .fail => pure 0
      | some .stop => Action.halt .stopped

/-- What follows a posted attestation: the new anchor, the L1 height, and the entry. -/
def recordAttestation (faults : StoreCall → Option Fault) (tip l2HeadHeight : UInt32)
    (spentAnchor : OutPoint) (txid : Txid) : Act Unit := do
  let newAnchor : OutPoint := ⟨txid, 1⟩
  setStore faults .setAnchor (·.setAnchor newAnchor)
  setStore faults .setLastAttestedL1Height (·.setLastAttestedL1Height tip)
  storeCall faults .pendingAttestations
  let app ← Action.get
  let entry : PendingAttestation := ⟨txid, spentAnchor, newAnchor, l2HeadHeight, tip⟩
  let pending := app.store.pendingAttestations ++ [entry]
  setStore faults .setPendingAttestations (·.setPendingAttestations pending)

/-- The attestation of the head as it is now. -/
def attestHead (env : AttestEnv) (tip : UInt32) : Act Unit := do
  let app ← Action.get
  let head := app.shared.head
  storeCall env.faults .getAnchor
  match app.store.anchor with
  | none => Action.halt (.error .anchorNotInitialised)
  | some anchor =>
      match env.post (Attestation.new head.height head.blockHash head.stateRoot) anchor with
      | none => pure ()
      | some txid => recordAttestation env.faults tip head.height anchor txid

/-- `check_and_attest`. -/
def checkAndAttest (env : AttestEnv) : Act Unit := do
  let tip ← Action.lift (okOr env.blockCount (.error .blockCount))
  let last ← lastAttested env.faults
  if tip ≤ last then pure ()
  else
    produceBlock prim env.block
    attestHead env tip

end

/-! ### Following the posted attestations -/

/-- `REORG_FINALITY_DEPTH`. -/
def reorgFinalityDepth : UInt32 := 2

/-- What the loop of `monitor_pending` has gathered. -/
structure MonitorAcc where
  surviving : List PendingAttestation
  anchorToRevert : Option OutPoint

/-- One round of the loop: what becomes of an entry, by the status of its transaction. -/
def monitorEntry (acc : MonitorAcc) (p : PendingAttestation) : AttestationStatus → MonitorAcc
  | .confirmed confirmations _ =>
      if confirmations ≥ reorgFinalityDepth then acc
      else { acc with surviving := acc.surviving ++ [p] }
  | .mempool => { acc with surviving := acc.surviving ++ [p] }
  | .reorged => { acc with surviving := acc.surviving ++ [p] }
  | .missing => { acc with anchorToRevert := some p.spentAnchor }

/-- The loop of `monitor_pending`. -/
def monitorLoop (status : Txid → Option AttestationStatus) :
    MonitorAcc → List PendingAttestation → Except ProducerError MonitorAcc
  | acc, [] => .ok acc
  | acc, p :: pending =>
      match status p.txid with
      | none => .error (.attestationStatus p.txid)
      | some s => monitorLoop status (monitorEntry acc p s) pending

/-- `saturating_sub(1)` of a positive height. -/
def rewound (last : UInt32) : UInt32 := satSub32 last 1

/-- `monitor_pending`. -/
def monitorPending (env : MonitorEnv) : Act Unit := do
  storeCall env.faults .pendingAttestations
  let app ← Action.get
  let pending := app.store.pendingAttestations
  if pending = [] then pure ()
  else
    let acc ← Action.lift (mapErr Halt.error (monitorLoop env.status ⟨[], none⟩ pending))
    setStore env.faults .setPendingAttestations (·.setPendingAttestations acc.surviving)
    match acc.anchorToRevert with
    | none => pure ()
    | some revertTo =>
        setStore env.faults .setAnchor (·.setAnchor revertTo)
        storeCall env.faults .lastAttestedL1Height
        let last := app.store.lastAttestedL1Height.getD 0
        if last > 0 then
          setStore env.faults .setLastAttestedL1Height (·.setLastAttestedL1Height (rewound last))
        else pure ()

end Hodlchain.Sequencer
