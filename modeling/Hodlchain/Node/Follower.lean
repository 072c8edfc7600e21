/-
The follower loop.

A tick reads L1 blocks after the cursor, follows the chain anchor through them, and
for each attestation applies the batch of L2 blocks up to the attested height, one
by one.  Everything outside is an argument: what the block server and bitcoind
answer during each batch, and at which call to the store or to bitcoind the call
fails or the process stops.

Two fields of `World` are there for the statements only: `log` keeps what each call
of `processAdvance` was given, and `hits` the calls that did not succeed.
-/
import Hodlchain.Lib.Action
import Hodlchain.Lib.Result
import Hodlchain.Node.Bitcoind
import Hodlchain.Node.Store

namespace Hodlchain

/-! ### The state of a node -/

structure HeadInfo where
  height : UInt32
  blockHash : H256
  stateRoot : H256
  l1Height : UInt32
deriving DecidableEq, Repr

/-- What is answered during one call of `process_advance`, which asks for each height
once: block bodies (`none` is a failed request), and L1 for the mints of a body. -/
structure Served where
  block : UInt32 → Option L2Block
  view : UInt32 → L1View

/-- The places where a call can fail, or the process can stop. -/
inductive CallSite where
  | blockCount
  | l1Cursor
  | getAnchor
  | scanBlock
  | getBlock
  | writeBlockAndState (block : L2Block)
  | setAnchor
  | recordAnchorSpend
  | setL1Cursor
deriving DecidableEq, Repr

/-- A call that fails changes nothing; a stop takes effect before the call does. -/
inductive Fault where
  | fail
  | stop
deriving DecidableEq, Repr

/-- The store, and the two cells in memory. -/
structure NodeState where
  store : NodeStore
  /-- `shared.state`. -/
  state : LedgerState
  /-- `shared.head`. -/
  head : HeadInfo

/-- What one call of `process_advance` was given. -/
structure Batch where
  node : NodeState
  advance : ChainAdvance
  served : Served

structure World extends NodeState where
  /-- Calls made so far. -/
  calls : Nat
  /-- Batches started, latest last. -/
  log : List Batch
  hits : List (CallSite × Fault)

/-- What surrounds a tick. -/
structure Env where
  chain : Chain
  served : Nat → Served
  faults : Nat → Option Fault

inductive FollowerError where
  /-- A call to bitcoind, to the block server or to the store failed. -/
  | call (site : CallSite)
  | store (cause : StoreError)
  | anchorNotInitialised
  | scan (cause : ScanError)
  | headerHeight (got height : UInt32)
  | attestedHeight (block attested : UInt32)
  | attestedHash (block attested : H256)
  | attestedStateRoot (block attested : H256)
  | txsRoot (height : UInt32) (computed header : H256)
  | mint (index : Nat) (height : UInt32) (cause : MintError)
  | apply (height : UInt32) (cause : ApplyError)
  | stateRoot (height : UInt32) (computed header : H256)
  | prevHash (height : UInt32) (block head : H256)
deriving DecidableEq, Repr

/-- Why a computation did not return a value. -/
inductive Halt where
  | error (e : FollowerError)
  | stopped
  /-- The fuel given to the inner loop ran out. -/
  | outOfFuel
deriving DecidableEq, Repr

abbrev Act (α : Type) := Action World Halt α

/-! ### Calls -/

/-- What a fault at a call ends in. -/
def Fault.halt (site : CallSite) : Fault → Halt
  | .fail => .error (.call site)
  | .stop => .stopped

/-- Count a call, and fail or stop there when the environment says so. -/
def callSite (env : Env) (site : CallSite) : Act Unit := fun w =>
  let w' := { w with calls := w.calls + 1 }
  match env.faults w.calls with
  | none => (.ok (), w')
  | some f => (.error (f.halt site), { w' with hits := w.hits ++ [(site, f)] })

def blockCount (env : Env) : Act Nat := do
  callSite env .blockCount
  pure env.chain.tip

def readL1Cursor (env : Env) : Act Nat := do
  callSite env .l1Cursor
  let w ← Action.get
  pure (w.store.l1Cursor.getD 0)

def readAnchor (env : Env) : Act OutPoint := do
  callSite env .getAnchor
  let w ← Action.get
  match w.store.anchor with
  | some anchor => pure anchor
  | none => Action.halt (.error .anchorNotInitialised)

def scanBlock (env : Env) (h : Nat) (anchor : OutPoint) : Act (Option ChainAdvance) := do
  callSite env .scanBlock
  match scanBlockForChainAdvance env.chain h anchor with
  | .ok advance => pure advance
  | .error e => Action.halt (.error (.scan e))

def fetchBlock (env : Env) (served : Served) (height : UInt32) : Act L2Block := do
  callSite env .getBlock
  match served.block height with
  | some block => pure block
  | none => Action.halt (.error (.call .getBlock))

def writeBlockAndState (env : Env) (block : L2Block) (witness : BlockWitness) : Act Unit := do
  callSite env (.writeBlockAndState block)
  let w ← Action.get
  match w.store.writeBlockAndState block w.state witness with
  | .ok store => Action.modify fun w => { w with store := store }
  | .error e => Action.halt (.error (.store e))

def setAnchor (env : Env) (anchor : OutPoint) : Act Unit := do
  callSite env .setAnchor
  Action.modify fun w => { w with store := w.store.setAnchor anchor }

def recordAnchorSpend (env : Env) (adv : ChainAdvance) : Act Unit := do
  callSite env .recordAnchorSpend
  Action.modify fun w =>
    { w with store := w.store.recordAnchorSpend adv.spentAnchor adv.txid adv.l1Height }

def setL1Cursor (env : Env) (h : Nat) : Act Unit := do
  callSite env .setL1Cursor
  Action.modify fun w => { w with store := w.store.setL1Cursor h }

/-! ### The checks on one block -/

section

variable (prim : Primitives)

/-- `validate_block`. -/
def validateBlock (block : L2Block) (att : Attestation) : Except FollowerError Unit :=
  if block.header.height ≠ att.height then
    .error (.attestedHeight block.header.height att.height)
  else if block.hash prim ≠ att.l2BlockHash then
    .error (.attestedHash (block.hash prim) att.l2BlockHash)
  else if block.header.stateRoot ≠ att.stateRoot then
    .error (.attestedStateRoot block.header.stateRoot att.stateRoot)
  else if computeTxsRoot prim block.txs ≠ block.header.txsRoot then
    .error (.txsRoot block.header.height (computeTxsRoot prim block.txs) block.header.txsRoot)
  else .ok ()

/-- The check `end_attestation` adds. -/
def validateEnd (block : L2Block) : Option Attestation → Except FollowerError Unit
  | some att => validateBlock prim block att
  | none => .ok ()

/-- What accepting a block leads to. -/
structure Accepted where
  state : LedgerState
  head : HeadInfo
  witness : BlockWitness

/-- The checks of `apply_one_l2_block` on a fetched block, in the order it makes them. -/
def checkL2Block (view : L1View) (state : LedgerState) (head : HeadInfo) (height : UInt32)
    (endAttestation : Option Attestation) (block : L2Block) : Except FollowerError Accepted := do
  ensure (block.header.height = height) (.headerHeight block.header.height height)
  validateEnd prim block endAttestation
  mapErr (fun e => .mint e.1 height e.2) (verifyMints prim view block.txs)
  let next ← mapErr (fun e => .apply height e.2) (state.replay prim block.txs)
  let computed := next.stateRoot prim
  ensure (computed = block.header.stateRoot) (.stateRoot height computed block.header.stateRoot)
  ensure (block.header.prevHash = head.blockHash)
    (.prevHash height block.header.prevHash head.blockHash)
  pure
    { state := next
      head :=
        { height := height
          blockHash := block.hash prim
          stateRoot := block.header.stateRoot
          l1Height := block.header.l1Height }
      witness := BlockWitness.build prim state block.txs height }

/-- `apply_one_l2_block`. -/
def applyOneL2Block (env : Env) (served : Served) (height : UInt32)
    (endAttestation : Option Attestation) : Act Unit := do
  let block ← fetchBlock env served height
  let w ← Action.get
  let next ← Action.lift (mapErr Halt.error
    (checkL2Block prim (served.view height) w.state w.head height endAttestation block))
  Action.modify fun w => { w with state := next.state }
  writeBlockAndState env block next.witness
  Action.modify fun w => { w with head := next.head }

/-- The end-of-batch attestation of a height. -/
def endAttestation (att : Attestation) (h : UInt32) : Option Attestation :=
  if h = att.height then some att else none

/-- `n` heights of a batch, from `h` up. -/
def applyRange (env : Env) (served : Served) (att : Attestation) : Nat → UInt32 → Act Unit
  | 0, _ => pure ()
  | n + 1, h => do
      applyOneL2Block prim env served h (endAttestation att h)
      applyRange env served att n (h + 1)

/-- How many heights are in `(head, att.height]`. -/
def batchSize (head : HeadInfo) (att : Attestation) : Nat := att.height.toNat - head.height.toNat

/-- `process_advance`. -/
def processAdvance (env : Env) (adv : ChainAdvance) : Act Unit := do
  let w ← Action.get
  let served := env.served w.log.length
  Action.modify fun w => { w with log := w.log ++ [⟨w.toNodeState, adv, served⟩] }
  if adv.attestation.height ≤ w.head.height then pure ()
  else do
    applyRange prim env served adv.attestation (batchSize w.head adv.attestation)
      (w.head.height + 1)
    setAnchor env adv.newAnchor
    recordAnchorSpend env adv

/-- What a round of the inner loop looks for: the spend of the stored anchor. -/
def findAdvance (env : Env) (h : Nat) : Act (Option ChainAdvance) := do
  let anchor ← readAnchor env
  scanBlock env h anchor

/-- The inner loop of `tick`, on the L1 block at height `h`. -/
def scanLoop (env : Env) (h : Nat) : Nat → Act Unit
  | 0 => Action.halt .outOfFuel
  | fuel + 1 => do
      let advance ← findAdvance env h
      match advance with
      | some adv => do
          processAdvance prim env adv
          scanLoop env h fuel
      | none => pure ()

/-- The outer loop of `tick`, over `n` heights from `h` up. -/
def scanHeights (env : Env) (fuel : Nat) : Nat → Nat → Act Unit
  | 0, _ => pure ()
  | n + 1, h => do
      scanLoop prim env h fuel
      setL1Cursor env h
      scanHeights env fuel n (h + 1)

/-- `Follower::tick`, with `fuel` rounds of the inner loop for each L1 block. -/
def tick (env : Env) (fuel : Nat) : Act Unit := do
  let tip ← blockCount env
  let cursor ← readL1Cursor env
  if tip ≤ cursor then pure ()
  else scanHeights prim env fuel (tip - cursor) (cursor + 1)

/-! ### Starting -/

/-- The head a block makes. -/
def headOf (block : L2Block) : HeadInfo :=
  { height := block.header.height
    blockHash := block.hash prim
    stateRoot := block.header.stateRoot
    l1Height := block.header.l1Height }

inductive BootstrapError where
  | store (cause : StoreError)
  | fetchGenesis
  | notGenesis
  | l1Height (sequencer config : UInt32)
  | stateRoot (computed header : H256)
  | noAnchor
deriving DecidableEq, Repr

/-- `bootstrap`, when the store has a snapshot. -/
def resume (store : NodeStore) : Except StoreError (Option (LedgerState × HeadInfo)) :=
  match store.loadLatestState with
  | none => .ok none
  | some (height, state) =>
      match store.getBlock height with
      | none => .error (.snapshotWithoutBlock height)
      | some block => .ok (some (state, headOf prim block))

/-- `bootstrap`, when it has none. -/
def coldStart (l1GenesisHeight : UInt32) (store : NodeStore) (genesis : L2Block) :
    Except BootstrapError NodeState := do
  ensure (genesis.header.height = 0) .notGenesis
  ensure (genesis.header.l1Height = l1GenesisHeight)
    (.l1Height genesis.header.l1Height l1GenesisHeight)
  let state :=
    { LedgerState.new with sequencerFeeAddress := genesis.header.sequencerFeeAddress }
  ensure (state.stateRoot prim = genesis.header.stateRoot)
    (.stateRoot (state.stateRoot prim) genesis.header.stateRoot)
  let anchor ← okOr genesis.header.anchorOutpoint .noAnchor
  let store ← mapErr .store
    (store.writeBlockAndState genesis state (BlockWitness.build prim state genesis.txs 0))
  pure
    { store := (store.setL1Cursor l1GenesisHeight.toNat).setAnchor anchor
      state := state
      head := { headOf prim genesis with height := 0 } }

/-- `bootstrap`, with what the sequencer serves as block 0. -/
def bootstrap (l1GenesisHeight : UInt32) (served : Option L2Block) (store : NodeStore) :
    Except BootstrapError NodeState :=
  match resume prim store with
  | .error e => .error (.store e)
  | .ok (some (state, head)) => .ok ⟨store, state, head⟩
  | .ok none =>
      match served with
      | none => .error .fetchGenesis
      | some genesis => coldStart prim l1GenesisHeight store genesis

end

end Hodlchain
