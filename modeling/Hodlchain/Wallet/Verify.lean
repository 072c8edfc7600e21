/-
The light client's check of one L2 block.

The client holds a `VerifiedHead`: its own leaf and path in the accounts tree, the
consumed nullifiers, and the roots.  From a block and a witness, both served by
anyone, it replays the block in a ledger of the touched accounts alone and
updates the accounts root from their proofs.
-/
import Hodlchain.Lib.Result
import Hodlchain.Core.Block
import Hodlchain.Core.OpReturn
import Hodlchain.Core.Proof
import Hodlchain.Core.Witness

namespace Hodlchain

open Bytes

/-! ### L1, as Esplora serves it -/

structure TxStatus where
  blockHeight : Option UInt32
deriving DecidableEq, Repr

structure EsploraVout where
  /-- scriptPubKey, hex-encoded. -/
  scriptpubkey : String
  value : UInt64
deriving DecidableEq, Repr

structure EsploraTx where
  vout : List EsploraVout
  status : TxStatus
deriving DecidableEq, Repr

/-- The requests `verify_one_l2_block` makes; `none` is a failed request. -/
structure EsploraClient where
  getTx : Txid → Option EsploraTx

structure ApiClient where
  getBlock : UInt32 → Option L2Block
  getWitness : UInt32 → Option BlockWitness

/-- Why an output could not be read. -/
inductive L1FetchError where
  | fetchTx
  | voutMissing (vout : UInt32) (count : Nat)
  | unconfirmed
  | badScript
deriving DecidableEq, Repr

/-- The output behind an outpoint, as `prefetch_l1_for_block` builds it. -/
def EsploraClient.output (esplora : EsploraClient) (tip : UInt32) (op : OutPoint) :
    Except L1FetchError L1Output := do
  let info ← okOr (esplora.getTx op.txid) .fetchTx
  let vout ← okOr info.vout[op.vout.toNat]? (.voutMissing op.vout info.vout.length)
  let confirmedHeight ← okOr info.status.blockHeight .unconfirmed
  let confirmations := satAdd32 (satSub32 tip confirmedHeight) 1
  let spkBytes ← okOr (hexDecode vout.scriptpubkey) .badScript
  pure
    { valueSat := vout.value
      scriptPubkey := spkBytes
      confirmedHeight := confirmedHeight
      confirmations := confirmations }

/-- `BatchL1View`. -/
structure BatchL1View where
  outputs : List (OutPoint × L1Output)
  tip : UInt32
deriving DecidableEq, Repr

/-- `impl L1View for BatchL1View`. -/
def BatchL1View.view (b : BatchL1View) : L1View :=
  { getOutput := fun op => b.outputs.lookup op
    tipHeight := b.tip }

/-! ### The head -/

structure VerifiedHead where
  stateRoot : H256
  accountsRoot : H256
  l2Height : UInt32
  blockHash : H256
  l1Height : UInt32
  anchorOutpoint : OutPoint
  ownAddress : XOnlyPublicKey
  ownLeaf : LeafKind
  ownPath : List H256
  consumedNullifiers : NullifierSet
  totalMintedAtoms : UInt64
  sequencerFeeAddress : Option XOnlyPublicKey

inductive ObservedTxKind where
  | transferIn (sender : L2Address) (amount : UInt64) (bodySighashHex : String)
  | transferOut (recipient : L2Address) (amount : UInt64) (bodySighashHex : String)
  | mintIn (amount : UInt64) (nullifierHex : String)
deriving DecidableEq, Repr

/-- A wallet-touching event seen while replaying a block. -/
structure TxEvent where
  l2Height : UInt32
  l1Height : UInt32
  blockTs : UInt64
  kind : ObservedTxKind
deriving DecidableEq, Repr

/-- Why a block was refused, with the values the message shows. -/
inductive VerifyError where
  | fetchBlock (height : UInt32)
  | fetchWitness (height : UInt32)
  | blockHeight (got height : UInt32)
  | endBlockHash (computed attested : H256)
  | endStateRoot (header attested : H256)
  | txsRoot (computed header : H256) (height : UInt32)
  | prevHash (height : UInt32) (block head : H256)
  | witnessHeight (got height : UInt32)
  | priorAccountsRoot (witness head : H256)
  | touchedSet (got expected : Nat)
  | l1Fetch (index : Nat) (txid : Txid) (height : UInt32) (cause : L1FetchError)
  | mint (index : Nat) (height : UInt32) (cause : MintError)
  | apply (index : Nat) (height : UInt32) (cause : ApplyError)
  | sparseUpdate (height : UInt32) (cause : SparseUpdateError)
  | stateRoot (computed header : H256) (height : UInt32)
  | observerRefresh (height : UInt32) (cause : SparseUpdateError)
  | observerProof
deriving DecidableEq, Repr

/-! ### The check -/

/-- The loop of `prefetch_l1_for_block`. -/
def prefetchFrom (esplora : EsploraClient) (height tip : UInt32) :
    Nat → List L2Tx → List (OutPoint × L1Output) →
      Except VerifyError (List (OutPoint × L1Output))
  | _, [], outputs => .ok outputs
  | i, .transfer _ :: txs, outputs => prefetchFrom esplora height tip (i + 1) txs outputs
  | i, .mint entry :: txs, outputs =>
      let op := entry.witness.outpoint
      if (outputs.lookup op).isSome then prefetchFrom esplora height tip (i + 1) txs outputs
      else
        match esplora.output tip op with
        | .error e => .error (.l1Fetch i op.txid height e)
        | .ok out => prefetchFrom esplora height tip (i + 1) txs ((op, out) :: outputs)

/-- `prefetch_l1_for_block`. -/
def prefetchL1ForBlock (esplora : EsploraClient) (block : L2Block) (tip : UInt32) :
    Except VerifyError BatchL1View := do
  let outputs ← prefetchFrom esplora block.header.height tip 0 block.txs []
  pure ⟨outputs, tip⟩

/-- The checks that only the last block of an attested range gets. -/
def checkEndAttestation (prim : Primitives) (block : L2Block) :
    Option Attestation → Except VerifyError Unit
  | none => .ok ()
  | some att => do
      ensure (block.hash prim = att.l2BlockHash) (.endBlockHash (block.hash prim) att.l2BlockHash)
      ensure (block.header.stateRoot = att.stateRoot)
        (.endStateRoot block.header.stateRoot att.stateRoot)

/-- Step 1: the block and the witness against the head, and against each other. -/
def checkStructure (prim : Primitives) (head : VerifiedHead) (height : UInt32)
    (endAttestation : Option Attestation) (block : L2Block) (witness : BlockWitness) :
    Except VerifyError Unit := do
  ensure (block.header.height = height) (.blockHeight block.header.height height)
  checkEndAttestation prim block endAttestation
  let computedTxsRoot := computeTxsRoot prim block.txs
  ensure (computedTxsRoot = block.header.txsRoot)
    (.txsRoot computedTxsRoot block.header.txsRoot height)
  ensure (block.header.prevHash = head.blockHash)
    (.prevHash height block.header.prevHash head.blockHash)
  ensure (witness.height = height) (.witnessHeight witness.height height)
  ensure (witness.priorAccountsRoot = head.accountsRoot)
    (.priorAccountsRoot witness.priorAccountsRoot head.accountsRoot)
  let expected := touchedAddresses block.txs head.sequencerFeeAddress
  let got := (witness.preProofs.map (·.address)).mergeSort fun a b => (compare a b).isLE
  ensure (expected = got) (.touchedSet got.length expected.length)

/-- The account a pre-proof shows, inserted. -/
def insertPreProof (accounts : AccountMap) (p : InclusionProof) : AccountMap :=
  match p.leaf with
  | .account balance nonce => accounts.insert p.address ⟨balance, nonce⟩
  | .empty => accounts

/-- The accounts the pre-proofs show. -/
def sparseAccounts (preProofs : List InclusionProof) : AccountMap :=
  preProofs.foldl insertPreProof ∅

/-- Step 3's starting ledger. -/
def sparseLedger (head : VerifiedHead) (witness : BlockWitness) : LedgerState :=
  { accounts := sparseAccounts witness.preProofs
    consumedNullifiers := head.consumedNullifiers
    totalMintedAtoms := head.totalMintedAtoms
    sequencerFeeAddress := head.sequencerFeeAddress }

/-- Step 3b, for one transaction. -/
def observeTx (prim : Primitives) (ownAddress : XOnlyPublicKey) (height : UInt32)
    (header : L2BlockHeader) (tx : L2Tx) : List TxEvent :=
  let event kind := TxEvent.mk height header.l1Height header.timestamp kind
  match tx with
  | .mint entry =>
      if entry.event.l2Destination = ownAddress then
        [event (.mintIn entry.event.amount entry.event.nullifierHex)]
      else []
  | .transfer t =>
      let sighashHex := hexEncode (t.body.sighash prim).raw
      (if t.body.recipient = ownAddress then
        [event (.transferIn t.body.sender t.body.amount sighashHex)] else []) ++
      (if t.body.sender = ownAddress then
        [event (.transferOut t.body.recipient t.body.amount sighashHex)] else [])

/-- Step 4's update list. -/
def sparseUpdates (preProofs : List InclusionProof) (sparse : LedgerState) : List Update :=
  preProofs.map fun p => ⟨p, leafKindOf sparse.accounts[p.address]?⟩

/-- Step 4: the new accounts root. -/
def newAccountsRoot (prim : Primitives) (height : UInt32) (updates : List Update)
    (priorRoot : H256) : Except VerifyError H256 :=
  if updates.isEmpty then .ok priorRoot
  else mapErr (.sparseUpdate height) (applyUpdates prim updates priorRoot)

/-- Step 6: the wallet's own leaf and path under the new root. -/
def refreshOwn (prim : Primitives) (height : UInt32) (observerPre : InclusionProof)
    (updates : List Update) (priorRoot : H256) : Except VerifyError InclusionProof :=
  if updates.isEmpty then .ok observerPre
  else mapErr (.observerRefresh height) (refreshObserver prim observerPre updates priorRoot)

/-- `verify_one_l2_block`: the new head, and the events the block shows the wallet. -/
def verifyOneL2Block (prim : Primitives) (head : VerifiedHead) (height : UInt32)
    (endAttestation : Option Attestation) (l1Tip : UInt32) (api : ApiClient)
    (esplora : EsploraClient) : Except VerifyError (VerifiedHead × List TxEvent) := do
  let block ← okOr (api.getBlock height) (.fetchBlock height)
  let witness ← okOr (api.getWitness height) (.fetchWitness height)
  checkStructure prim head height endAttestation block witness
  let l1View ← prefetchL1ForBlock esplora block l1Tip
  mapErr (fun e => .mint e.1 height e.2) (verifyMints prim l1View.view block.txs)
  let sparse ← mapErr (fun e => .apply e.1 height e.2)
    ((sparseLedger head witness).replay prim block.txs)
  let events := block.txs.flatMap (observeTx prim head.ownAddress height block.header)
  let updates := sparseUpdates witness.preProofs sparse
  let newRoot ← newAccountsRoot prim height updates head.accountsRoot
  let newComponents : StateComponents :=
    { accountsRoot := newRoot
      nullifiersHash := sparse.nullifiersHash prim
      sequencerFeeAddress := sparse.sequencerFeeAddress }
  let newStateRoot := newComponents.stateRoot prim
  ensure (newStateRoot = block.header.stateRoot)
    (.stateRoot newStateRoot block.header.stateRoot height)
  let observerPre : InclusionProof := ⟨head.ownAddress, head.ownLeaf, head.ownPath⟩
  let observerPost ← refreshOwn prim height observerPre updates head.accountsRoot
  ensure (observerPost.verify prim newRoot = true) .observerProof
  pure
    ({ stateRoot := newStateRoot
       accountsRoot := newRoot
       l2Height := height
       blockHash := block.hash prim
       l1Height := block.header.l1Height
       anchorOutpoint := head.anchorOutpoint
       ownAddress := head.ownAddress
       ownLeaf := observerPost.leaf
       ownPath := observerPost.siblings
       consumedNullifiers := sparse.consumedNullifiers
       totalMintedAtoms := sparse.totalMintedAtoms
       sequencerFeeAddress := sparse.sequencerFeeAddress }, events)

end Hodlchain
