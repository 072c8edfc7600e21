/-
The wallet's operations.

An operation works on the wallet in memory and asks servers on the way; saving the
wallet is up to the caller.  What it asks, and the clock and the randomness it reads,
are its `Surroundings`.
-/
import Hodlchain.Wallet.Balance
import Hodlchain.Wallet.Reclaim

namespace Hodlchain.Wallet

open Bytes

/-- `AddressUtxo`. -/
structure AddressUtxo where
  txid : Txid
  vout : UInt32
  value : UInt64
  status : Hodlchain.TxStatus
deriving DecidableEq, Repr

/-- What one run of an operation meets; `none` is a failed request.  The L1 of `light` is that of
the walk, and the history is refreshed under `esplora`. -/
structure Surroundings where
  esplora : EsploraServer
  addressUtxos : L1Address → Option (List AddressUtxo)
  broadcast : Transaction → Option Txid
  /-- Who answers a light balance, stage by stage: the node, or the sequencer where none is
  configured. -/
  light : Stages
  balanceViaSequencer : L2Address → Option BalanceResponse
  submitMint : MintProofEnvelope → L2Address → Option SubmitMintResponse
  submitTransfer : SignedTransfer → Option SubmitTransferResponse
  /-- Successive readings of the clock. -/
  now : Nat → UInt64
  /-- Successive draws. -/
  random : Nat → UInt64
  aux : ByteArr 32
  /-- How many attestations the light client walks. -/
  fuel : Nat

/-- The libraries the wallet is written over. -/
structure Libraries where
  bech32 : Bech32
  cipher : Cipher
  keys : KeyDerivation
  btc : BitcoinCrate

inductive OpError where
  | keys (cause : KeyError)
  | address (s : String) (cause : Address.AddressError)
  | lockBlocksRange (max : UInt32)
  | lockBlocks (got : UInt32) (cause : MintConstructionError)
  | allocate (cause : AllocateError)
  | noMintRecord (bip32Index : UInt32)
  | parseMintAddress
  | mintAddressNetwork (network : NetworkName)
  | addressUtxos
  | notFunded (bip32Index : UInt32) (mintAddress : String)
  | outpoint (cause : OutpointError)
  | tipHeight
  | submitMint
  | balanceRequest
  | submitTransfer
  | light (cause : LightBalanceError)
  | alreadyReclaimed (bip32Index : UInt32)
  | noFundingUtxo (bip32Index : UInt32)
  | noValue (bip32Index : UInt32)
  | notConfirmed (bip32Index : UInt32)
  | parseDestination (s : String)
  | destinationNetwork (network : NetworkName)
  | notReclaimable (remaining unlockHeight tip : UInt32)
  | reclaimTx (cause : ReclaimTxError)
  | broadcast
deriving DecidableEq, Repr

/-- An operation on the wallet in memory. -/
abbrev Op (α : Type) : Type := Action WalletFile OpError α

section

variable (prim : Primitives) (libs : Libraries)

/-! ### Keygen -/

structure KeygenInput where
  network : NetworkName
  sequencerUrl : String
  nodeUrl : Option String
  esploraUrl : String
  /-- The phrase to restore from. -/
  mnemonic : Option String
deriving DecidableEq, Repr

structure KeygenOutput where
  l2Address : String
  mnemonic : String
  wasFresh : Bool
deriving DecidableEq, Repr

inductive KeygenError where
  | parseMnemonic
  | generateMnemonic
  | keys (cause : KeyError)
deriving DecidableEq, Repr

/-- The phrase of a new wallet: the one supplied, or one that `generate(24)` draws. -/
def keygenPhrase (supplied generated : Option String) : Except KeygenError (String × Bool) :=
  match supplied with
  | some supplied => do
      let (phrase, _) ← okOr (libs.keys.parseMnemonic supplied) .parseMnemonic
      pure (phrase, false)
  | none => do
      let phrase ← okOr generated .generateMnemonic
      pure (phrase, true)

/-- `keygen`. -/
def keygen (input : KeygenInput) (generated : Option String) :
    Except KeygenError (WalletFile × KeygenOutput) := do
  let (phrase, wasFresh) ← keygenPhrase libs input.mnemonic generated
  let wf : WalletFile :=
    { network := input.network
      mnemonic := phrase
      sequencerUrl := input.sequencerUrl
      nodeUrl := input.nodeUrl
      esploraUrl := input.esploraUrl
      nextMintIndex := 0
      mints := []
      verifiedHead := none
      transactions := []
      encryptionCtx := none }
  let l2Address ← mapErr .keys (wf.xonlyPubkey libs.keys)
  pure (wf, ⟨Address.encode libs.bech32 l2Address wf.network, phrase, wasFresh⟩)

/-! ### Mint output -/

structure MintUtxoInput where
  lockBlocks : UInt32
deriving DecidableEq, Repr

structure MintUtxoOutput where
  bip32Index : UInt32
  lockBlocks : UInt32
  mintAddress : String
deriving DecidableEq, Repr

/-- `mint_address`. -/
def mintAddress (lockBlocks : UInt32) (userPk : XOnlyPublicKey) (network : NetworkName) :
    Except MintConstructionError String := do
  let spk ← expectedP2trSpk prim lockBlocks userPk
  pure (libs.btc.p2trAddress spk network)

/-- `mint_utxo`. -/
def mintUtxo (input : MintUtxoInput) : Op MintUtxoOutput := do
  let lockBlocks := input.lockBlocks
  Action.lift (ensure (¬ (lockBlocks = 0 ∨ lockBlocks > maxLockBlocks))
    (.lockBlocksRange maxLockBlocks))
  let wf ← Action.get
  Action.lift (mapErr (.lockBlocks lockBlocks) (validateLockBlocks lockBlocks))
  let (mintKp, bip32Index) ← Action.mapErr .allocate (WalletFile.allocateMintKeypair libs.keys)
  -- The lock was validated, so the source unwraps this.
  let address ← Action.lift (mapErr (.lockBlocks lockBlocks)
    (mintAddress prim libs lockBlocks mintKp.xOnlyPublicKey wf.network))
  Action.modify fun wf => wf.appendMint
    { mintAddress := address
      lockBlocks := lockBlocks
      bip32Index := bip32Index
      outpoint := none
      valueSat := none
      fundedAtHeight := none
      minted := false
      reclaimed := false }
  pure ⟨bip32Index, lockBlocks, address⟩

/-! ### Funding -/

structure CheckMintFundingInput where
  bip32Index : UInt32
deriving DecidableEq, Repr

inductive MintFundingState where
  | unfunded
  | pending
  | confirmed
deriving DecidableEq, Repr

structure CheckMintFundingOutput where
  bip32Index : UInt32
  mintAddress : String
  state : MintFundingState
  outpoint : Option String
  valueSat : Option UInt64
  fundedAtHeight : Option UInt32
deriving DecidableEq, Repr

/-- The deposit of a mint, as the history shows it from its first confirmed sight on. -/
def depositRecord (w : Surroundings) (mintAddress : String) (bip32Index : UInt32) (u : AddressUtxo)
    (height : UInt32) : TxRecord :=
  { id := newTxId (w.random 0)
    kind := .l1Deposit
    createdTs := w.now 0
    amount := u.value
    feeAtoms := none
    feeSat := none
    counterparty := some mintAddress
    status := .inBlock 0 height (w.now 1)
    l1Txid := some u.txid.toStr
    l2Sighash := none
    bip32Index := some bip32Index
    note := none }

/-- What `check_mint_funding` records of a confirmed output. -/
def recordFunding (w : Surroundings) (mintAddress : String) (bip32Index : UInt32) (u : AddressUtxo)
    (height : UInt32) (wf : WalletFile) : WalletFile :=
  let wf := wf.updateMintByIndex bip32Index fun r =>
    { r with
      outpoint := some (showOutpoint u.txid u.vout)
      valueSat := some u.value
      fundedAtHeight := some height }
  if (wf.findL1DepositTx bip32Index).isNone then
    wf.appendTx (depositRecord w mintAddress bip32Index u height)
  else wf

/-- `check_mint_funding`. -/
def checkMintFunding (w : Surroundings) (input : CheckMintFundingInput) :
    Op CheckMintFundingOutput := do
  let wf ← Action.get
  let record ← Action.lift (okOr (wf.findMintByIndex input.bip32Index)
    (.noMintRecord input.bip32Index))
  if record.outpoint.isSome ∧ record.fundedAtHeight.isSome then
    pure ⟨record.bip32Index, record.mintAddress, .confirmed, record.outpoint, record.valueSat,
      record.fundedAtHeight⟩
  else do
    let address ← Action.lift (okOr (libs.btc.parseAddress record.mintAddress) .parseMintAddress)
    Action.lift (ensure (libs.btc.isOnNetwork address wf.network = true)
      (.mintAddressNetwork wf.network))
    let utxos ← Action.lift (okOr (w.addressUtxos address) .addressUtxos)
    match utxos with
    | [] => pure ⟨record.bip32Index, record.mintAddress, .unfunded, none, none, none⟩
    | u :: _ =>
        let outpoint := showOutpoint u.txid u.vout
        match u.status.blockHeight with
        | none => pure ⟨record.bip32Index, record.mintAddress, .pending, some outpoint,
          some u.value, none⟩
        | some height => do
            Action.modify (recordFunding w record.mintAddress input.bip32Index u height)
            pure ⟨record.bip32Index, record.mintAddress, .confirmed, some outpoint, some u.value,
              some height⟩

/-! ### Mint message -/

structure MintMessageInput where
  bip32Index : UInt32
  /-- `to` in the source. -/
  recipient : Option String
deriving DecidableEq, Repr

structure MintMessageOutput where
  accepted : Bool
  mintAmount : Option UInt64
  nullifierHex : Option String
  error : Option String
  softConf : Option SoftConf
deriving DecidableEq, Repr

/-- An address the user gave, or the wallet's own. -/
def addressOr (own : L2Address) (network : NetworkName) :
    Option String → Except OpError L2Address
  | some s => mapErr (.address s) (Address.decodeFor libs.bech32 s network)
  | none => .ok own

/-- A mint message in the history, as the sequencer answered it. -/
def mintRecordOf (w : Surroundings) (counterparty : String) (bip32Index : UInt32)
    (resp : SubmitMintResponse) :
    TxRecord :=
  { id := newTxId (w.random 0)
    kind := .l2MintApply
    createdTs := w.now 0
    amount := if resp.accepted then resp.mintAmount.getD 0 else 0
    feeAtoms := none
    feeSat := none
    counterparty := some counterparty
    status :=
      if resp.accepted then .soft (w.now 1)
      else .failed (resp.error.getD "sequencer rejected mint (no error string)") (w.now 1)
    l1Txid := none
    l2Sighash := if resp.accepted then resp.nullifierHex else none
    bip32Index := some bip32Index
    note := none }

/-- What `mint_message` records of an answer. -/
def recordMint (w : Surroundings) (counterparty : String) (bip32Index : UInt32)
    (resp : SubmitMintResponse) (wf : WalletFile) : WalletFile :=
  let wf := if resp.accepted then wf.updateMintByIndex bip32Index fun r =>
    { r with minted := true } else wf
  wf.appendTx (mintRecordOf w counterparty bip32Index resp)

/-- `mint_message`. -/
def mintMessage (w : Surroundings) (input : MintMessageInput) : Op MintMessageOutput := do
  let wf ← Action.get
  let l2Identity ← Action.lift (mapErr .keys (wf.xonlyPubkey libs.keys))
  let record ← Action.lift (okOr (wf.findMintByIndex input.bip32Index)
    (.noMintRecord input.bip32Index))
  let outpointS ← Action.lift
    (okOr record.outpoint (.notFunded input.bip32Index record.mintAddress))
  let outpoint ← Action.lift (mapErr .outpoint (parseOutpoint outpointS))
  let l2Destination ← Action.lift (addressOr libs l2Identity wf.network input.recipient)
  let mintKp ← Action.lift (mapErr .keys (wf.mintKeypair libs.keys record.bip32Index))
  let claimedBlockHeight ← Action.lift (okOr w.esplora.tipHeight .tipHeight)
  let sighash := OutpointProof.sighash prim outpoint claimedBlockHeight l2Destination
  let proof : OutpointProof :=
    { outpoint := outpoint
      userXonlyPubkey := mintKp.xOnlyPublicKey
      lockBlocks := record.lockBlocks
      claimedBlockHeight := claimedBlockHeight
      signature := mintKp.signSchnorr w.aux sighash }
  let resp ← Action.lift (okOr (w.submitMint (.v0Outpoint proof) l2Destination) .submitMint)
  Action.modify (recordMint w (Address.encode libs.bech32 l2Destination wf.network)
    input.bip32Index resp)
  pure ⟨resp.accepted, resp.mintAmount, resp.nullifierHex, resp.error, resp.softConf⟩

/-! ### Transfer -/

structure TransferInput where
  /-- `to` in the source. -/
  recipient : String
  amount : UInt64
deriving DecidableEq, Repr

structure TransferOutput where
  accepted : Bool
  error : Option String
  fee : UInt64
  total : UInt64
  softConf : Option SoftConf
deriving DecidableEq, Repr

/-- `compute_transfer_fee`. -/
def computeTransferFee (amount : UInt64) : UInt64 := max minFee (satMul amount feeBps / 10000)

/-- A transfer in the history, as the sequencer answered it. -/
def transferRecordOf (w : Surroundings) (counterparty sighashHex : String) (amount : UInt64)
    (resp : SubmitTransferResponse) : TxRecord :=
  { id := newTxId (w.random 0)
    kind := .l2TransferSent
    createdTs := w.now 0
    amount := amount
    feeAtoms := some (computeTransferFee amount)
    feeSat := none
    counterparty := some counterparty
    status :=
      if resp.accepted then .soft (w.now 1)
      else .failed (resp.error.getD "sequencer rejected transfer (no error string)") (w.now 1)
    l1Txid := none
    l2Sighash := some sighashHex
    bip32Index := none
    note := none }

/-- `transfer`. -/
def transfer (w : Surroundings) (input : TransferInput) : Op TransferOutput := do
  let wf ← Action.get
  let kp ← Action.lift (mapErr .keys (wf.l2IdentityKeypair libs.keys))
  let sender ← Action.lift (mapErr .keys (wf.xonlyPubkey libs.keys))
  let recipient ← Action.lift (mapErr (.address input.recipient)
    (Address.decodeFor libs.bech32 input.recipient wf.network))
  let bal ← Action.lift (okOr (w.balanceViaSequencer sender) .balanceRequest)
  let body : TransferBody :=
    { sender := sender
      recipient := recipient
      amount := input.amount
      nonce := bal.effectiveNonce }
  let sighash := body.sighash prim
  let resp ← Action.lift
    (okOr (w.submitTransfer ⟨body, kp.signSchnorr w.aux sighash⟩) .submitTransfer)
  let fee := computeTransferFee input.amount
  Action.modify fun wf => wf.appendTx
    (transferRecordOf w (Address.encode libs.bech32 recipient wf.network)
    (hexEncode sighash.raw) input.amount resp)
  pure ⟨resp.accepted, resp.error, fee, satAdd input.amount fee, resp.softConf⟩

/-! ### The history after a walk -/

/-- `REORG_FINALITY_DEPTH`, the wallet's. -/
def reorgFinalityDepth : UInt32 := 2

def TxStatus.isFinalized : TxStatus → Bool
  | .finalized .. => true
  | _ => false

/-- A record of this kind for this sighash or nullifier. -/
def TxRecord.isFor (kind : TxKind) (key : String) (t : TxRecord) : Bool :=
  t.kind = kind ∧ t.l2Sighash = some key

/-- An event seen on chain that the wallet may have submitted itself: the record of it, if there
is one, moves to `status`, and otherwise `record` is new. -/
def observe (key : String) (record : TxRecord) (wf : WalletFile) : WalletFile :=
  if wf.transactions.any (TxRecord.isFor record.kind key) then
    { wf with
      transactions := modifyFirst (TxRecord.isFor record.kind key)
        (fun t => if t.status.isFinalized then t else { t with status := record.status })
        wf.transactions }
  else wf.appendTx record

/-- One round of `project_events`, the `i`-th. -/
def projectEvent (w : Surroundings) (wf : WalletFile) (ev : TxEvent) (i : Nat) : WalletFile :=
  let includedTs := if ev.blockTs ≠ 0 then ev.blockTs else w.now i
  let record (kind : TxKind) (amount : UInt64) (counterparty : Option String) (key : String) :
      TxRecord :=
    { id := newTxId (w.random i)
      kind := kind
      createdTs := includedTs
      amount := amount
      feeAtoms := none
      feeSat := none
      counterparty := counterparty
      status := .inBlock ev.l2Height ev.l1Height includedTs
      l1Txid := none
      l2Sighash := some key
      bip32Index := none
      note := none }
  match ev.kind with
  | .transferIn sender amount key =>
      if wf.transactions.any (TxRecord.isFor .l2TransferReceived key) then wf
      else wf.appendTx (record .l2TransferReceived amount (some (hexEncode sender.serialize)) key)
  | .transferOut recipient amount key =>
      observe key (record .l2TransferSent amount (some (hexEncode recipient.serialize)) key) wf
  | .mintIn amount key => observe key (record .l2MintApply amount none key) wf

/-- `project_events`. -/
def projectEvents (w : Surroundings) (events : List TxEvent) (wf : WalletFile) : WalletFile :=
  events.zipIdx.foldl (fun wf (ev, i) => projectEvent w wf ev i) wf

/-- Where Esplora has an unconfirmed L1 record confirmed. -/
def confirmedAt (esplora : EsploraServer) (t : TxRecord) : Option UInt32 :=
  match t.status with
  | .l1Mempool _ =>
      t.l1Txid.bind fun hex => (Txid.fromStr hex).bind fun txid =>
        (esplora.getTx txid).bind fun info =>
        info.status.blockHeight
  | _ => none

/-- Pass 1 of `finalize_and_refresh`: which records have confirmed since, and where. -/
def promotions (esplora : EsploraServer) (txs : List TxRecord) : List (Nat × UInt32) :=
  txs.zipIdx.filterMap fun (t, i) => (confirmedAt esplora t).map fun h => (i, h)

/-- Pass 2 of `finalize_and_refresh`: a record that is deep enough. -/
def settle (l1Tip : UInt32) : TxStatus → TxStatus
  | .inBlock l2Height l1Height includedTs =>
      if satSub32 l1Tip l1Height ≥ reorgFinalityDepth then .finalized l2Height l1Height
      else .inBlock l2Height l1Height includedTs
  | status => status

/-- `finalize_and_refresh`, and whether a record changed; `reading` is the clock's next. -/
def finalizeAndRefresh (w : Surroundings) (l1Tip : UInt32) (reading : Nat) (wf : WalletFile) :
    Bool × WalletFile :=
  let promoted := promotions w.esplora wf.transactions
  let txs := promoted.zipIdx.foldl
    (fun txs ((i, h), k) => txs.modify i fun t =>
      { t with status := .inBlock 0 h (w.now (reading + k)) })
    wf.transactions
  let settled := txs.map fun t => { t with status := settle l1Tip t.status }
  (!promoted.isEmpty || settled != txs, { wf with transactions := settled })

/-! ### Light balance -/

structure LightBalanceInput where
  addr : Option String
deriving DecidableEq, Repr

/-- `light_balance`. -/
def lightBalance (w : Surroundings) (input : LightBalanceInput) : Op LightBalanceOutput := do
  let wf ← Action.get
  let ownAddr ← Action.lift (mapErr .keys (wf.xonlyPubkey libs.keys))
  let target ← Action.lift (addressOr libs ownAddr wf.network input.addr)
  Action.lift (mapErr .light (checkTracked ownAddr wf.verifiedHead))
  -- `take()`: from here on an error leaves the wallet without a head.
  Action.modify fun wf => { wf with verifiedHead := none }
  let (head, mode, blocksVerified, events) ← Action.lift
    (mapErr .light (lightWalk prim w.fuel w.light ownAddr wf.verifiedHead))
  Action.modify (projectEvents w events)
  let l1Tip := w.esplora.tipHeight.getD head.l1Height
  Action.modify fun wf => (finalizeAndRefresh w l1Tip events.length wf).2
  let (head, output) ← Action.lift
    (mapErr .light (lightRead prim w.light ownAddr target mode blocksVerified head))
  Action.modify fun wf => { wf with verifiedHead := some head }
  pure output

/-! ### Reclaim -/

structure ReclaimMintInput where
  bip32Index : UInt32
  destAddress : String
  feeSat : UInt64
deriving DecidableEq, Repr

structure ReclaimMintOutput where
  txid : Txid
  valueSatIn : UInt64
  valueSatOut : UInt64
  feeSat : UInt64
deriving DecidableEq, Repr

/-- `u64::saturating_sub`. -/
def satSub (a b : UInt64) : UInt64 := if b ≤ a then a - b else 0

/-- A reclaim in the history, just broadcast. -/
def reclaimRecordOf (w : Surroundings) (dest : L1Address) (input : ReclaimMintInput)
    (valueSat : UInt64) (txid : Txid) : TxRecord :=
  { id := newTxId (w.random 0)
    kind := .l1Reclaim
    createdTs := w.now 0
    amount := satSub valueSat input.feeSat
    feeAtoms := none
    feeSat := some input.feeSat
    counterparty := some dest.text
    status := .l1Mempool (w.now 1)
    l1Txid := some txid.toStr
    l2Sighash := none
    bip32Index := some input.bip32Index
    note := none }

/-- What `reclaim_mint` records of a broadcast. -/
def recordReclaim (w : Surroundings) (dest : L1Address) (input : ReclaimMintInput)
    (valueSat : UInt64) (txid : Txid) (wf : WalletFile) : WalletFile :=
  (wf.updateMintByIndex input.bip32Index fun r => { r with reclaimed := true }).appendTx
    (reclaimRecordOf w dest input valueSat txid)

/-- `reclaim_mint`. -/
def reclaimMint (w : Surroundings) (input : ReclaimMintInput) : Op ReclaimMintOutput := do
  let wf ← Action.get
  let bip32Index := input.bip32Index
  let record ← Action.lift (okOr (wf.findMintByIndex bip32Index) (.noMintRecord bip32Index))
  Action.lift (ensure (record.reclaimed = false) (.alreadyReclaimed bip32Index))
  let outpointS ← Action.lift (okOr record.outpoint (.noFundingUtxo bip32Index))
  let outpoint ← Action.lift (mapErr .outpoint (parseOutpoint outpointS))
  let valueSat ← Action.lift (okOr record.valueSat (.noValue bip32Index))
  let fundedAt ← Action.lift (okOr record.fundedAtHeight (.notConfirmed bip32Index))
  let dest ← Action.lift (okOr (libs.btc.parseAddress input.destAddress)
    (.parseDestination input.destAddress))
  Action.lift (ensure (libs.btc.isOnNetwork dest wf.network = true)
    (.destinationNetwork wf.network))
  let tip ← Action.lift (okOr w.esplora.tipHeight .tipHeight)
  let unlockHeight := satAdd32 fundedAt record.lockBlocks
  Action.lift (ensure (¬ satAdd32 tip 1 < unlockHeight)
    (.notReclaimable (satSub32 unlockHeight (satAdd32 tip 1)) unlockHeight tip))
  let mintKp ← Action.lift (mapErr .keys (wf.mintKeypair libs.keys record.bip32Index))
  let tx ← Action.lift (mapErr .reclaimTx
    (buildSignedReclaimTx prim libs.btc mintKp outpoint valueSat
    record.lockBlocks dest input.feeSat))
  let txid ← Action.lift (okOr (w.broadcast tx) .broadcast)
  Action.modify (recordReclaim w dest input valueSat txid)
  pure ⟨txid, valueSat, satSub valueSat input.feeSat, input.feeSat⟩

end

/-- An instance to evaluate on: every phrase is a mnemonic, and every key derives to one. -/
def Libraries.sample : Libraries where
  bech32 :=
    { encode := fun hrp data => hrp ++ "1" ++ hexEncode data
      decode := fun s => (splitOnce '1' s.toList).bind fun (hrp, data) =>
        (hexDecode (String.ofList data)).map fun data => (String.ofList hrp, data)
      isKey := fun _ => true }
  cipher := .sample
  keys :=
    { parseMnemonic := fun phrase => some (phrase, utf8 phrase)
      newMaster := fun _ seed => some seed
      derivePriv := fun _ _ =>
        some ⟨⟨ByteArr.ofNat 32 7⟩, fun _ _ => ⟨ByteArr.ofNat 64 0⟩, fun _ =>
          ⟨ByteArr.ofNat 64 0⟩⟩ }
  btc :=
    { parseAddress := fun s => some ⟨s, utf8 s⟩
      isOnNetwork := fun _ _ => true
      p2trAddress := fun spk _ => hexEncode spk
      controlBlock := fun _ data => some data
      scriptSpendSighash := fun _ _ _ => some H256.zero
      verifyCommitment := fun _ _ _ => true }

/-- Servers that know of nothing. -/
def Surroundings.quiet : Surroundings where
  esplora := ⟨⟨fun _ => none⟩, fun _ => none, fun _ _ => none, none⟩
  addressUtxos _ := some []
  broadcast _ := none
  light := .all ⟨⟨fun _ => none, fun _ => none⟩, fun _ => none, none⟩
    ⟨⟨fun _ => none⟩, fun _ => none, fun _ _ => none, none⟩
  balanceViaSequencer _ := none
  submitMint _ _ := none
  submitTransfer _ := none
  now _ := 0
  random _ := 0
  aux := ByteArr.ofNat 32 0
  fuel := 0

/-- The fee shown is the one the ledger takes. -/
theorem computeTransferFee_eq (amount : UInt64) :
    computeTransferFee amount = LedgerState.transferFee amount := rfl

end Hodlchain.Wallet
