/-
What the sequencer's HTTP server and its producer share.

The mempool holds what `submit_mint` and `submit_transfer` accepted and no block
has drained yet.  The answers depend on it and on the ledger at the head; only the
producer changes that ledger.
-/
import Hodlchain.Core.Proof
import Hodlchain.Core.Rpc
import Hodlchain.Sequencer.Store

namespace Hodlchain.Sequencer

structure Mempool where
  mints : List MintEntry
  transfers : List SignedTransfer
  /-- Nullifiers in the mempool but not yet committed to state. -/
  pendingNullifiers : NullifierSet

/-- `Mempool::default`, and what `drain` leaves. -/
def Mempool.empty : Mempool := ⟨[], [], ∅⟩

/-- `Mempool::drain`. -/
def Mempool.drain (m : Mempool) : (List MintEntry × List SignedTransfer) × Mempool :=
  ((m.mints, m.transfers), .empty)

structure HeadInfo where
  height : UInt32
  blockHash : H256
  stateRoot : H256
  l1Height : UInt32
  l1BlockHash : H256
deriving DecidableEq, Repr

/-- An identity key, as far as it is used: its public half and what it signs. -/
structure Keypair where
  xOnlyPublicKey : XOnlyPublicKey
  /-- `sign_schnorr_no_aux_rand`. -/
  signSchnorr : H256 → Signature

structure Shared where
  state : LedgerState
  mempool : Mempool
  head : HeadInfo
  identity : Keypair

/-- `Shared::new`. -/
def Shared.new (state : LedgerState) (head : HeadInfo) (identity : Keypair) : Shared :=
  ⟨state, .empty, head, identity⟩

/-- `identity_pubkey`. -/
def Shared.identityPubkey (s : Shared) : XOnlyPublicKey := s.identity.xOnlyPublicKey

/-- `AppState`: the shared state and the store, also those of the producer. -/
structure AppState where
  shared : Shared
  store : Store

/-! ### The API -/

section

variable (prim : Primitives)

/-- `sign_soft_conf`, at Unix time `now`. -/
def signSoftConf (shared : Shared) (txHash : H256) (now : UInt64) : SoftConf :=
  let targetL2Height := shared.head.height + 1
  { txHash := txHash
    targetL2Height := targetL2Height
    acceptedAtUnix := now
    sequencerSig := shared.identity.signSchnorr (SoftConf.sighash prim txHash targetL2Height now) }

/-- A mint refused, with what the client is told. -/
def rejectMint (text : String) : SubmitMintResponse := ⟨false, some text, none, none, none⟩

/-- `submit_mint`. -/
def submitMint (l1 : L1View) (now : UInt64) (proof : MintProofEnvelope) (l2Destination : L2Address)
    (app : AppState) : SubmitMintResponse × AppState :=
  match proof.verify prim l1 l2Destination with
  | .error e => (rejectMint e.text, app)
  | .ok credit =>
      let nullifierHex := credit.event.nullifierHex
      if nullifierHex ∈ app.shared.state.consumedNullifiers then
        (rejectMint "nullifier already consumed", app)
      else if nullifierHex ∈ app.shared.mempool.pendingNullifiers then
        (rejectMint "nullifier already in mempool", app)
      else
        let mintEntry : MintEntry := ⟨credit.event, proof⟩
        let mempool :=
          { app.shared.mempool with
            pendingNullifiers := app.shared.mempool.pendingNullifiers.insert nullifierHex
            mints := app.shared.mempool.mints ++ [mintEntry] }
        let shared := { app.shared with mempool := mempool }
        ({ accepted := true
           error := none
           mintAmount := some credit.event.amount
           nullifierHex := some nullifierHex
           softConf := some (signSoftConf prim shared ((L2Tx.mint mintEntry).hash prim) now) },
          { app with shared := shared })

/-- A transfer refused, with what the client is told. -/
def rejectTransfer (text : String) : SubmitTransferResponse := ⟨false, some text, none⟩

/-- `submit_transfer`: the signature, and the nonce against the committed state. -/
def submitTransfer (now : UInt64) (transfer : SignedTransfer) (app : AppState) :
    SubmitTransferResponse × AppState :=
  if !prim.verifySchnorr transfer.signature (transfer.body.sighash prim) transfer.body.sender then
    (rejectTransfer "bad signature", app)
  else
    let expected := app.shared.state.nonceOf transfer.body.sender
    if transfer.body.nonce ≠ expected then
      (rejectTransfer s!"nonce mismatch: expected {expected}, got {transfer.body.nonce}", app)
    else
      let mempool :=
        { app.shared.mempool with transfers := app.shared.mempool.transfers ++ [transfer] }
      let shared := { app.shared with mempool := mempool }
      ({ accepted := true
         error := none
         softConf := some (signSoftConf prim shared ((L2Tx.transfer transfer).hash prim) now) },
        { app with shared := shared })

/-- How many transfers in the mempool are from `addr`. -/
def Mempool.pendingFrom (m : Mempool) (addr : L2Address) : Nat :=
  (m.transfers.filter fun t => t.body.sender = addr).length

/-- `get_balance`. -/
def getBalance (addr : L2Address) (app : AppState) : BalanceResponse :=
  let effectiveNonce :=
    satAdd (app.shared.state.nonceOf addr) (UInt64.ofNat (app.shared.mempool.pendingFrom addr))
  app.shared.state.balanceResponse prim app.shared.head.height addr effectiveNonce

end

end Hodlchain.Sequencer
