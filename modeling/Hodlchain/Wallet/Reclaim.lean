/-
The reclaim spend of a mint output.

A script-path spend of the CSV leaf: the input's sequence is the relative lock, and
the witness is the signature, the leaf and its control block.
-/
import Hodlchain.Bitcoin.Chain
import Hodlchain.Core.Consensus
import Hodlchain.Wallet.WalletFile

namespace Hodlchain.Wallet

open Bytes

structure TxIn where
  previousOutput : OutPoint
  sequence : UInt32
  witness : List Bytes
deriving DecidableEq, Repr

structure Transaction where
  version : UInt32
  lockTime : UInt32
  input : List TxIn
  output : List TxOut
deriving DecidableEq, Repr

/-- An L1 address: how it prints, and the script it pays to. -/
structure L1Address where
  text : String
  scriptPubkey : ScriptBuf
deriving DecidableEq, Repr

/-- The rust-bitcoin crate, as the wallet calls it. -/
structure BitcoinCrate where
  /-- `Address::from_str`. -/
  parseAddress : String → Option L1Address
  /-- `require_network(network).is_ok()`. -/
  isOnNetwork : L1Address → NetworkName → Bool
  /-- `Address::p2tr_tweaked`, by the output script. -/
  p2trAddress : ScriptBuf → NetworkName → String
  /-- The serialised control block of the first leaf in the tree of the two. -/
  controlBlock : ScriptBuf → ScriptBuf → Option Bytes
  /-- `taproot_script_spend_signature_hash` of input 0, with the output it spends and the leaf. -/
  scriptSpendSighash : Transaction → TxOut → ScriptBuf → Option H256
  /-- `verify_taproot_commitment`, for an output script, a control block and a leaf. -/
  verifyCommitment : ScriptBuf → Bytes → ScriptBuf → Bool

inductive ReclaimTxError where
  | lockBlocks (got : UInt32)
  | fee (feeSat valueSat : UInt64)
  | construction (cause : MintConstructionError)
  | controlBlock
  | sighash
  | commitment
deriving DecidableEq, Repr

/-- `Sequence::from_height`. -/
def sequenceFromHeight (height : UInt16) : UInt32 := height.toUInt32

/-- `build_signed_reclaim_tx`; the fee is below the value, so the output does not underflow. -/
def buildSignedReclaimTx (prim : Primitives) (btc : BitcoinCrate) (mintKp : Keypair)
    (mintOutpoint : OutPoint) (mintValueSat : UInt64) (lockBlocks : UInt32)
    (destAddress : L1Address) (feeSat : UInt64) : Except ReclaimTxError Transaction := do
  ensure (¬ (lockBlocks = 0 ∨ lockBlocks > maxLockBlocks)) (.lockBlocks lockBlocks)
  ensure (¬ feeSat ≥ mintValueSat) (.fee feeSat mintValueSat)
  let mintXonly := mintKp.xOnlyPublicKey
  let prevSpk ← mapErr .construction (expectedP2trSpk prim lockBlocks mintXonly)
  let lSpend ← mapErr .construction (csvTapleafScript lockBlocks mintXonly)
  let lData := dataTapleafScript prim mintXonly
  let controlBlock ← okOr (btc.controlBlock lSpend lData) .controlBlock
  let unsigned : Transaction :=
    { version := 2
      lockTime := 0
      input := [⟨mintOutpoint, sequenceFromHeight lockBlocks.toUInt16, []⟩]
      output := [⟨mintValueSat - feeSat, destAddress.scriptPubkey⟩] }
  let sighash ← okOr (btc.scriptSpendSighash unsigned ⟨mintValueSat, prevSpk⟩ lSpend) .sighash
  let sig := mintKp.signSchnorrNoAuxRand sighash
  ensure (btc.verifyCommitment prevSpk controlBlock lSpend = true) .commitment
  pure { unsigned with
    input := [⟨mintOutpoint, sequenceFromHeight lockBlocks.toUInt16,
      [sig.serialize, lSpend, controlBlock]⟩] }

end Hodlchain.Wallet
