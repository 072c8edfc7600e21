/-
L2 transactions and the hash that puts them under a `txs_root`.

Every hash here is written in two parts: the byte string that is hashed
(`…Preimage`) and the hash of it.  The preimage is what a statement about binding
is about, and it is also what "SHA-256 has no collision on the inputs that occur"
has to name.
-/
import Hodlchain.Core.Primitives

namespace Hodlchain

open Bytes

/-- V0 mint witness: the outpoint, the locker's key and lock, and a signature. -/
structure OutpointProof where
  outpoint : OutPoint
  userXonlyPubkey : XOnlyPublicKey
  lockBlocks : UInt32
  claimedBlockHeight : UInt32
  signature : Signature
deriving DecidableEq, Repr

/-- The wire form of a mint witness. -/
inductive MintProofEnvelope where
  | v0Outpoint (p : OutpointProof)
deriving DecidableEq, Repr

/-- What a mint declares it produced. -/
structure MintEvent where
  nullifierHex : String
  amount : Amount
  l2Destination : L2Address
  l1CreateHeight : UInt32
  lockBlocks : UInt32
  l1ValueSat : UInt64
deriving DecidableEq, Repr

/-- One mint inside an L2 block: the declared event and the proof for it. -/
structure MintEntry where
  event : MintEvent
  witness : MintProofEnvelope
deriving DecidableEq, Repr

structure TransferBody where
  /-- `from` in the source. -/
  sender : L2Address
  /-- `to` in the source. -/
  recipient : L2Address
  amount : Amount
  nonce : UInt64
deriving DecidableEq, Repr

structure SignedTransfer where
  body : TransferBody
  signature : Signature
deriving DecidableEq, Repr

/-- L2 block body entry. -/
inductive L2Tx where
  | mint (entry : MintEntry)
  | transfer (t : SignedTransfer)
deriving DecidableEq, Repr

namespace TransferBody

/-- `"hodl-transfer-v2" || from || to || amount_be || nonce_be`. -/
def sighashPreimage (b : TransferBody) : Bytes :=
  utf8 "hodl-transfer-v2" ++ b.sender.serialize ++ b.recipient.serialize ++ be64 b.amount
    ++ be64 b.nonce

/-- `TransferBody::sighash`. -/
def sighash (prim : Primitives) (b : TransferBody) : H256 := prim.sha256 b.sighashPreimage

end TransferBody

/-- Canonical bytes of a mint witness, as `L2Tx::hash` commits to it. -/
def witnessCanonicalBytes : MintProofEnvelope → Bytes
  | .v0Outpoint p =>
      [0x01] ++ p.outpoint.txid.raw ++ be32 p.outpoint.vout ++ p.userXonlyPubkey.serialize
        ++ be32 p.lockBlocks ++ p.signature.serialize

namespace L2Tx

/-- The mint half of the layout, after the kind byte. -/
def mintBody (entry : MintEntry) : Bytes :=
  let ev := entry.event
  let n := utf8 ev.nullifierHex
  let w := witnessCanonicalBytes entry.witness
  be32 (UInt32.ofNat n.length) ++ n ++ be64 ev.amount ++ ev.l2Destination.serialize
    ++ be32 ev.l1CreateHeight ++ be32 ev.lockBlocks ++ be64 ev.l1ValueSat
    ++ be32 (UInt32.ofNat w.length) ++ w

/-- `"hodl-tx-v2" || kind || encode_body`. -/
def hashPreimage (prim : Primitives) : L2Tx → Bytes
  | .mint entry => utf8 "hodl-tx-v2" ++ [0x01] ++ mintBody entry
  | .transfer t =>
      utf8 "hodl-tx-v2" ++ [0x02] ++ (t.body.sighash prim).raw ++ t.signature.serialize

/-- `L2Tx::hash`. -/
def hash (prim : Primitives) (tx : L2Tx) : H256 := prim.sha256 (tx.hashPreimage prim)

end L2Tx

/-- The byte string `compute_txs_root` hashes. -/
def txsRootPreimage (prim : Primitives) (txs : List L2Tx) : Bytes :=
  utf8 "hodl-txs-v2" ++ txs.flatMap fun tx => (tx.hash prim).raw

/-- `L2Block::compute_txs_root`. -/
def computeTxsRoot (prim : Primitives) (txs : List L2Tx) : H256 :=
  prim.sha256 (txsRootPreimage prim txs)

end Hodlchain
