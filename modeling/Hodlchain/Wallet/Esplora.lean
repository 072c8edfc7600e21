/-
The walk along the attestation chain.

Every attestation spends the anchor of the one before it.  From an anchor the
wallet asks who spent it, reads the attestation in the spender's first output, and
goes on from the spender's second output until an anchor is unspent.
-/
import Hodlchain.Wallet.Verify

namespace Hodlchain

open Bytes

/-- `Outspend`. -/
structure Outspend where
  spent : Bool
  /-- When `spent`, the spending transaction's id, as Esplora prints it. -/
  txid : Option String
  blockHeight : Option UInt32
deriving DecidableEq, Repr

/-- The requests the walk makes; `none` is a failed request. -/
structure EsploraServer extends EsploraClient where
  /-- A 404 is an answer, `some false`. -/
  txExists : Txid → Option Bool
  getOutspend : Txid → UInt32 → Option Outspend
  tipHeight : Option UInt32

/-- `Txid::from_str`: the bytes in hex, last one first. -/
def Txid.fromStr (s : String) : Option Txid :=
  match hexDecode s with
  | none => none
  | some b =>
      if h : b.length = 32 then some ⟨⟨b.reverse.toArray, by simpa using h⟩⟩ else none

/-- `Display` of a txid. -/
def Txid.toStr (t : Txid) : String := hexEncode t.raw.reverse

/-- A printed txid is parsed as itself. -/
theorem Txid.fromStr_toStr (t : Txid) : Txid.fromStr t.toStr = some t := by
  have hlen : t.raw.reverse.length = 32 := by simp
  rw [Txid.fromStr, Txid.toStr, hexDecode_hexEncode]
  simp only [hlen, dite_true, Option.some.injEq]
  rw [← Txid.raw_inj]
  simp [Txid.raw, Vector.toList]

/-- One step of the attestation chain. -/
structure ChainStep where
  attestation : Attestation
  l1Height : UInt32
  /-- The outpoint the next link spends. -/
  newAnchor : OutPoint
deriving DecidableEq, Repr

/-- Why a walk failed. -/
inductive WalkError where
  | anchorRequest (txid : Txid)
  | anchorMissing (txid : Txid)
  | outspendRequest (anchor : OutPoint)
  | noTxid (outspend : Outspend)
  | badTxid (s : String)
  | noBlockHeight (outspend : Outspend)
  | txRequest (txid : Txid)
  | fewOutputs (txid : Txid) (count : Nat)
  | badScript (txid : Txid)
  | attestation (txid : Txid) (cause : AttestationError)
  | notAttestation (txid : Txid) (l1Height : UInt32)
  | outOfFuel
deriving DecidableEq, Repr

/-- The link that a spent anchor leads to. -/
def readChainStep (esplora : EsploraServer) (outspend : Outspend) : Except WalkError ChainStep := do
  let s ← okOr outspend.txid (.noTxid outspend)
  let spender ← okOr (Txid.fromStr s) (.badTxid s)
  let l1Height ← okOr outspend.blockHeight (.noBlockHeight outspend)
  let tx ← okOr (esplora.getTx spender) (.txRequest spender)
  match tx.vout with
  | out0 :: _ :: _ => do
      let spk ← okOr (hexDecode out0.scriptpubkey) (.badScript spender)
      let found ← mapErr (.attestation spender) (Attestation.tryFromScript spk)
      let attestation ← okOr found (.notAttestation spender l1Height)
      pure ⟨attestation, l1Height, ⟨spender, 1⟩⟩
  | outs => .error (.fewOutputs spender outs.length)

/-- The loop of `walk_attestation_chain`, for at most `fuel` anchors. -/
def walkFrom (esplora : EsploraServer) : Nat → OutPoint → Except WalkError (List ChainStep)
  | 0, _ => .error .outOfFuel
  | fuel + 1, current => do
      let outspend ← okOr (esplora.getOutspend current.txid current.vout) (.outspendRequest current)
      if !outspend.spent then pure []
      else do
        let step ← readChainStep esplora outspend
        let rest ← walkFrom esplora fuel step.newAnchor
        pure (step :: rest)

/-- `walk_attestation_chain`. -/
def walkAttestationChain (esplora : EsploraServer) (fuel : Nat) (anchor0 : OutPoint) :
    Except WalkError (List ChainStep) := do
  let known ← okOr (esplora.txExists anchor0.txid) (.anchorRequest anchor0.txid)
  ensure (known = true) (.anchorMissing anchor0.txid)
  walkFrom esplora fuel anchor0

end Hodlchain
