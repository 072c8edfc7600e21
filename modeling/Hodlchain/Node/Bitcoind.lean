/-
What a node asks bitcoind: outputs for mint checks, and the transaction that
spends the chain anchor in a block.
-/
import Hodlchain.Bitcoin.Chain
import Hodlchain.Core.OpReturn
import Hodlchain.Core.Proof

namespace Hodlchain

/-! ### Outputs -/

/-- The answer of `gettxout`: the output and its confirmations. -/
def getTxOut (c : Chain) (op : OutPoint) : Option (TxOut × UInt32) :=
  (c.utxos op).map fun coin => (coin.output, UInt32.ofNat (c.tip - coin.height + 1))

/-- `impl L1View for NodeL1`. -/
def NodeL1.view (c : Chain) : L1View where
  getOutput op :=
    (getTxOut c op).map fun (output, confs) =>
      let tip := UInt32.ofNat c.tip
      { valueSat := output.value
        scriptPubkey := output.scriptPubkey
        confirmedHeight := satAdd32 (satSub32 tip confs) 1
        confirmations := confs }
  tipHeight := UInt32.ofNat c.tip

/-! ### Attestation transactions -/

/-- An attestation transaction, as the anchor it spends and the one it leaves. -/
structure ChainAdvance where
  attestation : Attestation
  l1Height : Nat
  txid : Txid
  spentAnchor : OutPoint
  newAnchor : OutPoint
deriving DecidableEq, Repr

/-- Why a block could not be scanned. -/
inductive ScanError where
  | noBlock (h : Nat)
  | tooFewOutputs (txid : Txid) (count : Nat)
  | notOpReturn (txid : Txid) (cause : AttestationError)
  | notAttestation (txid : Txid)
deriving DecidableEq, Repr

/-- What a transaction that spends the anchor means. -/
def readAdvance (h : Nat) (currentAnchor : OutPoint) (tx : BtcTx) :
    Except ScanError ChainAdvance :=
  match tx.output with
  | out0 :: _ :: _ =>
      match Attestation.tryFromScript out0.scriptPubkey with
      | .error e => .error (.notOpReturn tx.txid e)
      | .ok none => .error (.notAttestation tx.txid)
      | .ok (some att) =>
          .ok
            { attestation := att
              l1Height := h
              txid := tx.txid
              spentAnchor := currentAnchor
              newAnchor := ⟨tx.txid, 1⟩ }
  | outs => .error (.tooFewOutputs tx.txid outs.length)

/-- `scan_block_for_chain_advance`. -/
def scanBlockForChainAdvance (chain : Chain) (h : Nat) (currentAnchor : OutPoint) :
    Except ScanError (Option ChainAdvance) :=
  match chain[h]? with
  | none => .error (.noBlock h)
  | some block =>
      match block.txdata.find? fun tx => tx.input.contains currentAnchor with
      | none => .ok none
      | some tx =>
          match readAdvance h currentAnchor tx with
          | .error e => .error e
          | .ok adv => .ok (some adv)

/-- What an advance says of the transaction it was read from. -/
theorem readAdvance_ok {h : Nat} {anchor : OutPoint} {tx : BtcTx} {adv : ChainAdvance}
    (hread : readAdvance h anchor tx = .ok adv) :
    adv.txid = tx.txid ∧ adv.spentAnchor = anchor ∧ adv.newAnchor = ⟨tx.txid, 1⟩ ∧
      adv.l1Height = h := by
  unfold readAdvance at hread
  split at hread
  · split at hread
    · cases hread
    · cases hread
    · cases hread
      exact ⟨rfl, rfl, rfl, rfl⟩
  · cases hread

/-- What a scan that finds something found. -/
theorem scanBlock_some {c : Chain} {h : Nat} {anchor : OutPoint} {adv : ChainAdvance}
    (hscan : scanBlockForChainAdvance c h anchor = .ok (some adv)) :
    (adv.spentAnchor = anchor ∧ adv.newAnchor = ⟨adv.txid, 1⟩ ∧ adv.l1Height = h) ∧
      h < c.length ∧ ∃ tx ∈ c.txs, tx.txid = adv.txid ∧ anchor ∈ tx.input := by
  rw [scanBlockForChainAdvance] at hscan
  split at hscan
  · cases hscan
  · rename_i block hblock
    split at hscan
    · cases hscan
    · rename_i tx hfind
      split at hscan
      · cases hscan
      · rename_i adv' hread
        obtain rfl : adv' = adv := by simpa using hscan
        obtain ⟨htxid, hspent, hnew, hheight⟩ := readAdvance_ok hread
        refine ⟨⟨hspent, htxid ▸ hnew, hheight⟩, (List.getElem?_eq_some_iff.mp hblock).1, tx, ?_,
          htxid.symm, by simpa using List.find?_some hfind⟩
        exact List.mem_flatMap.mpr
          ⟨block, List.mem_of_getElem? hblock, List.mem_of_find?_eq_some hfind⟩

/-- A scan only looks at its own block, so a longer chain answers the same. -/
theorem scanBlock_append {c more : Chain} {h : Nat} {anchor : OutPoint} (hh : h < c.length) :
    scanBlockForChainAdvance (c ++ more) h anchor = scanBlockForChainAdvance c h anchor := by
  simp only [scanBlockForChainAdvance, List.getElem?_append_left hh]

end Hodlchain
