/-
Mint proofs and the re-verification of a mint in a block.

`verifyMintEntry` is the check every party makes of a mint: it runs the witness
against a view of L1 and compares the event the block declares with the one the
witness authorises.
-/
import Hodlchain.Core.Consensus
import Hodlchain.Core.Tx

namespace Hodlchain

open Bytes

structure L1Output where
  valueSat : UInt64
  scriptPubkey : ScriptBuf
  confirmedHeight : UInt32
  confirmations : UInt32
deriving DecidableEq, Repr

/-- The trait a verifier reads L1 through. -/
structure L1View where
  getOutput : OutPoint → Option L1Output
  tipHeight : UInt32

inductive MintError where
  | eventMismatch (field : String)
  | outpointNotFound
  | notEnoughConfirmations (got need : UInt32)
  | scriptMismatch
  | badSignature
  | badLockBlocks (got max : UInt32)
  | amountOverflow
  | claimedHeightBeforeCreate (claimed create : UInt32)
  | lockExpired (claimed unlock : UInt32)
  | claimedHeightInFuture (claimed tip : UInt32)
deriving DecidableEq, Repr

/-- The text of an error, as a client is told it. -/
def MintError.text : MintError → String
  | .eventMismatch field =>
      s!"declared mint event disagrees with witness-derived credit: {field}"
  | .outpointNotFound => "L1 outpoint not found"
  | .notEnoughConfirmations got need => s!"insufficient confirmations: {got} < {need}"
  | .scriptMismatch => "scriptPubKey does not match the revealed tapleaf under NUMS H"
  | .badSignature => "invalid Schnorr signature over the mint message"
  | .badLockBlocks got max =>
      s!"invalid lock duration: lock_blocks={got}, must be in [1, {max}]"
  | .amountOverflow => "mint amount underflowed/overflowed"
  | .claimedHeightBeforeCreate claimed create =>
      s!"claimed height {claimed} is before lock creation height {create}"
  | .lockExpired claimed unlock =>
      s!"lock expired: claimed height {claimed} >= unlock height {unlock}"
  | .claimedHeightInFuture claimed tip =>
      s!"claimed height {claimed} is in the future (L1 tip is {tip})"

/-- The credit a successful mint produces. -/
structure MintCredit where
  event : MintEvent
  nullifier : Bytes
deriving DecidableEq, Repr

namespace OutpointProof

/-- The byte string `OutpointProof::sighash` hashes. -/
def sighashPreimage (outpoint : OutPoint) (claimedBlockHeight : UInt32)
    (l2Destination : L2Address) : Bytes :=
  utf8 "hodl-mint-v1" ++ outpoint.txid.raw ++ le32 outpoint.vout ++ be32 claimedBlockHeight
    ++ l2Destination.serialize

/-- `OutpointProof::sighash`. -/
def sighash (prim : Primitives) (outpoint : OutPoint) (claimedBlockHeight : UInt32)
    (l2Destination : L2Address) : H256 :=
  prim.sha256 (sighashPreimage outpoint claimedBlockHeight l2Destination)

/-- `outpoint_nullifier`. -/
def outpointNullifier (outpoint : OutPoint) : Bytes := outpoint.txid.raw ++ le32 outpoint.vout

/-- `MintProof::nullifier`. -/
def nullifier (p : OutpointProof) : Bytes := outpointNullifier p.outpoint

/-- The checks of `verify` on the output the view found, in the order it makes them. -/
def verifyOutput (prim : Primitives) (p : OutpointProof) (tip : UInt32)
    (l2Destination : L2Address) (output : L1Output) : Except MintError MintCredit :=
  if output.confirmations < mintConfirmations then
    .error (.notEnoughConfirmations output.confirmations mintConfirmations)
  else if p.lockBlocks = 0 ∨ p.lockBlocks > maxLockBlocks then
    .error (.badLockBlocks p.lockBlocks maxLockBlocks)
  else
    -- the active lock period `[create, create + T)`
    let create := output.confirmedHeight
    let unlock := satAdd32 create p.lockBlocks
    if p.claimedBlockHeight < create then
      .error (.claimedHeightBeforeCreate p.claimedBlockHeight create)
    else if p.claimedBlockHeight ≥ unlock then .error (.lockExpired p.claimedBlockHeight unlock)
    else if p.claimedBlockHeight > tip then
      .error (.claimedHeightInFuture p.claimedBlockHeight tip)
    else
      match expectedP2trSpk prim p.lockBlocks p.userXonlyPubkey with
      | .error _ => .error (.badLockBlocks p.lockBlocks maxLockBlocks)
      | .ok expected =>
          if expected ≠ output.scriptPubkey then .error .scriptMismatch
          else if !prim.verifySchnorr p.signature
              (sighash prim p.outpoint p.claimedBlockHeight l2Destination) p.userXonlyPubkey then
            .error .badSignature
          else
            let amount := mintFn prim output.valueSat p.lockBlocks
            if amount = 0 then .error .amountOverflow
            else
              .ok
                { event :=
                    { nullifierHex := hexEncode p.nullifier
                      amount := amount
                      l2Destination := l2Destination
                      l1CreateHeight := output.confirmedHeight
                      lockBlocks := p.lockBlocks
                      l1ValueSat := output.valueSat }
                  nullifier := p.nullifier }

/-- `MintProof::verify` for `OutpointProof`. -/
def verify (prim : Primitives) (p : OutpointProof) (l1 : L1View) (l2Destination : L2Address) :
    Except MintError MintCredit :=
  match l1.getOutput p.outpoint with
  | none => .error .outpointNotFound
  | some output => p.verifyOutput prim l1.tipHeight l2Destination output

end OutpointProof

/-- `MintProof::verify` for the envelope. -/
def MintProofEnvelope.verify (prim : Primitives) (w : MintProofEnvelope) (l1 : L1View)
    (l2Destination : L2Address) : Except MintError MintCredit :=
  match w with
  | .v0Outpoint p => p.verify prim l1 l2Destination

/-- The declared event against the derived one, field by field. -/
def compareEvents (derived ev : MintEvent) : Except MintError Unit :=
  if derived.nullifierHex ≠ ev.nullifierHex then .error (.eventMismatch "nullifier_hex")
  else if derived.amount ≠ ev.amount then .error (.eventMismatch "amount")
  else if derived.l2Destination ≠ ev.l2Destination then .error (.eventMismatch "l2_destination")
  else if derived.l1CreateHeight ≠ ev.l1CreateHeight then
    .error (.eventMismatch "l1_create_height")
  else if derived.lockBlocks ≠ ev.lockBlocks then .error (.eventMismatch "lock_blocks")
  else if derived.l1ValueSat ≠ ev.l1ValueSat then .error (.eventMismatch "l1_value_sat")
  else .ok ()

/-- `verify_mint_entry`. -/
def verifyMintEntry (prim : Primitives) (entry : MintEntry) (l1 : L1View) :
    Except MintError Unit :=
  match entry.witness.verify prim l1 entry.event.l2Destination with
  | .error e => .error e
  | .ok credit => compareEvents credit.event entry.event

/-- The outpoint a mint witness claims. -/
def MintProofEnvelope.outpoint : MintProofEnvelope → OutPoint
  | .v0Outpoint p => p.outpoint

/-- The loop over a block's mints that the follower and the light client make: the
first rejected mint, with its index among all transactions. -/
def verifyMintsFrom (prim : Primitives) (l1 : L1View) : Nat → List L2Tx →
    Except (Nat × MintError) Unit
  | _, [] => .ok ()
  | i, .mint entry :: txs =>
      match verifyMintEntry prim entry l1 with
      | .error e => .error (i, e)
      | .ok () => verifyMintsFrom prim l1 (i + 1) txs
  | i, .transfer _ :: txs => verifyMintsFrom prim l1 (i + 1) txs

abbrev verifyMints (prim : Primitives) (l1 : L1View) (txs : List L2Tx) :
    Except (Nat × MintError) Unit := verifyMintsFrom prim l1 0 txs

/-! ### What the check establishes -/

/-- What the checks on an output establish, and the event they derive. -/
structure OutpointProof.Verified (prim : Primitives) (p : OutpointProof) (tip : UInt32)
    (dest : L2Address) (output : L1Output) (event : MintEvent) : Prop where
  confirmations : mintConfirmations ≤ output.confirmations
  lock : p.lockBlocks ≠ 0 ∧ p.lockBlocks ≤ maxLockBlocks
  created : output.confirmedHeight ≤ p.claimedBlockHeight
  active : p.claimedBlockHeight < satAdd32 output.confirmedHeight p.lockBlocks
  reached : p.claimedBlockHeight ≤ tip
  script : expectedP2trSpk prim p.lockBlocks p.userXonlyPubkey = .ok output.scriptPubkey
  signature : prim.verifySchnorr p.signature
    (OutpointProof.sighash prim p.outpoint p.claimedBlockHeight dest) p.userXonlyPubkey = true
  event : event =
    { nullifierHex := hexEncode p.nullifier
      amount := mintFn prim output.valueSat p.lockBlocks
      l2Destination := dest
      l1CreateHeight := output.confirmedHeight
      lockBlocks := p.lockBlocks
      l1ValueSat := output.valueSat }

theorem OutpointProof.verifyOutput_ok {prim : Primitives} {p : OutpointProof} {tip : UInt32}
    {dest : L2Address} {output : L1Output} {credit : MintCredit}
    (h : p.verifyOutput prim tip dest output = .ok credit) :
    p.Verified prim tip dest output credit.event := by
  unfold verifyOutput at h
  cases hspk : expectedP2trSpk prim p.lockBlocks p.userXonlyPubkey with
  | error e =>
      simp only [hspk] at h
      split_ifs at h
  | ok expected =>
      simp only [hspk] at h
      split_ifs at h with hconf hlock hcreate hexpired hfuture hscript hverify hamount
      obtain rfl := (Except.ok.inj h).symm
      exact
        { confirmations := UInt32.not_lt.mp hconf
          lock := ⟨fun h0 => hlock (.inl h0), UInt32.not_lt.mp fun hbig => hlock (.inr hbig)⟩
          created := UInt32.not_lt.mp hcreate
          active := UInt32.not_le.mp hexpired
          reached := UInt32.not_lt.mp hfuture
          script := by rw [hspk, not_not.mp hscript]
          signature := by simpa using hverify
          event := rfl }

/-- What a proof that verifies was checked against. -/
theorem OutpointProof.verify_ok {prim : Primitives} {p : OutpointProof} {l1 : L1View}
    {dest : L2Address} {credit : MintCredit} (h : p.verify prim l1 dest = .ok credit) :
    ∃ output, l1.getOutput p.outpoint = some output ∧
      p.Verified prim l1.tipHeight dest output credit.event := by
  unfold verify at h
  cases hout : l1.getOutput p.outpoint with
  | none =>
      rw [hout] at h
      cases h
  | some output =>
      rw [hout] at h
      exact ⟨output, rfl, verifyOutput_ok h⟩

/-! ### What the check depends on -/

theorem compareEvents_ok_iff {derived ev : MintEvent} :
    compareEvents derived ev = .ok () ↔ derived = ev := by
  constructor
  · intro h
    simp only [compareEvents] at h
    split_ifs at h with h1 h2 h3 h4 h5 h6
    cases derived; cases ev
    simp_all
  · rintro rfl
    simp [compareEvents]

/-- A mint is checked against one output and the tip. -/
theorem verifyMintEntry_eq {prim : Primitives} {entry : MintEntry} {l1 : L1View} :
    verifyMintEntry prim entry l1 =
      match entry.witness, l1.getOutput entry.witness.outpoint with
      | .v0Outpoint _, none => .error .outpointNotFound
      | .v0Outpoint p, some output =>
          match p.verifyOutput prim l1.tipHeight entry.event.l2Destination output with
          | .error e => .error e
          | .ok credit => compareEvents credit.event entry.event := by
  obtain ⟨ev, ⟨p⟩⟩ := entry
  simp only [verifyMintEntry, MintProofEnvelope.verify, OutpointProof.verify,
    MintProofEnvelope.outpoint]
  cases l1.getOutput p.outpoint <;> rfl

/-- Two views that agree on the outpoint of a mint and on the tip give it one verdict. -/
theorem verifyMintEntry_congr {prim : Primitives} {entry : MintEntry} {l1 l1' : L1View}
    (hout : l1.getOutput entry.witness.outpoint = l1'.getOutput entry.witness.outpoint)
    (htip : l1.tipHeight = l1'.tipHeight) :
    verifyMintEntry prim entry l1 = verifyMintEntry prim entry l1' := by
  rw [verifyMintEntry_eq, verifyMintEntry_eq, hout, htip]

theorem verifyMintsFrom_congr {prim : Primitives} {l1 l1' : L1View} {txs : List L2Tx}
    (hout : ∀ entry, L2Tx.mint entry ∈ txs →
      l1.getOutput entry.witness.outpoint = l1'.getOutput entry.witness.outpoint)
    (htip : l1.tipHeight = l1'.tipHeight) (i : Nat) :
    verifyMintsFrom prim l1 i txs = verifyMintsFrom prim l1' i txs := by
  induction txs generalizing i with
  | nil => rfl
  | cons tx txs ih =>
      have hrest := ih fun entry h => hout entry (List.mem_cons_of_mem _ h)
      cases tx with
      | mint entry =>
          simp only [verifyMintsFrom, verifyMintEntry_congr (hout entry (by simp)) htip, hrest]
      | transfer t => simp only [verifyMintsFrom, hrest]

/-- The loop passes exactly when every mint does. -/
theorem verifyMintsFrom_ok_iff {prim : Primitives} {l1 : L1View} {txs : List L2Tx} {i : Nat} :
    verifyMintsFrom prim l1 i txs = .ok () ↔
      ∀ entry, L2Tx.mint entry ∈ txs → verifyMintEntry prim entry l1 = .ok () := by
  induction txs generalizing i with
  | nil => simp [verifyMintsFrom]
  | cons tx txs ih =>
      cases tx with
      | mint entry =>
          simp only [verifyMintsFrom, List.mem_cons, L2Tx.mint.injEq, forall_eq_or_imp]
          cases h : verifyMintEntry prim entry l1 with
          | error e => simp
          | ok u => simpa using ih
      | transfer t => simpa [verifyMintsFrom] using ih

/-- A mint passes exactly when its output is there and satisfies the checks. -/
theorem verifyMintEntry_found {prim : Primitives} {entry : MintEntry} {l1 : L1View}
    (h : verifyMintEntry prim entry l1 = .ok ()) :
    ∃ output, l1.getOutput entry.witness.outpoint = some output := by
  rw [verifyMintEntry_eq] at h
  cases hout : l1.getOutput entry.witness.outpoint with
  | some output => exact ⟨output, rfl⟩
  | none =>
      obtain ⟨ev, ⟨p⟩⟩ := entry
      rw [hout] at h
      cases h

end Hodlchain
