/-
The account ledger and its state root.

A step is written with the state it leaves, also when it fails: `apply` answers
the result and the ledger after it, in the order the source touches the ledger.
That a failed step leaves the ledger as it was is a theorem about the code, not a
choice of the model.
-/
import Hodlchain.Core.Consensus
import Hodlchain.Core.Smt
import Hodlchain.Core.Tx

namespace Hodlchain

open Bytes

/-- `BTreeMap<L2Address, Account>`. -/
abbrev AccountMap := Std.ExtTreeMap L2Address Account

/-- `BTreeSet<String>`. -/
abbrev NullifierSet := Std.ExtTreeSet String

structure LedgerState where
  accounts : AccountMap
  consumedNullifiers : NullifierSet
  /-- Every mint amount ever applied, summed. -/
  totalMintedAtoms : UInt64
  /-- Where transfer fees go; `none` burns them. -/
  sequencerFeeAddress : Option L2Address

inductive ApplyError where
  | doubleMint
  | badSignature
  | badNonce (expected got : UInt64)
  | insufficientBalance
  | selfTransfer
  | zeroAmount
deriving DecidableEq, Repr

namespace LedgerState

/-- `LedgerState::new`. -/
def new : LedgerState := ⟨∅, ∅, 0, none⟩

/-- `balance_of`. -/
def balanceOf (s : LedgerState) (addr : L2Address) : Amount :=
  (s.accounts[addr]?.map (·.balance)).getD 0

/-- `nonce_of`. -/
def nonceOf (s : LedgerState) (addr : L2Address) : UInt64 :=
  (s.accounts[addr]?.map (·.nonce)).getD 0

/-- `self.accounts.entry(addr).or_default()` and a change through that reference. -/
def updateAccount (s : LedgerState) (addr : L2Address) (f : Account → Account) : LedgerState :=
  { s with accounts := s.accounts.insert addr (f (s.accounts[addr]?.getD ⟨0, 0⟩)) }

/-- Adding to the balance of an account, created if missing. -/
def credit (s : LedgerState) (addr : L2Address) (amount : Amount) : LedgerState :=
  s.updateAccount addr fun a => { a with balance := satAdd a.balance amount }

/-- `apply_mint`. -/
def applyMint (s : LedgerState) (entry : MintEntry) : Except ApplyError Unit × LedgerState :=
  let ev := entry.event
  if ev.amount = 0 then (.error .zeroAmount, s)
  else if ev.nullifierHex ∈ s.consumedNullifiers then (.error .doubleMint, s)
  else
    let s := { s with consumedNullifiers := s.consumedNullifiers.insert ev.nullifierHex }
    let s := s.credit ev.l2Destination ev.amount
    (.ok (), { s with totalMintedAtoms := satAdd s.totalMintedAtoms ev.amount })

/-- `max(MIN_FEE, amount * FEE_BPS / 10_000)`. -/
def transferFee (amount : Amount) : Amount := max minFee (satMul amount feeBps / 10000)

/-- `apply_transfer`. -/
def applyTransfer (prim : Primitives) (s : LedgerState) (t : SignedTransfer) :
    Except ApplyError Unit × LedgerState :=
  if t.body.amount = 0 then (.error .zeroAmount, s)
  else if t.body.sender = t.body.recipient then (.error .selfTransfer, s)
  else
    let expectedNonce := s.nonceOf t.body.sender
    if t.body.nonce ≠ expectedNonce then (.error (.badNonce expectedNonce t.body.nonce), s)
    else if !prim.verifySchnorr t.signature (t.body.sighash prim) t.body.sender then
      (.error .badSignature, s)
    else
      let fee := transferFee t.body.amount
      let total := satAdd t.body.amount fee
      if s.balanceOf t.body.sender < total then (.error .insufficientBalance, s)
      else
        let s := s.updateAccount t.body.sender fun a =>
          { balance := a.balance - total, nonce := a.nonce + 1 }
        let s := s.credit t.body.recipient t.body.amount
        match s.sequencerFeeAddress with
        | some feeAddr => (.ok (), s.credit feeAddr fee)
        | none => (.ok (), s)

/-- `LedgerState::apply`. -/
def apply (prim : Primitives) (s : LedgerState) (tx : L2Tx) :
    Except ApplyError Unit × LedgerState :=
  match tx with
  | .mint entry => s.applyMint entry
  | .transfer t => s.applyTransfer prim t

/-- The loop both the follower and the light client replay a block with: it stops
at the first rejected transaction, whose index it reports. -/
def replayFrom (prim : Primitives) : Nat → LedgerState → List L2Tx →
    Except (Nat × ApplyError) LedgerState
  | _, s, [] => .ok s
  | i, s, tx :: txs =>
      match s.apply prim tx with
      | (.error e, _) => .error (i, e)
      | (.ok (), s') => replayFrom prim (i + 1) s' txs

/-- A block body, replayed. -/
abbrev replay (prim : Primitives) (s : LedgerState) (txs : List L2Tx) :
    Except (Nat × ApplyError) LedgerState := s.replayFrom prim 0 txs

/-! ### Commitments -/

/-- `accounts_root`. -/
def accountsRoot (prim : Primitives) (s : LedgerState) : H256 := computeRoot prim s.accounts.toList

/-- `account_inclusion_proof`. -/
def accountInclusionProof (prim : Primitives) (s : LedgerState) (addr : L2Address) :
    InclusionProof := computeProof prim s.accounts.toList addr

end LedgerState

/-- The byte string `nullifiers_hash_of` hashes. -/
def nullifiersPreimage (set : NullifierSet) : Bytes :=
  utf8 "hodl-nullifiers-v0" ++ set.toList.flatMap utf8

/-- `nullifiers_hash_of`. -/
def nullifiersHashOf (prim : Primitives) (set : NullifierSet) : H256 :=
  prim.sha256 (nullifiersPreimage set)

/-- What `state_root` hashes together. -/
structure StateComponents where
  accountsRoot : H256
  nullifiersHash : H256
  sequencerFeeAddress : Option L2Address
deriving DecidableEq, Repr

/-- An optional field: a presence byte, then the field. -/
def optBytes {α : Type} (enc : α → Bytes) : Option α → Bytes
  | some x => [1] ++ enc x
  | none => [0]

/-- The byte string `state_root` hashes. -/
def StateComponents.preimage (c : StateComponents) : Bytes :=
  utf8 "hodl-state-v4" ++ c.accountsRoot.raw ++ c.nullifiersHash.raw ++ utf8 "|fee|"
    ++ optBytes XOnlyPublicKey.serialize c.sequencerFeeAddress

/-- `StateComponents::state_root`. -/
def StateComponents.stateRoot (prim : Primitives) (c : StateComponents) : H256 :=
  prim.sha256 c.preimage

namespace LedgerState

/-- `nullifiers_hash`. -/
def nullifiersHash (prim : Primitives) (s : LedgerState) : H256 :=
  nullifiersHashOf prim s.consumedNullifiers

/-- `components`. -/
def components (prim : Primitives) (s : LedgerState) : StateComponents :=
  { accountsRoot := s.accountsRoot prim
    nullifiersHash := s.nullifiersHash prim
    sequencerFeeAddress := s.sequencerFeeAddress }

/-- `state_root`. -/
def stateRoot (prim : Primitives) (s : LedgerState) : H256 := (s.components prim).stateRoot prim

end LedgerState

end Hodlchain
