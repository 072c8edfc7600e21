/-
The answers of the HTTP interface.

Node and sequencer build the answer to `GET /balance/:addr` alike from the ledger
at their head; a wallet gets it from anyone.  What ties the values to an address is
the inclusion proof, and the address it ties them to is the one in the proof.
-/
import Hodlchain.Core.SmtAccounts

namespace Hodlchain

open Bytes LedgerState

structure BalanceResponse where
  address : L2Address
  balance : Amount
  /-- The nonce under `state_root`. -/
  nonce : UInt64
  /-- The nonce to use for the next transfer. -/
  effectiveNonce : UInt64
  l2Height : UInt32
  stateRoot : H256
  stateComponents : StateComponents
  proof : InclusionProof
  totalMintedAtoms : Amount
deriving DecidableEq, Repr

/-- What `get_balance` answers from the ledger `s` at `height`. -/
def LedgerState.balanceResponse (prim : Primitives) (s : LedgerState) (height : UInt32)
    (addr : L2Address) (effectiveNonce : UInt64) : BalanceResponse where
  address := addr
  balance := s.balanceOf addr
  nonce := s.nonceOf addr
  effectiveNonce := effectiveNonce
  l2Height := height
  stateRoot := (s.components prim).stateRoot prim
  stateComponents := s.components prim
  proof := s.accountInclusionProof prim addr
  totalMintedAtoms := s.totalMintedAtoms

/-! ### Receipts -/

structure SoftConf where
  txHash : H256
  targetL2Height : UInt32
  acceptedAtUnix : UInt64
  sequencerSig : Signature
deriving DecidableEq, Repr

/-- The byte string `SoftConf::sighash` hashes. -/
def SoftConf.sighashPreimage (txHash : H256) (targetL2Height : UInt32)
    (acceptedAtUnix : UInt64) : Bytes :=
  utf8 "hodl-softconf-v1" ++ txHash.raw ++ be32 targetL2Height ++ be64 acceptedAtUnix

/-- `SoftConf::sighash`. -/
def SoftConf.sighash (prim : Primitives) (txHash : H256) (targetL2Height : UInt32)
    (acceptedAtUnix : UInt64) : H256 :=
  prim.sha256 (SoftConf.sighashPreimage txHash targetL2Height acceptedAtUnix)

structure SubmitMintResponse where
  accepted : Bool
  error : Option String
  mintAmount : Option Amount
  nullifierHex : Option String
  softConf : Option SoftConf
deriving DecidableEq, Repr

structure SubmitTransferResponse where
  accepted : Bool
  error : Option String
  softConf : Option SoftConf
deriving DecidableEq, Repr

/-- The balance and nonce a leaf stands for. -/
def LeafKind.values : LeafKind → UInt64 × UInt64
  | .account balance nonce => (balance, nonce)
  | .empty => (0, 0)

section

variable {prim : Primitives}

@[simp] theorem LedgerState.values_leaves (s : LedgerState) (a : L2Address) :
    (s.leaves a).values = (s.balanceOf a, s.nonceOf a) := by
  rw [LedgerState.leaves, LedgerState.balanceOf, LedgerState.nonceOf]
  cases s.accounts[a]? <;> rfl

@[simp] theorem LedgerState.leaf_accountInclusionProof (s : LedgerState) (a : L2Address) :
    (s.accountInclusionProof prim a).leaf = s.leaves a := by
  rw [accountInclusionProof_eq]
  rfl

/-- A ledger's own proof verifies, under every hash. -/
theorem LedgerState.verify_accountInclusionProof (s : LedgerState) (a : L2Address) :
    (s.accountInclusionProof prim a).verify prim (s.accountsRoot prim) = true := by
  rw [accountInclusionProof_eq, accountsRoot_eq]
  exact verify_smtProof _ _

/-- Short of a collision, a proof accepted under a ledger's accounts root is that ledger's proof
of the address it names. -/
theorem InclusionProof.In.genuine {U : Set Bytes} (hcf : Set.InjOn prim.sha256 U)
    {s : LedgerState} {p : InclusionProof} (hp : p.In prim U)
    (hs : (s.accountInclusionProof prim p.address).In prim U)
    (h : p.verify prim (s.accountsRoot prim) = true) :
    p = s.accountInclusionProof prim p.address := by
  rw [accountInclusionProof_eq] at hs ⊢
  rw [accountsRoot_eq] at h
  exact hp.sound hcf hs h

end

end Hodlchain
