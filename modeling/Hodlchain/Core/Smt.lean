/-
Sparse Merkle tree over 256-bit L2 addresses.

The tree is a list of populated `(address, leaf hash)` pairs, split at each depth
by the address bit there; an empty part answers with a precomputed hash.  The
recursions of the source run on a `depth` counting up to `TREE_DEPTH`; here they
run on the height left, so `depth` is `treeDepth - height`.
-/
import Hodlchain.Core.Primitives

namespace Hodlchain

open Bytes

structure Account where
  balance : Amount
  nonce : UInt64
deriving DecidableEq, Repr, Inhabited

/-- `TREE_DEPTH`. -/
def treeDepth : Nat := 256

/-- Whether the leaf preimage is an account or "no such account". -/
inductive LeafKind where
  | account (balance nonce : UInt64)
  | empty
deriving DecidableEq, Repr

/-- An inclusion proof; a non-inclusion proof when the leaf is `empty`. -/
structure InclusionProof where
  address : XOnlyPublicKey
  leaf : LeafKind
  /-- Leaf-to-root order. -/
  siblings : List H256
deriving DecidableEq, Repr

/-! ### The three hashes -/

def emptyLeafPreimage : Bytes := utf8 "hodl-smt-empty-leaf-v0"

def branchPreimage (left right : H256) : Bytes :=
  utf8 "hodl-smt-branch-v0" ++ left.raw ++ right.raw

def populatedLeafPreimage (addr : XOnlyPublicKey) (balance nonce : UInt64) : Bytes :=
  utf8 "hodl-smt-leaf-v0" ++ addr.serialize ++ be64 balance ++ be64 nonce

def LeafKind.leafPreimage (addr : XOnlyPublicKey) : LeafKind → Bytes
  | .account balance nonce => populatedLeafPreimage addr balance nonce
  | .empty => emptyLeafPreimage

section

variable (prim : Primitives)

def branchHash (left right : H256) : H256 := prim.sha256 (branchPreimage left right)

def populatedLeafHash (addr : XOnlyPublicKey) (balance nonce : UInt64) : H256 :=
  prim.sha256 (populatedLeafPreimage addr balance nonce)

/-- `empty_subtree_hashes()[d]`. -/
def emptySubtreeHash : Nat → H256
  | 0 => prim.sha256 emptyLeafPreimage
  | d + 1 => branchHash prim (emptySubtreeHash d) (emptySubtreeHash d)

def emptyRoot : H256 := emptySubtreeHash prim treeDepth

def emptyLeafHash : H256 := emptySubtreeHash prim 0

def LeafKind.leafHash (addr : XOnlyPublicKey) : LeafKind → H256
  | .account balance nonce => populatedLeafHash prim addr balance nonce
  | .empty => emptyLeafHash prim

/-- Bit at `depth` of a key, where depth 0 is the top bit of byte 0. -/
def bitAt (addr : XOnlyPublicKey) (depth : Nat) : UInt8 :=
  let byte := addr.serialize.getD (depth / 8) 0
  (byte >>> UInt8.ofNat (7 - depth % 8)) &&& 1

/-! ### Verifying, and the root of a list -/

/-- `InclusionProof::verify`. -/
def InclusionProof.verify (p : InclusionProof) (expectedRoot : H256) : Bool :=
  if p.siblings.length ≠ treeDepth then false
  else
    let root := (List.range treeDepth).reverse.foldl (fun current d =>
      let sibling := p.siblings.getD (treeDepth - 1 - d) default
      if bitAt p.address d = 0 then branchHash prim current sibling
      else branchHash prim sibling current) (p.leaf.leafHash prim p.address)
    root == expectedRoot

def rootRecursive : Nat → List (XOnlyPublicKey × H256) → H256
  | 0, populated => (populated.head?.map (·.2)).getD (emptySubtreeHash prim 0)
  | height + 1, populated =>
      if populated.isEmpty then emptySubtreeHash prim (height + 1)
      else
        let depth := treeDepth - (height + 1)
        let parts := populated.partition fun e => bitAt e.1 depth == 0
        branchHash prim (rootRecursive height parts.1) (rootRecursive height parts.2)

/-- The list both recursions start from. -/
def populatedLeaves (accounts : List (XOnlyPublicKey × Account)) : List (XOnlyPublicKey × H256) :=
  accounts.map fun e => (e.1, populatedLeafHash prim e.1 e.2.balance e.2.nonce)

/-- `smt::compute_root`. -/
def computeRoot (accounts : List (XOnlyPublicKey × Account)) : H256 :=
  rootRecursive prim treeDepth (populatedLeaves prim accounts)

/-- The root of the part, and the siblings pushed below it. -/
def proofRecursive (target : XOnlyPublicKey) :
    Nat → List (XOnlyPublicKey × H256) → H256 × List H256
  | 0, populated => ((populated.head?.map (·.2)).getD (emptySubtreeHash prim 0), [])
  | height + 1, populated =>
      let depth := treeDepth - (height + 1)
      let parts := populated.partition fun e => bitAt e.1 depth == 0
      if bitAt target depth = 0 then
        let (lh, out) := proofRecursive target height parts.1
        let rh := rootRecursive prim height parts.2
        (branchHash prim lh rh, out ++ [rh])
      else
        let (rh, out) := proofRecursive target height parts.2
        let lh := rootRecursive prim height parts.1
        (branchHash prim lh rh, out ++ [lh])

/-- The leaf of an account that may be missing. -/
def leafKindOf : Option Account → LeafKind
  | some acct => .account acct.balance acct.nonce
  | none => .empty

/-- The leaf a list has at an address. -/
def leafOf (accounts : List (XOnlyPublicKey × Account)) (target : XOnlyPublicKey) : LeafKind :=
  match accounts.find? (fun e => e.1 == target) with
  | some (_, acct) => .account acct.balance acct.nonce
  | none => .empty

/-- `smt::compute_proof`. -/
def computeProof (accounts : List (XOnlyPublicKey × Account)) (target : XOnlyPublicKey) :
    InclusionProof :=
  { address := target
    leaf := leafOf accounts target
    siblings := (proofRecursive prim target treeDepth (populatedLeaves prim accounts)).2 }

end

/-! ### Sparse multi-leaf update -/

/-- A touched account: its proof before the block and its value after. -/
structure Update where
  preProof : InclusionProof
  postState : LeafKind
deriving DecidableEq, Repr

inductive SparseUpdateError where
  | invalidPreProof (addrHex : String)
  | duplicateAddress (addrHex : String)
  | emptyUpdates
deriving DecidableEq, Repr

section

variable (prim : Primitives)

/-- The first address that a later update repeats. -/
def findDuplicate : List Update → Option XOnlyPublicKey
  | [] => none
  | u :: rest =>
      if rest.any (fun u2 => u.preProof.address == u2.preProof.address) then
        some u.preProof.address
      else findDuplicate rest

/-- The hash that the proofs of one side carry for the other side, as it was. -/
def carriedSibling (depth : Nat) (side : List Update) : H256 :=
  match side.head? with
  | some u => u.preProof.siblings.getD (treeDepth - 1 - depth) default
  | none => default

def postRootRecursive : Nat → List Update → H256
  | 0, updates =>
      match updates.head? with
      | some u => u.postState.leafHash prim u.preProof.address
      | none => default
  | height + 1, updates =>
      let depth := treeDepth - (height + 1)
      let parts := updates.partition fun u => bitAt u.preProof.address depth == 0
      -- no touched key on a side: its hash at the new root is its hash at the prior one
      let lh :=
        if parts.1.isEmpty then carriedSibling depth parts.2
        else postRootRecursive height parts.1
      let rh :=
        if parts.2.isEmpty then carriedSibling depth parts.1
        else postRootRecursive height parts.2
      branchHash prim lh rh

/-- The checks `apply_updates` and `refresh_observer` make on an update list. -/
def validateUpdates (updates : List Update) (priorRoot : H256) : Except SparseUpdateError Unit :=
  match findDuplicate updates with
  | some a => .error (.duplicateAddress (hexEncode a.serialize))
  | none =>
      match updates.find? (fun u => !u.preProof.verify prim priorRoot) with
      | some u => .error (.invalidPreProof (hexEncode u.preProof.address.serialize))
      | none => .ok ()

/-- `smt::apply_updates`. -/
def applyUpdates (updates : List Update) (priorRoot : H256) : Except SparseUpdateError H256 :=
  if updates.isEmpty then .error .emptyUpdates
  else
    match validateUpdates prim updates priorRoot with
    | .error e => .error e
    | .ok () => .ok (postRootRecursive prim treeDepth updates)

/-- The updates whose address agrees with `observer` on its first `depth` bits. -/
def onPath (observer : XOnlyPublicKey) (updates : List Update) (depth : Nat) : List Update :=
  updates.filter fun u =>
    (List.range depth).all fun d => bitAt u.preProof.address d == bitAt observer d

/-- The loop over depths of `refresh_observer`; it stops where no touched key is left. -/
def refreshSiblings (observer : XOnlyPublicKey) (updates : List Update) :
    List Nat → List H256 → List H256
  | [], sibs => sibs
  | depth :: rest, sibs =>
      let here := onPath observer updates depth
      if here.isEmpty then sibs
      else
        let opposite := here.filter fun u => bitAt u.preProof.address depth != bitAt observer depth
        if opposite.isEmpty then refreshSiblings observer updates rest sibs
        else
          let sib := postRootRecursive prim (treeDepth - (depth + 1)) opposite
          refreshSiblings observer updates rest (sibs.set (treeDepth - 1 - depth) sib)

/-- `smt::refresh_observer`. -/
def refreshObserver (observer : InclusionProof) (updates : List Update) (priorRoot : H256) :
    Except SparseUpdateError InclusionProof :=
  if !observer.verify prim priorRoot then
    .error (.invalidPreProof (hexEncode observer.address.serialize))
  else if updates.isEmpty then .ok observer
  else
    match validateUpdates prim updates priorRoot with
    | .error e => .error e
    | .ok () =>
        let postState :=
          match updates.find? (fun u => u.preProof.address == observer.address) with
          | some u => u.postState
          | none => observer.leaf
        .ok
          { address := observer.address
            leaf := postState
            siblings :=
              refreshSiblings prim observer.address updates (List.range treeDepth)
                observer.siblings }

end

end Hodlchain
