/-
The head that L1 shows by itself.

`light_head` walks the attestation chain as `bootstrap` does and reports what it ends
with, without asking a node for the state.  Before the first attestation it reports the
root of an empty ledger, and `bootstrap` the one that the genesis block carries.  They are
the same root exactly when the chain has no fee address.
-/
import Hodlchain.Wallet.Bootstrap

namespace Hodlchain

open Bytes LedgerState

inductive LightHeadError where
  | fetchGenesis
  | noAnchor
  | walk (cause : WalkError)
deriving DecidableEq, Repr

structure LightHeadOutput where
  l2Height : UInt32
  stateRoot : H256
  attestationsWalked : ℕ
deriving DecidableEq, Repr

/-- `light_head`, walking at most `fuel` attestations. -/
def lightHead (prim : Primitives) (fuel : ℕ) (api : ApiServer) (esplora : EsploraServer) :
    Except LightHeadError LightHeadOutput := do
  let genesis ← okOr (api.getBlock 0) .fetchGenesis
  let anchor0 ← okOr genesis.header.anchorOutpoint .noAnchor
  let chain ← mapErr .walk (walkAttestationChain esplora fuel anchor0)
  let (stateRoot, l2Height) :=
    match chain.getLast? with
    | none => (LedgerState.new.stateRoot prim, 0)
    | some last => (last.attestation.stateRoot, last.attestation.height)
  pure ⟨l2Height, stateRoot, chain.length⟩

/-- The block that a chain names at its end: the one with the attested hash, or genesis. -/
def EndsAt (prim : Primitives) (genesis : L2Block) (chain : List ChainStep) (b : L2Block) : Prop :=
  match chain.getLast? with
  | none => b = genesis
  | some last => b.hash prim = last.attestation.l2BlockHash

/-- The last attestation, where there is one, is of `b`: it carries the height and the root
of `b`. -/
def LastOf (chain : List ChainStep) (b : L2Block) : Prop :=
  ∀ last ∈ chain.getLast?, last.attestation.height = b.header.height ∧
    last.attestation.stateRoot = b.header.stateRoot

section

variable {prim : Primitives} {fuel : ℕ} {api : ApiServer} {esplora : EsploraServer}
  {chain : List ChainStep}

/-- The head of a cold start is the one that the walk establishes. -/
theorem bootstrap_attestedHead {own : L2Address} {head : VerifiedHead} {g : L2Block}
    {anchor : OutPoint}
    (hgenesis : api.getBlock 0 = some g) (hanchor : g.header.anchorOutpoint = some anchor)
    (hwalk : walkAttestationChain esplora fuel anchor = .ok chain)
    (h : Verify.bootstrap prim fuel api esplora own = .ok head) :
    head.l2Height = (attestedHead prim g anchor chain).l2Height ∧
      head.stateRoot = (attestedHead prim g anchor chain).stateRoot := by
  obtain ⟨bal, items, l1, hcold, rfl⟩ := bootstrap_ok_iff.mp h
  obtain ⟨g', anchor', chain', hgenesis', hanchor', hwalk', rfl⟩ := hcold.walk
  obtain rfl := Option.some.inj (hgenesis'.symm.trans hgenesis)
  obtain rfl := Option.some.inj (hanchor'.symm.trans hanchor)
  obtain rfl := Except.ok.inj (hwalk'.symm.trans hwalk)
  exact ⟨rfl, hcold.stateRoot⟩

/-- The strings behind the roots of an empty ledger, without and with a fee address. -/
def emptyRoots (prim : Primitives) (fee : Option L2Address) : Set Bytes :=
  {(LedgerState.new.components prim).preimage,
    ({ LedgerState.new with sequencerFeeAddress := fee }.components prim).preimage}

/-- The root of an empty ledger is that of genesis only without a fee address. -/
theorem stateRoot_new_iff {fee : Option L2Address}
    (hcf : Set.InjOn prim.sha256 (emptyRoots prim fee)) :
    LedgerState.new.stateRoot prim = { LedgerState.new with
      sequencerFeeAddress := fee }.stateRoot prim ↔
      fee = none := by
  constructor
  · intro hroot
    have hcomp := StateComponents.preimage_inj (hcf (.inl rfl) (.inr rfl) hroot)
    exact (congrArg StateComponents.sequencerFeeAddress hcomp).symm
  · rintro rfl
    rfl

/-- **Two derivations of the head, and where they part**: whatever the genesis block and the chain
of attestations, `light_head` answers; it answers with the height and the root that `bootstrap`
takes from the same chain exactly when there is an attestation or the genesis block has no fee
address; and for a block that is named at the end of the chain, those are the height and the root
in its header exactly when that is so and the last attestation is one of the block. -/
theorem lightHead_agrees_iff {l1BlockHash : H256} {l1Height : UInt32} {timestamp : UInt64}
    {anchor : OutPoint} {producer fee : Option L2Address}
    (hcf : Set.InjOn prim.sha256 (emptyRoots prim fee))
    (hgenesis : api.getBlock 0
      = some (genesis prim l1BlockHash l1Height timestamp anchor producer fee))
    (hwalk : walkAttestationChain esplora fuel anchor = .ok chain) :
    let g := genesis prim l1BlockHash l1Height timestamp anchor producer fee
    let l1 := attestedHead prim g anchor chain
    ∃ out, lightHead prim fuel api esplora = .ok out ∧
      ((out.l2Height = l1.l2Height ∧ out.stateRoot = l1.stateRoot) ↔ (chain = [] → fee = none)) ∧
      (∀ own head, Verify.bootstrap prim fuel api esplora own = .ok head →
        head.l2Height = l1.l2Height ∧ head.stateRoot = l1.stateRoot) ∧
      (∀ b, EndsAt prim g chain b →
        ((out.l2Height = b.header.height ∧ out.stateRoot = b.header.stateRoot) ↔
          (chain = [] → fee = none) ∧ LastOf chain b)) := by
  intro g l1
  have hout : lightHead prim fuel api esplora = .ok
      (match chain.getLast? with
        | none => ⟨0, LedgerState.new.stateRoot prim, chain.length⟩
        | some last => ⟨last.attestation.height, last.attestation.stateRoot, chain.length⟩) := by
    simp only [lightHead, bind_ok_iff, okOr_ok_iff, mapErr_ok_iff, pure_ok_iff]
    refine ⟨g, hgenesis, anchor, rfl, chain, hwalk, ?_⟩
    cases chain.getLast? <;> rfl
  refine ⟨_, hout, ?_, fun own head hboot => bootstrap_attestedHead hgenesis rfl hwalk hboot, ?_⟩
  · cases hlast : chain.getLast? with
    | none =>
        have hempty : chain = [] := List.getLast?_eq_none_iff.mp hlast
        have hl1 : l1.l2Height = 0 ∧ l1.stateRoot = g.header.stateRoot := by
          simp only [l1, attestedHead, hlast, and_self]
        rw [hl1.1, hl1.2]
        simp only [true_and, hempty, forall_const]
        exact stateRoot_new_iff hcf
    | some last =>
        have hne : chain ≠ [] := by
          rintro rfl
          cases hlast
        have hl1 : l1.l2Height = last.attestation.height ∧
            l1.stateRoot = last.attestation.stateRoot := by
          simp only [l1, attestedHead, hlast, and_self]
        exact iff_of_true ⟨hl1.1.symm, hl1.2.symm⟩ fun h => absurd h hne
  · intro b hb
    unfold EndsAt at hb
    cases hlast : chain.getLast? with
    | none =>
        have hempty : chain = [] := List.getLast?_eq_none_iff.mp hlast
        rw [hlast] at hb
        subst hb
        have hnone : LastOf chain g := by
          intro last hmem
          rw [hlast] at hmem
          cases hmem
        rw [and_iff_left hnone]
        simp only [hempty, forall_const]
        exact (and_iff_right rfl).trans (stateRoot_new_iff hcf)
    | some last =>
        have hne : chain ≠ [] := by
          rintro rfl
          cases hlast
        rw [and_iff_right (fun h => absurd h hne)]
        constructor
        · intro h last' hlast'
          obtain rfl : last = last' := Option.some.inj (hlast.symm.trans hlast')
          exact h
        · exact fun h => h last hlast

end

/-! ### Before the first attestation -/

/-- The ledger of a genesis block. -/
def genesisLedger (fee : Option L2Address) : LedgerState :=
  { LedgerState.new with sequencerFeeAddress := fee }

/-- A node that serves the genesis block and its ledger. -/
def genesisServer (prim : Primitives) (fee : Option L2Address) : ApiServer where
  getBlock _ := some (genesis prim H256.zero 0 0 firstAnchor none fee)
  getWitness _ := none
  balance addr := some ((genesisLedger fee).balanceResponse prim 0 addr 0)
  getNullifiers := some (genesisLedger fee).consumedNullifiers.toList

/-- An L1 where the anchor is unspent. -/
def unattested : EsploraServer :=
  ⟨⟨fun _ => none⟩, fun _ => some true, fun _ _ => some ⟨false, none, none⟩, some 5⟩

theorem unattested_walk (fuel : ℕ) :
    walkAttestationChain unattested (fuel + 1) firstAnchor = .ok [] := rfl

/-- A wallet takes its first head from such a node. -/
theorem coldStart_genesisServer (prim : Primitives) (fee : Option L2Address) (own : L2Address) :
    ColdStart prim 1 (genesisServer prim fee) unattested own
      ((genesisLedger fee).balanceResponse prim 0 own 0)
        (genesisLedger fee).consumedNullifiers.toList
      (attestedHead prim (genesis prim H256.zero 0 0 firstAnchor none fee) firstAnchor []) where
  walk := ⟨_, firstAnchor, [], rfl, rfl, unattested_walk 0, rfl⟩
  balance := rfl
  nullifiers := rfl
  stateRoot := rfl
  l2Height := rfl
  address := rfl
  components := rfl
  proof := (genesisLedger fee).verify_accountInclusionProof own
  leaf := by
    simp only [balanceResponse, leaf_accountInclusionProof, values_leaves]
  nullifiersHash := by
    rw [nullifierSet_toList]
    rfl

/-- The roots of a chain that has the key `1` as its fee address, and of one that has none. -/
theorem feeAddress_root :
    LedgerState.new.stateRoot Primitives.counting
      ≠ (genesisLedger (some ⟨ByteArr.ofNat 32 1⟩)).stateRoot Primitives.counting := by
  decide +kernel

/-- A chain without a fee address. -/
theorem lightHead_agrees_genesis : ∃ out,
    lightHead Primitives.counting 1 (genesisServer Primitives.counting none) unattested = .ok out ∧
    out.stateRoot = (genesis Primitives.counting H256.zero 0 0 firstAnchor none
      none).header.stateRoot := by
  have hcf : Set.InjOn Primitives.counting.sha256 (emptyRoots Primitives.counting none) := by
    rintro x (rfl | rfl) y (rfl | rfl) - <;> rfl
  obtain ⟨out, hout, -, -, hblock⟩ := @lightHead_agrees_iff _ _
    (genesisServer Primitives.counting none) _ _ _ _ _ _ _ _ hcf rfl (unattested_walk 0)
  have hlast : LastOf [] (genesis Primitives.counting H256.zero 0 0 firstAnchor none none) := nofun
  exact ⟨out, hout, ((hblock _ rfl).mpr ⟨fun _ => rfl, hlast⟩).2⟩

/-- The key `1` is the fee address, and nothing is attested yet: `bootstrap` starts from the root in
the genesis block, and `light_head` reports another one for the same height. -/
theorem lightHead_feeAddress :
    let fee : Option L2Address := some ⟨ByteArr.ofNat 32 1⟩
    let api := genesisServer Primitives.counting fee
    ∃ out head, lightHead Primitives.counting 1 api unattested = .ok out ∧
      Verify.bootstrap Primitives.counting 1 api unattested ⟨ByteArr.ofNat 32 2⟩ = .ok head ∧
      out.l2Height = head.l2Height ∧
      head.stateRoot =
        (genesis Primitives.counting H256.zero 0 0 firstAnchor none fee).header.stateRoot ∧
      out.stateRoot ≠ head.stateRoot := by
  intro fee api
  exact ⟨_, _, rfl, bootstrap_ok_iff.mpr ⟨_, _, _, coldStart_genesisServer _ fee _, rfl⟩, rfl, rfl,
    feeAddress_root⟩

end Hodlchain
