/-
A wallet's first head.

`bootstrap` walks L1 to the attested state root and takes the rest from a node: the
components behind that root, a proof in the accounts tree, and the consumed
nullifiers.  Every field is compared with another; which ledger the head then
describes, and which account of it, is decided by the comparisons that are made.
-/
import Hodlchain.Core.Binding
import Hodlchain.Core.Rpc
import Hodlchain.Wallet.Esplora

namespace Hodlchain

open Bytes LedgerState

/-- The requests a wallet makes of a node; `none` is a failed request. -/
structure ApiServer extends ApiClient where
  balance : L2Address → Option BalanceResponse
  getNullifiers : Option (List String)

/-- Why there is no first head, with the values the message shows. -/
inductive ColdStartError where
  | fetchGenesis
  | noAnchor
  | walk (cause : WalkError)
  | balanceRequest
  | stateRoot (node attested : H256)
  | l2Height (node attested : UInt32)
  | wrongAddress
  | components (derived reported : H256)
  | proof
  | leafDisagrees (leafBalance leafNonce balance nonce : UInt64)
  | emptyLeaf
  | nullifiersRequest
  | nullifiers (derived reported : H256)
deriving DecidableEq, Repr

/-- What the walk establishes. -/
structure AttestedHead where
  stateRoot : H256
  l2Height : UInt32
  blockHash : H256
  l1Height : UInt32
  anchorOutpoint : OutPoint
deriving DecidableEq, Repr

/-- The last attestation, or genesis when there is none. -/
def attestedHead (prim : Primitives) (genesis : L2Block) (anchor0 : OutPoint)
    (chain : List ChainStep) : AttestedHead :=
  match chain.getLast? with
  | none =>
      { stateRoot := genesis.header.stateRoot
        l2Height := 0
        blockHash := genesis.hash prim
        l1Height := genesis.header.l1Height
        anchorOutpoint := anchor0 }
  | some last =>
      { stateRoot := last.attestation.stateRoot
        l2Height := last.attestation.height
        blockHash := last.attestation.l2BlockHash
        l1Height := last.l1Height
        anchorOutpoint := last.newAnchor }

/-- The leaf in the proof against the values beside it. -/
def checkLeaf (leaf : LeafKind) (balance nonce : UInt64) : Except ColdStartError Unit :=
  match leaf with
  | .account b n => ensure (b = balance ∧ n = nonce) (.leafDisagrees b n balance nonce)
  | .empty => ensure (balance = 0 ∧ nonce = 0) .emptyLeaf

/-- The nullifiers a node lists, as a set. -/
def nullifierSet (items : List String) : NullifierSet := Std.ExtTreeSet.ofList items

/-- `bootstrap`, walking at most `fuel` attestations. -/
def Verify.bootstrap (prim : Primitives) (fuel : Nat) (api : ApiServer) (esplora : EsploraServer)
    (ownAddress : L2Address) : Except ColdStartError VerifiedHead := do
  let genesis ← okOr (api.getBlock 0) .fetchGenesis
  let anchor0 ← okOr genesis.header.anchorOutpoint .noAnchor
  let chain ← mapErr .walk (walkAttestationChain esplora fuel anchor0)
  let l1 := attestedHead prim genesis anchor0 chain
  let bal ← okOr (api.balance ownAddress) .balanceRequest
  ensure (bal.stateRoot = l1.stateRoot) (.stateRoot bal.stateRoot l1.stateRoot)
  ensure (bal.l2Height = l1.l2Height) (.l2Height bal.l2Height l1.l2Height)
  ensure (bal.address = ownAddress) .wrongAddress
  let componentsRoot := bal.stateComponents.stateRoot prim
  ensure (componentsRoot = bal.stateRoot) (.components componentsRoot bal.stateRoot)
  ensure (bal.proof.verify prim bal.stateComponents.accountsRoot = true) .proof
  checkLeaf bal.proof.leaf bal.balance bal.nonce
  let items ← okOr api.getNullifiers .nullifiersRequest
  let consumedNullifiers := nullifierSet items
  let derived := nullifiersHashOf prim consumedNullifiers
  ensure (derived = bal.stateComponents.nullifiersHash)
    (.nullifiers derived bal.stateComponents.nullifiersHash)
  pure
    { stateRoot := bal.stateRoot
      accountsRoot := bal.stateComponents.accountsRoot
      l2Height := l1.l2Height
      blockHash := l1.blockHash
      l1Height := l1.l1Height
      anchorOutpoint := l1.anchorOutpoint
      ownAddress := ownAddress
      ownLeaf := bal.proof.leaf
      ownPath := bal.proof.siblings
      consumedNullifiers := consumedNullifiers
      totalMintedAtoms := bal.totalMintedAtoms
      sequencerFeeAddress := bal.stateComponents.sequencerFeeAddress }

/-- `balance_from`. -/
def balanceFrom (head : VerifiedHead) (addr : XOnlyPublicKey) : UInt64 × UInt64 :=
  if addr = head.ownAddress then
    match head.ownLeaf with
    | .account balance nonce => (balance, nonce)
    | .empty => (0, 0)
  else (0, 0)

section

variable {prim : Primitives}

theorem balanceFrom_own (head : VerifiedHead) :
    balanceFrom head head.ownAddress = head.ownLeaf.values := by
  rw [balanceFrom, if_pos rfl]
  cases head.ownLeaf <;> rfl

theorem checkLeaf_ok_iff {leaf : LeafKind} {balance nonce : UInt64} :
    checkLeaf leaf balance nonce = .ok () ↔ leaf.values = (balance, nonce) := by
  cases leaf with
  | account b n => simp [checkLeaf, LeafKind.values]
  | empty =>
      simp only [checkLeaf, LeafKind.values, ensure_ok_iff, Prod.mk.injEq]
      exact and_congr eq_comm eq_comm

/-- What a first head is made of, and what was compared on the way. -/
structure ColdStart (prim : Primitives) (fuel : Nat) (api : ApiServer) (esplora : EsploraServer)
    (own : L2Address) (bal : BalanceResponse) (items : List String) (l1 : AttestedHead) : Prop where
  walk : ∃ genesis anchor0 chain, api.getBlock 0 = some genesis ∧
    genesis.header.anchorOutpoint = some anchor0 ∧
    walkAttestationChain esplora fuel anchor0 = .ok chain ∧
    l1 = attestedHead prim genesis anchor0 chain
  balance : api.balance own = some bal
  nullifiers : api.getNullifiers = some items
  stateRoot : bal.stateRoot = l1.stateRoot
  l2Height : bal.l2Height = l1.l2Height
  address : bal.address = own
  components : bal.stateComponents.stateRoot prim = bal.stateRoot
  proof : bal.proof.verify prim bal.stateComponents.accountsRoot = true
  leaf : bal.proof.leaf.values = (bal.balance, bal.nonce)
  nullifiersHash : nullifiersHashOf prim (nullifierSet items) = bal.stateComponents.nullifiersHash

/-- The head made of them. -/
def coldHead (own : L2Address) (bal : BalanceResponse) (items : List String) (l1 : AttestedHead) :
    VerifiedHead where
  stateRoot := bal.stateRoot
  accountsRoot := bal.stateComponents.accountsRoot
  l2Height := l1.l2Height
  blockHash := l1.blockHash
  l1Height := l1.l1Height
  anchorOutpoint := l1.anchorOutpoint
  ownAddress := own
  ownLeaf := bal.proof.leaf
  ownPath := bal.proof.siblings
  consumedNullifiers := nullifierSet items
  totalMintedAtoms := bal.totalMintedAtoms
  sequencerFeeAddress := bal.stateComponents.sequencerFeeAddress

theorem bootstrap_ok_iff {fuel : Nat} {api : ApiServer} {esplora : EsploraServer}
    {own : L2Address} {head : VerifiedHead} :
    Verify.bootstrap prim fuel api esplora own = .ok head ↔
      ∃ bal items l1, ColdStart prim fuel api esplora own bal items l1 ∧
        coldHead own bal items l1 = head := by
  constructor
  · intro h
    simp only [Verify.bootstrap, bind_ok_iff, ensure_ok_iff, mapErr_ok_iff, okOr_ok_iff,
      pure_ok_iff] at h
    obtain ⟨genesis, hgenesis, anchor0, hanchor, chain, hchain, bal, hbal, _, hroot, _, hheight, _,
      haddr, _, hcomp, _, hproof, _, hleaf, items, hitems, _, hnull, hhead⟩ := h
    exact ⟨bal, items, _,
      { walk := ⟨genesis, anchor0, chain, hgenesis, hanchor, hchain, rfl⟩
        balance := hbal
        nullifiers := hitems
        stateRoot := hroot
        l2Height := hheight
        address := haddr
        components := hcomp
        proof := hproof
        leaf := checkLeaf_ok_iff.mp hleaf
        nullifiersHash := hnull }, hhead⟩
  · rintro ⟨bal, items, l1, h, rfl⟩
    obtain ⟨genesis, anchor0, chain, hgenesis, hanchor, hchain, rfl⟩ := h.walk
    simp only [Verify.bootstrap, bind_ok_iff, ensure_ok_iff, mapErr_ok_iff,
      okOr_ok_iff, pure_ok_iff]
    exact ⟨genesis, hgenesis, anchor0, hanchor, chain, hchain, bal, h.balance, (), h.stateRoot, (),
      h.l2Height, (), h.address, (), h.components, (), h.proof, (), checkLeaf_ok_iff.mpr h.leaf,
      items, h.nullifiers, (), h.nullifiersHash, rfl⟩

/-- The strings behind a node's answers are in `U`. -/
structure ServedIn (prim : Primitives) (U : Set Bytes) (bal : BalanceResponse)
    (items : List String) : Prop where
  components : bal.stateComponents.preimage ∈ U
  nullifiers : nullifiersPreimage (nullifierSet items) ∈ U
  proof : bal.proof.In prim U

/-- The head is that of `s`, seen from `own`. -/
structure OwnView (prim : Primitives) (s : LedgerState) (own : L2Address) (head : VerifiedHead) :
    Prop where
  leaf : head.ownLeaf = s.leaves own
  path : head.ownPath = (s.accountInclusionProof prim own).siblings
  nullifiers : head.consumedNullifiers = s.consumedNullifiers
  accountsRoot : head.accountsRoot = s.accountsRoot prim
  feeAddress : head.sequencerFeeAddress = s.sequencerFeeAddress

/-- Two addresses have one leaf and one path in `s`. -/
def SamePath (prim : Primitives) (s : LedgerState) (a b : L2Address) : Prop :=
  s.leaves a = s.leaves b ∧
    (s.accountInclusionProof prim a).siblings = (s.accountInclusionProof prim b).siblings

/-- A list of nullifiers that cuts the string of a ledger's nullifiers in another way. -/
def OtherCut (items : List String) (s : LedgerState) : Prop :=
  nullifierSet items ≠ s.consumedNullifiers ∧
    spelled (nullifierSet items) = spelled s.consumedNullifiers

variable {U : Set Bytes} {s : LedgerState} {fuel : Nat} {api : ApiServer} {esplora : EsploraServer}
  {own : L2Address} {bal : BalanceResponse} {items : List String} {l1 : AttestedHead}

/-- What the comparisons do establish, short of a collision: the components are those of the
ledger, the nullifiers spell its string, and the proof is its proof of the address in it. -/
theorem ColdStart.genuine (hcf : Set.InjOn prim.sha256 U) (hs : s.In prim U)
    (h : ColdStart prim fuel api esplora own bal items l1) (hin : ServedIn prim U bal items)
    (hroot : bal.stateRoot = s.stateRoot prim) :
    bal.stateComponents = s.components prim ∧
      spelled (nullifierSet items) = spelled s.consumedNullifiers ∧
      bal.proof = s.accountInclusionProof prim bal.proof.address := by
  have hcomp : bal.stateComponents = s.components prim :=
    StateComponents.preimage_inj
      (hcf hin.components hs.components (h.components.trans hroot))
  have hnull := h.nullifiersHash
  have hproof := h.proof
  rw [hcomp] at hnull hproof
  exact ⟨hcomp, nullifiersPreimage_eq_iff.mp (hcf hin.nullifiers hs.nullifiers hnull),
    hin.proof.genuine hcf (hs.proofs _) hproof⟩

theorem ColdStart.leaf_eq (hcf : Set.InjOn prim.sha256 U) (hs : s.In prim U)
    (h : ColdStart prim fuel api esplora own bal items l1) (hin : ServedIn prim U bal items)
    (hroot : bal.stateRoot = s.stateRoot prim) : bal.proof.leaf = s.leaves bal.proof.address := by
  obtain ⟨-, -, hproof⟩ := h.genuine hcf hs hin hroot
  conv_lhs => rw [hproof]
  exact s.leaf_accountInclusionProof _

/-- The balance read from a first head is that of the address in the proof. -/
theorem bootstrap_balanceFrom (hcf : Set.InjOn prim.sha256 U) (hs : s.In prim U)
    {head : VerifiedHead} (h : Verify.bootstrap prim fuel api esplora own = .ok head)
    (hroot : head.stateRoot = s.stateRoot prim) (hbal : api.balance own = some bal)
    (hitems : api.getNullifiers = some items) (hin : ServedIn prim U bal items) :
    balanceFrom head own = (s.balanceOf bal.proof.address, s.nonceOf bal.proof.address) := by
  obtain ⟨bal', items', l1, hcold, rfl⟩ := bootstrap_ok_iff.mp h
  obtain rfl := Option.some.inj (hbal.symm.trans hcold.balance)
  obtain rfl := Option.some.inj (hitems.symm.trans hcold.nullifiers)
  rw [show balanceFrom (coldHead own bal items l1) own = bal.proof.leaf.values from
    balanceFrom_own _, hcold.leaf_eq hcf hs hin hroot, values_leaves]

/--
**A cold start is the view of the ledger behind the attested root exactly when the node's proof
is for the wallet's own address, or for one that has the same leaf and path, and its list does
not cut the nullifiers' string in another way.**  Two nodes agree on the balance exactly when
the accounts they prove hold the same, as when both prove the own one.
-/
theorem bootstrap_ownView_iff (hcf : Set.InjOn prim.sha256 U) (hs : s.In prim U)
    {head : VerifiedHead} (h : Verify.bootstrap prim fuel api esplora own = .ok head)
    (hroot : head.stateRoot = s.stateRoot prim) (hbal : api.balance own = some bal)
    (hitems : api.getNullifiers = some items) (hin : ServedIn prim U bal items) :
    (OwnView prim s own head ↔
      (bal.proof.address = own ∨ SamePath prim s bal.proof.address own) ∧ ¬ OtherCut items s) ∧
    ∀ fuel' api' esplora' head' bal' items',
      Verify.bootstrap prim fuel' api' esplora' own = .ok head' →
      head'.stateRoot = s.stateRoot prim → ApiServer.balance api' own = some bal' →
      api'.getNullifiers = some items' → ServedIn prim U bal' items' →
      (balanceFrom head own = balanceFrom head' own ↔
        s.balanceOf bal.proof.address = s.balanceOf bal'.proof.address ∧
          s.nonceOf bal.proof.address = s.nonceOf bal'.proof.address) := by
  constructor
  · obtain ⟨bal', items', l1, hcold, rfl⟩ := bootstrap_ok_iff.mp h
    obtain rfl := Option.some.inj (hbal.symm.trans hcold.balance)
    obtain rfl := Option.some.inj (hitems.symm.trans hcold.nullifiers)
    obtain ⟨hcomp, hspelled, hproof⟩ := hcold.genuine hcf hs hin hroot
    have hleaf := hcold.leaf_eq hcf hs hin hroot
    have hpath : bal.proof.siblings
        = (s.accountInclusionProof prim bal.proof.address).siblings := by
      conv_lhs => rw [hproof]
    refine ⟨fun hview => ⟨.inr ⟨hleaf.symm.trans hview.leaf, hpath.symm.trans hview.path⟩,
      fun hcut => hcut.1 hview.nullifiers⟩, ?_⟩
    rintro ⟨haddr, hcut⟩
    have hsame : SamePath prim s bal.proof.address own := by
      rcases haddr with haddr | hsame
      · rw [haddr]
        exact ⟨rfl, rfl⟩
      · exact hsame
    exact
      { leaf := hleaf.trans hsame.1
        path := hpath.trans hsame.2
        nullifiers := by_contra fun hne => hcut ⟨hne, hspelled⟩
        accountsRoot := congrArg StateComponents.accountsRoot hcomp
        feeAddress := congrArg StateComponents.sequencerFeeAddress hcomp }
  · intro fuel' api' esplora' head' bal' items' h' hroot' hbal' hitems' hin'
    rw [bootstrap_balanceFrom hcf hs h hroot hbal hitems hin,
      bootstrap_balanceFrom hcf hs h' hroot' hbal' hitems' hin', Prod.mk.injEq]

end

/-! ### A proof for another account -/

def firstAnchor : OutPoint := ⟨⟨ByteArr.ofNat 32 9⟩, 1⟩

def firstAttestation : Txid := ⟨ByteArr.ofNat 32 10⟩

/-- An L1 whose one attestation is of `s`, at height 1. -/
def attesting (prim : Primitives) (s : LedgerState) : EsploraServer where
  getTx _ := some
    ⟨[⟨hexEncode (Attestation.new 1 H256.zero (s.stateRoot prim)).toScript, 0⟩, ⟨"", 330⟩],
      ⟨some 5⟩⟩
  txExists _ := some true
  getOutspend txid _ :=
    if txid = firstAnchor.txid then some ⟨true, some firstAttestation.toStr, some 5⟩
    else some ⟨false, none, none⟩
  tipHeight := some 5

/-- A node that answers every balance request with the account of `a` in `s`, and names the
address it was asked for. -/
def answering (prim : Primitives) (s : LedgerState) (a : L2Address) : ApiServer where
  getBlock _ := some (genesis prim H256.zero 0 0 firstAnchor none none)
  getWitness _ := none
  balance addr := some { s.balanceResponse prim 1 a 0 with address := addr }
  getNullifiers := some s.consumedNullifiers.toList

/-- What `attesting` attests. -/
def attestedFirst (prim : Primitives) (s : LedgerState) : AttestedHead :=
  ⟨s.stateRoot prim, 1, H256.zero, 5, ⟨firstAttestation, 1⟩⟩

theorem nullifierSet_toList (set : NullifierSet) : nullifierSet set.toList = set := by
  refine Std.ExtTreeSet.ext_mem fun n => ?_
  rw [nullifierSet, Std.ExtTreeSet.mem_ofList, List.contains_iff_mem, Std.ExtTreeSet.mem_toList]

/-- An L1 with one attestation. -/
def attestingOnce (att : Attestation) : EsploraServer where
  getTx _ := some ⟨[⟨hexEncode att.toScript, 0⟩, ⟨"", 330⟩], ⟨some 5⟩⟩
  txExists _ := some true
  getOutspend txid _ :=
    if txid = firstAnchor.txid then some ⟨true, some firstAttestation.toStr, some 5⟩
    else some ⟨false, none, none⟩
  tipHeight := some 5

theorem attestingOnce_walk {att : Attestation} (hversion : att.version = attestationVersion) :
    walkAttestationChain (attestingOnce att) 2 firstAnchor
      = .ok [⟨att, 5, ⟨firstAttestation, 1⟩⟩] := by
  have hread := Attestation.tryFromScript_toScript hversion
  have hne : firstAttestation ≠ firstAnchor.txid := by decide
  simp only [walkAttestationChain, walkFrom, readChainStep, attestingOnce, bind_ok_iff,
    ensure_ok_iff, okOr_ok_iff, mapErr_ok_iff, Option.some.injEq, exists_eq_left', if_true,
    if_neg hne, Bool.not_true, Bool.not_false, Bool.false_eq_true, if_false, Txid.fromStr_toStr,
    hexDecode_hexEncode, hread, Except.ok.injEq, pure_ok_iff]
  exact ⟨(), trivial, trivial⟩

/-- Nothing has spent the anchor of the attestation. -/
theorem attestingOnce_rest (att : Attestation) :
    walkAttestationChain (attestingOnce att) 2 ⟨firstAttestation, 1⟩ = .ok [] := by
  have hne : firstAttestation ≠ firstAnchor.txid := by decide
  simp only [walkAttestationChain, walkFrom, attestingOnce, if_neg hne]
  rfl

theorem attesting_walk (prim : Primitives) (s : LedgerState) :
    walkAttestationChain (attesting prim s) 2 firstAnchor
      = .ok [⟨Attestation.new 1 H256.zero (s.stateRoot prim), 5, ⟨firstAttestation, 1⟩⟩] :=
  attestingOnce_walk rfl

/-- Such a node passes every check, whichever account it answers with. -/
theorem coldStart_answering (prim : Primitives) (s : LedgerState) (a own : L2Address) :
    ColdStart prim 2 (answering prim s a) (attesting prim s) own
      { s.balanceResponse prim 1 a 0 with address := own } s.consumedNullifiers.toList
      (attestedFirst prim s) where
  walk := ⟨_, _, _, rfl, rfl, attesting_walk prim s, rfl⟩
  balance := rfl
  nullifiers := rfl
  stateRoot := rfl
  l2Height := rfl
  address := rfl
  components := rfl
  proof := s.verify_accountInclusionProof a
  leaf := by
    simp only [balanceResponse, leaf_accountInclusionProof, values_leaves]
  nullifiersHash := by
    rw [nullifierSet_toList]
    rfl

/-- A ledger with one account, of five atoms. -/
def fiveAtoms : LedgerState :=
  { LedgerState.new with accounts := (∅ : AccountMap).insert ⟨ByteArr.ofNat 32 1⟩ ⟨5, 0⟩ }

/-- Asked for another address, a node proves the account with five atoms: the wallet takes its
leaf for its own, under every hash, while an honest node at the same head shows an empty one. -/
theorem bootstrap_other_account :
    let own : L2Address := ⟨ByteArr.ofNat 32 2⟩
    let rich : L2Address := ⟨ByteArr.ofNat 32 1⟩
    fiveAtoms.leaves rich = .account 5 0 ∧ fiveAtoms.leaves own = .empty ∧
    ∀ prim : Primitives, ∃ head honest,
      Verify.bootstrap prim 2 (answering prim fiveAtoms rich)
        (attesting prim fiveAtoms) own = .ok head ∧
      Verify.bootstrap prim 2 (answering prim fiveAtoms own)
        (attesting prim fiveAtoms) own = .ok honest ∧
      head.stateRoot = fiveAtoms.stateRoot prim ∧ honest.stateRoot = fiveAtoms.stateRoot prim ∧
      head.ownLeaf ≠ fiveAtoms.leaves own ∧
      balanceFrom head own = (5, 0) ∧ balanceFrom honest own = (0, 0) := by
  intro own rich
  have hrich : fiveAtoms.leaves rich = .account 5 0 := by decide
  have hown : fiveAtoms.leaves own = .empty := by decide
  refine ⟨hrich, hown, fun prim => ?_⟩
  refine ⟨_, _, bootstrap_ok_iff.mpr ⟨_, _, _, coldStart_answering prim fiveAtoms rich own, rfl⟩,
    bootstrap_ok_iff.mpr ⟨_, _, _, coldStart_answering prim fiveAtoms own own, rfl⟩, rfl, rfl,
    ?_, ?_, ?_⟩
  · simp only [coldHead, balanceResponse, leaf_accountInclusionProof, hrich, hown]
    simp
  · refine (balanceFrom_own _).trans ?_
    simp only [coldHead, balanceResponse, leaf_accountInclusionProof, hrich, LeafKind.values]
  · refine (balanceFrom_own _).trans ?_
    simp only [coldHead, balanceResponse, leaf_accountInclusionProof, hown, LeafKind.values]

/-- The nullifier of the anchor, as a mint of it would spell it. -/
def spentNullifier : String := hexEncode (OutpointProof.outpointNullifier firstAnchor)

theorem injOn_spentStrings :
    Set.InjOn Primitives.weighing.sha256 (twoLedgerStrings [spentNullifier]) :=
  injOn_twoLedgerStrings (by decide +kernel) (by decide +kernel)

/-- An honest node, with two accounts and a nullifier behind the attested root. -/
theorem bootstrap_ownView_two :
    ∃ head, Verify.bootstrap Primitives.weighing 2
        (answering Primitives.weighing (twoLedger [spentNullifier]) firstKey)
        (attesting Primitives.weighing (twoLedger [spentNullifier])) firstKey = .ok head ∧
      OwnView Primitives.weighing (twoLedger [spentNullifier]) firstKey head := by
  have hboot := bootstrap_ok_iff.mpr ⟨_, _, _, coldStart_answering Primitives.weighing
    (twoLedger [spentNullifier]) firstKey firstKey, rfl⟩
  have hlist := nullifierSet_toList (twoLedger [spentNullifier]).consumedNullifiers
  have hin := twoLedger_in [spentNullifier]
  refine ⟨_, hboot, (bootstrap_ownView_iff injOn_spentStrings hin hboot rfl rfl rfl
    ⟨hin.components, ?_, hin.proofs _⟩).1.mpr ⟨.inl rfl, fun hcut => hcut.1 hlist⟩⟩
  rw [hlist]
  exact hin.nullifiers

end Hodlchain
