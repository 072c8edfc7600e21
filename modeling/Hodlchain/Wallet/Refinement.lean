/-
The sparse check refines a full replay.

Accepting a block forces the pre-proofs to be the ledger's own, whatever the
server sent, since `apply_updates` checks each of them against the root the head
holds; building the witness from the ledger makes them so.  From there on both
directions are the two replays of `SparseLedger`, side by side.
-/
import Hodlchain.Core.Counting
import Hodlchain.Wallet.SparseLedger

namespace Hodlchain

open LedgerState Bytes MerkleTree

/-! ### The checks, as statements -/

/-- The header of a block fits the head and the attestation, and its body. -/
structure HeaderFits (prim : Primitives) (head : VerifiedHead) (height : UInt32)
    (endAttestation : Option Attestation) (block : L2Block) : Prop where
  height : block.header.height = height
  attested : ∀ att, endAttestation = some att →
    block.hash prim = att.l2BlockHash ∧ block.header.stateRoot = att.stateRoot
  txsRoot : computeTxsRoot prim block.txs = block.header.txsRoot
  prevHash : block.header.prevHash = head.blockHash

/-- The witness is for this block and this head. -/
structure WitnessFits (head : VerifiedHead) (height : UInt32) (block : L2Block)
    (witness : BlockWitness) : Prop where
  height : witness.height = height
  priorAccountsRoot : witness.priorAccountsRoot = head.accountsRoot
  touched : touchedAddresses block.txs head.sequencerFeeAddress
    = (witness.preProofs.map (·.address)).mergeSort fun a b => (compare a b).isLE

theorem checkEndAttestation_ok_iff {prim : Primitives} {block : L2Block}
    {endAttestation : Option Attestation} {u : Unit} :
    checkEndAttestation prim block endAttestation = .ok u ↔ ∀ att, endAttestation = some att →
      block.hash prim = att.l2BlockHash ∧ block.header.stateRoot = att.stateRoot := by
  cases endAttestation with
  | none => simp [checkEndAttestation]
  | some att =>
      simp only [checkEndAttestation, bind_ok_iff, ensure_ok_iff, Option.some.injEq,
        forall_eq']
      constructor
      · rintro ⟨_, h1, h2⟩
        exact ⟨h1, h2⟩
      · rintro ⟨h1, h2⟩
        exact ⟨(), h1, h2⟩

theorem checkStructure_ok_iff {prim : Primitives} {head : VerifiedHead} {height : UInt32}
    {endAttestation : Option Attestation} {block : L2Block} {witness : BlockWitness} {u : Unit} :
    checkStructure prim head height endAttestation block witness = .ok u ↔
      HeaderFits prim head height endAttestation block ∧ WitnessFits head height block witness := by
  simp only [checkStructure, bind_ok_iff, ensure_ok_iff, checkEndAttestation_ok_iff]
  constructor
  · rintro ⟨_, h1, _, h2, _, h3, _, h4, _, h5, _, h6, h7⟩
    exact ⟨⟨h1, h2, h3, h4⟩, ⟨h5, h6, h7⟩⟩
  · rintro ⟨⟨h1, h2, h3, h4⟩, ⟨h5, h6, h7⟩⟩
    exact ⟨(), h1, (), h2, (), h3, (), h4, (), h5, (), h6, h7⟩

/-- A witness that fits shows every touched address once. -/
theorem WitnessFits.covers {head : VerifiedHead} {height : UInt32} {block : L2Block}
    {witness : BlockWitness} (h : WitnessFits head height block witness) :
    (witness.preProofs.map (·.address)).Nodup ∧
      ∀ a, a ∈ witness.preProofs.map (·.address)
        ↔ a ∈ touchedAddresses block.txs head.sequencerFeeAddress := by
  have hperm := List.mergeSort_perm (witness.preProofs.map (·.address))
    fun a b => (compare a b).isLE
  rw [← h.touched] at hperm
  exact ⟨hperm.nodup_iff.mp (touchedAddresses_nodup _ _), fun a => hperm.mem_iff.symm⟩

/-! ### L1 -/

/-- A view of L1 that answers, for the outputs a body claims, what Esplora answers. -/
structure SameL1View (esplora : EsploraClient) (tip : UInt32) (txs : List L2Tx) (l1 : L1View) :
    Prop where
  tipHeight : l1.tipHeight = tip
  getOutput : ∀ entry, L2Tx.mint entry ∈ txs →
    l1.getOutput entry.witness.outpoint = (esplora.output tip entry.witness.outpoint).toOption

/-- What the prefetched map says is what Esplora said, and it covers the body. -/
theorem prefetchFrom_spec {esplora : EsploraClient} {height tip : UInt32} {txs : List L2Tx} :
    ∀ {i : Nat} {outputs outputs' : List (OutPoint × L1Output)},
      (∀ op out, outputs.lookup op = some out → esplora.output tip op = .ok out) →
      prefetchFrom esplora height tip i txs outputs = .ok outputs' →
      (∀ op out, outputs'.lookup op = some out → esplora.output tip op = .ok out) ∧
        (∀ op, (outputs.lookup op).isSome → (outputs'.lookup op).isSome) ∧
        ∀ entry, L2Tx.mint entry ∈ txs → (outputs'.lookup entry.witness.outpoint).isSome := by
  induction txs with
  | nil =>
      intro i outputs outputs' hinv h
      cases h
      exact ⟨hinv, fun _ h => h, by simp⟩
  | cons tx txs ih =>
      intro i outputs outputs' hinv h
      cases tx with
      | transfer t =>
          obtain ⟨hsame, hgrow, hcover⟩ := ih hinv h
          exact ⟨hsame, hgrow, fun entry he => hcover entry (by simpa using he)⟩
      | mint entry =>
          simp only [prefetchFrom] at h
          by_cases hseen : (outputs.lookup entry.witness.outpoint).isSome = true
          · rw [if_pos hseen] at h
            obtain ⟨hsame, hgrow, hcover⟩ := ih hinv h
            refine ⟨hsame, hgrow, fun e he => ?_⟩
            rcases List.mem_cons.mp he with he | he
            · cases he
              exact hgrow _ hseen
            · exact hcover e he
          · rw [if_neg hseen] at h
            cases hout : esplora.output tip entry.witness.outpoint with
            | error e => rw [hout] at h; cases h
            | ok out =>
                rw [hout] at h
                have hinv' : ∀ op o, ((entry.witness.outpoint, out) :: outputs).lookup op = some o →
                    esplora.output tip op = .ok o := by
                  intro op o ho
                  rw [List.lookup_cons] at ho
                  by_cases hop : op = entry.witness.outpoint
                  · subst hop
                    simp only [beq_self_eq_true, Option.some.injEq] at ho
                    rw [hout, ho]
                  · have : (op == entry.witness.outpoint) = false := by simpa using hop
                    rw [this] at ho
                    exact hinv op o ho
                obtain ⟨hsame, hgrow, hcover⟩ := ih hinv' h
                have hgrow' : ∀ op, (outputs.lookup op).isSome →
                    (((entry.witness.outpoint, out) :: outputs).lookup op).isSome := by
                  intro op hop
                  rw [List.lookup_cons]
                  split
                  · rfl
                  · exact hop
                refine ⟨hsame, fun op hop => hgrow op (hgrow' op hop), fun e he => ?_⟩
                rcases List.mem_cons.mp he with he | he
                · cases he
                  exact hgrow _ (by simp)
                · exact hcover e he

/-- The prefetch succeeds once every claimed output can be read. -/
theorem prefetchFrom_total {esplora : EsploraClient} {height tip : UInt32} {txs : List L2Tx} :
    ∀ {i : Nat} {outputs : List (OutPoint × L1Output)},
      (∀ entry, L2Tx.mint entry ∈ txs →
        ∃ out, esplora.output tip entry.witness.outpoint = .ok out) →
      ∃ outputs', prefetchFrom esplora height tip i txs outputs = .ok outputs' := by
  induction txs with
  | nil => intro i outputs _; exact ⟨outputs, rfl⟩
  | cons tx txs ih =>
      intro i outputs h
      have hrest : ∀ entry, L2Tx.mint entry ∈ txs →
          ∃ out, esplora.output tip entry.witness.outpoint = .ok out :=
        fun entry he => h entry (List.mem_cons_of_mem _ he)
      cases tx with
      | transfer t => exact ih hrest
      | mint entry =>
          simp only [prefetchFrom]
          split
          · exact ih hrest
          · obtain ⟨out, hout⟩ := h entry (by simp)
            rw [hout]
            exact ih hrest

/-- The prefetched view holds what Esplora said of every output the body claims. -/
theorem prefetch_getOutput {esplora : EsploraClient} {tip : UInt32} {block : L2Block}
    {batch : BatchL1View} (h : prefetchL1ForBlock esplora block tip = .ok batch) :
    SameL1View esplora tip block.txs batch.view := by
  simp only [prefetchL1ForBlock, bind_ok_iff, pure_ok_iff] at h
  obtain ⟨outputs, hpre, rfl⟩ := h
  obtain ⟨hsame, -, hcover⟩ := prefetchFrom_spec (by simp) hpre
  refine ⟨rfl, fun entry he => ?_⟩
  obtain ⟨out, hout⟩ := Option.isSome_iff_exists.mp (hcover entry he)
  rw [hsame _ _ hout]
  exact hout

/-- So it gives every mint of the body the verdict the full view gives it. -/
theorem prefetch_verifyMints {prim : Primitives} {esplora : EsploraClient} {tip : UInt32}
    {block : L2Block} {l1 : L1View} {batch : BatchL1View}
    (hl1 : SameL1View esplora tip block.txs l1)
    (h : prefetchL1ForBlock esplora block tip = .ok batch) :
    verifyMints prim batch.view block.txs = verifyMints prim l1 block.txs := by
  have hbatch := prefetch_getOutput h
  refine verifyMintsFrom_congr (fun entry he => ?_) (hbatch.tipHeight.trans hl1.tipHeight.symm) 0
  rw [hl1.getOutput entry he, hbatch.getOutput entry he]

theorem prefetch_total {prim : Primitives} {esplora : EsploraClient} {tip : UInt32}
    {block : L2Block} {l1 : L1View} (hl1 : SameL1View esplora tip block.txs l1)
    (hmints : verifyMints prim l1 block.txs = .ok ()) :
    ∃ batch, prefetchL1ForBlock esplora block tip = .ok batch := by
  have hread : ∀ entry, L2Tx.mint entry ∈ block.txs →
      ∃ out, esplora.output tip entry.witness.outpoint = .ok out := by
    intro entry he
    obtain ⟨out, hout⟩ := verifyMintEntry_found (verifyMintsFrom_ok_iff.mp hmints entry he)
    rw [hl1.getOutput entry he] at hout
    cases hres : esplora.output tip entry.witness.outpoint with
    | ok o => exact ⟨o, rfl⟩
    | error e => rw [hres] at hout; cases hout
  obtain ⟨outputs, hpre⟩ := @prefetchFrom_total esplora block.header.height tip block.txs 0 [] hread
  exact ⟨⟨outputs, tip⟩, by simp [prefetchL1ForBlock, hpre]⟩

/-! ### The refinement -/

/-- The strings hashed while the proofs of a witness are checked, and those the ledger
hashes on the paths of the same addresses. -/
def witnessPreimages (prim : Primitives) (s : LedgerState) (witness : BlockWitness) : Set Bytes :=
  {x | ∃ p ∈ witness.preProofs,
    x ∈ p.preimages prim ∨ x ∈ pathPreimages prim s.leaves p.address}

/-- An update list that passed `apply_updates` carries the ledger's own proofs, whoever
made them. -/
theorem genuineProofs_of_accepted {prim : Primitives} {s : LedgerState} {head : VerifiedHead}
    {height : UInt32} {block : L2Block} {witness : BlockWitness} {sparse : LedgerState}
    {newRoot : H256} (hagree : Agrees prim s head)
    (hcf : Set.InjOn prim.sha256 (witnessPreimages prim s witness))
    (hfits : WitnessFits head height block witness)
    (hroot : newAccountsRoot prim height (sparseUpdates witness.preProofs sparse)
      head.accountsRoot = .ok newRoot) :
    GenuineProofs prim s block.txs witness.preProofs := by
  obtain ⟨hnd, hcovers⟩ := hfits.covers
  rw [hagree.sequencerFeeAddress] at hcovers
  refine ⟨hnd, fun p hp => ?_, hcovers⟩
  have hupdate : (⟨p, leafKindOf sparse.accounts[p.address]?⟩ : Update)
      ∈ sparseUpdates witness.preProofs sparse := List.mem_map.mpr ⟨p, hp, rfl⟩
  have hne : (sparseUpdates witness.preProofs sparse).isEmpty = false := by
    simpa using List.ne_nil_of_mem hupdate
  simp only [newAccountsRoot, hne, Bool.false_eq_true, if_false, mapErr_ok_iff] at hroot
  have hverify := (validateUpdates_ok_iff.mp (applyUpdates_ok hroot).2).2 _ hupdate
  rw [hagree.accountsRoot, accountsRoot_eq] at hverify
  have hsub : {x | x ∈ p.preimages prim ∨ x ∈ pathPreimages prim s.leaves p.address}
      ⊆ witnessPreimages prim s witness := fun x hx => ⟨p, hp, hx⟩
  exact verify_sound (hcf.mono hsub) hverify

/-- The proofs a full ledger builds for a body are its own. -/
theorem genuineProofs_build (prim : Primitives) (s : LedgerState) (txs : List L2Tx)
    (height : UInt32) :
    GenuineProofs prim s txs (BlockWitness.build prim s txs height).preProofs := by
  have haddr : ((BlockWitness.build prim s txs height).preProofs.map (·.address))
      = touchedAddresses txs s.sequencerFeeAddress := by
    simp only [BlockWitness.build, List.map_map]
    exact List.map_id'' (fun _ => rfl) _
  refine ⟨haddr ▸ touchedAddresses_nodup _ _, fun p hp => ?_, fun a => by rw [haddr]⟩
  obtain ⟨a, -, rfl⟩ := List.mem_map.mp hp
  rw [accountInclusionProof_eq]
  rfl

theorem witnessFits_build {prim : Primitives} {s : LedgerState} {head : VerifiedHead}
    {block : L2Block} (height : UInt32) (hagree : Agrees prim s head) :
    WitnessFits head height block (BlockWitness.build prim s block.txs height) where
  height := rfl
  priorAccountsRoot := hagree.accountsRoot.symm
  touched := by
    have haddr : ((BlockWitness.build prim s block.txs height).preProofs.map (·.address))
        = touchedAddresses block.txs s.sequencerFeeAddress := by
      simp only [BlockWitness.build, List.map_map]
      exact List.map_id'' (fun _ => rfl) _
    rw [haddr, hagree.sequencerFeeAddress]
    refine (List.mergeSort_of_pairwise ((touchedAddresses_pairwise _ _).imp ?_)).symm
    intro a b hab
    simp [hab]

/-- A block that replays from the ledger a head describes is accepted with the witness of that
ledger. -/
theorem verifyOneL2Block_accepts {prim : Primitives} {s s' : LedgerState}
    {head : VerifiedHead} {height tip : UInt32} {endAttestation : Option Attestation}
    {api : ApiClient} {esplora : EsploraClient} {block : L2Block} {l1 : L1View}
    (hblock : api.getBlock height = some block)
    (hwitness : api.getWitness height = some (BlockWitness.build prim s block.txs height))
    (hagree : Agrees prim s head) (hl1 : SameL1View esplora tip block.txs l1)
    (hheader : HeaderFits prim head height endAttestation block)
    (hmints : verifyMints prim l1 block.txs = .ok ()) (hs' : s.replay prim block.txs = .ok s')
    (hstate : s'.stateRoot prim = block.header.stateRoot) :
    ∃ head' events,
      verifyOneL2Block prim head height endAttestation tip api esplora = .ok (head', events)
        ∧ Agrees prim s' head' := by
  have hgen := genuineProofs_build prim s block.txs height
  obtain ⟨sparse, hsparse, hafter⟩ := replayFrom_agree (hgen.agreeOn hagree)
    (touches_mem_touchedAddresses _) hs'
  obtain ⟨hroot, hown⟩ := hgen.newRoots hagree hafter hs' height
  obtain ⟨batch, hbatch⟩ := prefetch_total hl1 hmints
  rw [← prefetch_verifyMints hl1 hbatch] at hmints
  have hstate' : StateComponents.stateRoot prim
      { accountsRoot := s'.accountsRoot prim
        nullifiersHash := sparse.nullifiersHash prim
        sequencerFeeAddress := sparse.sequencerFeeAddress } = block.header.stateRoot := by
    rw [← hstate, stateRoot, components, nullifiersHash, nullifiersHash,
      hafter.consumedNullifiers, hafter.sequencerFeeAddress]
  have hproof : (s'.accountInclusionProof prim head.ownAddress).verify prim
      (s'.accountsRoot prim) = true := by
    rw [accountInclusionProof_eq, accountsRoot_eq]
    exact verify_smtProof _ _
  simp only [verifyOneL2Block, bind_ok_iff, okOr_ok_iff, mapErr_ok_iff, ensure_ok_iff, pure_ok_iff,
    checkStructure_ok_iff]
  refine ⟨_, _, ⟨block, hblock, _, hwitness, (), ⟨hheader, witnessFits_build height hagree⟩, batch,
    hbatch, (), hmints, sparse, hsparse, _, hroot, (), hstate', _, hown, (), hproof, rfl⟩, ?_⟩
  exact ⟨rfl, hafter.consumedNullifiers.symm, hafter.sequencerFeeAddress.symm,
    hafter.totalMintedAtoms.symm, rfl, rfl⟩

/--
**The sparse check refines a full replay.**  For a head that describes `s`, and
whatever the server sends: an accepted block has valid mints, replays from `s` to
a ledger with the header's state root, and leaves a head that describes that
ledger.  A block that passes the header checks and replays from `s` is accepted
with the witness `s` builds.
-/
theorem verifyOneL2Block_refines_replay {prim : Primitives} {s : LedgerState}
    {head : VerifiedHead} {height tip : UInt32} {endAttestation : Option Attestation}
    {api : ApiClient} {esplora : EsploraClient} {block : L2Block} {witness : BlockWitness}
    {l1 : L1View} (hblock : api.getBlock height = some block)
    (hwitness : api.getWitness height = some witness) (hagree : Agrees prim s head)
    (hl1 : SameL1View esplora tip block.txs l1)
    (hcf : Set.InjOn prim.sha256 (witnessPreimages prim s witness)) :
    (∀ head' events,
      verifyOneL2Block prim head height endAttestation tip api esplora = .ok (head', events) →
        verifyMints prim l1 block.txs = .ok () ∧ ∃ s', s.replay prim block.txs = .ok s'
          ∧ s'.stateRoot prim = block.header.stateRoot ∧ Agrees prim s' head') ∧
    (∀ s', HeaderFits prim head height endAttestation block →
      verifyMints prim l1 block.txs = .ok () → s.replay prim block.txs = .ok s' →
      s'.stateRoot prim = block.header.stateRoot →
      witness = BlockWitness.build prim s block.txs height →
        ∃ head' events,
          verifyOneL2Block prim head height endAttestation tip api esplora = .ok (head', events)
            ∧ Agrees prim s' head') := by
  constructor
  · intro head' events h
    simp only [verifyOneL2Block, bind_ok_iff, okOr_ok_iff, mapErr_ok_iff, ensure_ok_iff,
      pure_ok_iff, checkStructure_ok_iff] at h
    obtain ⟨block', hblock', witness', hwitness', _, ⟨-, hfits⟩, batch, hbatch, _, hmints, sparse,
      hsparse, newRoot, hroot, _, hstate, own, hown, _, -, hhead⟩ := h
    obtain rfl : block = block' := Option.some.inj (hblock.symm.trans hblock')
    obtain rfl : witness = witness' := Option.some.inj (hwitness.symm.trans hwitness')
    have hgen := genuineProofs_of_accepted hagree hcf hfits hroot
    -- the full ledger follows the sparse one
    obtain ⟨s', hs', hafter⟩ := replayFrom_agree (hgen.agreeOn hagree).symm
      (by rw [(hgen.agreeOn hagree).symm.sequencerFeeAddress]
          exact touches_mem_touchedAddresses _) hsparse
    obtain ⟨hroot', hown'⟩ := hgen.newRoots hagree hafter.symm hs' height
    obtain rfl := Except.ok.inj (hroot.symm.trans hroot')
    obtain rfl := Except.ok.inj (hown.symm.trans hown')
    rw [prefetch_verifyMints hl1 hbatch] at hmints
    refine ⟨hmints, s', hs', ?_, ?_⟩
    · rw [← hstate, stateRoot, components, nullifiersHash, nullifiersHash,
        hafter.consumedNullifiers, hafter.sequencerFeeAddress]
    · obtain ⟨rfl, -⟩ := Prod.mk.inj hhead
      exact ⟨rfl, hafter.consumedNullifiers, hafter.sequencerFeeAddress, hafter.totalMintedAtoms,
        rfl, rfl⟩
  · rintro s' hheader hmints hs' hstate rfl
    exact verifyOneL2Block_accepts hblock hwitness hagree hl1 hheader hmints hs' hstate

/-! ### A first block, checked -/

/-- A mint the sample primitives accept at L1 height 150. -/
def firstMint : MintEntry :=
  let key : XOnlyPublicKey := ⟨ByteArr.ofNat 32 1⟩
  let outpoint : OutPoint := ⟨⟨ByteArr.ofNat 32 7⟩, 0⟩
  let digest := OutpointProof.sighash Primitives.counting outpoint 150 key
  { event :=
      { nullifierHex := hexEncode (OutpointProof.outpointNullifier outpoint)
        amount := 7629
        l2Destination := key
        l1CreateHeight := 100
        lockBlocks := 1000
        l1ValueSat := 1000000 }
    witness := .v0Outpoint
      { outpoint := outpoint
        userXonlyPubkey := key
        lockBlocks := 1000
        claimedBlockHeight := 150
        signature := ⟨(digest.bytes ++ key.bytes).cast Primitives.digest_and_key⟩ } }

/-- An Esplora that knows the funding transaction. -/
def firstEsplora : EsploraClient where
  getTx _ := some
    { vout := [
        { scriptpubkey := hexEncode (match expectedP2trSpk Primitives.counting 1000
            ⟨ByteArr.ofNat 32 1⟩ with | .ok spk => spk | .error _ => [])
          value := 1000000 }]
      status := ⟨some 100⟩ }

/-- The ledger after the mint. -/
def firstLedger : LedgerState := (LedgerState.new.apply Primitives.counting (.mint firstMint)).2

def firstBlock : L2Block where
  header :=
    { height := 1
      prevHash := H256.zero
      l1BlockHash := H256.zero
      l1Height := 150
      txsRoot := computeTxsRoot Primitives.counting [.mint firstMint]
      stateRoot := firstLedger.stateRoot Primitives.counting
      timestamp := 0
      anchorOutpoint := none
      producer := none
      sequencerFeeAddress := none }
  txs := [.mint firstMint]

def firstApi : ApiClient where
  getBlock _ := some firstBlock
  getWitness h := some (BlockWitness.build Primitives.counting LedgerState.new firstBlock.txs h)

/-- The head of an empty ledger, for a wallet that owns the key `2`. -/
def firstHead : VerifiedHead :=
  let own := LedgerState.new.accountInclusionProof Primitives.counting ⟨ByteArr.ofNat 32 2⟩
  { stateRoot := LedgerState.new.stateRoot Primitives.counting
    accountsRoot := LedgerState.new.accountsRoot Primitives.counting
    l2Height := 0
    blockHash := H256.zero
    l1Height := 100
    anchorOutpoint := ⟨⟨ByteArr.ofNat 32 9⟩, 1⟩
    ownAddress := ⟨ByteArr.ofNat 32 2⟩
    ownLeaf := own.leaf
    ownPath := own.siblings
    consumedNullifiers := ∅
    totalMintedAtoms := 0
    sequencerFeeAddress := none }

def firstView : L1View :=
 { getOutput := fun op => (firstEsplora.output 150 op).toOption, tipHeight := 150 }

theorem firstBlock_mints : verifyMints Primitives.counting firstView firstBlock.txs = .ok () := by
  decide +kernel

theorem firstBlock_replay :
    LedgerState.new.replay Primitives.counting firstBlock.txs = .ok firstLedger :=
  replayFrom_cons_ok.mpr ⟨by decide +kernel, rfl⟩

theorem agrees_firstHead : Agrees Primitives.counting LedgerState.new firstHead := by
  constructor <;> simp only [firstHead, LedgerState.new]

/-- The first block of a chain, with one mint: accepted, and with the conclusion above. -/
theorem verifyOneL2Block_refines_replay_first :
    ∃ head' events, verifyOneL2Block Primitives.counting firstHead 1 none 150 firstApi firstEsplora
        = .ok (head', events)
      ∧ verifyMints Primitives.counting firstView firstBlock.txs = .ok ()
      ∧ ∃ s', LedgerState.new.replay Primitives.counting firstBlock.txs = .ok s'
        ∧ s'.stateRoot Primitives.counting = firstBlock.header.stateRoot
        ∧ Agrees Primitives.counting s' head' := by
  have hcf : Set.InjOn Primitives.counting.sha256 (witnessPreimages Primitives.counting
      LedgerState.new
      (BlockWitness.build Primitives.counting LedgerState.new firstBlock.txs 1)) := by
    refine injOn_emptyPreimages fun x ⟨p, hp, hx⟩ => ?_
    have hproof := (genuineProofs_build _ _ _ _).proof p hp
    rw [hproof, preimages_smtProof] at hx
    exact hx.elim (pathPreimages_empty _) (pathPreimages_empty _)
  obtain ⟨haccepted, haccepts⟩ := @verifyOneL2Block_refines_replay _ _ _ _ _ none firstApi
    firstEsplora firstBlock _ firstView rfl rfl agrees_firstHead ⟨rfl, fun _ _ => rfl⟩ hcf
  obtain ⟨head', events, hok, -⟩ := haccepts firstLedger ⟨rfl, by simp, rfl, rfl⟩ firstBlock_mints
    firstBlock_replay rfl rfl
  exact ⟨head', events, hok, haccepted head' events hok⟩

end Hodlchain
