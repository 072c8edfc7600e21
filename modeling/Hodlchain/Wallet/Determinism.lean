/-
What a walk comes to does not depend on who served it.

Only the last block of each attested range is pinned by L1.  Its hash pins its header,
and the header the hash below it, down to the head the walk started from; a header pins
its body up to the claimed heights, which neither the ledger nor the events read; and the
state root pins the root under which the wallet's own leaf and path have to verify.
-/
import Hodlchain.Core.Effect
import Hodlchain.Core.TxsRoot
import Hodlchain.Wallet.Balance
import Hodlchain.Wallet.Refinement

namespace Hodlchain

open Bytes LedgerState

/-! ### What a body does, up to the claimed heights -/

/-- The same nullifiers, minted total and fee address. -/
structure SameRecords (s t : LedgerState) : Prop where
  consumedNullifiers : s.consumedNullifiers = t.consumedNullifiers
  totalMintedAtoms : s.totalMintedAtoms = t.totalMintedAtoms
  sequencerFeeAddress : s.sequencerFeeAddress = t.sequencerFeeAddress

section

variable {prim : Primitives} {s t s' t' : LedgerState}

/-- Transactions that differ in the claimed height alone leave the same records. -/
theorem SameRecords.after (h : SameRecords s t) {a b : L2Tx}
    (hab : a.eraseClaimedHeight = b.eraseClaimedHeight) : SameRecords (s.after a) (t.after b) := by
  cases a with
  | mint e =>
      cases b with
      | transfer u => simp [L2Tx.eraseClaimedHeight] at hab
      | mint e' =>
          have hevent : e.event = e'.event := by
            simp only [L2Tx.eraseClaimedHeight, L2Tx.mint.injEq, MintEntry.mk.injEq] at hab
            exact hab.1
          refine ⟨?_, ?_, h.sequencerFeeAddress⟩
          · show s.consumedNullifiers.insert e.event.nullifierHex
              = t.consumedNullifiers.insert e'.event.nullifierHex
            rw [h.consumedNullifiers, hevent]
          · show satAdd s.totalMintedAtoms e.event.amount = satAdd t.totalMintedAtoms
              e'.event.amount
            rw [h.totalMintedAtoms, hevent]
  | transfer u =>
      have hrecords : ∀ (s : LedgerState) (u : SignedTransfer),
          SameRecords (s.transferred u) s := by
        intro s u
        unfold transferred payFee
        split
        · exact ⟨rfl, rfl, rfl⟩
        · exact ⟨rfl, rfl, rfl⟩
      cases b with
      | mint e => simp [L2Tx.eraseClaimedHeight] at hab
      | transfer u' =>
          have hs := hrecords s u
          have ht := hrecords t u'
          exact ⟨hs.1.trans (h.1.trans ht.1.symm), hs.2.trans (h.2.trans ht.2.symm),
            hs.3.trans (h.3.trans ht.3.symm)⟩

theorem SameRecords.replay : ∀ {a b : List L2Tx} {i j : Nat} {s t s' t' : LedgerState},
    a.map L2Tx.eraseClaimedHeight = b.map L2Tx.eraseClaimedHeight → SameRecords s t →
    s.replayFrom prim i a = .ok s' → t.replayFrom prim j b = .ok t' → SameRecords s' t' := by
  intro a
  induction a with
  | nil =>
      intro b i j s t s' t' hab h hs ht
      obtain rfl : b = [] := by simpa using hab.symm
      rw [replayFrom, Except.ok.injEq] at hs ht
      rw [← hs, ← ht]
      exact h
  | cons x a ih =>
      intro b i j s t s' t' hab h hs ht
      cases b with
      | nil => simp at hab
      | cons y b =>
          rw [List.map_cons, List.map_cons, List.cons.injEq] at hab
          obtain ⟨hx, hs⟩ := replayFrom_cons_ok.mp hs
          obtain ⟨hy, ht⟩ := replayFrom_cons_ok.mp ht
          rw [apply_of_ok (apply_ok_iff.mp hx)] at hs
          rw [apply_of_ok (apply_ok_iff.mp hy)] at ht
          exact ih hab.2 (h.after hab.1) hs ht

/-- The events of a transaction do not show its claimed height. -/
theorem observeTx_congr {own : XOnlyPublicKey} {height : UInt32}
    {header : L2BlockHeader} {a b : L2Tx} (hab : a.eraseClaimedHeight = b.eraseClaimedHeight) :
    observeTx prim own height header a = observeTx prim own height header b := by
  cases a with
  | mint e =>
      cases b with
      | transfer u => simp [L2Tx.eraseClaimedHeight] at hab
      | mint e' =>
          simp only [L2Tx.eraseClaimedHeight, L2Tx.mint.injEq, MintEntry.mk.injEq] at hab
          simp only [observeTx, hab.1]
  | transfer u =>
      cases b with
      | mint e => simp [L2Tx.eraseClaimedHeight] at hab
      | transfer u' =>
          rw [L2Tx.eraseClaimedHeight, L2Tx.eraseClaimedHeight] at hab
          rw [hab]

theorem observe_congr {own : XOnlyPublicKey} {height : UInt32} {header : L2BlockHeader} :
    ∀ {a b : List L2Tx}, a.map L2Tx.eraseClaimedHeight = b.map L2Tx.eraseClaimedHeight →
      a.flatMap (observeTx prim own height header) =
        b.flatMap (observeTx prim own height header) := by
  intro a
  induction a with
  | nil =>
      intro b hab
      obtain rfl : b = [] := by simpa using hab.symm
      rfl
  | cons x a ih =>
      intro b hab
      cases b with
      | nil => simp at hab
      | cons y b =>
          rw [List.map_cons, List.map_cons, List.cons.injEq] at hab
          rw [List.flatMap_cons, List.flatMap_cons, observeTx_congr hab.1, ih hab.2]

end

/-! ### One block -/

section

variable (prim : Primitives)

/-- What a head's state root is made of. -/
def VerifiedHead.components (head : VerifiedHead) : StateComponents where
  accountsRoot := head.accountsRoot
  nullifiersHash := nullifiersHashOf prim head.consumedNullifiers
  sequencerFeeAddress := head.sequencerFeeAddress

/-- A head as a verified block leaves it: the state root is that of its components, and its own
leaf and path are under the accounts root. -/
structure VerifiedHead.Committed (head : VerifiedHead) : Prop where
  stateRoot : head.stateRoot = (head.components prim).stateRoot prim
  shows : head.Shows prim head.ownAddress

/-- What a verified block and the head it leaves have to do with each other. -/
structure Verified (head : VerifiedHead) (height : UInt32) (att : Option Attestation)
    (block : L2Block) (head' : VerifiedHead) (events : List TxEvent) : Prop where
  fits : HeaderFits prim head height att block
  records : ∃ witness s', (sparseLedger head witness).replay prim block.txs = .ok s' ∧
    s'.consumedNullifiers = head'.consumedNullifiers ∧
    s'.totalMintedAtoms = head'.totalMintedAtoms ∧
    s'.sequencerFeeAddress = head'.sequencerFeeAddress
  events : events = block.txs.flatMap (observeTx prim head.ownAddress height block.header)
  stateRoot : head'.stateRoot = block.header.stateRoot
  l2Height : head'.l2Height = height
  blockHash : head'.blockHash = block.hash prim
  l1Height : head'.l1Height = block.header.l1Height
  anchorOutpoint : head'.anchorOutpoint = head.anchorOutpoint
  ownAddress : head'.ownAddress = head.ownAddress
  committed : head'.Committed prim

/-- Two heads that agree in all but the accounts root and the own leaf and path. -/
structure SamePublic (a b : VerifiedHead) : Prop where
  stateRoot : a.stateRoot = b.stateRoot
  l2Height : a.l2Height = b.l2Height
  blockHash : a.blockHash = b.blockHash
  l1Height : a.l1Height = b.l1Height
  anchorOutpoint : a.anchorOutpoint = b.anchorOutpoint
  ownAddress : a.ownAddress = b.ownAddress
  consumedNullifiers : a.consumedNullifiers = b.consumedNullifiers
  totalMintedAtoms : a.totalMintedAtoms = b.totalMintedAtoms
  sequencerFeeAddress : a.sequencerFeeAddress = b.sequencerFeeAddress

/-- The strings hashed for the blocks of a server are in `U`. -/
def ApiClient.In (U : Set Bytes) (api : ApiClient) : Prop :=
  ∀ height block, api.getBlock height = some block →
    block.header.preimage ∈ U ∧ ∀ x ∈ bodyPreimages prim block.txs, x ∈ U

/-- The strings hashed for a head are in `U`. -/
def VerifiedHead.In (U : Set Bytes) (head : VerifiedHead) : Prop :=
  (head.components prim).preimage ∈ U ∧
    (InclusionProof.mk head.ownAddress head.ownLeaf head.ownPath).In prim U

end

section

variable {prim : Primitives} {U : Set Bytes} {a b a' b' : VerifiedHead} {height : UInt32}
  {att : Option Attestation} {block block' : L2Block} {events events' : List TxEvent}

theorem verifyOneL2Block_verified {tip : UInt32} {api : ApiClient} {esplora : EsploraClient}
    (h : verifyOneL2Block prim a height att tip api esplora = .ok (a', events)) :
    ∃ block, api.getBlock height = some block ∧ Verified prim a height att block a' events := by
  have hshows := verifyOneL2Block_shows h
  simp only [verifyOneL2Block, bind_ok_iff, okOr_ok_iff, mapErr_ok_iff, ensure_ok_iff, pure_ok_iff,
    Prod.mk.injEq, checkStructure_ok_iff] at h
  obtain ⟨block, hblock, witness, -, _, ⟨hfits, -⟩, batch, -, _, -, s', hreplay,
    newRoot, -, _, hroot, own, -, _, -, rfl, rfl⟩ := h
  refine ⟨block, hblock, ?_⟩
  exact
    { fits := hfits
      records := ⟨witness, s', hreplay, rfl, rfl, rfl⟩
      events := rfl
      stateRoot := hroot
      l2Height := rfl
      blockHash := rfl
      l1Height := rfl
      anchorOutpoint := rfl
      ownAddress := rfl
      committed := ⟨rfl, hshows.2⟩ }

theorem ApiClient.In.header_eq {api api' : ApiClient} (hcf : Set.InjOn prim.sha256 U)
    (hapi : api.In prim U) (hapi' : api'.In prim U) {k k' : UInt32}
    (hblock : api.getBlock k = some block) (hblock' : api'.getBlock k' = some block')
    (hhash : block.hash prim = block'.hash prim) : block.header = block'.header :=
  L2BlockHeader.preimage_inj (hcf (hapi _ _ hblock).1 (hapi' _ _ hblock').1 hhash)

/-- Blocks with one header lead on from heads that agree to heads that agree, and show the same. -/
theorem SamePublic.verified {api api' : ApiClient} (hcf : Set.InjOn prim.sha256 U)
    (hapi : api.In prim U) (hapi' : api'.In prim U) (hsame : SamePublic a b)
    (hblock : api.getBlock height = some block) (hblock' : api'.getBlock height = some block')
    (hheader : block.header = block'.header) (h : Verified prim a height att block a' events)
    (h' : Verified prim b height att block' b' events') : SamePublic a' b' ∧ events = events' := by
  have hbody : block.txs.map L2Tx.eraseClaimedHeight = block'.txs.map L2Tx.eraseClaimedHeight := by
    refine (computeTxsRoot_eq_iff prim _ _ (hcf.mono fun x hx => ?_)).mp ?_
    · exact hx.elim ((hapi _ _ hblock).2 x) ((hapi' _ _ hblock').2 x)
    · rw [h.fits.txsRoot, h'.fits.txsRoot, hheader]
  obtain ⟨w, s', hreplay, hnull, hminted, hfee⟩ := h.records
  obtain ⟨w', t', hreplay', hnull', hminted', hfee'⟩ := h'.records
  have hstart : SameRecords (sparseLedger a w) (sparseLedger b w') :=
    ⟨hsame.consumedNullifiers, hsame.totalMintedAtoms, hsame.sequencerFeeAddress⟩
  have hrecords := SameRecords.replay hbody hstart hreplay hreplay'
  constructor
  · exact
      { stateRoot := by rw [h.stateRoot, h'.stateRoot, hheader]
        l2Height := by rw [h.l2Height, h'.l2Height]
        blockHash := by rw [h.blockHash, h'.blockHash, L2Block.hash, L2Block.hash, hheader]
        l1Height := by rw [h.l1Height, h'.l1Height, hheader]
        anchorOutpoint := by rw [h.anchorOutpoint, h'.anchorOutpoint, hsame.anchorOutpoint]
        ownAddress := by rw [h.ownAddress, h'.ownAddress, hsame.ownAddress]
        consumedNullifiers := by rw [← hnull, ← hnull', hrecords.consumedNullifiers]
        totalMintedAtoms := by rw [← hminted, ← hminted', hrecords.totalMintedAtoms]
        sequencerFeeAddress := by rw [← hfee, ← hfee', hrecords.sequencerFeeAddress] }
  · rw [h.events, h'.events, hheader, hsame.ownAddress]
    exact observe_congr hbody

/-- Heads that agree, and that verified blocks have left, are one head. -/
theorem SamePublic.eq (hcf : Set.InjOn prim.sha256 U) (ha : a.In prim U) (hb : b.In prim U)
    (hsame : SamePublic a b) (hcommitted : a.Committed prim) (hcommitted' : b.Committed prim) :
    a = b := by
  have hcomponents : a.components prim = b.components prim := by
    refine StateComponents.preimage_inj (hcf ha.1 hb.1 ?_)
    exact hcommitted.stateRoot.symm.trans (hsame.stateRoot.trans hcommitted'.stateRoot)
  have hroot : a.accountsRoot = b.accountsRoot := congrArg StateComponents.accountsRoot hcomponents
  have hproof := hcommitted.shows
  have hproof' := hcommitted'.shows
  unfold VerifiedHead.Shows at hproof hproof'
  rw [hroot] at hproof
  have hown := InclusionProof.In.unique hcf ha.2 hb.2 hsame.ownAddress hproof hproof'
  simp only [InclusionProof.mk.injEq] at hown
  obtain ⟨-, hleaf, hpath⟩ := hown
  obtain ⟨h1, h2, h3, h4, h5, h6, h7, h8, h9⟩ := hsame
  cases a
  cases b
  simp_all

/-! ### One attested range -/

variable {api api' : ApiServer} {esplora esplora' : EsploraServer} {tip tip' : UInt32}

/-- What a range of at least one block has done first. -/
theorem walkRange_succ {att : Attestation} {n : Nat} {h : UInt32}
    (hrun : walkRange prim api esplora tip att (n + 1) h a = .ok (a', events)) :
    ∃ block mid shown rest, api.getBlock h = some block ∧
      Verified prim a h (if h = att.height then some att else none) block mid shown ∧
      walkRange prim api esplora tip att n (h + 1) mid = .ok (a', rest) ∧
        events = shown ++ rest := by
  simp only [walkRange, bind_ok_iff, mapErr_ok_iff, pure_ok_iff, Prod.mk.injEq] at hrun
  obtain ⟨⟨mid, shown⟩, hone, ⟨last, rest⟩, hrest, rfl, rfl⟩ := hrun
  obtain ⟨block, hblock, hverified⟩ := verifyOneL2Block_verified hone
  exact ⟨block, mid, shown, rest, hblock, hverified, hrest, rfl⟩

/-- Both runs were served one header at the first height of an attested range. -/
theorem walkRange_header (hcf : Set.InjOn prim.sha256 U) (hapi : api.toApiClient.In prim U)
    (hapi' : api'.toApiClient.In prim U) {att : Attestation} :
    ∀ {n : Nat} {h : UInt32} {a b a' b' : VerifiedHead} {events events' : List TxEvent}
      {block block' : L2Block},
      walkRange prim api esplora tip att (n + 1) h a = .ok (a', events) →
      walkRange prim api' esplora' tip' att (n + 1) h b = .ok (b', events') →
      h.toNat + n = att.height.toNat → api.getBlock h = some block →
      api'.getBlock h = some block' → block.header = block'.header := by
  intro n
  induction n with
  | zero =>
      intro h a b a' b' events events' block block' hrun hrun' hend hblock hblock'
      obtain ⟨first, _, _, _, hfirst, hverified, -⟩ := walkRange_succ hrun
      obtain ⟨first', _, _, _, hfirst', hverified', -⟩ := walkRange_succ hrun'
      obtain rfl := Option.some.inj (hfirst.symm.trans hblock)
      obtain rfl := Option.some.inj (hfirst'.symm.trans hblock')
      -- the last block of the range is the attested one
      have hh : h = att.height := UInt32.toNat_inj.mp hend
      have hhash := (hverified.fits.attested att (if_pos hh)).1
      have hhash' := (hverified'.fits.attested att (if_pos hh)).1
      exact hapi.header_eq hcf hapi' hblock hblock' (hhash.trans hhash'.symm)
  | succ n ih =>
      intro h a b a' b' events events' block block' hrun hrun' hend hblock hblock'
      obtain ⟨first, mid, _, _, hfirst, hverified, hrest, -⟩ := walkRange_succ hrun
      obtain ⟨first', mid', _, _, hfirst', hverified', hrest', -⟩ := walkRange_succ hrun'
      obtain rfl := Option.some.inj (hfirst.symm.trans hblock)
      obtain rfl := Option.some.inj (hfirst'.symm.trans hblock')
      -- the next header is one, and it names the hash of this one
      obtain ⟨second, _, _, _, hsecond, hnext, -⟩ := walkRange_succ hrest
      obtain ⟨second', _, _, _, hsecond', hnext', -⟩ := walkRange_succ hrest'
      have hup : (h + 1).toNat + n = att.height.toNat := by
        have hbound := att.height.toNat_lt
        rw [UInt32.toNat_add, UInt32.toNat_one, Nat.mod_eq_of_lt (by omega)]
        omega
      have hheader := ih hrest hrest' hup hsecond hsecond'
      have hhash : first.hash prim = first'.hash prim := by
        rw [← hverified.blockHash, ← hverified'.blockHash, ← hnext.fits.prevHash,
          ← hnext'.fits.prevHash, hheader]
      exact hapi.header_eq hcf hapi' hblock hblock' hhash

/-- The two heads are one, or verified blocks have left both. -/
def OneOrCommitted (prim : Primitives) (a b : VerifiedHead) : Prop :=
  a = b ∨ a.Committed prim ∧ b.Committed prim

theorem walkRange_same (hcf : Set.InjOn prim.sha256 U) (hapi : api.toApiClient.In prim U)
    (hapi' : api'.toApiClient.In prim U) {att : Attestation} :
    ∀ {n : Nat} {h : UInt32} {a b a' b' : VerifiedHead} {events events' : List TxEvent},
      walkRange prim api esplora tip att n h a = .ok (a', events) →
      walkRange prim api' esplora' tip' att n h b = .ok (b', events') →
      h.toNat + n = att.height.toNat + 1 → SamePublic a b → OneOrCommitted prim a b →
      SamePublic a' b' ∧ OneOrCommitted prim a' b' ∧ events = events' := by
  intro n
  induction n with
  | zero =>
      intro h a b a' b' events events' hrun hrun' _ hsame hone
      simp only [walkRange, pure_ok_iff, Prod.mk.injEq] at hrun hrun'
      obtain ⟨rfl, rfl⟩ := hrun
      obtain ⟨rfl, rfl⟩ := hrun'
      exact ⟨hsame, hone, rfl⟩
  | succ n ih =>
      intro h a b a' b' events events' hrun hrun' hend hsame _
      obtain ⟨block, mid, shown, rest, hblock, hverified, hrest, rfl⟩ := walkRange_succ hrun
      obtain ⟨block', mid', shown', rest', hblock', hverified', hrest', rfl⟩ := walkRange_succ hrun'
      have hheader := walkRange_header hcf hapi hapi' hrun hrun' (by omega) hblock hblock'
      obtain ⟨hmid, hshown⟩ :=
        hsame.verified hcf hapi hapi' hblock hblock' hheader hverified hverified'
      have hcommitted : OneOrCommitted prim mid mid' :=
        .inr ⟨hverified.committed, hverified'.committed⟩
      cases n with
      | zero =>
          simp only [walkRange, pure_ok_iff, Prod.mk.injEq] at hrest hrest'
          obtain ⟨rfl, rfl⟩ := hrest
          obtain ⟨rfl, rfl⟩ := hrest'
          exact ⟨hmid, hcommitted, by rw [hshown]⟩
      | succ n =>
          have hup : (h + 1).toNat + (n + 1) = att.height.toNat + 1 := by
            have hbound := att.height.toNat_lt
            rw [UInt32.toNat_add, UInt32.toNat_one, Nat.mod_eq_of_lt (by omega)]
            omega
          obtain ⟨hlast, hend', hevents⟩ := ih hrest hrest' hup hmid hcommitted
          exact ⟨hlast, hend', by rw [hshown, hevents]⟩

/-! ### Whole walks -/

theorem OneOrCommitted.moved (h : OneOrCommitted prim a b) (anchor : OutPoint) :
    OneOrCommitted prim { a with anchorOutpoint := anchor }
      { b with anchorOutpoint := anchor } := by
  rcases h with rfl | ⟨ha, hb⟩
  · exact .inl rfl
  · exact .inr ⟨⟨ha.stateRoot, ha.shows⟩, ⟨hb.stateRoot, hb.shows⟩⟩

theorem walkSteps_same (hcf : Set.InjOn prim.sha256 U) (hapi : api.toApiClient.In prim U)
    (hapi' : api'.toApiClient.In prim U) :
    ∀ {steps : List ChainStep} {a b a' b' : VerifiedHead} {count count' : Nat}
      {events events' : List TxEvent},
      walkSteps prim api esplora tip steps a = .ok (a', count, events) →
      walkSteps prim api' esplora' tip' steps b = .ok (b', count', events') →
      SamePublic a b → OneOrCommitted prim a b →
      SamePublic a' b' ∧ OneOrCommitted prim a' b' ∧ count = count' ∧ events = events' := by
  intro steps
  induction steps with
  | nil =>
      intro a b a' b' count count' events events' hrun hrun' hsame hone
      simp only [walkSteps, pure_ok_iff, Prod.mk.injEq] at hrun hrun'
      obtain ⟨rfl, rfl, rfl⟩ := hrun
      obtain ⟨rfl, rfl, rfl⟩ := hrun'
      exact ⟨hsame, hone, rfl, rfl⟩
  | cons step steps ih =>
      intro a b a' b' count count' events events' hrun hrun' hsame hone
      rw [walkSteps] at hrun hrun'
      by_cases hpast : step.attestation.height ≤ a.l2Height
      · rw [if_pos hpast] at hrun
        rw [if_pos (by rw [← hsame.l2Height]; exact hpast)] at hrun'
        exact ih hrun hrun' { hsame with anchorOutpoint := rfl } (hone.moved _)
      · rw [if_neg hpast] at hrun
        rw [if_neg (by rw [← hsame.l2Height]; exact hpast)] at hrun'
        simp only [bind_ok_iff, pure_ok_iff, Prod.mk.injEq] at hrun hrun'
        obtain ⟨⟨mid, shown⟩, hrange, ⟨last, k, rest⟩, hsteps, rfl, rfl, rfl⟩ := hrun
        obtain ⟨⟨mid', shown'⟩, hrange', ⟨last', k', rest'⟩, hsteps', rfl, rfl, rfl⟩ := hrun'
        rw [← hsame.l2Height] at hrange'
        have hlt := UInt32.lt_iff_toNat_lt.mp (UInt32.not_le.mp hpast)
        have hend : (a.l2Height + 1).toNat + (step.attestation.height.toNat - a.l2Height.toNat)
            = step.attestation.height.toNat + 1 := by
          have hbound := step.attestation.height.toNat_lt
          rw [UInt32.toNat_add, UInt32.toNat_one, Nat.mod_eq_of_lt (by omega)]
          omega
        obtain ⟨hmid, hcommitted, hshown⟩ :=
          walkRange_same hcf hapi hapi' hrange hrange' hend hsame hone
        have hcommitted' : OneOrCommitted prim
            { mid with anchorOutpoint := step.newAnchor, l1Height := step.l1Height }
            { mid' with anchorOutpoint := step.newAnchor, l1Height := step.l1Height } := by
          rcases hcommitted with rfl | ⟨ha, hb⟩
          · exact .inl rfl
          · exact .inr ⟨⟨ha.stateRoot, ha.shows⟩, ⟨hb.stateRoot, hb.shows⟩⟩
        obtain ⟨hlast, hend', hcount, hrest⟩ := ih hsteps hsteps'
          { hmid with anchorOutpoint := rfl, l1Height := rfl } hcommitted'
        exact ⟨hlast, hend', by rw [hcount, hsame.l2Height], by rw [hshown, hrest]⟩

/-- **What a walk comes to does not depend on who served it.**  Short of a SHA-256 collision among
the strings of the two runs, two walks from one head along one attestation chain end at one head,
and have shown the same events. -/
theorem walkForward_deterministic {fuel fuel' : Nat} {head head₁ head₂ : VerifiedHead}
    {count₁ count₂ : Nat} {events₁ events₂ : List TxEvent} (hcf : Set.InjOn prim.sha256 U)
    (hapi : api.toApiClient.In prim U) (hapi' : api'.toApiClient.In prim U)
    (hchain : walkAttestationChain esplora fuel head.anchorOutpoint
      = walkAttestationChain esplora' fuel' head.anchorOutpoint)
    (h₁ : walkForward prim fuel head api esplora = .ok (head₁, count₁, events₁))
    (h₂ : walkForward prim fuel' head api' esplora' = .ok (head₂, count₂, events₂))
    (hhead₁ : head₁.In prim U) (hhead₂ : head₂.In prim U) :
    head₁ = head₂ ∧ count₁ = count₂ ∧ events₁ = events₂ := by
  simp only [walkForward, bind_ok_iff, mapErr_ok_iff] at h₁ h₂
  obtain ⟨chain, hwalk, h₁⟩ := h₁
  obtain ⟨chain', hwalk', h₂⟩ := h₂
  rw [← hchain, hwalk] at hwalk'
  obtain rfl := Except.ok.inj hwalk'
  cases chain with
  | nil =>
      simp only [pure_ok_iff, Prod.mk.injEq] at h₁ h₂
      obtain ⟨rfl, rfl, rfl⟩ := h₁
      obtain ⟨rfl, rfl, rfl⟩ := h₂
      exact ⟨rfl, rfl, rfl⟩
  | cons step steps =>
      simp only [bind_ok_iff] at h₁ h₂
      obtain ⟨tip, -, h₁⟩ := h₁
      obtain ⟨tip', -, h₂⟩ := h₂
      have hrefl : SamePublic head head := ⟨rfl, rfl, rfl, rfl, rfl, rfl, rfl, rfl, rfl⟩
      obtain ⟨hsame, hone, hcount, hevents⟩ :=
        walkSteps_same hcf hapi hapi' h₁ h₂ hrefl (.inl rfl)
      refine ⟨?_, hcount, hevents⟩
      rcases hone with heq | ⟨hcommitted, hcommitted'⟩
      · exact heq
      · exact SamePublic.eq hcf hhead₁ hhead₂ hsame hcommitted hcommitted'

end

/-! ### A walk of one block -/

theorem walkForward_one {prim : Primitives} {head mid : VerifiedHead} {step : ChainStep}
    {api : ApiServer} {esplora : EsploraServer} {tip : UInt32} {fuel : Nat} {events : List TxEvent}
    (hheight : step.attestation.height = head.l2Height + 1)
    (hnew : step.attestation.height.toNat = head.l2Height.toNat + 1)
    (hchain : walkAttestationChain esplora fuel head.anchorOutpoint = .ok [step])
    (htip : esplora.tipHeight = some tip)
    (hverify : verifyOneL2Block prim head (head.l2Height + 1) (some step.attestation) tip
      api.toApiClient esplora.toEsploraClient = .ok (mid, events)) :
    walkForward prim fuel head api esplora = .ok ({ mid with
      anchorOutpoint := step.newAnchor, l1Height := step.l1Height }, 1, events) := by
  have habove : ¬ step.attestation.height ≤ head.l2Height := by
    rw [UInt32.le_iff_toNat_le]
    omega
  have hrange : walkRange prim api esplora tip step.attestation 1 (head.l2Height + 1) head
      = .ok (mid, events) := by
    simp only [walkRange, bind_ok_iff, mapErr_ok_iff, pure_ok_iff]
    rw [if_pos hheight.symm]
    exact ⟨_, hverify, _, rfl, by rw [List.append_nil]⟩
  simp only [walkForward, hchain, htip, mapErr, okOr, bind_ok_iff, Except.ok.injEq, exists_eq_left']
  rw [walkSteps, if_neg habove, hnew, Nat.add_sub_cancel_left]
  have hnil : events ++ [] = events := List.append_nil events
  exact bind_ok_iff.mpr ⟨_, hrange, bind_ok_iff.mpr ⟨_, rfl, by dsimp only; rw [hnil]; rfl⟩⟩

/-! ### A block with a payment -/

section

/-- Sixty atoms from the first key to the second. -/
def paymentBody : TransferBody := ⟨firstKey, secondKey, 60, 0⟩

def payment : SignedTransfer where
  body := paymentBody
  signature := ⟨((paymentBody.sighash Primitives.weighing).bytes ++ firstKey.bytes).cast
    Primitives.digest_and_key⟩

/-- The ledger before it, with a fee to burn. -/
def beforePayment : LedgerState where
  accounts := ((∅ : AccountMap).insert firstKey ⟨660, 0⟩).insert secondKey ⟨640, 2⟩
  consumedNullifiers := Std.ExtTreeSet.ofList [spentNullifier]
  totalMintedAtoms := 1300
  sequencerFeeAddress := none

def afterPayment : LedgerState := beforePayment.transferred payment

def paymentBlock : L2Block where
  header :=
    { height := 1
      prevHash := H256.zero
      l1BlockHash := H256.zero
      l1Height := 5
      txsRoot := computeTxsRoot Primitives.weighing [.transfer payment]
      stateRoot := afterPayment.stateRoot Primitives.weighing
      timestamp := 0
      anchorOutpoint := none
      producer := none
      sequencerFeeAddress := none }
  txs := [.transfer payment]

/-- The head before it of the wallet that is paid. -/
def paymentHead : VerifiedHead :=
  let own := beforePayment.accountInclusionProof Primitives.weighing secondKey
  { stateRoot := beforePayment.stateRoot Primitives.weighing
    accountsRoot := beforePayment.accountsRoot Primitives.weighing
    l2Height := 0
    blockHash := H256.zero
    l1Height := 0
    anchorOutpoint := firstAnchor
    ownAddress := secondKey
    ownLeaf := own.leaf
    ownPath := own.siblings
    consumedNullifiers := beforePayment.consumedNullifiers
    totalMintedAtoms := 1300
    sequencerFeeAddress := none }

/-- A server that has the block at some heights. -/
def paymentApi (serves : UInt32 → Bool) : ApiServer where
  getBlock height := if serves height then some paymentBlock else none
  getWitness height :=
    some (BlockWitness.build Primitives.weighing beforePayment paymentBlock.txs height)
  balance _ := none
  getNullifiers := none

/-- The one link of the attestation chain. -/
def paymentLink : ChainStep where
  attestation := .new 1 (paymentBlock.hash Primitives.weighing) paymentBlock.header.stateRoot
  l1Height := 5
  newAnchor := ⟨firstAttestation, 1⟩

def paymentL1 : EsploraServer := attestingOnce paymentLink.attestation

theorem leaves_afterPayment : afterPayment.leaves = leafOf (twoAccounts firstKey secondKey) := by
  obtain ⟨hab, -, -⟩ := keys_distinct
  have hpaid : afterPayment
      = (beforePayment.debit firstKey (transferTotal 60)).credit secondKey 60 := rfl
  have hsender : beforePayment.accounts[firstKey]? = some ⟨660, 0⟩ := by decide
  have hrecipient : beforePayment.accounts[secondKey]? = some ⟨640, 2⟩ := by decide
  have hothers : ∀ c, beforePayment.accounts[c]?
      = if secondKey = c then some ⟨640, 2⟩ else if firstKey = c then some ⟨660, 0⟩ else none := by
    intro c
    simp only [beforePayment, Std.ExtTreeMap.getElem?_insert, Std.compare_eq_iff_eq,
      Std.ExtTreeMap.getElem?_empty]
  refine leaves_of_two hab fun c => ?_
  rw [hpaid, credit, debit, updateAccount_get, updateAccount_get, updateAccount_get, if_neg hab,
    hsender, hrecipient, hothers c]
  by_cases hb : secondKey = c
  · simp only [if_pos hb]
    decide
  · by_cases ha : firstKey = c
    · simp only [if_neg hb, if_pos ha]
      decide
    · simp only [if_neg hb, if_neg ha]

theorem payment_replay : beforePayment.replay Primitives.weighing paymentBlock.txs
    = .ok afterPayment := by
  have hok : beforePayment.TransferOk Primitives.weighing payment :=
    ⟨by decide, by decide, by decide +kernel, by decide +kernel, by decide +kernel⟩
  have happly := apply_of_ok (show beforePayment.TxOk Primitives.weighing
    (.transfer payment) from hok)
  exact replayFrom_cons_ok.mpr ⟨by rw [happly], by rw [happly]; rfl⟩

theorem agrees_paymentHead : Agrees Primitives.weighing beforePayment paymentHead := by
  constructor <;> simp only [paymentHead, beforePayment]

theorem payment_verified {serves : UInt32 → Bool} (h : serves 1 = true) : ∃ head' events,
    verifyOneL2Block Primitives.weighing paymentHead 1 (some paymentLink.attestation) 5
      (paymentApi serves).toApiClient paymentL1.toEsploraClient = .ok (head', events) ∧
    head'.ownAddress = secondKey ∧ Agrees Primitives.weighing afterPayment head' := by
  have hfits : HeaderFits Primitives.weighing paymentHead 1 (some paymentLink.attestation)
      paymentBlock := by
    refine ⟨rfl, fun att hatt => ?_, rfl, rfl⟩
    rw [← Option.some.inj hatt]
    exact ⟨rfl, rfl⟩
  have hl1 : SameL1View paymentL1.toEsploraClient 5 paymentBlock.txs ⟨fun _ => none, 5⟩ := by
    refine ⟨rfl, fun entry hentry => ?_⟩
    cases List.mem_singleton.mp hentry
  obtain ⟨head', events, hok, hagrees⟩ := @verifyOneL2Block_accepts Primitives.weighing _ _ _ 1 5 _
    (paymentApi serves).toApiClient paymentL1.toEsploraClient paymentBlock _ (if_pos h) rfl
    agrees_paymentHead hl1 hfits rfl payment_replay rfl
  obtain ⟨_, -, hverified⟩ := verifyOneL2Block_verified hok
  exact ⟨head', events, hok, hverified.ownAddress, hagrees⟩

/-- The strings hashed for the block and the ledger it leaves. -/
def paymentStrings : Set Bytes :=
  twoStrings firstKey secondKey ∪
    {x | x ∈ (afterPayment.components Primitives.weighing).preimage ::
      paymentBlock.header.preimage :: bodyPreimages Primitives.weighing paymentBlock.txs}

/-- Each of the others has a length of its own. -/
theorem injOn_paymentStrings : Set.InjOn Primitives.weighing.sha256 paymentStrings := by
  have hblock : paymentBlock.header.preimage.length = 160 := by
    simp [L2BlockHeader.preimage, optBytes, paymentBlock]
    decide
  have hbody : (bodyPreimages Primitives.weighing paymentBlock.txs).map List.length
      = [43, 107, 96] := by
    simp [bodyPreimages, txsRootPreimage, L2Tx.preimages, L2Tx.hashPreimage,
      TransferBody.sighashPreimage, paymentBlock]
    decide
  have hlens : ((afterPayment.components Primitives.weighing).preimage ::
      paymentBlock.header.preimage :: bodyPreimages Primitives.weighing paymentBlock.txs).map
        List.length = [83, 160, 43, 107, 96] := by
    rw [List.map_cons, List.map_cons, hblock, hbody, StateComponents.length_preimage]
    rfl
  refine injOn_twoStrings_plain keys_distinct.1 (fun x hx => ?_) (by rw [hlens]; decide)
  have hshort : x.length < 2 ^ 32 := by
    have hmem := List.mem_map_of_mem (f := List.length) hx
    rw [hlens] at hmem
    exact (show ∀ n ∈ [83, 160, 43, 107, 96], n < 2 ^ 32 by decide) _ hmem
  simp only [bodyPreimages, L2Tx.preimages, paymentBlock, List.flatMap_cons, List.flatMap_nil,
    List.append_nil, List.mem_cons, List.not_mem_nil, or_false] at hx
  rcases hx with rfl | rfl | rfl | rfl | rfl
  · exact StateComponents.plain _
  · exact plain_of_prefix (utf8 "hodl-block-v3") (by simp [L2BlockHeader.preimage]) (by decide)
      (by decide) hshort
  · exact plain_of_prefix (utf8 "hodl-txs-v2") (by simp [txsRootPreimage]) (by decide) (by decide)
      hshort
  · exact plain_of_prefix (utf8 "hodl-tx-v2") (by simp [L2Tx.hashPreimage]) (by decide) (by decide)
      hshort
  · exact plain_of_prefix (utf8 "hodl-transfer-v2") (by simp [TransferBody.sighashPreimage])
      (by decide) (by decide) hshort

theorem payment_walk {serves : UInt32 → Bool} (h : serves 1 = true) : ∃ head' events,
    walkForward Primitives.weighing 2 paymentHead (paymentApi serves) paymentL1
      = .ok (head', 1, events) ∧ head'.In Primitives.weighing paymentStrings := by
  obtain ⟨mid, events, hverify, hown, hagrees⟩ := payment_verified h
  refine ⟨_, events, walkForward_one rfl rfl (attestingOnce_walk rfl) rfl hverify, ?_, ?_⟩
  · have hcomp : mid.components Primitives.weighing
        = afterPayment.components Primitives.weighing := by
      unfold VerifiedHead.components LedgerState.components
      rw [hagrees.accountsRoot, hagrees.consumedNullifiers, hagrees.sequencerFeeAddress]
      rfl
    exact .inr (List.mem_cons.mpr (.inl (congrArg StateComponents.preimage hcomp)))
  · have hproof : InclusionProof.mk mid.ownAddress mid.ownLeaf mid.ownPath
        = afterPayment.accountInclusionProof Primitives.weighing mid.ownAddress := by
      rw [hagrees.ownLeaf, hagrees.ownPath]
      rfl
    intro x hx
    exact .inl (proofs_of_two leaves_afterPayment _ x (hproof ▸ hx))

/-- Two servers, of which one has no other block: the walks end at one head, and have shown the
same events. -/
theorem walkForward_deterministic_payment : ∃ head₁ head₂ events₁ events₂,
    walkForward Primitives.weighing 2 paymentHead (paymentApi fun _ => true) paymentL1
      = .ok (head₁, 1, events₁) ∧
    walkForward Primitives.weighing 2 paymentHead (paymentApi fun height => height == 1) paymentL1
      = .ok (head₂, 1, events₂) ∧ head₁ = head₂ ∧ events₁ = events₂ := by
  have hserved : ∀ serves, (paymentApi serves).toApiClient.In Primitives.weighing
      paymentStrings := by
    intro serves height block hblock
    obtain ⟨-, rfl⟩ : serves height = true ∧ paymentBlock = block := by
      simpa [paymentApi] using hblock
    exact ⟨.inr (by simp), fun x hx => .inr (by simp [hx])⟩
  obtain ⟨head₁, events₁, hfirst, hin₁⟩ := @payment_walk (fun _ => true) rfl
  obtain ⟨head₂, events₂, hsecond, hin₂⟩ := @payment_walk (fun height => height == 1) rfl
  obtain ⟨hhead, -, hevents⟩ := walkForward_deterministic injOn_paymentStrings (hserved _)
    (hserved _) rfl hfirst hsecond hin₁ hin₂
  exact ⟨head₁, head₂, events₁, events₂, hfirst, hsecond, hhead, hevents⟩

end

end Hodlchain
