/-
A light client in front of an honest server.

The checks of a wallet are there to refuse a lying server; they must not refuse one
that tells the truth.  Rows that follow one another, served with the witnesses of the
ledgers below them, are walked up to any attested row, and what is read at the end is
the account in the ledger of that row.
-/
import Hodlchain.Node.Feed
import Hodlchain.Node.TwoWalks
import Hodlchain.Wallet.Tally

namespace Hodlchain

open LedgerState

/-! ### L1, at a later tip -/

/-- Esplora shows, under its tip, the outputs that a view had, confirmed at the same heights. -/
structure ShowsLater (esplora : EsploraClient) (tip : UInt32) (view : L1View) : Prop where
  tipHeight : view.tipHeight ≤ tip
  output : ∀ op out, view.getOutput op = some out → ∃ confs, mintConfirmations ≤ confs ∧
    esplora.output tip op = .ok { out with confirmations := confs }

section

variable {prim : Primitives} {esplora : EsploraClient} {tip : UInt32} {view : L1View}

/-- **Mints that passed under a view pass again at every later tip**, spent since or not. -/
theorem ShowsLater.verifyMints (h : ShowsLater esplora tip view) {txs : List L2Tx}
    (hmints : verifyMints prim view txs = .ok ()) :
    ∃ l1, SameL1View esplora tip txs l1 ∧ Hodlchain.verifyMints prim l1 txs = .ok () := by
  refine ⟨⟨fun op => (esplora.output tip op).toOption, tip⟩, ⟨rfl, fun _ _ => rfl⟩,
    verifyMintsFrom_ok_iff.mpr fun entry he => ?_⟩
  have hone := verifyMintsFrom_ok_iff.mp hmints entry he
  obtain ⟨out, hout⟩ := verifyMintEntry_found hone
  obtain ⟨p, hp, credit, hcredit, hevent⟩ := (verifyMintEntry_some hout).mp hone
  obtain ⟨confs, hconfs, hesp⟩ := h.output _ _ hout
  have hshown : (esplora.output tip entry.witness.outpoint).toOption
      = some { out with confirmations := confs } := by
    rw [hesp]
    rfl
  exact (verifyMintEntry_some hshown).mpr
    ⟨p, hp, credit, OutpointProof.verifyOutput_later hcredit hconfs h.tipHeight, hevent⟩

theorem Chain.findTx_append {c : Chain} {txid : Txid} {p : BtcTx × ℕ} (h : c.findTx txid = some p)
    (more : Chain) : Chain.findTx (c ++ more) txid = some p := by
  unfold Chain.findTx at h ⊢
  generalize (0 : ℕ) = n at h ⊢
  induction c generalizing n with
  | nil => cases h
  | cons b bs ih =>
      rw [List.cons_append, Chain.findTxFrom]
      rw [Chain.findTxFrom] at h
      cases hb : b.txdata.find? fun tx => tx.txid == txid with
      | some tx =>
          rw [hb] at h
          exact h
      | none =>
          rw [hb] at h
          exact ih _ h

/-- A chain that extends another shows what a node read from the outputs unspent there. -/
theorem Chain.showsLater {v c : Chain} (hv : v <+: c) (hids : c.UniqueTxids)
    (hlen : c.length ≤ 2 ^ 32) :
    ShowsLater c.esplora (UInt32.ofNat c.tip) (NodeL1.view v) := by
  obtain ⟨more, rfl⟩ := hv
  have hvlen : v.length ≤ 2 ^ 32 := by
    rw [List.length_append] at hlen
    omega
  have htips : v.tip ≤ Chain.tip (v ++ more) := by
    unfold Chain.tip
    rw [List.length_append]
    omega
  have hbound : Chain.tip (v ++ more) < 2 ^ 32 := by
    unfold Chain.tip
    omega
  constructor
  · show UInt32.ofNat v.tip ≤ _
    rw [UInt32.le_iff_toNat_le, toNat_ofNat32 (by omega), toNat_ofNat32 hbound]
    exact htips
  · intro op out hout
    cases hcoin : v.utxos op with
    | none =>
        rw [nodeView_getOutput_none hcoin] at hout
        cases hout
    | some coin =>
        rw [nodeView_getOutput hids.earlier hvlen hcoin] at hout
        obtain rfl := Option.some.inj hout
        obtain ⟨hlow, hhigh, tx, hfind, htx⟩ := Chain.utxos_origin hids.earlier hcoin
        refine ⟨UInt32.ofNat (Chain.tip (v ++ more) - coin.height + 1), ?_, ?_⟩
        · rw [UInt32.le_iff_toNat_le, toNat_ofNat32 (by omega)]
          show 1 ≤ _
          omega
        · exact esplora_output hlow (hhigh.trans htips) hbound (Chain.findTx_append hfind more) htx

end

/-! ### A head on a row -/

/-- A block whose header has the root of the ledger after it. -/
def Row.Rooted (prim : Primitives) (r : Row) : Prop :=
  r.block.header.stateRoot = r.state.stateRoot prim

/-- A head that describes the ledger of a row, under the hash of its block. -/
structure Stands (prim : Primitives) (r : Row) (head : VerifiedHead) : Prop where
  agrees : Agrees prim r.state head
  l2Height : head.l2Height = r.block.header.height
  blockHash : head.blockHash = r.block.hash prim
  stateRoot : head.stateRoot = r.state.stateRoot prim

/-- The rows up to `m` are served with their witnesses, and Esplora shows the L1 they were checked
against. -/
structure Provided (prim : Primitives) (api : ApiClient) (esplora : EsploraClient) (tip : UInt32)
    (view : UInt32 → L1View) (row : UInt32 → Option Row) (m : UInt32) : Prop where
  feed : Feed prim ⟨api.getBlock, view⟩ row m
  witness : ∀ k, k < m → ∀ p r, row k = some p → row (k + 1) = some r →
    api.getWitness (k + 1) = some (BlockWitness.build prim p.state r.block.txs (k + 1))
  shown : ∀ k, k < m → ShowsLater esplora tip (view (k + 1))

/-- An attestation of the row at its height. -/
def Attestation.OfRow (prim : Primitives) (row : UInt32 → Option Row) (att : Attestation) : Prop :=
  ∀ r, row att.height = some r → att = r.block.attestation prim

section

variable {prim : Primitives} {row : UInt32 → Option Row} {view : UInt32 → L1View} {m : UInt32}
  {r : Row} {head : VerifiedHead} {tip : UInt32}

/-- What the walk writes between two blocks is not what a head stands on a row by. -/
theorem Stands.moved (h : Stands prim r head) (anchor : OutPoint) (l1Height : UInt32) :
    Stands prim r { head with anchorOutpoint := anchor, l1Height := l1Height } where
  agrees := ⟨h.agrees.accountsRoot, h.agrees.consumedNullifiers, h.agrees.sequencerFeeAddress,
    h.agrees.totalMintedAtoms, h.agrees.ownLeaf, h.agrees.ownPath⟩
  l2Height := h.l2Height
  blockHash := h.blockHash
  stateRoot := h.stateRoot

/-- The own balance in the head is the ledger's. -/
theorem Stands.balanceFrom (h : Stands prim r head) : balanceFrom head head.ownAddress
    = (r.state.balanceOf head.ownAddress, r.state.nonceOf head.ownAddress) := by
  rw [balanceFrom_own, h.agrees.ownLeaf, leaf_accountInclusionProof, values_leaves]

theorem succ_toNat {k : UInt32} (h : k < m) : (k + 1).toNat = k.toNat + 1 := by
  have hbound := m.toNat_lt
  rw [UInt32.lt_iff_toNat_lt] at h
  rw [UInt32.toNat_add, UInt32.toNat_one, Nat.mod_eq_of_lt (by omega)]

/-! ### The walk -/

/-- **An honest block is verified**, and the head stands on its row. -/
theorem Provided.verifyOne {api : ApiClient} {esplora : EsploraClient}
    (h : Provided prim api esplora tip view row m) (hhead : Stands prim r head)
    (hr : row head.l2Height = some r) (hlt : head.l2Height < m) {att : Attestation}
    (hatt : att.OfRow prim row) :
    ∃ r' head' events, row (head.l2Height + 1) = some r' ∧
      verifyOneL2Block prim head (head.l2Height + 1)
        (if head.l2Height + 1 = att.height then some att else none) tip api esplora
          = .ok (head', events) ∧
      Stands prim r' head' ∧ head'.l2Height = head.l2Height + 1 ∧
      head'.anchorOutpoint = head.anchorOutpoint ∧ head'.ownAddress = head.ownAddress := by
  have hnext : head.l2Height + 1 ≤ m := by
    rw [UInt32.le_iff_toNat_le, succ_toNat hlt]
    exact UInt32.lt_iff_toNat_lt.mp hlt
  obtain ⟨r', hr', hheight, hserved⟩ := h.feed.rows _ hnext
  have hpasses := h.feed.follows _ hlt r r' hr hr'
  obtain ⟨witness, hcheck⟩ := hpasses (some (r'.block.attestation prim)) (by simp)
  obtain ⟨-, hend, hmints, hreplay, hroot, hprev, -, -⟩ := checkL2Block_ok_iff.mp hcheck
  obtain ⟨-, -, -, htxs⟩ := validateBlock_ok_iff.mp hend
  obtain ⟨l1, hl1, hmints'⟩ := (h.shown _ hlt).verifyMints hmints
  have hfits : HeaderFits prim head (head.l2Height + 1)
      (if head.l2Height + 1 = att.height then some att else none) r'.block := by
    refine ⟨hheight, fun att' hatt' => ?_, htxs, ?_⟩
    · split_ifs at hatt' with hheight'
      rw [← Option.some.inj hatt', hatt r' (by rw [← hheight']; exact hr')]
      exact ⟨rfl, rfl⟩
    · rw [hhead.blockHash]
      exact hprev
  obtain ⟨head', events, hrun, hagrees⟩ := verifyOneL2Block_accepts hserved
    (h.witness _ hlt r r' hr hr') hhead.agrees hl1 hfits hmints' hreplay hroot
  obtain ⟨block, hblock, hverified⟩ := verifyOneL2Block_verified hrun
  obtain rfl := Option.some.inj (hserved.symm.trans hblock)
  refine ⟨r', head', events, hr', hrun, ⟨hagrees, ?_, hverified.blockHash, ?_⟩, hverified.l2Height,
    hverified.anchorOutpoint, hverified.ownAddress⟩
  · rw [hverified.l2Height, hheight]
  · rw [hverified.stateRoot]
    exact hroot.symm

variable {api : ApiServer} {esplora : EsploraServer}

/-- A range of honest blocks is verified. -/
theorem Provided.walkRange (h : Provided prim api.toApiClient esplora.toEsploraClient
    tip view row m)
    {att : Attestation} (hatt : att.OfRow prim row) (n : ℕ) :
    ∀ {head : VerifiedHead} {r : Row}, Stands prim r head → row head.l2Height = some r →
      head.l2Height.toNat + n ≤ m.toNat →
      ∃ head' r' events,
        Hodlchain.walkRange prim api esplora tip att n (head.l2Height + 1) head =
          .ok (head', events) ∧
        Stands prim r' head' ∧ row head'.l2Height = some r' ∧
        head'.l2Height.toNat = head.l2Height.toNat + n ∧ head'.ownAddress = head.ownAddress := by
  induction n with
  | zero =>
      intro head r hhead hr _
      exact ⟨head, r, [], rfl, hhead, hr, rfl, rfl⟩
  | succ n ih =>
      intro head r hhead hr hroom
      have hlt : head.l2Height < m := by
        rw [UInt32.lt_iff_toNat_lt]
        omega
      obtain ⟨r₁, mid, shown, hr₁, hone, hmid, hheight, -, hown⟩ := h.verifyOne hhead hr hlt hatt
      have hcount : mid.l2Height.toNat = head.l2Height.toNat + 1 := by rw [hheight, succ_toNat hlt]
      obtain ⟨head', r', rest, hrest, hhead', hr', hcount', hown'⟩ :=
        ih hmid (by rw [hheight]; exact hr₁) (by omega)
      rw [hheight] at hrest
      refine ⟨head', r', shown ++ rest, ?_, hhead', hr', by omega, hown'.trans hown⟩
      simp only [Hodlchain.walkRange, bind_ok_iff, mapErr_ok_iff, pure_ok_iff]
      exact ⟨_, hone, _, hrest, rfl⟩

/-- The anchor that a list of links ends with. -/
def lastAnchor (anchor : OutPoint) (steps : List ChainStep) : OutPoint :=
  (steps.getLast?.map (·.newAnchor)).getD anchor

@[simp] theorem lastAnchor_nil (anchor : OutPoint) : lastAnchor anchor [] = anchor := rfl

theorem lastAnchor_cons (anchor : OutPoint) (step : ChainStep) (steps : List ChainStep) :
    lastAnchor anchor (step :: steps) = lastAnchor step.newAnchor steps := by
  unfold lastAnchor
  rw [List.getLast?_cons]
  cases steps.getLast? <;> rfl

/-- What a walk comes to: a row, the highest attested height, and the last anchor. -/
structure Arrived (prim : Primitives) (row : UInt32 → Option Row) (steps : List ChainStep)
    (head head' : VerifiedHead) (count : ℕ) : Prop where
  stands : ∃ r, row head'.l2Height = some r ∧ Stands prim r head'
  l2Height : head'.l2Height = reached head.l2Height steps
  anchorOutpoint : head'.anchorOutpoint = lastAnchor head.anchorOutpoint steps
  ownAddress : head'.ownAddress = head.ownAddress
  count : head.l2Height.toNat + count = head'.l2Height.toNat

/-- The loop over the attestations gets through all of them. -/
theorem Provided.walkSteps (h : Provided prim api.toApiClient esplora.toEsploraClient
    tip view row m)
    {steps : List ChainStep}
    (hsteps : ∀ step ∈ steps, step.attestation.height ≤ m ∧ step.attestation.OfRow prim row) :
    ∀ {head : VerifiedHead} {r : Row}, Stands prim r head → row head.l2Height = some r →
      ∃ head' count events,
        Hodlchain.walkSteps prim api esplora tip steps head = .ok (head', count, events) ∧
        Arrived prim row steps head head' count := by
  induction steps with
  | nil =>
      intro head r hhead hr
      exact ⟨head, 0, [], rfl, ⟨r, hr, hhead⟩, rfl, rfl, rfl, rfl⟩
  | cons step steps ih =>
      intro head r hhead hr
      obtain ⟨⟨hle, hof⟩, hrest⟩ := List.forall_mem_cons.mp hsteps
      have hcons : reached head.l2Height (step :: steps)
          = reached (if step.attestation.height ≤ head.l2Height then head.l2Height
            else step.attestation.height) steps := rfl
      by_cases hpast : step.attestation.height ≤ head.l2Height
      · obtain ⟨head', count, events, hrun, harrived⟩ :=
          ih hrest (hhead.moved step.newAnchor head.l1Height) hr
        refine ⟨head', count, events, ?_, harrived.stands, ?_, ?_, harrived.ownAddress,
          harrived.count⟩
        · rw [Hodlchain.walkSteps, if_pos hpast]
          exact hrun
        · rw [hcons, if_pos hpast]
          exact harrived.l2Height
        · rw [lastAnchor_cons]
          exact harrived.anchorOutpoint
      · have hlt := UInt32.lt_iff_toNat_lt.mp (UInt32.not_le.mp hpast)
        rw [UInt32.le_iff_toNat_le] at hle
        obtain ⟨mid, r₁, shown, hrange, hmid, hr₁, hcount, hown⟩ := h.walkRange hof
          (step.attestation.height.toNat - head.l2Height.toNat) hhead hr (by omega)
        have htarget : mid.l2Height = step.attestation.height := UInt32.toNat_inj.mp (by omega)
        obtain ⟨head', count, events, hrun, harrived⟩ :=
          ih hrest (hmid.moved step.newAnchor step.l1Height) hr₁
        refine ⟨head', step.attestation.height.toNat - head.l2Height.toNat + count,
          shown ++ events, ?_, harrived.stands, ?_, ?_, harrived.ownAddress.trans hown, ?_⟩
        · rw [Hodlchain.walkSteps, if_neg hpast]
          simp only [bind_ok_iff, pure_ok_iff]
          exact ⟨_, hrange, _, hrun, rfl⟩
        · rw [hcons, if_neg hpast, ← htarget]
          exact harrived.l2Height
        · rw [lastAnchor_cons]
          exact harrived.anchorOutpoint
        · have hafter := harrived.count
          dsimp only at hafter
          omega

/-- **A walk along attested rows succeeds.** -/
theorem Provided.walkForward
    (h : Provided prim api.toApiClient esplora.toEsploraClient tip view row m)
    (htip : esplora.tipHeight = some tip) {fuel : ℕ} {steps : List ChainStep}
    (hwalk : walkAttestationChain esplora fuel head.anchorOutpoint = .ok steps)
    (hsteps : ∀ step ∈ steps, step.attestation.height ≤ m ∧ step.attestation.OfRow prim row)
    (hhead : Stands prim r head) (hr : row head.l2Height = some r) :
    ∃ head' count events,
      Hodlchain.walkForward prim fuel head api esplora = .ok (head', count, events) ∧
      Arrived prim row steps head head' count := by
  obtain ⟨head', count, events, hrun, harrived⟩ := h.walkSteps hsteps hhead hr
  refine ⟨head', count, events, ?_, harrived⟩
  simp only [Hodlchain.walkForward, hwalk, mapErr, bind, Except.bind]
  cases steps with
  | nil => exact hrun
  | cons step steps =>
      rw [htip]
      exact hrun

/-! ### What a walk was served -/

/-- A range that was verified was served up to its last block. -/
theorem walkRange_served {att : Attestation} {n : ℕ} {h : UInt32} {head' : VerifiedHead}
    {events : List TxEvent} (hfit : h.toNat + n < 2 ^ 32)
    (hrun : Hodlchain.walkRange prim api esplora tip att (n + 1) h head = .ok (head', events)) :
    head'.l2Height.toNat = h.toNat + n ∧ ∃ block, api.getBlock head'.l2Height = some block := by
  induction n generalizing h head events with
  | zero =>
      obtain ⟨block, mid, shown, rest, hblock, hverified, hrest, -⟩ := walkRange_succ hrun
      simp only [Hodlchain.walkRange, pure_ok_iff, Prod.mk.injEq] at hrest
      obtain ⟨rfl, -⟩ := hrest
      rw [hverified.l2Height]
      exact ⟨rfl, block, hblock⟩
  | succ n ih =>
      obtain ⟨block, mid, shown, rest, -, -, hrest, -⟩ := walkRange_succ hrun
      have hup : (h + 1).toNat = h.toNat + 1 := by
        rw [UInt32.toNat_add, UInt32.toNat_one, Nat.mod_eq_of_lt (by omega)]
      obtain ⟨hheight, hserved⟩ := ih (by omega) hrest
      exact ⟨by omega, hserved⟩

theorem walkSteps_served {steps : List ChainStep} {head' : VerifiedHead} {count : ℕ}
    {events : List TxEvent}
    (hrun : Hodlchain.walkSteps prim api esplora tip steps head = .ok (head', count, events)) :
    head'.l2Height = reached head.l2Height steps ∧
      (head'.l2Height = head.l2Height ∨ ∃ block, api.getBlock head'.l2Height = some block) := by
  induction steps generalizing head count events with
  | nil =>
      simp only [Hodlchain.walkSteps, pure_ok_iff, Prod.mk.injEq] at hrun
      obtain ⟨rfl, -⟩ := hrun
      exact ⟨rfl, .inl rfl⟩
  | cons step steps ih =>
      have hcons : reached head.l2Height (step :: steps)
          = reached (if step.attestation.height ≤ head.l2Height then head.l2Height
            else step.attestation.height) steps := rfl
      rw [Hodlchain.walkSteps] at hrun
      by_cases hpast : step.attestation.height ≤ head.l2Height
      · rw [if_pos hpast] at hrun
        rw [hcons, if_pos hpast]
        have hrest := ih hrun
        exact hrest
      · rw [if_neg hpast] at hrun
        simp only [bind_ok_iff, pure_ok_iff, Prod.mk.injEq] at hrun
        obtain ⟨⟨mid, shown⟩, hrange, ⟨last, k, rest⟩, hsteps, rfl, -, -⟩ := hrun
        have hlt := UInt32.lt_iff_toNat_lt.mp (UInt32.not_le.mp hpast)
        have hbound := step.attestation.height.toNat_lt
        have hnext : (head.l2Height + 1).toNat = head.l2Height.toNat + 1 := by
          rw [UInt32.toNat_add, UInt32.toNat_one, Nat.mod_eq_of_lt (by omega)]
        obtain ⟨d, hd⟩ := Nat.exists_eq_add_of_lt hlt
        rw [show step.attestation.height.toNat - head.l2Height.toNat = d + 1 by omega] at hrange
        obtain ⟨hmid, hserved⟩ := walkRange_served (by omega) hrange
        have htarget : mid.l2Height = step.attestation.height := UInt32.toNat_inj.mp (by omega)
        obtain ⟨hheight, hend⟩ := ih hsteps
        rw [hcons, if_neg hpast, ← htarget]
        refine ⟨hheight, .inr ?_⟩
        rcases hend with hsame | hlast
        · rw [hsame]
          exact hserved
        · exact hlast

/-- A walk comes to the highest attested height, and was served the block there unless it started
with it. -/
theorem walkForward_served {fuel : ℕ} {steps : List ChainStep} {head' : VerifiedHead} {count : ℕ}
    {events : List TxEvent}
    (hwalk : walkAttestationChain esplora fuel head.anchorOutpoint = .ok steps)
    (hrun : Hodlchain.walkForward prim fuel head api esplora = .ok (head', count, events)) :
    head'.l2Height = reached head.l2Height steps ∧
      (head'.l2Height = head.l2Height ∨ ∃ block, api.getBlock head'.l2Height = some block) := by
  simp only [Hodlchain.walkForward, hwalk, mapErr, bind, Except.bind] at hrun
  cases steps with
  | nil =>
      simp only [pure_ok_iff, Prod.mk.injEq] at hrun
      obtain ⟨rfl, -⟩ := hrun
      exact ⟨rfl, .inl rfl⟩
  | cons step steps =>
      cases htip : esplora.tipHeight with
      | none =>
          rw [htip] at hrun
          cases hrun
      | some tip =>
          rw [htip] at hrun
          exact walkSteps_served hrun

/-! ### A first head -/

/-- The height that a list of links ends with; genesis is at zero. -/
def lastHeight (steps : List ChainStep) : UInt32 :=
  (steps.getLast?.map (·.attestation.height)).getD 0

/-- A server that stands on a row answers for the ledger there. -/
structure AnswersAt (prim : Primitives) (api : ApiServer) (r : Row) : Prop where
  balance : ∀ a, ∃ nonce, api.balance a
    = some (r.state.balanceResponse prim r.block.header.height a nonce)
  getNullifiers : api.getNullifiers = some r.state.consumedNullifiers.toList

/-- What a chain of attested rows leads to. -/
theorem attestedHead_ofRow {genesis : L2Block} (anchor0 : OutPoint) {steps : List ChainStep}
    (hgenesis : ∃ r₀, row 0 = some r₀ ∧ r₀.block = genesis ∧ genesis.header.height = 0)
    (hsteps : ∀ step ∈ steps, step.attestation.OfRow prim row)
    (hr : row (lastHeight steps) = some r) (hheight : r.block.header.height = lastHeight steps) :
    ∃ l1Height, attestedHead prim genesis anchor0 steps
      = ⟨r.block.header.stateRoot, r.block.header.height, r.block.hash prim, l1Height,
          lastAnchor anchor0 steps⟩ := by
  unfold attestedHead lastAnchor
  unfold lastHeight at hr hheight
  cases hlast : steps.getLast? with
  | none =>
      obtain ⟨r₀, hr₀, rfl, hzero⟩ := hgenesis
      rw [hlast] at hr
      obtain rfl := Option.some.inj (hr₀.symm.trans hr)
      exact ⟨r₀.block.header.l1Height, by rw [hzero]; rfl⟩
  | some last =>
      rw [hlast] at hr
      have hatt := hsteps last (List.mem_of_getLast? hlast) r hr
      refine ⟨last.l1Height, ?_⟩
      dsimp only [Option.map_some, Option.getD_some]
      rw [hatt]
      rfl

/-- **A cold start in front of an honest server succeeds.** -/
theorem AnswersAt.bootstrap (h : AnswersAt prim api r) (hroot : r.Rooted prim) {genesis : L2Block}
    {anchor0 : OutPoint} {steps : List ChainStep} {fuel : ℕ}
    (hserved : api.getBlock 0 = some genesis)
    (hgenesis : ∃ r₀, row 0 = some r₀ ∧ r₀.block = genesis ∧ genesis.header.height = 0)
    (hanchor : genesis.header.anchorOutpoint = some anchor0)
    (hwalk : walkAttestationChain esplora fuel anchor0 = .ok steps)
    (hsteps : ∀ step ∈ steps, step.attestation.OfRow prim row)
    (hr : row (lastHeight steps) = some r) (hheight : r.block.header.height = lastHeight steps)
    (own : L2Address) :
    ∃ head, Verify.bootstrap prim fuel api esplora own = .ok head ∧ Stands prim r head ∧
      head.anchorOutpoint = lastAnchor anchor0 steps ∧ head.ownAddress = own := by
  obtain ⟨nonce, hbal⟩ := h.balance own
  obtain ⟨l1Height, hl1⟩ := attestedHead_ofRow anchor0 hgenesis hsteps hr hheight
  have hcold : ColdStart prim fuel api esplora own
      (r.state.balanceResponse prim r.block.header.height own nonce)
      r.state.consumedNullifiers.toList (attestedHead prim genesis anchor0 steps) :=
    { walk := ⟨genesis, anchor0, steps, hserved, hanchor, hwalk, rfl⟩
      balance := hbal
      nullifiers := h.getNullifiers
      stateRoot := by
        rw [hl1]
        exact hroot.symm
      l2Height := by
        rw [hl1]
        rfl
      address := rfl
      components := rfl
      proof := r.state.verify_accountInclusionProof own
      leaf := by
        show LeafKind.values (r.state.accountInclusionProof prim own).leaf = _
        rw [leaf_accountInclusionProof, values_leaves]
        rfl
      nullifiersHash := by
        rw [nullifierSet_toList]
        rfl }
  refine ⟨_, bootstrap_ok_iff.mpr ⟨_, _, _, hcold, rfl⟩, ⟨?_, ?_, ?_, rfl⟩, ?_, rfl⟩
  · exact ⟨rfl, nullifierSet_toList _, rfl, rfl, rfl, rfl⟩
  · unfold coldHead
    rw [hl1]
  · unfold coldHead
    rw [hl1]
  · unfold coldHead
    rw [hl1]

/-! ### A query -/

/-- What a query shows of the row it has come to. -/
structure ReadAt (prim : Primitives) (r : Row) (target : L2Address) (res : LightBalanceResult) :
    Prop where
  stands : Stands prim r res.head
  address : res.output.address = target
  l2Height : res.output.l2Height = r.block.header.height
  stateRoot : res.output.stateRoot = r.state.stateRoot prim
  balance : res.output.balance = r.state.balanceOf target
  nonce : res.output.nonce = r.state.nonceOf target
  totalMintedAtoms : res.output.totalMintedAtoms = r.state.totalMintedAtoms

/-- The top-up asks for what the head has. -/
theorem AnswersAt.topUp (h : AnswersAt prim api r) (hhead : Stands prim r head) (own : L2Address) :
    Hodlchain.topUp api own head = .ok head := by
  obtain ⟨nonce, hbal⟩ := h.balance own
  unfold Hodlchain.topUp
  split_ifs with hzero
  · rw [hbal]
    show Except.ok { head with totalMintedAtoms := r.state.totalMintedAtoms } = _
    rw [← hhead.agrees.totalMintedAtoms]
  · rfl

theorem AnswersAt.readBalance (h : AnswersAt prim api r) (hhead : Stands prim r head)
    (target : L2Address) : Hodlchain.readBalance prim api head.ownAddress target head
      = .ok (r.state.balanceOf target, r.state.nonceOf target) := by
  unfold Hodlchain.readBalance
  split_ifs with hown
  · rw [hhead.balanceFrom, hown]
    rfl
  · obtain ⟨nonce, hbal⟩ := h.balance target
    simp only [otherBalance, bind_ok_iff, okOr_ok_iff, ensure_ok_iff, pure_ok_iff]
    have hvalues : (r.state.accountInclusionProof prim target).leaf.values
        = (r.state.balanceOf target, r.state.nonceOf target) := by
      rw [leaf_accountInclusionProof, values_leaves]
    refine ⟨_, hbal, (), hhead.stateRoot.symm, (), ?_, (), ?_, hvalues⟩
    · rw [hhead.agrees.accountsRoot]
      exact r.state.verify_accountInclusionProof target
    · exact ⟨congrArg Prod.fst hvalues, congrArg Prod.snd hvalues⟩

/-- **From a head that a walk takes to the server's row, a query shows the ledger there.** -/
theorem AnswersAt.lightBalance (h : AnswersAt prim api r) {own : L2Address}
    (addr : Option L2Address) {fuel : ℕ} {persisted : Option VerifiedHead}
    {start last : VerifiedHead} {mode : LightBalanceMode} {count : ℕ} {events : List TxEvent}
    (htracked : ∀ p ∈ persisted, p.ownAddress = own)
    (hstart : startHead prim fuel api esplora own persisted = .ok (start, mode))
    (hwalk : Hodlchain.walkForward prim fuel start api esplora = .ok (last, count, events))
    (hlast : Stands prim r last) (hown : last.ownAddress = own) :
    ∃ res, Hodlchain.lightBalance prim fuel api esplora own addr persisted = .ok res ∧
      res.head = last ∧ ReadAt prim r (addr.getD own) res := by
  have htrack : checkTracked own persisted = .ok () := by
    cases persisted with
    | none => rfl
    | some p => exact ensure_ok_iff.mpr (htracked p rfl)
  subst hown
  refine ⟨_, lightBalance_ok_iff.mpr ⟨htrack, start, mode, last, count, events, last, _, _,
    hstart, hwalk, h.topUp hlast _, h.readBalance hlast _, rfl⟩, rfl, ?_⟩
  exact ⟨hlast, rfl, hlast.l2Height, hlast.stateRoot, rfl, rfl, hlast.agrees.totalMintedAtoms⟩

end

end Hodlchain
