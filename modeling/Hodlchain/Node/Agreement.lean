/-
Whether the readers of one attestation chain agree.

A wallet that joins takes the last attestation; a wallet that walks on, and a node, let
go of the head they hold only for a higher one.  On a chain whose last attestation is
its highest, and the only one so high, these come to the same, whenever each joined.
On any other chain the moment of joining decides.
-/
import Hodlchain.Lib.Lead
import Hodlchain.Node.Recovery
import Hodlchain.Wallet.Determinism

namespace Hodlchain

open Bytes LedgerState

/-! ### Clients -/

/-- Where a client says the chain is. -/
structure HeldHead where
  l2Height : UInt32
  blockHash : H256
  stateRoot : H256
deriving DecidableEq, Repr

def HeldHead.height (h : HeldHead) : Nat := h.l2Height.toNat

def Attestation.held (att : Attestation) : HeldHead := ⟨att.height, att.l2BlockHash, att.stateRoot⟩

def VerifiedHead.held (head : VerifiedHead) : HeldHead :=
  ⟨head.l2Height, head.blockHash, head.stateRoot⟩

def HeadInfo.held (head : HeadInfo) : HeldHead := ⟨head.height, head.blockHash, head.stateRoot⟩

/-- The attestations of a walk. -/
def attestations (steps : List ChainStep) : List Attestation := steps.map ChainStep.attestation

section

variable (prim : Primitives) (genesis : L2Block)

/-- What is held before the first attestation. -/
def heldGenesis : HeldHead := ⟨0, genesis.hash prim, genesis.header.stateRoot⟩

/-- A wallet that joined when `joined` was on L1, and has walked over `walked` since. -/
inductive WalletAfter : List Attestation → List Attestation → VerifiedHead → Prop
  | bootstrap {fuel : Nat} {api : ApiServer} {esplora : EsploraServer} {own : L2Address}
      {anchor0 : OutPoint} {chain : List ChainStep} {head : VerifiedHead} :
      api.getBlock 0 = some genesis → genesis.header.anchorOutpoint = some anchor0 →
      walkAttestationChain esplora fuel anchor0 = .ok chain →
      Verify.bootstrap prim fuel api esplora own = .ok head →
      WalletAfter (attestations chain) [] head
  | walk {joined walked : List Attestation} {fuel : Nat} {api : ApiServer} {esplora : EsploraServer}
      {chain : List ChainStep} {head head' : VerifiedHead} {count : Nat} {events : List TxEvent} :
      WalletAfter joined walked head →
      walkAttestationChain esplora fuel head.anchorOutpoint = .ok chain →
      walkForward prim fuel head api esplora = .ok (head', count, events) →
      WalletAfter joined (walked ++ attestations chain) head'

/-- A node that has processed a chain of attestations without an error, with the cursor moved
and restarts in between. -/
inductive NodeAfter : List Attestation → NodeState → Prop
  | bootstrap {l1GenesisHeight : UInt32} {n : NodeState} :
      bootstrap prim l1GenesisHeight (some genesis) NodeStore.empty = .ok n → NodeAfter [] n
  | advance {seen : List Attestation} {env : Env} {adv : ChainAdvance} {w w' : World} :
      NodeAfter seen w.toNodeState → processAdvance prim env adv w = (.ok (), w') →
      NodeAfter (seen ++ [adv.attestation]) w'.toNodeState
  | setL1Cursor {seen : List Attestation} {n : NodeState} (h : Nat) :
      NodeAfter seen n → NodeAfter seen { n with store := n.store.setL1Cursor h }
  | restart {seen : List Attestation} {n : NodeState} {state : LedgerState} {head : HeadInfo} :
      NodeAfter seen n → resume prim n.store = .ok (some (state, head)) →
      NodeAfter seen ⟨n.store, state, head⟩

/-- A client that has processed a chain of attestations, and what it holds then. -/
inductive ClientAfter : List Attestation → HeldHead → Prop
  | wallet {joined walked : List Attestation} {head : VerifiedHead} :
      WalletAfter prim genesis joined walked head → ClientAfter (joined ++ walked) head.held
  | node {seen : List Attestation} {n : NodeState} :
      NodeAfter prim genesis seen n → ClientAfter seen n.head.held

/-- Attestations of one height name one block. -/
def OneBlockPerHeight (chain : List Attestation) : Prop :=
  ∀ a ∈ chain, ∀ b ∈ chain, a.height = b.height → a.l2BlockHash = b.l2BlockHash

/-- Whoever has processed the chain holds one head, and has not passed over two blocks for one
height. -/
structure Agreement (chain : List Attestation) : Prop where
  same : ∀ a b, ClientAfter prim genesis chain a → ClientAfter prim genesis chain b → a = b
  oneBlock : ∀ a, ClientAfter prim genesis chain a → OneBlockPerHeight chain

/-- The last attestation is the highest, none but it is as high, and no two disagree. -/
structure Unequivocal (chain : List Attestation) : Prop where
  leads : LastLeads HeldHead.height (heldGenesis prim genesis) (chain.map Attestation.held)
  oneBlock : OneBlockPerHeight chain

end

section

variable {prim : Primitives} {genesis : L2Block}

/-! ### What a wallet holds -/

/-- A range ends at the attested head. -/
theorem walkRange_held {api : ApiServer} {esplora : EsploraServer} {tip : UInt32}
    {att : Attestation} : ∀ {n : Nat} {h : UInt32} {head head' : VerifiedHead}
      {events : List TxEvent},
      walkRange prim api esplora tip att (n + 1) h head = .ok (head', events) →
      h.toNat + n = att.height.toNat → head'.held = att.held := by
  intro n
  induction n with
  | zero =>
      intro h head head' events hrun hend
      obtain ⟨block, mid, _, _, -, hverified, hrest, -⟩ := walkRange_succ hrun
      simp only [walkRange, pure_ok_iff, Prod.mk.injEq] at hrest
      obtain ⟨rfl, -⟩ := hrest
      have hh : h = att.height := UInt32.toNat_inj.mp hend
      obtain ⟨hhash, hroot⟩ := hverified.fits.attested att (if_pos hh)
      unfold VerifiedHead.held Attestation.held
      rw [hverified.l2Height, hverified.blockHash, hverified.stateRoot, hh, hhash, hroot]
  | succ n ih =>
      intro h head head' events hrun hend
      obtain ⟨block, mid, _, _, -, -, hrest, -⟩ := walkRange_succ hrun
      refine ih hrest ?_
      have hbound := att.height.toNat_lt
      rw [UInt32.toNat_add, UInt32.toNat_one, Nat.mod_eq_of_lt (by omega)]
      omega

theorem walkSteps_held {api : ApiServer} {esplora : EsploraServer} {tip : UInt32} :
    ∀ {steps : List ChainStep} {head head' : VerifiedHead} {count : Nat} {events : List TxEvent},
      walkSteps prim api esplora tip steps head = .ok (head', count, events) →
      head'.held = lead HeldHead.height head.held ((attestations steps).map Attestation.held) := by
  intro steps
  induction steps with
  | nil =>
      intro head head' count events hrun
      simp only [walkSteps, pure_ok_iff, Prod.mk.injEq] at hrun
      obtain ⟨rfl, -⟩ := hrun
      rfl
  | cons step steps ih =>
      intro head head' count events hrun
      rw [walkSteps] at hrun
      show _ = lead HeldHead.height head.held (step.attestation.held :: _)
      by_cases hpast : step.attestation.height ≤ head.l2Height
      · rw [if_pos hpast] at hrun
        have hle : step.attestation.held.height ≤ head.held.height :=
          UInt32.le_iff_toNat_le.mp hpast
        rw [lead_cons_le hle]
        have hrest := ih hrun
        exact hrest
      · rw [if_neg hpast] at hrun
        simp only [bind_ok_iff, pure_ok_iff, Prod.mk.injEq] at hrun
        obtain ⟨⟨mid, shown⟩, hrange, ⟨last, k, rest⟩, hsteps, rfl, -, -⟩ := hrun
        have hlt := UInt32.lt_iff_toNat_lt.mp (UInt32.not_le.mp hpast)
        rw [lead_cons_lt (show head.held.height < step.attestation.held.height from hlt)]
        obtain ⟨n, hn⟩ : ∃ n, step.attestation.height.toNat - head.l2Height.toNat = n + 1 :=
          ⟨_, (Nat.succ_pred_eq_of_pos (by omega)).symm⟩
        have hend : (head.l2Height + 1).toNat + n = step.attestation.height.toNat := by
          have hbound := step.attestation.height.toNat_lt
          rw [UInt32.toNat_add, UInt32.toNat_one, Nat.mod_eq_of_lt (by omega)]
          omega
        rw [hn] at hrange
        rw [← walkRange_held hrange hend]
        have hrest := ih hsteps
        exact hrest

theorem walkForward_held {fuel : Nat} {head head' : VerifiedHead} {api : ApiServer}
    {esplora : EsploraServer} {chain : List ChainStep} {count : Nat} {events : List TxEvent}
    (hchain : walkAttestationChain esplora fuel head.anchorOutpoint = .ok chain)
    (h : walkForward prim fuel head api esplora = .ok (head', count, events)) :
    head'.held = lead HeldHead.height head.held ((attestations chain).map Attestation.held) := by
  simp only [walkForward, bind_ok_iff, mapErr_ok_iff] at h
  obtain ⟨chain', hwalk, h⟩ := h
  rw [hchain] at hwalk
  obtain rfl := Except.ok.inj hwalk
  cases chain with
  | nil =>
      simp only [pure_ok_iff, Prod.mk.injEq] at h
      obtain ⟨rfl, -⟩ := h
      rfl
  | cons step steps =>
      simp only [bind_ok_iff] at h
      obtain ⟨tip, -, h⟩ := h
      exact walkSteps_held h

theorem attestedHead_held (anchor0 : OutPoint) (chain : List ChainStep) :
    let l1 := attestedHead prim genesis anchor0 chain
    HeldHead.mk l1.l2Height l1.blockHash l1.stateRoot
      = latest (heldGenesis prim genesis) ((attestations chain).map Attestation.held) := by
  intro l1
  unfold l1 attestedHead latest attestations
  rw [List.map_map, List.getLast?_map]
  cases chain.getLast? with
  | none => rfl
  | some last => rfl

/-- A wallet that joins holds the last attestation. -/
theorem bootstrap_held {fuel : Nat} {api : ApiServer} {esplora : EsploraServer} {own : L2Address}
    {anchor0 : OutPoint} {chain : List ChainStep} {head : VerifiedHead}
    (hgenesis : api.getBlock 0 = some genesis)
    (hanchor : genesis.header.anchorOutpoint = some anchor0)
    (hchain : walkAttestationChain esplora fuel anchor0 = .ok chain)
    (h : Verify.bootstrap prim fuel api esplora own = .ok head) :
    head.held = latest (heldGenesis prim genesis) ((attestations chain).map Attestation.held) := by
  obtain ⟨bal, items, l1, hcold, rfl⟩ := bootstrap_ok_iff.mp h
  obtain ⟨genesis', anchor', chain', hgenesis', hanchor', hchain', hl1⟩ := hcold.walk
  obtain rfl := Option.some.inj (hgenesis.symm.trans hgenesis')
  obtain rfl := Option.some.inj (hanchor.symm.trans hanchor')
  obtain rfl := Except.ok.inj (hchain.symm.trans hchain')
  have hheld : (coldHead own bal items l1).held = ⟨l1.l2Height, l1.blockHash, l1.stateRoot⟩ := by
    rw [← hcold.stateRoot]
    rfl
  rw [hheld, hl1]
  exact attestedHead_held anchor0 chain

theorem WalletAfter.held {joined walked : List Attestation} {head : VerifiedHead}
    (h : WalletAfter prim genesis joined walked head) :
    head.held = lead HeldHead.height
      (latest (heldGenesis prim genesis) (joined.map Attestation.held))
      (walked.map Attestation.held) := by
  induction h with
  | bootstrap hgenesis hanchor hchain hboot => exact bootstrap_held hgenesis hanchor hchain hboot
  | walk _ hchain hwalk ih =>
      rw [walkForward_held hchain hwalk, ih, List.map_append, lead_append]

/-! ### What a node holds -/

/-- A batch that ends well ends at the attested head. -/
theorem RangeEnds.ok_held {served : Served} {att : Attestation} {k : Nat} {n n' : NodeState}
    {r : Except Halt Unit} {hits : List (CallSite × Fault)}
    (h : RangeEnds prim served att k n r n' hits) (hr : r = .ok ()) (hk : 0 < k)
    (hend : n.head.height.toNat + k = att.height.toNat) : n'.head.held = att.held := by
  induction h with
  | done => exact absurd hk (Nat.lt_irrefl 0)
  | halted _ => cases hr
  | @more k n n' r hits block next haccept _ hrest ih =>
      have hup : (n.accept block next).head.height.toNat = n.head.height.toNat + 1 := by
        have hbound := att.height.toNat_lt
        rw [accept_height haccept, UInt32.toNat_add, UInt32.toNat_one, Nat.mod_eq_of_lt (by omega)]
      rcases Nat.eq_zero_or_pos k with rfl | hpos
      · -- the last block is checked against the attestation
        cases hrest with
        | done =>
            have hlast : (n.accept block next).head.height = att.height :=
              UInt32.toNat_inj.mp (by rw [hup]; exact hend)
            have hcheck := (acceptNext_some_iff.mp haccept).2
            obtain ⟨-, hvalid, -⟩ := checkL2Block_ok_iff.mp hcheck
            rw [accept_height haccept] at hlast
            rw [endAttestation, if_pos hlast, validateEnd, validateBlock_ok_iff] at hvalid
            obtain ⟨hheight, hhash, hroot, -⟩ := hvalid
            have hhead : (n.accept block next).head = headOf prim block :=
              (acceptNext_head haccept).2.2
            unfold HeadInfo.held Attestation.held
            rw [hhead, ← hheight, ← hhash, ← hroot]
            rfl
      · exact ih hr hpos (by rw [hup]; omega)

theorem AdvanceEnds.ok_held {served : Served} {adv : ChainAdvance} {n n' : NodeState}
    {hits : List (CallSite × Fault)} (h : AdvanceEnds prim served adv n (.ok ()) n' hits) :
    n'.head.held = lead HeldHead.height n.head.held [adv.attestation.held] := by
  cases h with
  | known hle =>
      have hkey : adv.attestation.held.height ≤ n.head.held.height := UInt32.le_iff_toNat_le.mp hle
      rw [lead_cons_le hkey]
      rfl
  | done hlt hrange =>
      have hkey : n.head.held.height < adv.attestation.held.height := UInt32.lt_iff_toNat_lt.mp hlt
      have hlt := UInt32.lt_iff_toNat_lt.mp hlt
      rw [lead_cons_lt hkey]
      exact hrange.ok_held rfl (by unfold batchSize; omega) (by unfold batchSize; omega)

theorem RangeEnds.ok_synced {served : Served} {att : Attestation} {k : Nat} {n n' : NodeState}
    {r : Except Halt Unit} {hits : List (CallSite × Fault)}
    (h : RangeEnds prim served att k n r n' hits) (hr : r = .ok ()) (hsync : Synced prim n)
    (hend : n.head.height.toNat + k = att.height.toNat) : Synced prim n' := by
  induction h with
  | done => exact hsync
  | halted _ => cases hr
  | @more k n n' r hits block next haccept _ _ ih =>
      have hroom : n.head.height < att.height := by
        rw [UInt32.lt_iff_toNat_lt]
        omega
      have hup : (n.accept block next).head.height.toNat = n.head.height.toNat + 1 := by
        have hbound := att.height.toNat_lt
        rw [accept_height haccept, UInt32.toNat_add, UInt32.toNat_one, Nat.mod_eq_of_lt (by omega)]
      exact ih hr (hsync.accept haccept hroom) (by rw [hup]; omega)

theorem AdvanceEnds.ok_synced {served : Served} {adv : ChainAdvance} {n n' : NodeState}
    {hits : List (CallSite × Fault)} (h : AdvanceEnds prim served adv n (.ok ()) n' hits)
    (hsync : Synced prim n) : Synced prim n' := by
  cases h with
  | known _ => exact hsync
  | done hlt hrange =>
      have hlt := UInt32.lt_iff_toNat_lt.mp hlt
      have hend := hrange.ok_synced rfl hsync (by unfold batchSize; omega)
      exact hend.moveAnchor adv

theorem NodeAfter.held {seen : List Attestation} {n : NodeState}
    (h : NodeAfter prim genesis seen n) : Synced prim n ∧
      n.head.held = lead HeldHead.height (heldGenesis prim genesis)
        (seen.map Attestation.held) := by
  induction h with
  | bootstrap hboot =>
      refine ⟨(bootstrap_synced hboot).1, ?_⟩
      have hload : NodeStore.empty.loadLatestState = none := lastRow?_eq_none_iff.mpr rfl
      simp only [Hodlchain.bootstrap, resume, hload, coldStart, bind_ok_iff, ensure_ok_iff,
        okOr_ok_iff, mapErr_ok_iff, pure_ok_iff] at hboot
      obtain ⟨_, -, _, -, _, -, _, -, _, -, rfl⟩ := hboot
      rfl
  | advance _ hrun ih =>
      obtain ⟨hits, hends, -⟩ := processAdvance_ends hrun
      refine ⟨hends.ok_synced ih.1, ?_⟩
      rw [hends.ok_held, ih.2, List.map_append, lead_append]
      rfl
  | setL1Cursor height _ ih => exact ⟨ih.1.setL1Cursor height, ih.2⟩
  | @restart seen n state head _ hresume ih =>
      rw [ih.1.resume] at hresume
      obtain ⟨rfl, rfl⟩ := Prod.mk.inj (Option.some.inj (Except.ok.inj hresume))
      exact ih

/-! ### When clients agree -/

/-- What a client holds, by where it started to read. -/
theorem ClientAfter.held {chain : List Attestation} {a : HeldHead}
    (h : ClientAfter prim genesis chain a) : ∃ joined walked, chain = joined ++ walked ∧
      a = lead HeldHead.height
        (latest (heldGenesis prim genesis) (joined.map Attestation.held))
        (walked.map Attestation.held) := by
  cases h with
  | @wallet joined walked head hwallet => exact ⟨joined, walked, rfl, hwallet.held⟩
  | node hnode => exact ⟨[], chain, rfl, hnode.held.2⟩

/-- On a chain without equivocation every client ends at the last attestation. -/
theorem Unequivocal.held {chain : List Attestation} (h : Unequivocal prim genesis chain)
    {a : HeldHead} (ha : ClientAfter prim genesis chain a) :
    a = latest (heldGenesis prim genesis) (chain.map Attestation.held) := by
  obtain ⟨joined, walked, rfl, rfl⟩ := ha.held
  have hleads := h.leads
  rw [List.map_append] at hleads ⊢
  exact hleads.lead_eq

theorem Unequivocal.agreement {chain : List Attestation} (h : Unequivocal prim genesis chain) :
    Agreement prim genesis chain where
  same _ _ ha hb := (h.held ha).trans (h.held hb).symm
  oneBlock _ _ := h.oneBlock

/--
**Clients agree exactly on a chain whose last attestation is above every other, and where no
two attestations of one height name different blocks.**  On such a chain all clients that get
through it hold the last attestation.  For the converse, wallets that joined at each moment and
got through the rest are enough.
-/
theorem agreement_iff (chain : List Attestation) :
    (Unequivocal prim genesis chain → Agreement prim genesis chain) ∧
    ((∀ joined walked, chain = joined ++ walked →
        ∃ head, WalletAfter prim genesis joined walked head) →
      (Agreement prim genesis chain ↔ Unequivocal prim genesis chain)) := by
  refine ⟨Unequivocal.agreement, fun hwallets => ⟨fun h => ?_, Unequivocal.agreement⟩⟩
  obtain ⟨last, hlast⟩ := hwallets chain [] (List.append_nil _).symm
  have hclient := ClientAfter.wallet hlast
  rw [List.append_nil] at hclient
  refine ⟨lead_agree_iff.mp fun as bs hchain => ?_, h.oneBlock _ hclient⟩
  obtain ⟨joined, walked, rfl, rfl, rfl⟩ := List.map_eq_append_iff.mp hchain
  obtain ⟨head, hhead⟩ := hwallets joined walked rfl
  rw [← hhead.held, h.same _ _ (.wallet hhead) hclient, hlast.held]
  rfl

end

/-! ### Two blocks for one height -/

/-- The outpoint that the attestation after the first `i` spends. -/
def anchorAt (i : Nat) : OutPoint := ⟨⟨ByteArr.ofNat 32 (9 + i)⟩, 1⟩

/-- Which of them a transaction is. -/
def anchorIndex (txid : Txid) : Nat := beValue txid.raw - 9

theorem anchorIndex_anchorAt {i : Nat} (h : 9 + i < 256 ^ 32) :
    anchorIndex (anchorAt i).txid = i := by
  have hraw : (anchorAt i).txid.raw = beBytes 32 (9 + i) := rfl
  rw [anchorIndex, hraw, beValue_beBytes, Nat.mod_eq_of_lt h, Nat.add_sub_cancel_left]

/-- An L1 that carries these attestations, each in a transaction that spends the anchor of the
one before it. -/
def carrying (links : List Attestation) : EsploraServer where
  getTx txid := links[anchorIndex txid - 1]?.map fun att =>
    ⟨[⟨hexEncode att.toScript, 0⟩, ⟨"", 330⟩], ⟨some 5⟩⟩
  txExists _ := some true
  getOutspend txid _ :=
    if anchorIndex txid < links.length then
      some ⟨true, some (anchorAt (anchorIndex txid + 1)).txid.toStr, some 5⟩
    else some ⟨false, none, none⟩
  tipHeight := some 5

/-- What a walk finds there from the `i`-th anchor on. -/
def stepsFrom : Nat → List Attestation → List ChainStep
  | _, [] => []
  | i, att :: rest => ⟨att, 5, anchorAt (i + 1)⟩ :: stepsFrom (i + 1) rest

theorem attestations_stepsFrom : ∀ (i : Nat) (links : List Attestation),
    attestations (stepsFrom i links) = links := by
  intro i links
  induction links generalizing i with
  | nil => rfl
  | cons att links ih =>
      show att :: attestations (stepsFrom (i + 1) links) = att :: links
      rw [ih]

theorem carrying_walkFrom {links : List Attestation}
    (hversion : ∀ att ∈ links, att.version = attestationVersion)
    (hlen : 9 + links.length < 256 ^ 32) : ∀ (rest seen : List Attestation) {fuel : Nat},
      links = seen ++ rest → rest.length < fuel →
      walkFrom (carrying links) fuel (anchorAt seen.length) = .ok (stepsFrom seen.length rest) := by
  intro rest
  induction rest with
  | nil =>
      intro seen fuel hlinks hfuel
      obtain ⟨fuel, rfl⟩ := Nat.exists_eq_succ_of_ne_zero (Nat.ne_of_gt hfuel)
      rw [List.append_nil] at hlinks
      have hidx : anchorIndex (anchorAt seen.length).txid = links.length := by
        rw [← hlinks]
        exact anchorIndex_anchorAt hlen
      simp only [walkFrom, carrying, hidx, Nat.lt_irrefl, if_false]
      rfl
  | cons att rest ih =>
      intro seen fuel hlinks hfuel
      obtain ⟨fuel, rfl⟩ := Nat.exists_eq_succ_of_ne_zero (Nat.ne_of_gt (Nat.zero_lt_of_lt hfuel))
      have hcount : links.length = seen.length + rest.length + 1 := by
        rw [hlinks, List.length_append, List.length_cons]
        omega
      have hidx : anchorIndex (anchorAt seen.length).txid = seen.length :=
        anchorIndex_anchorAt (by omega)
      have hnext : anchorIndex (anchorAt (seen.length + 1)).txid = seen.length + 1 :=
        anchorIndex_anchorAt (by omega)
      have hlink : links[seen.length]? = some att := by
        rw [hlinks, List.getElem?_append_right (Nat.le_refl _), Nat.sub_self]
        rfl
      have hread := Attestation.tryFromScript_toScript
        (hversion att (by rw [hlinks]; simp))
      have hstep : readChainStep (carrying links)
          ⟨true, some (anchorAt (seen.length + 1)).txid.toStr, some 5⟩
          = .ok ⟨att, 5, anchorAt (seen.length + 1)⟩ := by
        simp only [readChainStep, carrying, bind_ok_iff, okOr_ok_iff, mapErr_ok_iff,
          Option.some.injEq, exists_eq_left', Txid.fromStr_toStr, hnext, Nat.add_sub_cancel, hlink,
          Option.map_some, hexDecode_hexEncode, hread, pure_ok_iff]
        exact ⟨_, rfl, _, rfl, rfl⟩
      have hlast := @ih (seen ++ [att]) fuel (by rw [hlinks]; simp)
        (by rw [List.length_cons] at hfuel; omega)
      rw [List.length_append, List.length_singleton] at hlast
      have hspent : (carrying links).getOutspend (anchorAt seen.length).txid
        (anchorAt seen.length).vout
          = some ⟨true, some (anchorAt (seen.length + 1)).txid.toStr, some 5⟩ := by
        simp only [carrying, hidx]
        rw [if_pos (by omega)]
      simp only [walkFrom, hspent, bind_ok_iff, okOr_ok_iff, Option.some.injEq, exists_eq_left',
        Bool.not_true, Bool.false_eq_true, if_false, hstep, Except.ok.injEq, hlast, pure_ok_iff]
      rfl

theorem carrying_walk {links seen rest : List Attestation} (hlinks : links = seen ++ rest)
    (hversion : ∀ att ∈ links, att.version = attestationVersion)
    (hlen : 9 + links.length < 256 ^ 32) :
    walkAttestationChain (carrying links) (links.length + 1) (anchorAt seen.length)
      = .ok (stepsFrom seen.length rest) := by
  have hfuel : rest.length < links.length + 1 := by
    rw [hlinks, List.length_append]
    omega
  have hwalk := carrying_walkFrom hversion hlen rest seen hlinks hfuel
  simp only [walkAttestationChain, bind_ok_iff, ensure_ok_iff]
  exact ⟨true, rfl, (), rfl, hwalk⟩

section

variable (prim : Primitives)

/-- A block 0 with an empty ledger. -/
def idleGenesis : L2Block := genesis prim H256.zero 0 0 (anchorAt 0) none none

/-- A node at a height of a chain that has left the ledger empty. -/
def idleApi (height : UInt32) : ApiServer where
  getBlock _ := some (idleGenesis prim)
  getWitness _ := none
  balance addr := some (LedgerState.new.balanceResponse prim height addr 0)
  getNullifiers := some LedgerState.new.consumedNullifiers.toList

/-- An attestation of the empty ledger. -/
def idleAttestation (height : UInt32) (blockHash : H256) : Attestation :=
  Attestation.new height blockHash (LedgerState.new.stateRoot prim)

theorem attestedHead_anchor (anchor0 : OutPoint) (block : L2Block) (chain : List ChainStep) :
    (attestedHead prim block anchor0 chain).anchorOutpoint
      = latest anchor0 (chain.map ChainStep.newAnchor) := by
  unfold attestedHead latest
  rw [List.getLast?_map]
  cases chain.getLast? with
  | none => rfl
  | some last => rfl

theorem latest_stepsFrom : ∀ (i : Nat) (links : List Attestation),
    latest (anchorAt i) ((stepsFrom i links).map ChainStep.newAnchor) =
      anchorAt (i + links.length) := by
  intro i links
  induction links generalizing i with
  | nil => rfl
  | cons att links ih =>
      rw [stepsFrom, List.map_cons, latest_cons, ih, List.length_cons, Nat.add_right_comm,
        Nat.add_assoc]

/-- A wallet joins an L1 whose last attestation is of the empty ledger. -/
theorem idle_join {links : List Attestation}
    (hversion : ∀ att ∈ links, att.version = attestationVersion)
    (hlen : 9 + links.length < 256 ^ 32) {last : HeldHead}
    (hlast : latest (heldGenesis prim (idleGenesis prim)) (links.map Attestation.held) = last)
    (hroot : last.stateRoot = LedgerState.new.stateRoot prim) :
    ∃ head, WalletAfter prim (idleGenesis prim) links [] head ∧ head.held = last ∧
      head.anchorOutpoint = anchorAt links.length := by
  have hwalk := carrying_walk (List.nil_append links).symm hversion hlen
  let own : L2Address := ⟨ByteArr.ofNat 32 2⟩
  let l1 := attestedHead prim (idleGenesis prim) (anchorAt 0) (stepsFrom 0 links)
  have hheld : HeldHead.mk l1.l2Height l1.blockHash l1.stateRoot = last := by
    have hattested := @attestedHead_held prim (idleGenesis prim) (anchorAt 0) (stepsFrom 0 links)
    rw [attestations_stepsFrom, hlast] at hattested
    exact hattested
  subst hheld
  have hcold : ColdStart prim (links.length + 1) (idleApi prim l1.l2Height) (carrying links) own
      (LedgerState.new.balanceResponse prim l1.l2Height own 0)
      LedgerState.new.consumedNullifiers.toList l1 :=
    { walk := ⟨_, _, _, rfl, rfl, hwalk, rfl⟩
      balance := rfl
      nullifiers := rfl
      stateRoot := hroot.symm
      l2Height := rfl
      address := rfl
      components := rfl
      proof := LedgerState.new.verify_accountInclusionProof own
      leaf := by
        unfold balanceResponse
        dsimp only
        rw [leaf_accountInclusionProof, values_leaves]
      nullifiersHash := by
        rw [nullifierSet_toList]
        rfl }
  have hboot := bootstrap_ok_iff.mpr ⟨_, _, _, hcold, rfl⟩
  have hwallet := @WalletAfter.bootstrap prim (idleGenesis prim) _ _ _ _ _ _ _ rfl rfl hwalk hboot
  rw [attestations_stepsFrom] at hwallet
  refine ⟨_, hwallet, ?_, ?_⟩
  · unfold VerifiedHead.held coldHead
    dsimp only
    rw [hcold.stateRoot]
  · show l1.anchorOutpoint = _
    unfold l1
    rw [attestedHead_anchor, latest_stepsFrom, Nat.zero_add]

end

section

variable {prim : Primitives} {block : L2Block}

/-- Attestations at or below the head are passed over. -/
theorem walkSteps_past {api : ApiServer} {esplora : EsploraServer} {tip : UInt32} :
    ∀ {steps : List ChainStep} {head : VerifiedHead},
      (∀ step ∈ steps, step.attestation.height ≤ head.l2Height) →
      ∃ head', walkSteps prim api esplora tip steps head = .ok (head', 0, []) := by
  intro steps
  induction steps with
  | nil =>
      intro head _
      exact ⟨head, rfl⟩
  | cons step steps ih =>
      intro head hpast
      rw [walkSteps, if_pos (hpast step List.mem_cons_self)]
      exact ih fun later hlater => hpast later (List.mem_cons_of_mem _ hlater)

/-- So a wallet gets through them. -/
theorem WalletAfter.pass {joined walked seen rest links : List Attestation} {head : VerifiedHead}
    (h : WalletAfter prim block joined walked head) (hlinks : links = seen ++ rest)
    (hversion : ∀ att ∈ links, att.version = attestationVersion)
    (hlen : 9 + links.length < 256 ^ 32) (hanchor : head.anchorOutpoint = anchorAt seen.length)
    (hpast : ∀ att ∈ rest, att.height ≤ head.l2Height) :
    ∃ head', WalletAfter prim block joined (walked ++ rest) head' := by
  have hwalk := carrying_walk hlinks hversion hlen
  rw [← hanchor] at hwalk
  have hsteps : ∀ step ∈ stepsFrom seen.length rest, step.attestation.height ≤ head.l2Height := by
    intro step hstep
    refine hpast _ ?_
    rw [← attestations_stepsFrom seen.length rest]
    exact List.mem_map_of_mem hstep
  have hforward : ∃ head', walkForward prim (links.length + 1) head (idleApi prim 0)
      (carrying links) = .ok (head', 0, []) := by
    unfold walkForward
    rw [hwalk]
    generalize stepsFrom seen.length rest = steps at hsteps
    cases steps with
    | nil => exact ⟨head, rfl⟩
    | cons step steps => exact walkSteps_past hsteps
  obtain ⟨head', hforward⟩ := hforward
  have hafter := WalletAfter.walk h hwalk hforward
  rw [attestations_stepsFrom] at hafter
  exact ⟨head', hafter⟩

end

/-- Block 0, attested once more: whoever joined before it passes over it. -/
theorem agreement_repeated :
    let prim := Primitives.counting
    let again := idleAttestation prim 0 ((idleGenesis prim).hash prim)
    Unequivocal prim (idleGenesis prim) [again] ∧ Agreement prim (idleGenesis prim) [again] := by
  intro prim again
  have hversion : ∀ att ∈ [again], att.version = attestationVersion := by
    intro att hatt
    rw [List.mem_singleton.mp hatt]
    rfl
  have hheld : again.held = heldGenesis prim (idleGenesis prim) := rfl
  have hunequivocal : Unequivocal prim (idleGenesis prim) [again] := by
    constructor
    · intro b hb
      have hlatest : latest (heldGenesis prim (idleGenesis prim)) ([again].map Attestation.held)
          = again.held := rfl
      have hall : b = again.held := by
        rw [List.map_singleton, ← hheld, List.mem_cons, List.mem_singleton, or_self] at hb
        exact hb
      rw [hlatest, hall]
      exact ⟨Nat.le_refl _, fun _ => rfl⟩
    · intro a ha b hb _
      rw [List.mem_singleton.mp ha, List.mem_singleton.mp hb]
  refine ⟨hunequivocal, ((agreement_iff [again]).2 fun joined walked hchain => ?_).mpr hunequivocal⟩
  cases joined with
  | nil =>
      rw [List.nil_append] at hchain
      subst hchain
      obtain ⟨early, hearly, hjoin, hanchor⟩ := @idle_join prim [] (fun _ h => nomatch h)
        (by norm_num) _ rfl rfl
      have hheight : early.l2Height = 0 := congrArg HeldHead.l2Height hjoin
      exact hearly.pass rfl hversion (by norm_num) hanchor fun att hatt => by
        rw [List.mem_singleton.mp hatt, hheight]
        exact UInt32.le_refl 0
  | cons att joined =>
      obtain ⟨rfl, hrest⟩ := List.cons.inj hchain
      obtain ⟨rfl, rfl⟩ := List.append_eq_nil_iff.mp hrest.symm
      obtain ⟨head, hhead, -⟩ := @idle_join prim [again] hversion (by norm_num) _ rfl rfl
      exact ⟨head, hhead⟩

/-- Two attestations for height 1.  A wallet that joined between them keeps the first; one that
joins after both takes the second. -/
theorem agreement_forked :
    let first : H256 := ⟨ByteArr.ofNat 32 1⟩
    let second : H256 := ⟨ByteArr.ofNat 32 2⟩
    first ≠ second ∧ ∀ prim : Primitives,
      let chain := [idleAttestation prim 1 first, idleAttestation prim 1 second]
      (∃ a b, ClientAfter prim (idleGenesis prim) chain a ∧
        ClientAfter prim (idleGenesis prim) chain b ∧ a.l2Height = 1 ∧ b.l2Height = 1 ∧
        a.blockHash = first ∧ b.blockHash = second) ∧
      ¬ Agreement prim (idleGenesis prim) chain := by
  intro first second
  have hne : first ≠ second := by decide
  refine ⟨hne, ?_⟩
  intro prim chain
  have hversion : ∀ att ∈ chain, att.version = attestationVersion := by
    intro att hatt
    simp only [chain, List.mem_cons, List.not_mem_nil, or_false] at hatt
    rcases hatt with rfl | rfl <;> rfl
  have hlen : 9 + chain.length < 256 ^ 32 := by
    show 11 < 256 ^ 32
    norm_num
  obtain ⟨early, hearly, hheld, hanchor⟩ := @idle_join prim [idleAttestation prim 1 first]
    (fun att hatt => hversion att (List.mem_cons.mpr (.inl (List.mem_singleton.mp hatt))))
    (by norm_num) _ rfl rfl
  obtain ⟨late, hlate, hheld', -⟩ := @idle_join prim chain hversion hlen _ rfl rfl
  have hheight : early.l2Height = 1 := congrArg HeldHead.l2Height hheld
  obtain ⟨kept, hkept⟩ := @WalletAfter.pass prim _ _ _ [idleAttestation prim 1 first]
    [idleAttestation prim 1 second] chain _ hearly rfl hversion hlen hanchor (by
      intro att hatt
      rw [List.mem_singleton.mp hatt, hheight]
      exact UInt32.le_refl 1)
  have hkeptHeld : kept.held = (idleAttestation prim 1 first).held := hkept.held
  have ha := ClientAfter.wallet hkept
  have hb := ClientAfter.wallet hlate
  rw [hkeptHeld] at ha
  rw [hheld'] at hb
  refine ⟨⟨_, _, ha, hb, rfl, rfl, rfl, rfl⟩, fun h => hne ?_⟩
  exact congrArg HeldHead.blockHash (h.same _ _ ha hb)

end Hodlchain
