/-
Sequencer, L1, node and wallet together.

The sequencer produces and attests, L1 takes attestations of it whose heights do not
fall, the node follows them, and a wallet asks the node and reads L1.  Whatever the
order of all this, a query succeeds exactly when the node has come to the last
attestation on L1, and it then shows the sequencer's own ledger at that height.
-/
import Hodlchain.Node.Archive
import Hodlchain.Node.Canonical
import Hodlchain.Sequencer.FirstAttestation

namespace Hodlchain

/-! ### The links on L1 -/

namespace Chain

/-- The links of the attestation chain from an anchor. -/
def links (anchor : OutPoint) (c : Chain) : List ChainAdvance := (pass anchor c.placed).1

/-- A chain on which the anchors are spent by some of these attestations alone, and their heights do
not fall. -/
structure Carries (anchor : OutPoint) (attested : List Attestation) (c : Chain) : Prop where
  valid : c.Valid
  length : c.length ≤ 2 ^ 32
  funded : ∃ tx ∈ c.txs, anchor.txid = tx.txid
  unbroken : ∃ last, (pass anchor c.placed).2 = .ok last
  posted : (c.links anchor).map (·.attestation) ⊆ attested
  sorted : ((c.links anchor).map (·.attestation.height)).Pairwise (· ≤ ·)

section

variable {anchor last : OutPoint} {c : Chain} {attested : List Attestation}

theorem Carries.more (h : c.Carries anchor attested) {attested' : List Attestation}
    (hmore : attested ⊆ attested') : c.Carries anchor attested' :=
  ⟨h.valid, h.length, h.funded, h.unbroken, List.Subset.trans h.posted hmore, h.sorted⟩

/-- A pass that takes a link goes on behind the transaction that made it. -/
theorem pass_cons_split {txs : List (ℕ × BtcTx)} {adv : ChainAdvance} {rest : List ChainAdvance}
    (h : pass anchor txs = (adv :: rest, .ok last)) : ∃ front height tx back,
      txs = front ++ (height, tx) :: back ∧ anchor ∈ tx.input ∧
      readAdvance height anchor tx = .ok adv ∧ pass adv.newAnchor back = (rest, .ok last) := by
  induction txs with
  | nil => cases h
  | cons p txs ih =>
      obtain ⟨height, tx⟩ := p
      rw [pass_cons] at h
      by_cases hspends : tx.input.contains anchor = true
      · rw [if_pos hspends] at h
        cases hread : readAdvance height anchor tx with
        | error e =>
            rw [hread] at h
            cases h
        | ok adv' =>
            rw [hread] at h
            obtain ⟨hlinks, hlast⟩ := Prod.mk.inj h
            obtain ⟨rfl, hrest⟩ := List.cons.inj hlinks
            exact ⟨[], height, tx, txs, rfl, List.contains_iff_mem.mp hspends, hread,
              Prod.ext hrest hlast⟩
      · rw [if_neg hspends] at h
        obtain ⟨front, height', tx', back, hsplit, hrest⟩ := ih h
        exact ⟨(height, tx) :: front, height', tx', back, by rw [hsplit, List.cons_append], hrest⟩

/-- A pass starts again behind any of its links. -/
theorem pass_split {before after : List ChainAdvance} :
    ∀ {anchor : OutPoint} {front back : List (ℕ × BtcTx)} {height : ℕ} {tx : BtcTx},
      c.placed = front ++ (height, tx) :: back → anchor.txid = tx.txid →
      pass anchor back = (before ++ after, .ok last) →
      ∃ front' height' tx' back', c.placed = front' ++ (height', tx') :: back' ∧
        (lastAnchor anchor (before.map ChainAdvance.step)).txid = tx'.txid ∧
        pass (lastAnchor anchor (before.map ChainAdvance.step)) back' = (after, .ok last) := by
  induction before with
  | nil => exact fun hplaced htxid hpass => ⟨_, _, _, _, hplaced, htxid, hpass⟩
  | cons adv before ih =>
      intro anchor front back height tx hplaced htxid hpass
      obtain ⟨front₁, height₁, tx₁, back₁, hback, -, hread, hpass₁⟩ := pass_cons_split hpass
      obtain ⟨-, -, hnew, -⟩ := readAdvance_ok hread
      have htxid₁ : adv.newAnchor.txid = tx₁.txid := by rw [hnew]
      rw [hback, ← List.cons_append, ← List.append_assoc] at hplaced
      rw [List.map_cons, lastAnchor_cons]
      exact ih hplaced htxid₁ hpass₁

/-- The anchor of any link is an output of a transaction, behind which the pass takes the rest. -/
theorem Carries.behind (h : c.Carries anchor attested) {before after : List ChainAdvance}
    (hsplit : c.links anchor = before ++ after) : ∃ last front height tx back,
      c.placed = front ++ (height, tx) :: back ∧
      (lastAnchor anchor (before.map ChainAdvance.step)).txid = tx.txid ∧
      pass (lastAnchor anchor (before.map ChainAdvance.step)) back = (after, .ok last) := by
  obtain ⟨last, hlast⟩ := h.unbroken
  obtain ⟨tx₀, htx₀, htxid₀⟩ := h.funded
  rw [txs_eq_placed] at htx₀
  obtain ⟨⟨h₀, tx⟩, hmem, hsnd⟩ := List.mem_map.mp htx₀
  obtain rfl : tx = tx₀ := hsnd
  obtain ⟨front, back, hplaced⟩ := List.append_of_mem hmem
  have htxs : c.txs = front.map Prod.snd ++ tx :: back.map Prod.snd := by
    rw [txs_eq_placed, hplaced, List.map_append, List.map_cons]
  have hearlier : ∀ p ∈ front ++ [(h₀, tx)], anchor ∉ p.2.input := by
    intro p hp
    have hmem : p.2 ∈ (front ++ [(h₀, tx)]).map Prod.snd := List.mem_map_of_mem hp
    rw [List.map_append, List.map_singleton] at hmem
    exact h.valid.not_spent_before htxs htxid₀ hmem
  have hpass : pass anchor back = (before ++ after, .ok last) := by
    rw [links] at hsplit
    rw [← hsplit, ← hlast, hplaced, List.append_cons, pass_append, pass_unspent hearlier,
      Followed.nil_andThen]
  exact ⟨last, pass_split hplaced htxid₀ hpass⟩

/-- An Esplora that shows what was ever seen of a chain, and leads from the anchor of any of these
links over those after it. -/
structure ShownBy (anchor : OutPoint) (c : Chain) (links : List ChainAdvance)
    (esplora : EsploraServer) (fuel : ℕ) : Prop where
  shows : ∀ {v : Chain}, v <+: c →
    ShowsLater esplora.toEsploraClient (UInt32.ofNat c.tip) (NodeL1.view v)
  tipHeight : esplora.tipHeight = some (UInt32.ofNat c.tip)
  walk : ∀ {before after}, links = before ++ after →
    walkAttestationChain esplora fuel (lastAnchor anchor (before.map ChainAdvance.step))
      = .ok (after.map ChainAdvance.step)

/-- **From the anchor of any link, a wallet walks over those after it.** -/
theorem Carries.shown (h : c.Carries anchor attested) {fuel : ℕ} (hfuel : c.txs.length < fuel) :
    c.ShownBy anchor (c.links anchor) c.server fuel := by
  refine ⟨fun hv => Chain.showsLater hv h.valid.uniqueTxids h.length, rfl, fun hsplit => ?_⟩
  obtain ⟨last, front, height, tx, back, hplaced, htxid, hpass⟩ := h.behind hsplit
  have hcount : back.length < fuel := by
    rw [txs_eq_placed, List.length_map, hplaced, List.length_append, List.length_cons] at hfuel
    omega
  have hknown : tx ∈ c.txs := by
    rw [txs_eq_placed, hplaced]
    exact List.mem_map.mpr ⟨(height, tx), by simp, rfl⟩
  have hsame := walkFrom_pass h.valid h.valid.reports back front height tx _ fuel
    hplaced htxid hcount
  rw [walkAttestationChain_known (by rw [htxid]; exact h.valid.reports.known tx hknown)]
  rw [hpass] at hsame
  exact (hsame.ends last rfl).2.2

/-- The links stay when blocks are added. -/
theorem Carries.links_append (h : c.Carries anchor attested) (more : List BtcBlock) :
    c.links anchor <+: Chain.links anchor (c ++ more) := by
  obtain ⟨last, hlast⟩ := h.unbroken
  have hplaced : Chain.placed (c ++ more) = c.placed ++ placedFrom (0 + c.length) more :=
    placedFrom_append 0 c more
  unfold links
  rw [hplaced, pass_append, Followed.andThen, hlast]
  exact List.prefix_append _ _

end

end Chain

/-! ### Heights that do not fall -/

section

variable {steps before after : List ChainStep} {h : UInt32}

/-- Where the heights do not fall, the last is the highest. -/
theorem reached_sorted (hsorted : (h :: steps.map (·.attestation.height)).Pairwise (· ≤ ·)) :
    reached h steps = (steps.getLast?.map (·.attestation.height)).getD h := by
  induction steps generalizing h with
  | nil => rfl
  | cons step steps ih =>
      rw [List.map_cons, List.pairwise_cons] at hsorted
      obtain ⟨hle, hrest⟩ := hsorted
      have hstep : (if step.attestation.height ≤ h then h else step.attestation.height)
          = step.attestation.height := by
        split_ifs with hpast
        · exact UInt32.le_antisymm (hle _ List.mem_cons_self) hpast
        · rfl
      have hcons : reached h (step :: steps) = reached
        (if step.attestation.height ≤ h then h else step.attestation.height) steps := rfl
      rw [hcons, hstep, ih hrest, List.getLast?_cons]
      cases steps.getLast? <;> rfl

theorem lastHeight_append : lastHeight (before ++ after)
    = (after.getLast?.map (·.attestation.height)).getD (lastHeight before) := by
  unfold lastHeight
  rw [List.getLast?_append]
  cases after.getLast? <;> rfl

variable (hsorted : ((before ++ after).map (·.attestation.height)).Pairwise (· ≤ ·))
include hsorted

theorem lastHeight_le {step : ChainStep} (hstep : step ∈ after) :
    lastHeight before ≤ step.attestation.height := by
  rw [List.map_append, List.pairwise_append] at hsorted
  unfold lastHeight
  cases hlast : before.getLast? with
  | none => exact UInt32.zero_le
  | some last =>
      exact hsorted.2.2 _ (List.mem_map_of_mem (List.mem_of_getLast? hlast)) _
        (List.mem_map_of_mem hstep)

/-- From the last height of a part, the rest leads to the last of all. -/
theorem reached_lastHeight : reached (lastHeight before) after = lastHeight (before ++ after) := by
  rw [lastHeight_append]
  refine reached_sorted (List.pairwise_cons.mpr ⟨fun height hmem => ?_, ?_⟩)
  · obtain ⟨step, hstep, rfl⟩ := List.mem_map.mp hmem
    exact lastHeight_le hsorted hstep
  · rw [List.map_append, List.pairwise_append] at hsorted
    exact hsorted.2.1

theorem lastHeight_le_append : lastHeight before ≤ lastHeight (before ++ after) := by
  rw [lastHeight_append]
  cases hlast : after.getLast? with
  | none => exact UInt32.le_refl _
  | some last => exact lastHeight_le hsorted (List.mem_of_getLast? hlast)

omit hsorted in
/-- No height is above the last. -/
theorem le_lastHeight (hsorted : (steps.map (·.attestation.height)).Pairwise (· ≤ ·))
    {step : ChainStep} (hstep : step ∈ steps) : step.attestation.height ≤ lastHeight steps := by
  obtain ⟨front, back, rfl⟩ := List.append_of_mem hstep
  rw [List.append_cons] at hsorted ⊢
  have hone : lastHeight (front ++ [step]) = step.attestation.height := by
    rw [lastHeight_append]
    rfl
  rw [← hone]
  exact lastHeight_le_append hsorted

omit hsorted in
theorem lastHeight_bound {m : UInt32} (h : ∀ step ∈ steps, step.attestation.height ≤ m) :
    lastHeight steps ≤ m := by
  unfold lastHeight
  cases hlast : steps.getLast? with
  | none => exact UInt32.zero_le
  | some last => exact h last (List.mem_of_getLast? hlast)

end

end Hodlchain

namespace Hodlchain.Sequencer

/-! ### The system -/

/-- A sequencer with its node, L1, and the head that a wallet has persisted. -/
structure Deployed extends Followed where
  l1 : Chain
  wallet : Option VerifiedHead

/-- L1 as bitcoind shows it for the block at a height. -/
def viewOf (seen : UInt32 → Chain) (k : UInt32) : L1View := NodeL1.view (seen k)

section

variable (prim : Primitives) (seen : UInt32 → Chain) (anchor0 : OutPoint) (own : L2Address)

/-- The attestations on L1, as a wallet lists them. -/
def Deployed.steps (s : Deployed) : List ChainStep := (s.l1.links anchor0).map ChainAdvance.step

/-- `light_balance`, asking the node and an Esplora that answers from L1. -/
def Deployed.lightBalance (s : Deployed) (fuel : ℕ) (addr : Option L2Address) :
    Except LightBalanceError LightBalanceResult :=
  Hodlchain.lightBalance prim fuel (s.node.api prim) s.l1.server own addr s.wallet

/-- The sequencer does something or attests its head, L1 grows, the node processes an attestation
that is on L1, or a query of the wallet succeeds.  The mints of a block are checked against L1 as it
is then, or was. -/
inductive DeployedStep (s : Deployed) : Deployed → Prop
  | sequencer {app' : AppState} (h : Step prim (fun env app =>
      Produces prim (viewOf seen) env app ∧
        seen (app.shared.head.height + 1) <+: s.l1) s.app app') :
      DeployedStep s { s with app := app' }
  | attest : DeployedStep s
      { s with
        attested := s.attested ++
          [(Attestation.new s.app.shared.head.height s.app.shared.head.blockHash
            s.app.shared.head.stateRoot, s.app.shared.state)] }
  | mine (block : BtcBlock)
      (h : Chain.Carries anchor0 (s.attested.map Prod.fst) (s.l1 ++ [block])) :
      DeployedStep s { s with l1 := s.l1 ++ [block] }
  | processAdvance (adv : ChainAdvance) (h : adv ∈ s.l1.links anchor0) :
      DeployedStep s { s with node := (s.processAdvance prim (viewOf seen) adv).2.toNodeState }
  | lightBalance {fuel : ℕ} {addr : Option L2Address} {res : LightBalanceResult}
      (hfuel : s.l1.txs.length < fuel) (h : s.lightBalance prim own fuel addr = .ok res) :
      DeployedStep s { s with wallet := some res.head }

/-- A new sequencer with its anchor on L1, a node started from the first block, and a new wallet. -/
structure DeployedStart (s : Deployed) : Prop where
  followed : FollowedStart prim s.toFollowed
  anchor : ∃ genesis, s.app.store.getBlock 0 = some genesis ∧
    genesis.header.anchorOutpoint = some anchor0
  carries : s.l1.Carries anchor0 []
  wallet : s.wallet = none

def deployedSystem : System Deployed :=
  ⟨DeployedStart prim anchor0, DeployedStep prim seen anchor0 own⟩

/-- Where a wallet is: on a row that the node has passed, at the anchor of one of the links. -/
structure Deployed.Tracks (s : Deployed) (links : List ChainAdvance)
    (head : VerifiedHead) : Prop where
  ownAddress : head.ownAddress = own
  anchor : ∃ before after, links = before ++ after ∧
    head.anchorOutpoint = lastAnchor anchor0 (before.map ChainAdvance.step) ∧
    head.l2Height = lastHeight (before.map ChainAdvance.step)
  stands : ∃ r, s.app.store.row head.l2Height = some r ∧ Stands prim r head
  le : head.l2Height ≤ s.node.head.height

/-- What holds in every run. -/
structure Deployed.Sound (s : Deployed) : Prop where
  inStep : InStep prim (viewOf seen) s.toFollowed
  archived : Archived prim s.app.store.row s.node
  genesis : ∃ r, s.app.store.row 0 = some r ∧ r.Rooted prim ∧
    r.block.header.anchorOutpoint = some anchor0
  seen : ∀ k r, k ≠ 0 → s.app.store.row k = some r → seen k <+: s.l1
  carries : s.l1.Carries anchor0 (s.attested.map Prod.fst)
  behind : s.node.head.height ≤ lastHeight (s.steps anchor0)
  wallet : ∀ head ∈ s.wallet, s.Tracks prim anchor0 own (s.l1.links anchor0) head

end

section

variable {prim : Primitives} {seen : UInt32 → Chain} {anchor0 : OutPoint} {own : L2Address}
  {s s' : Deployed} {r : Row}

/-! ### What the parts give a wallet -/

/-- A wallet at one of some links is at one of more. -/
theorem Deployed.Tracks.mono {links links' : List ChainAdvance} {head : VerifiedHead}
    (h : s.Tracks prim anchor0 own links head) (hlinks : links <+: links') :
    s.Tracks prim anchor0 own links' head := by
  obtain ⟨before, after, rfl, hanchor⟩ := h.anchor
  obtain ⟨more, rfl⟩ := hlinks
  exact ⟨h.ownAddress, ⟨before, after ++ more, List.append_assoc _ _ _, hanchor⟩, h.stands, h.le⟩

/-- It stays there while the rows stay and the node does not go back. -/
theorem Deployed.Tracks.carry {links : List ChainAdvance} {head : VerifiedHead}
    (h : s.Tracks prim anchor0 own links head)
    (hrow : ∀ k r, s.app.store.row k = some r → s'.app.store.row k = some r)
    (hle : s.node.head.height ≤ s'.node.head.height) : s'.Tracks prim anchor0 own links head := by
  obtain ⟨r, hr, hstands⟩ := h.stands
  exact ⟨h.ownAddress, h.anchor, ⟨r, hrow _ r hr, hstands⟩, UInt32.le_trans h.le hle⟩

/-- The heights on L1 do not fall. -/
theorem steps_sorted {attested : List Attestation} {c : Chain} (h : c.Carries anchor0 attested) :
    (((c.links anchor0).map ChainAdvance.step).map (·.attestation.height)).Pairwise (· ≤ ·) := by
  rw [List.map_map]
  exact h.sorted

theorem Deployed.Sound.heights (h : s.Sound prim seen anchor0 own) :
    ((s.steps anchor0).map (·.attestation.height)).Pairwise (· ≤ ·) :=
  steps_sorted h.carries

/-- No attestation on L1 is above the last. -/
theorem Deployed.Sound.le_last (h : s.Sound prim seen anchor0 own) {step : ChainStep}
    (hstep : step ∈ s.steps anchor0) : step.attestation.height ≤ lastHeight (s.steps anchor0) :=
  le_lastHeight h.heights hstep

/-- What is on L1 was attested. -/
theorem Deployed.Sound.attested (h : s.Sound prim seen anchor0 own) {adv : ChainAdvance}
    (hadv : adv ∈ s.l1.links anchor0) : ∃ state, (adv.attestation, state) ∈ s.attested := by
  obtain ⟨⟨att, state⟩, hmem, rfl⟩ := List.mem_map.mp
    (h.carries.posted (List.mem_map_of_mem hadv))
  exact ⟨state, hmem⟩

theorem Deployed.Sound.ofRow (h : s.Sound prim seen anchor0 own) {step : ChainStep}
    (hstep : step ∈ s.steps anchor0) : step.attestation.OfRow prim s.app.store.row := by
  obtain ⟨adv, hadv, rfl⟩ := List.mem_map.mp hstep
  obtain ⟨state, hmem⟩ := h.attested hadv
  obtain ⟨r, hr, hatt, -⟩ := h.inStep.attested _ hmem
  intro r' hr'
  obtain rfl := Option.some.inj (hr.symm.trans hr')
  exact hatt

/-- The node serves its rows, and L1 shows what they were checked against. -/
theorem Deployed.Sound.provided (h : s.Sound prim seen anchor0 own) {esplora : EsploraClient}
    (hshows : ∀ {v : Chain}, v <+: s.l1 →
      ShowsLater esplora (UInt32.ofNat s.l1.tip) (NodeL1.view v)) :
    Provided prim (s.node.api prim).toApiClient esplora (UInt32.ofNat s.l1.tip) (viewOf seen)
      s.app.store.row s.node.head.height := by
  obtain ⟨m, hrows, hfeed⟩ := h.inStep.feed
  obtain ⟨r, hr, -⟩ := h.inStep.node
  have hm : s.node.head.height ≤ m := hrows.row_le hr
  refine ⟨⟨fun k hk => ?_, fun k hk => ?_⟩, fun k hk p r hp hr => ?_, fun k hk => ?_⟩
  · obtain ⟨r, hr, hblock⟩ := h.archived.block k hk
    obtain ⟨r', hr', hheight, -⟩ := hfeed.rows k (UInt32.le_trans hk hm)
    obtain rfl := Option.some.inj (hr.symm.trans hr')
    exact ⟨r, hr, hheight, hblock⟩
  · exact hfeed.follows k (UInt32.lt_of_lt_of_le hk hm)
  · obtain ⟨p', r', hp', hr', hwitness⟩ := h.archived.witness k hk
    obtain rfl := Option.some.inj (hp.symm.trans hp')
    obtain rfl := Option.some.inj (hr.symm.trans hr')
    exact hwitness
  · have hle : k + 1 ≤ s.node.head.height := by
      rw [UInt32.le_iff_toNat_le, succ_toNat hk]
      exact UInt32.lt_iff_toNat_lt.mp hk
    have hne : k + 1 ≠ 0 := by
      intro hc
      have hup := succ_toNat hk
      rw [hc, UInt32.toNat_zero] at hup
      omega
    obtain ⟨r', hr', -⟩ := h.archived.block _ hle
    exact hshows (h.seen _ r' hne hr')

/-- Every row but the first was checked against the one below it. -/
theorem Deployed.Sound.follows (h : s.Sound prim seen anchor0 own) {k : UInt32} (hk : k ≠ 0)
    (hr : s.app.store.row k = some r) : ∃ p : Row, p.Follows prim (viewOf seen k) r := by
  obtain ⟨m, hrows, hfeed⟩ := h.inStep.feed
  have hone : 1 ≤ k := by
    rw [UInt32.le_iff_toNat_le, UInt32.toNat_one]
    exact Nat.pos_of_ne_zero fun hzero => hk (UInt32.toNat_inj.mp hzero)
  have hpred : (k - 1).toNat + 1 = k.toNat := by
    rw [UInt32.toNat_sub_of_le _ _ hone, UInt32.toNat_one]
    rw [UInt32.le_iff_toNat_le, UInt32.toNat_one] at hone
    omega
  have hlt : k - 1 < m := by
    have hm := UInt32.le_iff_toNat_le.mp (hrows.row_le hr)
    rw [UInt32.lt_iff_toNat_lt]
    omega
  have hup : k - 1 + 1 = k := UInt32.toNat_inj.mp (by rw [succ_toNat hlt, hpred])
  obtain ⟨p, hp, -⟩ := hfeed.rows _ (UInt32.le_of_lt hlt)
  have hfollows := hfeed.follows _ hlt p r hp (by rw [hup]; exact hr)
  rw [hup] at hfollows
  exact ⟨p, hfollows⟩

/-- Its mints have passed, on L1 as it was seen for it. -/
theorem Deployed.Sound.mints (h : s.Sound prim seen anchor0 own) {k : UInt32} (hk : k ≠ 0)
    (hr : s.app.store.row k = some r) :
    verifyMints prim (viewOf seen k) r.block.txs = .ok () := by
  obtain ⟨p, hfollows⟩ := h.follows hk hr
  obtain ⟨witness, hcheck⟩ := hfollows none (by simp)
  obtain ⟨-, -, hmints, -⟩ := checkL2Block_ok_iff.mp hcheck
  exact hmints

/-- And it answers for the row it stands on. -/
theorem Deployed.Sound.answers (h : s.Sound prim seen anchor0 own)
    (hr : s.app.store.row s.node.head.height = some r) :
    AnswersAt prim (s.node.api prim) r ∧ r.Rooted prim ∧
      r.block.header.height = s.node.head.height := by
  obtain ⟨r', hr', hn⟩ := h.inStep.node
  obtain rfl := Option.some.inj (hr.symm.trans hr')
  have hheight : r.block.header.height = s.node.head.height := by
    rw [hn.head]
    rfl
  refine ⟨⟨fun a => ⟨s.node.state.nonceOf a, ?_⟩, ?_⟩, ?_, hheight⟩
  · show some (s.node.state.balanceResponse prim s.node.head.height a _) = _
    rw [hn.state, hheight]
  · show some s.node.state.consumedNullifiers.toList = _
    rw [hn.state]
  · -- above genesis the row was checked against the one below it
    by_cases hzero : s.node.head.height = 0
    · obtain ⟨r₀, hr₀, hroot, -⟩ := h.genesis
      rw [hzero] at hr
      obtain rfl := Option.some.inj (hr.symm.trans hr₀)
      exact hroot
    · obtain ⟨p, hfollows⟩ := h.follows hzero hr
      obtain ⟨witness, hcheck⟩ := hfollows none (by simp)
      obtain ⟨-, -, -, -, hroot, -⟩ := checkL2Block_ok_iff.mp hcheck
      exact hroot.symm

/-! ### A query -/

section

variable {links : List ChainAdvance} {esplora : EsploraServer} {fuel : ℕ}

/-- The heights of the first links do not fall either. -/
theorem Deployed.Sound.heights_of (h : s.Sound prim seen anchor0 own)
    (hlinks : links <+: s.l1.links anchor0) :
    ((links.map ChainAdvance.step).map (·.attestation.height)).Pairwise (· ≤ ·) :=
  h.heights.sublist ((hlinks.sublist.map _).map _)

/-- Where the walk of a query starts: at the wallet's head, or at the node's first block. -/
theorem Deployed.Sound.starts (h : s.Sound prim seen anchor0 own)
    (hlinks : links <+: s.l1.links anchor0) (hshown : s.l1.ShownBy anchor0 links esplora fuel)
    (hwallet : ∀ head ∈ s.wallet, s.Tracks prim anchor0 own links head)
    (hup : s.node.head.height = lastHeight (links.map ChainAdvance.step)) :
    ∃ start mode r before after,
      startHead prim fuel (s.node.api prim) esplora own s.wallet = .ok (start, mode) ∧
      start.ownAddress = own ∧ s.app.store.row start.l2Height = some r ∧ Stands prim r start ∧
      links = before ++ after ∧
      start.anchorOutpoint = lastAnchor anchor0 (before.map ChainAdvance.step) ∧
      start.l2Height = lastHeight (before.map ChainAdvance.step) := by
  cases hsome : s.wallet with
  | some head =>
      have htracks := hwallet head (by rw [hsome]; rfl)
      obtain ⟨before, after, hsplit, hanchor, hheight⟩ := htracks.anchor
      obtain ⟨r, hr, hstands⟩ := htracks.stands
      exact ⟨head, .warmStart, r, before, after, rfl, htracks.ownAddress, hr, hstands,
        hsplit, hanchor, hheight⟩
  | none =>
      obtain ⟨r, hr, -⟩ := h.inStep.node
      obtain ⟨hanswers, hroot, hheight⟩ := h.answers hr
      obtain ⟨r₀, hr₀, -, hanchor⟩ := h.genesis
      obtain ⟨r₀', hr₀', hserved⟩ := h.archived.block 0 UInt32.zero_le
      obtain rfl := Option.some.inj (hr₀.symm.trans hr₀')
      obtain ⟨m, hrows, -⟩ := h.inStep.feed
      have hzero : r₀.block.header.height = 0 :=
        hrows.height 0 _ (Store.row_eq_some_iff.mp hr₀).1
      rw [hup] at hr hheight
      obtain ⟨head, hboot, hstands, hlast, hown⟩ := hanswers.bootstrap hroot hserved
        ⟨r₀, hr₀, rfl, hzero⟩ hanchor (hshown.walk (List.nil_append _).symm)
        (fun _ hstep => h.ofRow ((hlinks.sublist.map _).subset hstep)) hr hheight own
      have hl2 : head.l2Height = lastHeight (links.map ChainAdvance.step) :=
        hstands.l2Height.trans hheight
      refine ⟨head, .coldStart, r, links, [], ?_, hown, by rw [hl2]; exact hr, hstands,
        (List.append_nil _).symm, hlast, hl2⟩
      simp only [startHead, hboot, mapErr, bind, Except.bind]
      rfl

/-- **When the node has come to the last of the links, a query shows the ledger there.** -/
theorem Deployed.Sound.query (h : s.Sound prim seen anchor0 own)
    (hlinks : links <+: s.l1.links anchor0) (hshown : s.l1.ShownBy anchor0 links esplora fuel)
    (hwallet : ∀ head ∈ s.wallet, s.Tracks prim anchor0 own links head)
    (hup : s.node.head.height = lastHeight (links.map ChainAdvance.step))
    (addr : Option L2Address) : ∃ res r,
      Hodlchain.lightBalance prim fuel (s.node.api prim) esplora own addr s.wallet = .ok res ∧
      s.app.store.row (lastHeight (links.map ChainAdvance.step)) = some r ∧
      ReadAt prim r (addr.getD own) res ∧ s.Tracks prim anchor0 own links res.head := by
  obtain ⟨start, mode, r₁, before, after, hstart, hown, hr₁, hstands, rfl, hanchor, hheight⟩ :=
    h.starts hlinks hshown hwallet hup
  have hsorted := h.heights_of hlinks
  rw [List.map_append] at hsorted hup ⊢
  obtain ⟨last, count, events, hrun, harrived⟩ :=
    (h.provided hshown.shows).walkForward hshown.tipHeight
    (by rw [hanchor]; exact hshown.walk rfl)
    (fun step hstep => by
      have hmem : step ∈ s.steps anchor0 := by
        refine (hlinks.sublist.map _).subset ?_
        rw [List.map_append]
        exact List.mem_append_right _ hstep
      refine ⟨?_, h.ofRow hmem⟩
      rw [hup]
      exact le_lastHeight hsorted (List.mem_append_right _ hstep))
    hstands hr₁
  have hreached : last.l2Height = lastHeight (before.map ChainAdvance.step
      ++ after.map ChainAdvance.step) := by
    rw [harrived.l2Height, hheight, reached_lastHeight hsorted]
  obtain ⟨r, hr, hlast⟩ := harrived.stands
  rw [hreached] at hr
  have hnode := hr
  rw [← hup] at hnode
  obtain ⟨hanswers, -, -⟩ := h.answers hnode
  have htracked : ∀ p ∈ s.wallet, p.ownAddress = own := fun p hp => (hwallet p hp).ownAddress
  obtain ⟨res, hres, hhead, hread⟩ :=
    hanswers.lightBalance addr htracked hstart hrun hlast (harrived.ownAddress.trans hown)
  refine ⟨res, r, hres, hr, hread, ?_⟩
  rw [hhead]
  refine ⟨harrived.ownAddress.trans hown, ⟨before ++ after, [], (List.append_nil _).symm, ?_, ?_⟩,
    ⟨r, by rw [hreached]; exact hr, hlast⟩, ?_⟩
  · rw [harrived.anchorOutpoint, hanchor, List.map_append]
    unfold lastAnchor
    rw [List.getLast?_append]
    cases (after.map ChainAdvance.step).getLast? <;> rfl
  · rw [hreached, List.map_append]
  · rw [hreached, hup]
    exact UInt32.le_refl _

end

/-- A query that succeeds finds the node at the last attestation. -/
theorem Deployed.Sound.upToDate (h : s.Sound prim seen anchor0 own) {fuel : ℕ}
    (hfuel : s.l1.txs.length < fuel) {addr : Option L2Address} {res : LightBalanceResult}
    (hres : s.lightBalance prim own fuel addr = .ok res) :
    s.node.head.height = lastHeight (s.steps anchor0) := by
  refine UInt32.le_antisymm h.behind ?_
  obtain ⟨-, start, mode, last, count, events, -, -, -, hstart, hwalk, -⟩ :=
    lightBalance_ok_iff.mp hres
  cases hwallet : s.wallet with
  | none =>
      -- a first head is compared with the node's answer
      rw [hwallet] at hstart
      simp only [startHead, bind_ok_iff, mapErr_ok_iff, pure_ok_iff, Prod.mk.injEq] at hstart
      obtain ⟨cold, hcold, rfl, -⟩ := hstart
      obtain ⟨bal, items, l1, hcold, -⟩ := bootstrap_ok_iff.mp hcold
      obtain ⟨genesis, anchor, chain, hgenesis, hanchor, hchain, rfl⟩ := hcold.walk
      obtain ⟨r₀, hr₀, -, hanchor₀⟩ := h.genesis
      obtain ⟨r₀', hr₀', hserved⟩ := h.archived.block 0 UInt32.zero_le
      obtain rfl := Option.some.inj (hr₀.symm.trans hr₀')
      obtain rfl : r₀.block = genesis := Option.some.inj (hserved.symm.trans hgenesis)
      obtain rfl := Option.some.inj (hanchor₀.symm.trans hanchor)
      have hall := (h.carries.shown hfuel).walk (List.nil_append _).symm
      obtain rfl : s.steps anchor0 = chain := Except.ok.inj (hall.symm.trans hchain)
      have hheight := hcold.l2Height
      obtain rfl := Option.some.inj (hcold.balance.symm.trans rfl)
      refine UInt32.le_of_eq ?_
      show _ = s.node.head.height
      rw [show s.node.head.height = (attestedHead prim r₀.block anchor0 (s.steps anchor0)).l2Height
        from hheight]
      unfold attestedHead lastHeight
      cases (s.steps anchor0).getLast? <;> rfl
  | some head =>
      have htracks := h.wallet head (by rw [hwallet]; rfl)
      rw [hwallet] at hstart
      simp only [startHead, pure_ok_iff, Prod.mk.injEq] at hstart
      obtain ⟨rfl, -⟩ := hstart
      obtain ⟨before, after, hsplit, hanchor, hheight⟩ := htracks.anchor
      have hsteps : s.steps anchor0
          = before.map ChainAdvance.step ++ after.map ChainAdvance.step := by
        rw [← List.map_append, ← hsplit]
        rfl
      have hsorted := h.heights
      rw [hsteps] at hsorted ⊢
      obtain ⟨hreached, hserved⟩ := walkForward_served
        (by rw [hanchor]; exact (h.carries.shown hfuel).walk hsplit) hwalk
      rw [hheight, reached_lastHeight hsorted] at hreached
      rw [← hreached]
      rcases hserved with hsame | ⟨block, hblock⟩
      · rw [hsame]
        exact htracks.le
      · obtain ⟨r, -, hn⟩ := h.inStep.node
        exact hn.synced.blocks _ (NodeStore.mem_blocks_of_getBlock hblock)

/-! ### Every run -/

theorem ProduceEnds.row_new {env : BlockEnv} {app app' : AppState} {result : Except Halt Unit}
    {k : UInt32} (hend : ProduceEnds prim env app result app') (hr : app'.store.row k = some r) :
    app.store.row k = some r ∨ k = app.shared.head.height + 1 := by
  have hwritten : ∀ tip, (env.written prim tip app).row k = some r →
      app.store.row k = some r ∨ k = app.shared.head.height + 1 := by
    intro tip hrow
    unfold BlockEnv.written at hrow
    rw [Store.row_insertBlock] at hrow
    split_ifs at hrow with hk
    · exact .inr hk.symm
    · exact .inl hrow
  cases hend with
  | noTip => exact .inl hr
  | unwritten => exact .inl hr
  | behind => exact hwritten _ hr
  | done => exact hwritten _ hr

/-- A new row is at the next height, in a call that was allowed. -/
theorem Step.row_new {allowed : BlockEnv → AppState → Prop} {app app' : AppState} {k : UInt32}
    (h : Step prim allowed app app') (hr : app'.store.row k = some r) :
    app.store.row k = some r ∨ (k = app.shared.head.height + 1 ∧ ∃ env, allowed env app) := by
  cases h with
  | submitMint l1 now proof l2Destination _ =>
      have hstore := @submitMint_keeps prim app (fun a => a.store = app.store)
        (fun _ h => h) l1 now proof
        l2Destination rfl
      rw [hstore] at hr
      exact .inl hr
  | submitTransfer now transfer _ =>
      have hstore := @submitTransfer_keeps prim app (fun a => a.store = app.store)
        (fun _ h => h) now
        transfer rfl
      rw [hstore] at hr
      exact .inl hr
  | @produceBlock env _ hallowed hsettle =>
      rcases hrun : Sequencer.produceBlock prim env app with ⟨result, app₁⟩
      rw [hrun] at hsettle
      rw [settle_store hsettle] at hr
      exact ((produceBlock_ends hrun).row_new hr).imp_right fun hk => ⟨hk, env, hallowed⟩
  | @checkAndAttest env _ hallowed hsettle =>
      rcases hrun : Sequencer.checkAndAttest prim env app with ⟨result, app₂⟩
      rw [hrun] at hsettle
      rw [settle_store hsettle] at hr
      rcases checkAndAttest_cases hrun with rfl | ⟨hattests, result₁, app₁, hproduce, hcore, -⟩
      · exact .inl hr
      · rw [Store.row_congr hcore.blocks hcore.stateSnapshots] at hr
        exact ((produceBlock_ends hproduce).row_new hr).imp_right
          fun hk => ⟨hk, env.block, hallowed hattests⟩
  | @monitorPending env _ hsettle =>
      rcases hrun : Sequencer.monitorPending env app with ⟨result, app₁⟩
      rw [hrun] at hsettle
      have hcore := monitorPending_core hrun
      rw [settle_store hsettle, Store.row_congr hcore.blocks hcore.stateSnapshots] at hr
      exact .inl hr
  | restart hrestart =>
      obtain ⟨state, head, -, rfl⟩ := restart_eq_some_iff.mp hrestart
      exact .inl hr

/-- What a node has right after its start. -/
theorem bootstrap_genesis {l1GenesisHeight : UInt32} {genesis : L2Block} {n : NodeState}
    (h : bootstrap prim l1GenesisHeight (some genesis) .empty = .ok n) :
    n.store.getBlock 0 = some genesis ∧
      (LedgerState.start genesis.header.sequencerFeeAddress).stateRoot prim
        = genesis.header.stateRoot := by
  have hload : NodeStore.empty.loadLatestState = none := lastRow?_eq_none_iff.mpr rfl
  simp only [bootstrap, Hodlchain.resume, hload, Hodlchain.coldStart, bind_ok_iff, ensure_ok_iff,
    okOr_ok_iff, mapErr_ok_iff, pure_ok_iff, NodeStore.writeBlockAndState_ok_iff] at h
  obtain ⟨_, hheight, _, -, _, hroot, anchor, -, store, ⟨-, rfl⟩, rfl⟩ := h
  refine ⟨?_, hroot⟩
  show (NodeStore.empty.blocks.insert genesis.header.height genesis)[(0 : UInt32)]? = some genesis
  rw [Std.ExtTreeMap.getElem?_insert, if_pos (Std.compare_eq_iff_eq.mpr hheight)]

theorem DeployedStart.sound (h : DeployedStart prim anchor0 s) : s.Sound prim seen anchor0 own := by
  have hinStep : InStep prim (viewOf seen) s.toFollowed := FollowedStart.inStep h.followed
  obtain ⟨hstarted, hattested, genesis, hgenesis, hboot⟩ := h.followed
  obtain ⟨genesis', hrow⟩ := Started.row hstarted
  obtain rfl : genesis = genesis' :=
    Option.some.inj (hgenesis.symm.trans (Store.row_eq_some_iff.mp hrow).1)
  obtain ⟨-, hheight, -⟩ := bootstrap_state hboot
  obtain ⟨hblock, hroot⟩ := bootstrap_genesis hboot
  obtain ⟨genesis', hgenesis', hanchor⟩ := h.anchor
  obtain rfl := Option.some.inj (hgenesis.symm.trans hgenesis')
  refine
    { inStep := hinStep
      archived := ⟨fun k hk => ?_, fun k hk => ?_⟩
      genesis := ⟨_, hrow, hroot.symm, hanchor⟩
      seen := fun k r hk hr => ?_
      carries := h.carries.more (List.nil_subset _)
      behind := by
        rw [hheight]
        exact UInt32.zero_le
      wallet := fun head hhead => ?_ }
  · rw [hheight, UInt32.le_zero_iff] at hk
    rw [hk]
    exact ⟨_, hrow, hblock⟩
  · rw [hheight] at hk
    exact absurd hk (UInt32.not_lt.mpr UInt32.zero_le)
  · obtain ⟨identity, l1BlockHash, l1GenesisHeight, now, anchor, hstart⟩ := hstarted
    obtain ⟨block, hrows, -⟩ := coldStart_latest hstart
    exact absurd (UInt32.le_zero_iff.mp (hrows.row_le hr)) hk
  · rw [h.wallet] at hhead
    cases hhead

theorem Deployed.Sound.step (h : s.Sound prim seen anchor0 own)
    (hstep : DeployedStep prim seen anchor0 own s s') : s'.Sound prim seen anchor0 own := by
  cases hstep with
  | @sequencer app' hseq =>
      have hproduces : Step prim (Produces prim (viewOf seen)) s.app app' :=
        hseq.mono fun _ _ hallowed => hallowed.1
      have hrow : ∀ k r, s.app.store.row k = some r → app'.store.row k = some r :=
        fun k r hr => hproduces.row h.inStep.reachable hr
      obtain ⟨r₀, hr₀, hgenesis⟩ := h.genesis
      refine ⟨h.inStep.step (.sequencer hproduces), h.archived.mono hrow,
        ⟨r₀, hrow 0 r₀ hr₀, hgenesis⟩, fun k r hk hr => ?_, h.carries, h.behind,
        fun head hhead => (h.wallet head hhead).carry hrow (UInt32.le_refl _)⟩
      rcases hseq.row_new hr with hold | ⟨rfl, env, -, hseen⟩
      · exact h.seen k r hk hold
      · exact hseen
  | attest =>
      refine ⟨h.inStep.step .attest, h.archived, h.genesis, h.seen, h.carries.more ?_, h.behind,
        fun head hhead => (h.wallet head hhead).carry (fun _ _ hr => hr) (UInt32.le_refl _)⟩
      show _ ⊆ (s.attested ++ [_]).map Prod.fst
      rw [List.map_append]
      exact List.subset_append_left _ _
  | mine block hcarries =>
      obtain ⟨more, hmore⟩ := h.carries.links_append [block]
      have hsteps : (Chain.links anchor0 (s.l1 ++ [block])).map ChainAdvance.step
          = s.steps anchor0 ++ more.map ChainAdvance.step := by
        rw [← hmore, List.map_append]
        rfl
      have hsorted := steps_sorted hcarries
      rw [hsteps] at hsorted
      refine ⟨h.inStep, h.archived, h.genesis,
        fun k r hk hr => (h.seen k r hk hr).trans (List.prefix_append _ _), hcarries, ?_,
        fun head hhead => ?_⟩
      · show _ ≤ lastHeight ((Chain.links anchor0 (s.l1 ++ [block])).map ChainAdvance.step)
        rw [hsteps]
        exact UInt32.le_trans h.behind (lastHeight_le_append hsorted)
      · exact ((h.wallet head hhead).mono ⟨more, hmore⟩).carry (fun _ _ hr => hr)
          (UInt32.le_refl _)
  | processAdvance adv hadv =>
      obtain ⟨state, hmem⟩ := h.attested hadv
      obtain ⟨w, r, hrun, hn, hr, hup, hsame⟩ := h.inStep.processAdvance hmem
      have hstep : adv.step ∈ s.steps anchor0 := List.mem_map_of_mem hadv
      have hnode : s.node.head.height ≤ w.head.height ∧
          w.head.height ≤ lastHeight (s.steps anchor0) := by
        by_cases hle : s.node.head.height ≤ adv.attestation.height
        · rw [hup hle]
          exact ⟨hle, h.le_last hstep⟩
        · have hge := UInt32.le_of_lt (UInt32.not_le.mp hle)
          rw [show w.head = s.node.head from congrArg NodeState.head (hsame hge)]
          exact ⟨UInt32.le_refl _, h.behind⟩
      refine ⟨h.inStep.step (.processAdvance adv state hmem), ?_, h.genesis, h.seen, h.carries,
        ?_, fun head hhead => ?_⟩
      · obtain ⟨m, hrows, hfeed⟩ := h.inStep.feed
        obtain ⟨r₁, hr₁, hn₁⟩ := h.inStep.node
        obtain ⟨r₂, hr₂, -⟩ := h.inStep.attested _ hmem
        obtain ⟨hits, hends, -⟩ := processAdvance_ends hrun
        show Archived prim s.app.store.row (s.processAdvance prim (viewOf seen) adv).2.toNodeState
        rw [hrun]
        exact hends.archived hfeed (h.ofRow hstep) (hrows.row_le hr₂) h.archived hn₁ hr₁
      · show (s.processAdvance prim (viewOf seen) adv).2.head.height ≤ _
        rw [hrun]
        exact hnode.2
      · refine (h.wallet head hhead).carry (fun _ _ hr => hr) ?_
        show _ ≤ (s.processAdvance prim (viewOf seen) adv).2.head.height
        rw [hrun]
        exact hnode.1
  | @lightBalance fuel addr res hfuel hres =>
      obtain ⟨res', r, hres', -, -, htracks⟩ := h.query (List.prefix_refl _) (h.carries.shown hfuel)
        h.wallet (h.upToDate hfuel hres) addr
      obtain rfl := Except.ok.inj (hres.symm.trans hres')
      refine ⟨h.inStep, h.archived, h.genesis, h.seen, h.carries, h.behind,
        fun head hhead => ?_⟩
      obtain rfl := Option.some.inj hhead
      exact htracks.carry (fun _ _ hr => hr) (UInt32.le_refl _)

theorem sound_of_reachable (h : (deployedSystem prim seen anchor0 own).Reachable s) :
    s.Sound prim seen anchor0 own :=
  h.invariant (I := fun s => s.Sound prim seen anchor0 own) (fun _ => DeployedStart.sound)
    fun _ _ _ hsound hstep => hsound.step hstep

/-- **A wallet in front of an honest node is never refused, and never told anything else.**  In
every run of sequencer, L1, node and wallet, a query succeeds exactly when the node has come to the
last attestation on L1; and it then shows, for every address, what the sequencer's own ledger holds
at that height. -/
theorem lightBalance_exact {prim : Primitives} {seen : UInt32 → Chain} {anchor0 : OutPoint}
    {own : L2Address} {s : Deployed} (h : (deployedSystem prim seen anchor0 own).Reachable s)
    {fuel : ℕ} (hfuel : s.l1.txs.length < fuel) (addr : Option L2Address) :
    ((∃ res, s.lightBalance prim own fuel addr = .ok res) ↔
      s.node.head.height = lastHeight (s.steps anchor0)) ∧
    ∀ res, s.lightBalance prim own fuel addr = .ok res → ∃ r,
      s.app.store.row (lastHeight (s.steps anchor0)) = some r ∧
        ReadAt prim r (addr.getD own) res := by
  have hsound := sound_of_reachable h
  refine ⟨⟨?_, fun hup => ?_⟩, fun res hres => ?_⟩
  · rintro ⟨res, hres⟩
    exact hsound.upToDate hfuel hres
  · obtain ⟨res, -, hres, -⟩ := hsound.query (List.prefix_refl _) (hsound.carries.shown hfuel)
      hsound.wallet hup addr
    exact ⟨res, hres⟩
  · obtain ⟨res', r, hres', hr, hread, -⟩ := hsound.query (List.prefix_refl _)
      (hsound.carries.shown hfuel) hsound.wallet (hsound.upToDate hfuel hres) addr
    obtain rfl := Except.ok.inj (hres.symm.trans hres')
    exact ⟨r, hr, hread⟩

end

/-! ### A run -/

/-- Another transaction may spend what is there and unspent. -/
theorem valid_mine {c : Chain} (h : c.Valid) {tx : BtcTx} (hnew : ∀ u ∈ c.txs, u.txid ≠ tx.txid)
    (hspent : ∀ op ∈ tx.input, op.txid ≠ tx.txid ∧ ∀ u ∈ c.txs, op ∉ u.input)
    (hlater : ∀ u ∈ c.txs, ∀ op ∈ u.input, op.txid ≠ tx.txid) : Chain.Valid (c ++ [⟨[tx]⟩]) := by
  have htxs : Chain.txs (c ++ [⟨[tx]⟩]) = c.txs ++ [tx] := by
    simp [Chain.txs]
  refine ⟨?_, ?_, ?_, ?_⟩
  · show ((Chain.txs (c ++ [⟨[tx]⟩])).map _).Nodup
    rw [htxs, List.map_append, List.nodup_append]
    refine ⟨h.uniqueTxids, List.nodup_singleton _, fun a ha b hb => ?_⟩
    obtain ⟨u, hu, rfl⟩ := List.mem_map.mp ha
    rw [List.map_singleton, List.mem_singleton] at hb
    rw [hb]
    exact hnew u hu
  · intro u hu v hv op hop hop'
    rw [htxs, List.mem_append, List.mem_singleton] at hu hv
    rcases hu with hu | rfl
    · rcases hv with hv | rfl
      · exact h.spentOnce u hu v hv op hop hop'
      · exact absurd hop ((hspent op hop').2 u hu)
    · rcases hv with hv | rfl
      · exact absurd hop' ((hspent op hop).2 v hv)
      · rfl
  · intro u hu op hop
    rw [htxs, List.mem_append, List.mem_singleton] at hu
    rcases hu with hu | rfl
    · exact h.notOwn u hu op hop
    · exact (hspent op hop).1
  · rw [htxs, List.pairwise_append]
    refine ⟨h.notLater, List.pairwise_singleton _ _, fun u hu v hv op hop => ?_⟩
    rw [List.mem_singleton] at hv
    rw [hv]
    exact hlater u hu op hop

/-- A chain that funds the anchor, in block 2. -/
def fundedChain : Chain := lockChain ++ [⟨[⟨rootAnchor.txid, [], [⟨0, []⟩, ⟨1000, []⟩]⟩]⟩]

/-- The transaction that attests. -/
def attestedTx (att : Attestation) : BtcTx :=
  ⟨firstAttestation.txid, [rootAnchor], [⟨0, att.toScript⟩, ⟨900, []⟩]⟩

theorem fundedChain_quiet : ∀ u ∈ fundedChain.txs, u.input = [] := by decide

theorem fundedChain_valid : fundedChain.Valid :=
  valid_of_spender ⟨rootAnchor.txid, [], []⟩ (by decide) (fun u hu => .inl (fundedChain_quiet u hu))
    (by simp)

theorem fundedChain_carries : fundedChain.Carries rootAnchor [] where
  valid := fundedChain_valid
  length := by decide
  funded := ⟨⟨rootAnchor.txid, [], [⟨0, []⟩, ⟨1000, []⟩]⟩, by simp [fundedChain, Chain.txs], rfl⟩
  unbroken := ⟨rootAnchor, rfl⟩
  posted := List.nil_subset _
  sorted := .nil

/-- One link, in block 3. -/
theorem attested_links {att : Attestation} (hversion : att.version = attestationVersion) :
    Chain.pass rootAnchor (Chain.placed (fundedChain ++ [⟨[attestedTx att]⟩]))
      = ([⟨att, 3, (attestedTx att).txid, rootAnchor, ⟨(attestedTx att).txid, 1⟩⟩],
          .ok ⟨(attestedTx att).txid, 1⟩) := by
  have hplaced : Chain.placed (fundedChain ++ [⟨[attestedTx att]⟩])
      = fundedChain.placed ++ [(3, attestedTx att)] := rfl
  have hquiet : Chain.pass rootAnchor fundedChain.placed = ([], .ok rootAnchor) := rfl
  have hread : readAdvance 3 rootAnchor (attestedTx att)
      = .ok ⟨att, 3, (attestedTx att).txid, rootAnchor, ⟨(attestedTx att).txid, 1⟩⟩ :=
    readAdvance_of_script rfl rfl hversion 3 rootAnchor
  have hspends : (attestedTx att).input.contains rootAnchor = true := List.contains_iff_mem.mpr
    (List.mem_singleton_self _)
  rw [hplaced, Chain.pass_append, hquiet, Followed.nil_andThen, Chain.pass_cons, if_pos hspends,
    hread]
  rfl

theorem attested_carries {att : Attestation} (hversion : att.version = attestationVersion) :
    Chain.Carries rootAnchor [att] (fundedChain ++ [⟨[attestedTx att]⟩]) where
  valid := by
    have hnew : ∀ u ∈ fundedChain.txs, u.txid ≠ firstAttestation.txid := by decide
    have hother : rootAnchor.txid ≠ firstAttestation.txid := by decide
    refine valid_mine fundedChain_valid hnew (fun op hop => ?_) (fun u hu op hop => ?_)
    · rw [List.mem_singleton.mp hop]
      refine ⟨hother, fun u hu => ?_⟩
      rw [fundedChain_quiet u hu]
      exact List.not_mem_nil
    · rw [fundedChain_quiet u hu] at hop
      cases hop
  length := by
    have hlength : List.length (fundedChain ++ [⟨[attestedTx att]⟩]) = 4 := rfl
    rw [hlength]
    decide
  funded := ⟨⟨rootAnchor.txid, [], [⟨0, []⟩, ⟨1000, []⟩]⟩, by simp [fundedChain, Chain.txs], rfl⟩
  unbroken := ⟨_, congrArg Prod.snd (attested_links hversion)⟩
  posted := by
    rw [Chain.links, attested_links hversion]
    exact List.Subset.refl _
  sorted := by
    rw [Chain.links, attested_links hversion]
    exact List.pairwise_singleton _ _

/-- The wallet is that of the address the mint is for. -/
def shortMintSystem : System Deployed :=
  deployedSystem Primitives.sample (fun _ => lockChain) rootAnchor shortMint.event.l2Destination

/-- What the sequencer may do there. -/
def ShortMintStep (app app' : AppState) : Prop :=
  Step Primitives.sample (fun env app =>
    Produces Primitives.sample (viewOf fun _ => lockChain) env app ∧
      lockChain <+: fundedChain) app app'

/-- A mint of seven atoms is submitted and put in block 1. -/
theorem exists_shortMint_produced : ∃ app app' after node,
    DeployedStart Primitives.sample rootAnchor ⟨⟨app, [], node⟩, fundedChain, none⟩ ∧
    ShortMintStep app app' ∧ ShortMintStep app' after ∧
    after.shared.state.balanceOf shortMint.event.l2Destination = 7 := by
  obtain ⟨app, happ⟩ :=
    exists_coldStart Primitives.sample sampleIdentity H256.zero 0 0 rootAnchor
  have hstarted : Started Primitives.sample app := ⟨_, _, _, _, _, happ⟩
  obtain ⟨hstate, hmempool, hanchor⟩ :
      app.shared.state = LedgerState.start (some sampleIdentity.xOnlyPublicKey) ∧
      app.shared.mempool = .empty ∧ ∃ genesis, app.store.getBlock 0 = some genesis ∧
        genesis.header.anchorOutpoint = some rootAnchor := by
    simp only [coldStart, bind_ok_iff, Store.writeBlockAndState_ok_iff, pure_ok_iff] at happ
    obtain ⟨store, ⟨-, rfl⟩, rfl⟩ := happ
    exact ⟨rfl, rfl, _, Std.ExtTreeMap.getElem?_insert_self, rfl⟩
  obtain ⟨tip, htip⟩ := steadyEnv_l1Tip
  obtain ⟨node, hstart⟩ := exists_followedStart hstarted
  -- the mint is submitted
  have hsubmit : ShortMintStep app (submitMint Primitives.sample (NodeL1.view lockChain) 0
      shortMint.witness shortMint.event.l2Destination app).2 :=
    .submitMint _ _ _ _ (by rw [hmempool]; decide)
  rw [submitMint_shortMint hstate hmempool] at hsubmit
  -- the block is produced
  obtain ⟨hheight, hwrite⟩ := @Started.writable _ _ steadyEnv hstarted rfl
  have hproduce := @produceBlock_done Primitives.sample steadyEnv app.withShortMint tip htip
    ⟨hwrite.call, hwrite.blocks, hwrite.stateSnapshots, hwrite.blockWitnesses⟩ rfl
  have hallowed : Produces Primitives.sample (viewOf fun _ => lockChain) steadyEnv
      app.withShortMint := by
    refine ⟨fun e app' h => ?_, fun _ => rfl⟩
    rw [hproduce] at h
    cases h
  have hproduced : ShortMintStep app.withShortMint
      (steadyEnv.finished Primitives.sample tip app.withShortMint) :=
    .produceBlock ⟨hallowed, List.prefix_append _ _⟩ (by rw [hproduce]; rfl)
  refine ⟨app, _, _, node, ⟨hstart, hanchor, fundedChain_carries, rfl⟩, hsubmit, hproduced, ?_⟩
  have hnext : steadyEnv.nextState Primitives.sample app.withShortMint
      = app.shared.state.applyAll Primitives.sample
          (body Primitives.sample steadyEnv.view app.shared.state [shortMint] []) := rfl
  rw [finished_state, hnext, hstate]
  decide +kernel

/-- The mint is attested on L1, and the node follows: a new wallet sees seven atoms. -/
theorem lightBalance_exact_shortMint : ∃ s res, shortMintSystem.Reachable s ∧
    s.lightBalance Primitives.sample shortMint.event.l2Destination 4 none = .ok res ∧
    s.steps rootAnchor ≠ [] ∧ res.output.balance = 7 := by
  obtain ⟨app, app', after, node, hstart, hsubmit, hproduce, hcredited⟩ := exists_shortMint_produced
  obtain ⟨att, hatt⟩ : ∃ att, att = Attestation.new after.shared.head.height
    after.shared.head.blockHash after.shared.head.stateRoot := ⟨_, rfl⟩
  have hversion : att.version = attestationVersion := by rw [hatt]; rfl
  obtain ⟨adv, hadv⟩ : ∃ adv : ChainAdvance, adv = ⟨att, 3, (attestedTx att).txid, rootAnchor,
    ⟨(attestedTx att).txid, 1⟩⟩ := ⟨_, rfl⟩
  have hlinks : Chain.links rootAnchor (fundedChain ++ [⟨[attestedTx att]⟩]) = [adv] := by
    rw [Chain.links, attested_links hversion, hadv]
  -- the head is attested, and mined
  have hsubmitted : shortMintSystem.Reachable ⟨⟨app', [], node⟩, fundedChain, none⟩ :=
    .step (.init hstart) (.sequencer hsubmit)
  have hproduced : shortMintSystem.Reachable ⟨⟨after, [], node⟩, fundedChain, none⟩ :=
    .step hsubmitted (.sequencer hproduce)
  have hattested : shortMintSystem.Reachable
      ⟨⟨after, [(att, after.shared.state)], node⟩, fundedChain, none⟩ := by
    rw [hatt]
    exact .step hproduced .attest
  have hmined : shortMintSystem.Reachable
      ⟨⟨after, [(att, after.shared.state)], node⟩, fundedChain ++ [⟨[attestedTx att]⟩], none⟩ :=
    .step hattested (.mine _ (attested_carries hversion))
  -- the node follows
  have hmem : (adv.attestation, after.shared.state) ∈ [(att, after.shared.state)] := by
    rw [hadv]
    exact List.mem_singleton_self _
  have hnodeHeight : node.head.height = 0 := by
    obtain ⟨-, -, genesis, -, hboot⟩ := hstart.followed
    exact (bootstrap_state hboot).2.1
  obtain ⟨w, r, hw, -, -, hup, -⟩ := (sound_of_reachable hmined).inStep.processAdvance hmem
  have hfollowed := hmined.step
    (.processAdvance adv (by rw [hlinks]; exact List.mem_singleton_self _))
  rw [show Followed.processAdvance _ _ _ _ = _ from hw] at hfollowed
  have hcome : w.head.height = att.height := by
    rw [hup (by rw [show Followed.node _ = node from rfl, hnodeHeight]; exact UInt32.zero_le), hadv]
  -- the wallet asks
  have hsteps : Deployed.steps rootAnchor ⟨⟨after, [(att, after.shared.state)], w.toNodeState⟩,
      fundedChain ++ [⟨[attestedTx att]⟩], none⟩ = [adv.step] :=
    congrArg (List.map ChainAdvance.step) hlinks
  have hlast : lastHeight [adv.step] = att.height := by rw [hadv]; rfl
  have hfuel : (Chain.txs (fundedChain ++ [⟨[attestedTx att]⟩])).length < 4 := by
    show 3 < 4
    decide
  obtain ⟨hiff, hshown⟩ := lightBalance_exact hfollowed hfuel none
  obtain ⟨res, hres⟩ := hiff.mpr (by
    show w.head.height = lastHeight (Deployed.steps rootAnchor _)
    rw [hsteps, hlast, hcome])
  obtain ⟨r', hr', hread⟩ := hshown res hres
  rw [hsteps, hlast] at hr'
  obtain ⟨r'', hr'', -, hstate⟩ := (sound_of_reachable hmined).inStep.attested _
    (List.mem_singleton_self _)
  obtain rfl := Option.some.inj (hr'.symm.trans hr'')
  refine ⟨_, res, hfollowed, hres, ?_, ?_⟩
  · rw [hsteps]
    exact List.cons_ne_nil _ _
  · rw [hread.balance]
    show r'.state.balanceOf shortMint.event.l2Destination = 7
    rw [← hstate]
    exact hcredited

end Hodlchain.Sequencer
