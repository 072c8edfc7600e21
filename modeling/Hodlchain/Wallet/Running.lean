/-
Everything as it runs.

The sequencer posts, L1 takes what is posted, and the node is a process that ticks: it
may have seen only a part of L1, its calls may fail, it may be stopped and started
again.  From wherever that leaves it, one tick that is not disturbed brings it to the last
attestation, and a wallet in front of it is answered from there, over an Esplora as over
the node itself.
-/
import Hodlchain.Node.Facade
import Hodlchain.Wallet.Posting

namespace Hodlchain.Sequencer

/-! ### The system -/

/-- A sequencer and what it has posted, L1, the process of a node, and the head that a wallet has
persisted. -/
structure Running where
  app : AppState
  posted : List Posted
  l1 : Chain
  world : World
  wallet : Option VerifiedHead

/-- What is served and seen of it. -/
def Running.deployed (s : Running) (attested : List (Attestation × LedgerState)) : Deployed :=
  ⟨⟨s.app, attested, s.world.toNodeState⟩, s.l1, s.wallet⟩

section

/-- What the node is served now: the blocks the sequencer holds, and the outputs that L1 has. -/
def Running.served (s : Running) : Served := ⟨s.app.store.getBlock, fun _ => NodeL1.view s.l1⟩

/-- What a tick is given: a part of L1, the blocks the sequencer holds, and for each check the
outputs that L1 has at that moment, which may have grown since the tick began. -/
structure Running.Gives (s : Running) (env : Env) : Prop where
  chain : env.chain <+: s.l1
  block : ∀ i, (env.served i).block = s.app.store.getBlock
  view : ∀ i k, ∃ c, env.chain <+: c ∧ c <+: s.l1 ∧ (env.served i).view k = NodeL1.view c

variable (prim : Primitives) (seen : UInt32 → Chain) (anchor0 : OutPoint) (own : L2Address)

/-- **No output minted by a block that the node has still to take is spent**: a node finds a mint
only while its output is there. -/
def Running.MintsUnspent (s : Running) : Prop :=
  ∀ k block entry, s.world.head.height < k →
    k ≤ lastHeight ((s.l1.links anchor0).map ChainAdvance.step) →
    s.app.store.getBlock k = some block → L2Tx.mint entry ∈ block.txs →
    ¬ s.l1.Spends entry.witness.outpoint

/-- The node has applied the batches of the links up to its anchor, and nothing more. -/
def Running.Settled (s : Running) : Prop := ∃ before after, s.l1.links anchor0 = before ++ after ∧
  s.world.store.anchor = some (lastAnchor anchor0 (before.map ChainAdvance.step)) ∧
  s.world.head.height = lastHeight (before.map ChainAdvance.step)

/-- An Esplora that a wallet asks: one over L1, or the node between two batches. -/
def Running.Asked (s : Running) (esplora : EsploraServer) : Prop :=
  esplora = s.l1.server ∨ (esplora = s.world.esplora s.l1 ∧ s.Settled anchor0)

/-- The sequencer does something, and what that posts is known to bitcoind from then on; L1 takes a
block, in which what is posted alone spends anchors; the node ticks on what it has seen of L1, or
is started again, with failures and stops at harmless points; or a query of the wallet succeeds. -/
inductive RunningStep (s : Running) : Running → Prop
  | sequencer {app' : AppState} {new : List Posted}
      (h : Step prim ((s.deployed []).Allows prim seen) s.app app')
      (hposts : StepPosts prim ((s.deployed []).Allows prim seen) s.app app' new)
      (hown : ∀ p ∈ new, OwnId anchor0 s.posted s.l1.txs p) :
      RunningStep s { s with app := app', posted := s.posted ++ new }
  | mine (block : BtcBlock) (hvalid : Chain.Valid (s.l1 ++ [block]))
      (hlength : (s.l1 ++ [block]).length ≤ 2 ^ 32)
      (hspent : SpentByPosted anchor0 s.posted block.txdata) :
      RunningStep s { s with l1 := s.l1 ++ [block] }
  | node {w : World} {hits : List (CallSite × Fault)}
      (h : NodeStep prim s.Gives s.world w)
      (hhits : w.hits = s.world.hits ++ hits) (hsafe : ∀ hit ∈ hits, SafeHit hit) :
      RunningStep s { s with world := w }
  | lightBalance {esplora : EsploraServer} {fuel : ℕ} {addr : Option L2Address}
      {res : LightBalanceResult} (hasked : s.Asked anchor0 esplora) (hfuel : s.l1.txs.length < fuel)
      (h :
        Hodlchain.lightBalance prim fuel (s.world.api prim) esplora own addr s.wallet = .ok res) :
      RunningStep s { s with wallet := some res.head }

/-- Nothing is posted, and the node has just started at a height that L1 has reached. -/
structure RunningStart (s : Running) : Prop where
  posting : PostingStart prim anchor0 ⟨s.deployed [], s.posted⟩
  reached : s.world.cursor < s.l1.length

def runningSystem : System Running :=
  ⟨RunningStart prim anchor0, RunningStep prim seen anchor0 own⟩

/-- What holds in every run: sequencer and L1 are those of a run in which they are alone, the node
is in line, and the wallet is at one of the links. -/
structure Running.Kept (s : Running) : Prop where
  alone : ∃ attested node, (postingSystem prim seen anchor0 own).Reachable
    ⟨⟨⟨s.app, attested, node⟩, s.l1, none⟩, s.posted⟩
  line : InLine prim s.app.store.row anchor0 s.l1 s.world.toNodeState
  wallet : ∀ head ∈ s.wallet, (s.deployed []).Tracks prim anchor0 own (s.l1.links anchor0) head

end

section

variable {prim : Primitives} {seen : UInt32 → Chain} {anchor0 : OutPoint} {own : L2Address}
  {s s' : Running} {links : List ChainAdvance} {head : VerifiedHead}

/-! ### The parts of the invariant -/

/-- A wallet that is not above some of the links is at one of these. -/
theorem Deployed.Tracks.restrict {d : Deployed} {c : Chain} {after : List ChainAdvance}
    (h : d.Tracks prim anchor0 own (c.links anchor0) head) (hrises : c.Rises anchor0)
    (hsplit : c.links anchor0 = links ++ after)
    (hle : head.l2Height ≤ lastHeight (links.map ChainAdvance.step)) :
    d.Tracks prim anchor0 own links head := by
  obtain ⟨taken, rest, htaken, hanchor, hheight⟩ := h.anchor
  rcases List.prefix_or_prefix_of_prefix (htaken ▸ List.prefix_append taken rest)
    (hsplit ▸ List.prefix_append links after) with ⟨more, hmore⟩ | ⟨more, hmore⟩
  · exact ⟨h.ownAddress, ⟨taken, more, hmore.symm, hanchor, hheight⟩, h.stands, h.le⟩
  · rcases List.eq_nil_or_concat more with rfl | ⟨front, last, rfl⟩
    · rw [List.append_nil] at hmore
      rw [hmore]
      exact ⟨h.ownAddress, ⟨taken, [], (List.append_nil _).symm, hanchor, hheight⟩, h.stands, h.le⟩
    · -- it would be above the last of the links
      rw [List.concat_eq_append] at hmore
      have hlinks : c.links anchor0 = links ++ (front ++ [last] ++ rest) := by
        rw [htaken, ← hmore, List.append_assoc]
      have hmem : last ∈ front ++ [last] ++ rest := by simp
      have hlt := hrises.lt hlinks hmem
      have hlast : lastHeight (taken.map ChainAdvance.step) = last.attestation.height := by
        rw [← hmore, List.map_append, lastHeight_append, List.map_append, List.getLast?_append]
        rfl
      rw [hheight, hlast] at hle
      exact absurd hlt (UInt32.not_lt.mpr hle)

/-- The node and the wallet fit what sequencer and L1 are. -/
theorem Running.Kept.sound (h : s.Kept prim seen anchor0 own) : ∃ attested,
    (s.deployed attested).Sound prim seen anchor0 own ∧ s.l1.Rises anchor0 := by
  obtain ⟨attested, node, halone⟩ := h.alone
  have hkept := kept_of_reachable halone
  have hsound := sound_of_reachable hkept.deployed
  obtain ⟨r, hr, hn⟩ := h.line.stands
  refine ⟨attested, ⟨⟨hsound.inStep.reachable, ⟨r, hr, hn⟩, hsound.inStep.attested⟩,
    h.line.archived, hsound.genesis, hsound.seen, hsound.carries, h.line.behind hsound.carries,
    fun head hhead => (h.wallet head hhead).carry (fun _ _ hr => hr) (UInt32.le_refl _)⟩, ?_⟩
  exact (carries_of_posted hkept.well hsound.carries.valid hsound.carries.length
    hsound.carries.funded hkept.spent).2

/-- The rows of the sequencer lead the node along the links. -/
theorem Deployed.Sound.fed {d : Deployed} (h : d.Sound prim seen anchor0 own) : ∃ m,
    Feed prim (d.served (viewOf seen)) d.app.store.row m ∧
    ∀ adv ∈ d.l1.links anchor0, adv.attestation.height ≤ m ∧
      adv.attestation.OfRow prim d.app.store.row := by
  obtain ⟨m, hrows, hfeed⟩ := h.inStep.feed
  refine ⟨m, hfeed, fun adv hadv => ⟨?_, h.ofRow (List.mem_map_of_mem hadv)⟩⟩
  obtain ⟨state, hmem⟩ := h.attested hadv
  obtain ⟨r, hr, -⟩ := h.inStep.attested _ hmem
  exact hrows.row_le hr

/-- A block that the sequencer serves is one of its rows. -/
theorem Deployed.Sound.stored {d : Deployed} (h : d.Sound prim seen anchor0 own) {k : UInt32}
    {block : L2Block} (hblock : d.app.store.getBlock k = some block) :
    ∃ r, d.app.store.row k = some r ∧ r.block = block := by
  obtain ⟨m, hrows, -⟩ := h.inStep.feed
  have hk : k ≤ m := (hrows.blocks k).mp (Std.ExtTreeMap.mem_iff_isSome_getElem?.mpr
    (Option.isSome_iff_exists.mpr ⟨block, hblock⟩))
  obtain ⟨r, hr, -⟩ := hrows.row hk
  exact ⟨r, hr, Option.some.inj ((Store.row_eq_some_iff.mp hr).1.symm.trans hblock)⟩

/-- A block that the sequencer serves has passed, so it passes wherever its mints do. -/
theorem Deployed.Sound.admits {d : Deployed} (h : d.Sound prim seen anchor0 own) {served : Served}
    (hserved : served.block = d.app.store.getBlock) {k : UInt32} (hk : k ≠ 0) :
    (d.served (viewOf seen)).Admits prim served k := by
  refine ⟨congrFun hserved.symm k, fun block hblock _ => ?_⟩
  rw [hserved] at hblock
  obtain ⟨r, hr, rfl⟩ := h.stored hblock
  exact h.mints hk hr

/-- And where its outputs are still unspent they do. -/
theorem Deployed.Sound.admits_now {d : Deployed} (h : d.Sound prim seen anchor0 own) {k : UInt32}
    (hk : k ≠ 0) (hmints : ∀ block entry, d.app.store.getBlock k = some block →
      L2Tx.mint entry ∈ block.txs → ¬ d.l1.Spends entry.witness.outpoint) :
    Served.Admits prim ⟨d.app.store.getBlock, fun _ => NodeL1.view d.l1⟩ (d.served (viewOf seen))
      k := by
  refine ⟨rfl, fun block hblock hpass => verifyMintsFrom_ok_iff.mpr fun entry hentry => ?_⟩
  obtain ⟨r, hr, rfl⟩ := h.stored hblock
  obtain ⟨more, hmore⟩ := h.seen k r hk hr
  have hunspent := hmints _ entry hblock hentry
  show verifyMintEntry prim entry (NodeL1.view d.l1) = .ok ()
  rw [← hmore] at hunspent ⊢
  refine verifyMintEntry_again ?_ ?_ (verifyMintsFrom_ok_iff.mp hpass entry hentry) ?_
  · rw [hmore]
    exact h.carries.valid.uniqueTxids
  · rw [hmore]
    exact h.carries.length
  · intro hspends
    obtain ⟨tx, htx, hop⟩ := hspends
    refine hunspent ⟨tx, ?_, hop⟩
    rw [show Chain.txs (seen k ++ more) = Chain.txs (seen k) ++ Chain.txs more from
      List.flatMap_append]
    exact List.mem_append_right _ htx

/-- A node that has just started is at the first anchor, and knows of no link. -/
theorem bootstrap_place {l1GenesisHeight : UInt32} {genesis : L2Block} {n : NodeState}
    (h : bootstrap prim l1GenesisHeight (some genesis) .empty = .ok n) :
    n.store.anchor = genesis.header.anchorOutpoint ∧ n.cursor = l1GenesisHeight.toNat ∧
      ∀ op, n.store.getAnchorSpender op = none := by
  have hload : NodeStore.empty.loadLatestState = none := lastRow?_eq_none_iff.mpr rfl
  simp only [bootstrap, Hodlchain.resume, hload, Hodlchain.coldStart, bind_ok_iff, ensure_ok_iff,
    okOr_ok_iff, mapErr_ok_iff, pure_ok_iff, NodeStore.writeBlockAndState_ok_iff] at h
  obtain ⟨_, -, _, -, _, -, anchor, hanchor, store, ⟨-, rfl⟩, rfl⟩ := h
  refine ⟨hanchor.symm, rfl, fun op => ?_⟩
  exact Std.ExtTreeMap.getElem?_empty

theorem RunningStart.kept (h : RunningStart prim anchor0 s) : s.Kept prim seen anchor0 own := by
  have hdeployed := h.posting.deployed
  have hsound : (s.deployed []).Sound prim seen anchor0 own := hdeployed.sound
  have hwallet : s.wallet = none := hdeployed.wallet
  obtain ⟨-, -, genesis, hgenesis, hboot⟩ := hdeployed.followed
  obtain ⟨genesis', hgenesis', hfirst⟩ := hdeployed.anchor
  obtain rfl := Option.some.inj (hgenesis.symm.trans hgenesis')
  obtain ⟨hanchor, -, hspenders⟩ := bootstrap_place hboot
  obtain ⟨-, hzero, -⟩ := bootstrap_state hboot
  have hunspent : ¬ s.l1.Spends anchor0 := h.posting.unspent
  have hlinks : s.l1.links anchor0 = [] := by
    unfold Chain.links
    rw [Chain.pass_unspent fun p hp hop => hunspent ⟨p.2, Chain.mem_txs_of_placed hp, hop⟩]
  refine ⟨⟨[], s.world.toNodeState, .init ?_⟩,
    ⟨hsound.inStep.node, hsound.archived, h.reached, [], [],
    hlinks, ⟨hanchor.trans hfirst, fun adv hadv => ?_, fun _ => hzero, fun adv hadv => ?_,
      hspenders⟩⟩, fun head hhead => ?_⟩
  · rw [← hwallet]
    exact h.posting
  · cases hadv
  · cases hadv
  · rw [hwallet] at hhead
    cases hhead

/-! ### The steps -/

/-- Rows of the sequencer stay. -/
theorem Running.Kept.row_step (h : s.Kept prim seen anchor0 own) {app' : AppState}
    (hstep : Step prim ((s.deployed []).Allows prim seen) s.app app') (k : UInt32) (r : Row)
    (hr : s.app.store.row k = some r) : app'.store.row k = some r := by
  obtain ⟨attested, hsound, -⟩ := h.sound
  have hproduces : Step prim (Produces prim (viewOf seen)) s.app app' :=
    hstep.mono fun _ _ hallowed => hallowed.1
  exact hproduces.row hsound.inStep.reachable hr

/-- What a tick, a stop or a start does is a number of core steps. -/
theorem Running.Kept.node (h : s.Kept prim seen anchor0 own) {w : World}
    {hits : List (CallSite × Fault)} (hstep : NodeStep prim s.Gives s.world w)
    (hhits : w.hits = s.world.hits ++ hits) (hsafe : ∀ hit ∈ hits, SafeHit hit) :
    InLine prim s.app.store.row anchor0 s.l1 w.toNodeState ∧
      s.world.head.height ≤ w.head.height := by
  obtain ⟨attested, hsound, hrises⟩ := h.sound
  obtain ⟨r, -, hn⟩ := h.line.stands
  obtain ⟨m, hfeed, hrows⟩ := hsound.fed
  obtain ⟨hits', log, hadds, hgiven⟩ := hstep.adds
  obtain rfl := List.append_cancel_left (hhits.symm.trans hadds.hits)
  have hpart : NodeStep prim (OnChain s.l1) s.world w := hstep.mono fun _ henv => henv.chain
  -- whatever the node makes of them now, the mints of the sequencer's blocks have passed
  have hchecked : ∀ b ∈ log, b.Checked prim ((s.deployed attested).served (viewOf seen)) := by
    intro b hb height hcovers
    obtain ⟨env, i, henv, hserved⟩ := hgiven b hb
    rw [hserved]
    refine hsound.admits (henv.block i) fun hzero => ?_
    exact absurd hcovers.1 (by rw [hzero]; exact UInt32.not_lt_zero)
  obtain ⟨k, hrun, -⟩ := hpart.lands hadds hsafe hchecked hn.synced
  exact h.line.run hsound.carries hrises (hfeed.leads 0) hrows hrun UInt32.zero_le

/-- A node between two batches is an Esplora for the links it has taken. -/
theorem Running.Kept.settled (h : s.Kept prim seen anchor0 own) (hsettled : s.Settled anchor0) :
    ∃ before after, s.l1.links anchor0 = before ++ after ∧
      s.world.head.height = lastHeight (before.map ChainAdvance.step) ∧
      ∀ fuel, s.l1.txs.length < fuel →
        s.l1.ShownBy anchor0 before (s.world.esplora s.l1) fuel := by
  obtain ⟨attested, hsound, hrises⟩ := h.sound
  obtain ⟨before, after, hsplit, hbetween⟩ := h.line.between
  obtain ⟨before', after', hsplit', hanchor, hheight⟩ := hsettled
  obtain rfl := hrises.split_unique hsound.carries hsplit hsplit'
    (Option.some.inj (hbetween.anchor.symm.trans hanchor))
  exact ⟨before, after, hsplit, hheight, fun fuel hfuel =>
    hbetween.shown hsound.carries hrises hsplit hfuel⟩

/-- **The node is asked in place of an Esplora**, and answers for its own head. -/
theorem Running.Kept.query (h : s.Kept prim seen anchor0 own) (hsettled : s.Settled anchor0)
    {fuel : ℕ} (hfuel : s.l1.txs.length < fuel) (addr : Option L2Address) : ∃ res r,
      Hodlchain.lightBalance prim fuel (s.world.api prim) (s.world.esplora s.l1) own addr s.wallet
        = .ok res ∧
      s.app.store.row s.world.head.height = some r ∧ ReadAt prim r (addr.getD own) res ∧
      (s.deployed []).Tracks prim anchor0 own (s.l1.links anchor0) res.head := by
  obtain ⟨attested, hsound, hrises⟩ := h.sound
  obtain ⟨before, after, hsplit, hheight, hshown⟩ := h.settled hsettled
  have hprefix : before <+: s.l1.links anchor0 := by
    rw [hsplit]
    exact List.prefix_append _ _
  have hwallet : ∀ head ∈ s.wallet,
      (s.deployed attested).Tracks prim anchor0 own before head := by
    intro head hhead
    have htracks := hsound.wallet head hhead
    refine htracks.restrict hrises hsplit ?_
    rw [← hheight]
    exact htracks.le
  obtain ⟨res, r, hres, hr, hread, htracks⟩ :=
    hsound.query hprefix (hshown fuel hfuel) hwallet hheight addr
  rw [← hheight] at hr
  exact ⟨res, r, hres, hr, hread,
    (htracks.mono hprefix).carry (fun _ _ hr => hr) (UInt32.le_refl _)⟩

theorem Running.Kept.step (h : s.Kept prim seen anchor0 own)
    (hstep : RunningStep prim seen anchor0 own s s') : s'.Kept prim seen anchor0 own := by
  obtain ⟨attested, node, halone⟩ := h.alone
  cases hstep with
  | @sequencer app' new hseq hposts hown =>
      exact ⟨⟨_, node, halone.step (.sequencer hseq hposts hown)⟩, h.line.mono (h.row_step hseq),
        fun head hhead => (h.wallet head hhead).carry (h.row_step hseq) (UInt32.le_refl _)⟩
  | mine block hvalid hlength hspent =>
      obtain ⟨attested', hsound, -⟩ := h.sound
      have hnext := halone.step (.mine block hvalid hlength hspent)
      have hkept := kept_of_reachable hnext
      have hcarries := (sound_of_reachable hkept.deployed).carries
      have hrises := (carries_of_posted hkept.well hcarries.valid hcarries.length hcarries.funded
        hkept.spent).2
      refine ⟨⟨attested, node, hnext⟩, h.line.append hsound.carries [block] hrises,
        fun head hhead => ?_⟩
      exact ((h.wallet head hhead).mono (hsound.carries.links_append [block])).carry
        (fun _ _ hr => hr) (UInt32.le_refl _)
  | node hnode hhits hsafe =>
      obtain ⟨hline, hhigher⟩ := h.node hnode hhits hsafe
      exact ⟨⟨attested, node, halone⟩, hline, fun head hhead =>
        (h.wallet head hhead).carry (fun _ _ hr => hr) hhigher⟩
  | @lightBalance esplora fuel addr res hasked hfuel hres =>
      refine ⟨⟨attested, node, halone⟩, h.line, fun head hhead => ?_⟩
      obtain rfl := Option.some.inj hhead
      rcases hasked with rfl | ⟨rfl, hsettled⟩
      · obtain ⟨attested', hsound, -⟩ := h.sound
        obtain ⟨res', r, hres', -, -, htracks⟩ := hsound.query (List.prefix_refl _)
          (hsound.carries.shown hfuel) hsound.wallet (hsound.upToDate hfuel hres) addr
        obtain rfl := Except.ok.inj (hres.symm.trans hres')
        exact htracks.carry (fun _ _ hr => hr) (UInt32.le_refl _)
      · obtain ⟨res', r, hres', -, -, htracks⟩ := h.query hsettled hfuel addr
        obtain rfl := Except.ok.inj (hres.symm.trans hres')
        exact htracks.carry (fun _ _ hr => hr) (UInt32.le_refl _)

theorem running_kept (h : (runningSystem prim seen anchor0 own).Reachable s) :
    s.Kept prim seen anchor0 own :=
  h.invariant (I := fun s => s.Kept prim seen anchor0 own) (fun _ => RunningStart.kept)
    fun _ _ _ hkept hstep => hkept.step hstep

/-- The rows lead the node on to the last link, while the outputs of their mints are unspent. -/
theorem Running.Kept.leads (h : s.Kept prim seen anchor0 own) (hmints : s.MintsUnspent anchor0) :
    Leads prim s.served s.app.store.row s.world.head.height
        (lastHeight ((s.l1.links anchor0).map ChainAdvance.step)) ∧
      ∀ adv ∈ s.l1.links anchor0,
        adv.attestation.height ≤ lastHeight ((s.l1.links anchor0).map ChainAdvance.step) ∧
        adv.attestation.OfRow prim s.app.store.row := by
  obtain ⟨attested, hsound, -⟩ := h.sound
  obtain ⟨m, hfeed, hrows⟩ := hsound.fed
  refine ⟨?_, fun adv hadv => ⟨hsound.le_last (List.mem_map_of_mem hadv), (hrows adv hadv).2⟩⟩
  refine ((hfeed.leads _).restrict ?_).admits fun k hlow hhigh => ?_
  · exact lastHeight_bound (List.forall_mem_map.mpr fun adv hadv => (hrows adv hadv).1)
  · have hk : k ≠ 0 := by
      rintro rfl
      exact UInt32.not_lt_zero hlow
    exact hsound.admits_now hk fun block entry hblock hentry =>
      hmints k block entry hlow hhigh hblock hentry

/-- A tick that is not disturbed takes the node to the end of the links. -/
theorem Running.Kept.tick (h : s.Kept prim seen anchor0 own) (hmints : s.MintsUnspent anchor0) :
    ∃ enough, ∀ fuel, enough ≤ fuel → ∃ w,
      Hodlchain.tick prim (Env.plain s.l1 s.served) fuel s.world = (.ok (), w) ∧
      s.world.head.height ≤ w.head.height ∧
      InLine prim s.app.store.row anchor0 s.l1 w.toNodeState ∧
      w.toNodeState.Between anchor0 (s.l1.links anchor0) [] := by
  obtain ⟨attested, hsound, hrises⟩ := h.sound
  obtain ⟨hleads, hrows⟩ := h.leads hmints
  obtain ⟨enough, htick⟩ := h.line.tick hsound.carries hrises hleads hrows (UInt32.le_refl _)
  refine ⟨enough, fun fuel hfuel => ?_⟩
  obtain ⟨w, hrun, hline, hhigher, hbetween⟩ := htick fuel hfuel
  exact ⟨w, hrun, hhigher, hline, hbetween⟩

/-- After it the node is between two batches. -/
theorem Running.Kept.settles (h : s.Kept prim seen anchor0 own) (hmints : s.MintsUnspent anchor0) :
    ∃ w,
    RunningStep prim seen anchor0 own s { s with world := w } ∧
    Running.Settled anchor0 { s with world := w } ∧
    w.toNodeState.Between anchor0 (s.l1.links anchor0) [] := by
  obtain ⟨enough, hall⟩ := h.tick hmints
  obtain ⟨w, hrun, -, -, hbetween⟩ := hall enough le_rfl
  have hhits : w.hits = s.world.hits ++ [] := by
    have hnone := @tick_hits prim (Env.plain s.l1 s.served) (fun _ => rfl) enough s.world
    rw [hrun] at hnone
    rw [List.append_nil]
    exact hnone
  have hgives : s.Gives (Env.plain s.l1 s.served) :=
    ⟨List.prefix_refl _, fun _ => rfl, fun _ _ =>
      ⟨s.l1, List.prefix_refl _, List.prefix_refl _, rfl⟩⟩
  exact ⟨w, .node (.tick hgives hrun (by simp) (by simp)) hhits
      fun hit hmem => absurd hmem List.not_mem_nil,
    ⟨s.l1.links anchor0, [], (List.append_nil _).symm, hbetween.anchor, hbetween.last rfl⟩,
    hbetween⟩

/-! ### What a wallet can rely on -/

/-- **One undisturbed tick is enough**, while the outputs minted by the blocks that the node has
still to take are unspent.  In every run of sequencer, L1, node and wallet, in which calls of the
node fail and the process is stopped and started again, a tick on all of L1 in which nothing fails
then ends well and brings the node to the last attestation; every query is then answered, with what
the sequencer's own ledger holds at that height. -/
theorem caught_up {prim : Primitives} {seen : UInt32 → Chain} {anchor0 : OutPoint} {own : L2Address}
    {s : Running} (h : (runningSystem prim seen anchor0 own).Reachable s)
    (hmints : s.MintsUnspent anchor0) : ∃ enough, ∀ fuel, enough ≤ fuel → ∃ w,
      tick prim (Env.plain s.l1 s.served) fuel s.world = (.ok (), w) ∧
      w.head.height = lastHeight ((s.l1.links anchor0).map ChainAdvance.step) ∧
      w.store.anchor = some (lastAnchor anchor0 ((s.l1.links anchor0).map ChainAdvance.step)) ∧
      ∃ r, s.app.store.row w.head.height = some r ∧
        ∀ addr, ∃ res, Hodlchain.lightBalance prim fuel (w.api prim) s.l1.server own addr s.wallet
          = .ok res ∧ ReadAt prim r (addr.getD own) res := by
  have hkept := running_kept h
  obtain ⟨attested, hsound, -⟩ := hkept.sound
  obtain ⟨enough, htick⟩ := hkept.tick hmints
  refine ⟨max enough (s.l1.txs.length + 1), fun fuel hfuel => ?_⟩
  rw [max_le_iff] at hfuel
  obtain ⟨w, hrun, hhigher, hline, hbetween⟩ := htick fuel hfuel.1
  obtain ⟨r, hr, hn⟩ := hline.stands
  have hlast : w.head.height = lastHeight ((s.l1.links anchor0).map ChainAdvance.step) :=
    hbetween.last rfl
  -- with the node where the tick has left it
  have hafter : ({ s.deployed attested with node := w.toNodeState } : Deployed).Sound prim seen
      anchor0 own := by
    refine ⟨⟨hsound.inStep.reachable, ⟨r, hr, hn⟩, hsound.inStep.attested⟩, hline.archived,
      hsound.genesis, hsound.seen, hsound.carries, hline.behind hsound.carries,
      fun head hhead => ?_⟩
    exact (hsound.wallet head hhead).carry (fun _ _ hr => hr) hhigher
  refine ⟨w, hrun, hlast, hbetween.anchor, r, hr, fun addr => ?_⟩
  obtain ⟨res, r', hres, hr', hread, -⟩ := hafter.query (List.prefix_refl _)
    (hsound.carries.shown hfuel.2) hafter.wallet hlast addr
  have hr'' : s.app.store.row w.head.height = some r' := by
    rw [hlast]
    exact hr'
  obtain rfl := Option.some.inj (hr.symm.trans hr'')
  exact ⟨res, hres, hread⟩

/-- **A node is as good as an Esplora.**  In every run, a walk over the node's own Esplora routes
takes the links that the node has taken, in their order; and between two batches a query that asks
nobody but the node is answered, with what the sequencer's own ledger holds at the node's head. -/
theorem node_esplora {prim : Primitives} {seen : UInt32 → Chain} {anchor0 : OutPoint}
    {own : L2Address} {s : Running} (h : (runningSystem prim seen anchor0 own).Reachable s)
    {fuel : ℕ} (hfuel : s.l1.txs.length < fuel) :
    (∃ before after, s.l1.links anchor0 = before ++ after ∧
      s.world.store.anchor = some (lastAnchor anchor0 (before.map ChainAdvance.step)) ∧
      walkAttestationChain (s.world.esplora s.l1) fuel anchor0
        = .ok (before.map ChainAdvance.step)) ∧
    (s.Settled anchor0 → ∃ r, s.app.store.row s.world.head.height = some r ∧
      ∀ addr, ∃ res, Hodlchain.lightBalance prim fuel (s.world.api prim) (s.world.esplora s.l1) own
        addr s.wallet = .ok res ∧ ReadAt prim r (addr.getD own) res) := by
  have hkept := running_kept h
  obtain ⟨attested, hsound, hrises⟩ := hkept.sound
  obtain ⟨before, after, hsplit, hbetween⟩ := hkept.line.between
  refine ⟨⟨before, after, hsplit, hbetween.anchor, ?_⟩, fun hsettled => ?_⟩
  · exact (hbetween.shown hsound.carries hrises hsplit hfuel).walk (List.nil_append _).symm
  · obtain ⟨r, hr, -⟩ := hkept.line.stands
    refine ⟨r, hr, fun addr => ?_⟩
    obtain ⟨res, r', hres, hr', hread, -⟩ := hkept.query hsettled hfuel addr
    obtain rfl := Option.some.inj (hr.symm.trans hr')
    exact ⟨res, hres, hread⟩

end

/-! ### After a crash -/

/-- The system over the chain that funds the first anchor. -/
def fundedRunning : System Running :=
  runningSystem Primitives.sample (fun _ => lockChain) rootAnchor shortMint.event.l2Destination

/-- A node over it starts at a height that it has. -/
theorem funded_start {app : AppState} {node : NodeState} (hstart : PostingStart Primitives.sample
      rootAnchor ⟨⟨⟨app, [], node⟩, fundedChain, none⟩, []⟩)
    (hlow : ∀ genesis, app.store.getBlock 0 = some genesis → genesis.header.l1Height < 1) :
    RunningStart Primitives.sample rootAnchor ⟨app, [], fundedChain, World.start node, none⟩ ∧
      node.head.height = 0 := by
  obtain ⟨-, -, genesis, hgenesis, hboot⟩ := hstart.deployed.followed
  obtain ⟨-, hcursor, -⟩ := bootstrap_place hboot
  have hless := UInt32.lt_iff_toNat_lt.mp (hlow genesis hgenesis)
  have hlength : List.length fundedChain = 3 := rfl
  refine ⟨⟨hstart, ?_⟩, (bootstrap_state hboot).2.1⟩
  rw [UInt32.toNat_one] at hless
  show node.cursor < List.length fundedChain
  rw [show node.cursor = genesis.header.l1Height.toNat from hcursor, hlength]
  omega

/-- A mint waits at a new sequencer over it, which produces the block with the mint, and stops right
after the broadcast. -/
theorem exists_mint_posted : ∃ app app' node p r,
    PostingStart Primitives.sample rootAnchor ⟨⟨⟨app, [], node⟩, fundedChain, none⟩, []⟩ ∧
    Step Primitives.sample (FundedAllows app node) app app.withShortMint ∧
    Step Primitives.sample (FundedAllows app node) app.withShortMint app' ∧
    StepPosts Primitives.sample (FundedAllows app node) app.withShortMint app' [p] ∧
    OwnId rootAnchor [] fundedChain.txs p ∧ p.tx = attestedTx p.attestation ∧
    p.attestation.version = attestationVersion ∧ app'.store.row 1 = some r ∧
    L2Tx.mint shortMint ∈ r.block.txs ∧
    ∀ genesis, app.store.getBlock 0 = some genesis → genesis.header.l1Height < 1 := by
  obtain ⟨app, node, hstarted, hsynced, hstart, hanchor, -, hlast, hcursor, hstate,
      hmempool, hlow⟩ :=
    exists_posting_start
  have hsubmit : Step Primitives.sample (FundedAllows app node) app app.withShortMint := by
    rw [← submitMint_shortMint hstate hmempool]
    exact .submitMint _ _ _ _ (by rw [hmempool]; decide)
  obtain ⟨hheight, hwrite⟩ := @Started.writable _ app steadyEnv hstarted rfl
  obtain ⟨tip, app', p, -, hstore, hstep, hposts, hown, htx, hversion⟩ :=
    @crash_posts app.withShortMint node hstarted.rowed hsynced
      ⟨hwrite.call, hwrite.blocks, hwrite.stateSnapshots, hwrite.blockWitnesses⟩ hheight hanchor
      hlast hcursor
  refine ⟨app, app', node, p, ⟨steadyEnv.nextBlock Primitives.sample tip app.withShortMint,
    steadyEnv.nextState Primitives.sample app.withShortMint⟩, hstart, hsubmit, hstep,
      hposts, hown, htx, hversion, ?_, ?_, hlow⟩
  · have hnext :
        (steadyEnv.nextBlock Primitives.sample tip app.withShortMint).header.height = 1 := by
      show app.shared.head.height + 1 = 1
      rw [hheight]
      rfl
    rw [hstore]
    show (steadyEnv.written Primitives.sample tip app.withShortMint).row 1 = _
    unfold BlockEnv.written
    rw [Store.row_insertBlock, if_pos hnext]
  · have htxs : ∀ prim, (steadyEnv.nextBlock prim tip app.withShortMint).txs
        = body prim steadyEnv.view app.shared.state [shortMint] [] := fun _ => rfl
    rw [htxs, hstate]
    decide +kernel

/-- What is attested there spends no output that a mint can claim. -/
theorem attested_unspent {s : Running} {att : Attestation} (h : fundedRunning.Reachable s)
    (hl1 : s.l1 = fundedChain ++ [⟨[attestedTx att]⟩]) : s.MintsUnspent rootAnchor := by
  obtain ⟨attested, hsound, -⟩ := (running_kept h).sound
  intro k block entry hlow _ hblock hentry hspends
  have hk : k ≠ 0 := by
    rintro rfl
    exact UInt32.not_lt_zero hlow
  obtain ⟨r, hr, rfl⟩ := hsound.stored hblock
  obtain ⟨coin, hcoin⟩ := verifyMintEntry_coin
    (verifyMintsFrom_ok_iff.mp (hsound.mints hk hr) _ hentry)
  obtain ⟨tx, htx, hop⟩ := hspends
  rw [hl1, show Chain.txs (fundedChain ++ [⟨[attestedTx att]⟩]) =
    fundedChain.txs ++ [attestedTx att]
    from List.flatMap_append] at htx
  rcases List.mem_append.mp htx with hold | hnew
  · rw [fundedChain_quiet tx hold] at hop
    cases hop
  · rw [List.mem_singleton.mp hnew] at hop
    have hnone : lockChain.utxos rootAnchor = none := by decide
    rw [show entry.witness.outpoint = rootAnchor from List.mem_singleton.mp hop] at hcoin
    exact absurd (hnone.symm.trans hcoin) (by simp)

/-- The sequencer stops right after the broadcast, L1 takes the transaction, and the node has not
looked yet. -/
theorem exists_crash_running : ∃ s p r, fundedRunning.Reachable s ∧ s.world.head.height = 0 ∧
    s.l1.links rootAnchor = [p] ∧ s.l1.txs.length = 3 ∧ s.MintsUnspent rootAnchor ∧
    (∀ k r, s.app.store.row k = some r → r.block.header.height = k) ∧
    s.app.store.row 1 = some r ∧ L2Tx.mint shortMint ∈ r.block.txs := by
  obtain ⟨app, app', node, p, r, hstart, hsubmit, hstep, hposts, hown, htx, hversion, hr,
      hmint, hlow⟩ :=
    exists_mint_posted
  obtain ⟨hfirst, hzero⟩ := funded_start hstart hlow
  have hown' : ∀ q ∈ [p], OwnId rootAnchor [] fundedChain.txs q := by
    intro q hq
    rw [List.mem_singleton.mp hq]
    exact hown
  have hinit : fundedRunning.Reachable (⟨app, [], fundedChain, World.start node, none⟩ : Running) :=
    .init hfirst
  have hsubmitted := hinit.step (.sequencer hsubmit (.silent rfl rfl) fun q hq =>
    absurd hq List.not_mem_nil)
  have hcalled : fundedRunning.Reachable ⟨app', [p], fundedChain, World.start node, none⟩ :=
    hsubmitted.step (.sequencer hstep hposts hown')
  have hmined := hcalled.step (.mine ⟨[attestedTx p.attestation]⟩ (attested_carries hversion).valid
    (attested_carries hversion).length ?_)
  · obtain ⟨attested, hsound, -⟩ := (running_kept hmined).sound
    obtain ⟨m, hrows, -⟩ := hsound.inStep.feed
    refine ⟨_, _, r, hmined, hzero, congrArg Prod.fst (attested_links hversion), rfl,
      attested_unspent hmined rfl, fun k r hr => ?_, hr, hmint⟩
    exact hrows.height k _ (Store.row_eq_some_iff.mp hr).1
  · intro tx hmem op _ _
    rw [List.mem_singleton.mp hmem, ← htx]
    exact ⟨p, List.mem_singleton_self _, rfl⟩

/-- The attested height there is above zero. -/
theorem links_crash_pos {s : Running} {p : ChainAdvance} (h : fundedRunning.Reachable s)
    (hlinks : s.l1.links rootAnchor = [p]) :
    0 < lastHeight ((s.l1.links rootAnchor).map ChainAdvance.step) := by
  obtain ⟨attested, -, hrises⟩ := (running_kept h).sound
  unfold Chain.Rises at hrises
  rw [hlinks, List.pairwise_cons] at hrises
  rw [hlinks]
  exact hrises.1 p.attestation.height (List.mem_singleton_self _)

/-- A tick brings the node from the first block to the attested one, which holds a mint, and a new
wallet sees that. -/
theorem caught_up_crash : ∃ s fuel w res r, fundedRunning.Reachable s ∧ s.world.head.height = 0 ∧
    s.app.store.row 1 = some r ∧ L2Tx.mint shortMint ∈ r.block.txs ∧
    tick Primitives.sample (Env.plain s.l1 s.served) fuel s.world = (.ok (), w) ∧
    lightBalance Primitives.sample fuel (w.api Primitives.sample) s.l1.server
      shortMint.event.l2Destination none s.wallet = .ok res ∧
    0 < res.output.l2Height ∧ res.output.l2Height = w.head.height := by
  obtain ⟨s, p, r₁, hreach, hzero, hlinks, -, hmints, hrows, hr₁, hmint⟩ := exists_crash_running
  obtain ⟨enough, hall⟩ := caught_up hreach hmints
  obtain ⟨w, hrun, hlast, -, r, hr, hquery⟩ := hall enough le_rfl
  obtain ⟨res, hres, hread⟩ := hquery none
  have hheight : res.output.l2Height = w.head.height := by
    rw [hread.l2Height]
    exact hrows _ r hr
  refine ⟨s, enough, w, res, r₁, hreach, hzero, hr₁, hmint, hrun, hres, ?_, hheight⟩
  rw [hheight, hlast]
  exact links_crash_pos hreach hlinks

/-- Over the node alone, the wallet sees the same. -/
theorem node_esplora_crash : ∃ s steps res, fundedRunning.Reachable s ∧
    walkAttestationChain (s.world.esplora s.l1) 4 rootAnchor = .ok steps ∧ steps.length = 1 ∧
    lightBalance Primitives.sample 4 (s.world.api Primitives.sample) (s.world.esplora s.l1)
      shortMint.event.l2Destination none s.wallet = .ok res ∧ 0 < res.output.l2Height := by
  obtain ⟨s, p, r₁, hreach, -, hlinks, hcount, hmints, hrows, -, -⟩ := exists_crash_running
  obtain ⟨w, hstep, hsettled, hbetween⟩ := (running_kept hreach).settles hmints
  have hticked := hreach.step hstep
  have hfuel : s.l1.txs.length < 4 := by
    rw [hcount]
    decide
  obtain ⟨⟨before, after, hsplit, hanchor, hwalk⟩, hquery⟩ := node_esplora hticked hfuel
  obtain ⟨r, hr, hanswer⟩ := hquery hsettled
  obtain ⟨res, hres, hread⟩ := hanswer none
  obtain ⟨attested, hsound, hrises⟩ := (running_kept hticked).sound
  obtain rfl := hrises.split_unique hsound.carries hsplit
    (show s.l1.links rootAnchor = s.l1.links rootAnchor ++ [] from (List.append_nil _).symm)
    (Option.some.inj (hanchor.symm.trans hbetween.anchor))
  refine ⟨_, _, res, hticked, hwalk, ?_, hres, ?_⟩
  · rw [hlinks]
    rfl
  · rw [hread.l2Height, hrows _ r hr]
    show 0 < w.head.height
    rw [hbetween.last rfl]
    exact links_crash_pos hreach hlinks

end Hodlchain.Sequencer
