/-
Mints after the lock.

The verifier compares the height a locker signed with the lock and with the tip it has
now; the height of the block that takes the mint is compared with nothing.  So a proof
keeps passing after its lock has expired, and whether a block credits a mint in time
depends only on when it is built.
-/
import Hodlchain.Sequencer.Stamping

namespace Hodlchain

/-- The lock periods of the blocks that take the mint: `[create, create + T)`. -/
def MintEvent.Active (event : MintEvent) (h : UInt32) : Prop :=
  event.l1CreateHeight ≤ h ∧ h.toNat < event.l1CreateHeight.toNat + event.lockBlocks.toNat

/-- Every mint of a block is credited while its lock is active. -/
def L2Block.MintsActive (block : L2Block) : Prop :=
  ∀ entry, L2Tx.mint entry ∈ block.txs → entry.event.Active block.header.l1Height

/-- The lock a witness claims. -/
def MintProofEnvelope.lockBlocks : MintProofEnvelope → UInt32
  | .v0Outpoint p => p.lockBlocks

/-- An output that was on L1 at a height, and that its lock still kept there. -/
def L1Output.LockedAt (out : L1Output) (lockBlocks h : UInt32) : Prop :=
  out.confirmedHeight ≤ h ∧ h.toNat < out.confirmedHeight.toNat + lockBlocks.toNat

section

variable {prim : Primitives} {entry : MintEntry} {block : L2Block} {l1 : L1View} {out : L1Output}

/-- The event of a checked mint has the period of the output it was checked with. -/
theorem active_iff_lockedAt (h : l1.getOutput entry.witness.outpoint = some out)
    (hok : verifyMintEntry prim entry l1 = .ok ()) (height : UInt32) :
    entry.event.Active height ↔ out.LockedAt entry.witness.lockBlocks height := by
  obtain ⟨p, hp, hverified⟩ := Sequencer.verifyMintEntry_event h hok
  have hcreate : entry.event.l1CreateHeight = out.confirmedHeight := by
    rw [hverified.event]
  have hlock : entry.event.lockBlocks = entry.witness.lockBlocks := by
    rw [hverified.event, hp]
    rfl
  unfold MintEvent.Active L1Output.LockedAt
  rw [hcreate, hlock]

/-- A checked block credits its mints in time exactly when its height is one at which their outputs
were locked. -/
theorem mintsActive_iff_lockedAt (h : verifyMints prim l1 block.txs = .ok ()) :
    block.MintsActive ↔ ∀ entry, L2Tx.mint entry ∈ block.txs → ∀ out,
      l1.getOutput entry.witness.outpoint = some out →
        out.LockedAt entry.witness.lockBlocks block.header.l1Height := by
  constructor
  · intro hactive entry hentry out hout
    exact (active_iff_lockedAt hout (verifyMintsFrom_ok_iff.mp h entry hentry) _).mp
      (hactive entry hentry)
  · intro hlocked entry hentry
    have hok := verifyMintsFrom_ok_iff.mp h entry hentry
    obtain ⟨out, hout⟩ := verifyMintEntry_found hok
    exact (active_iff_lockedAt hout hok _).mpr (hlocked entry hentry out hout)

/-- What the wallet checked of a block it accepted. -/
theorem verifyOneL2Block_mints {head : VerifiedHead} {height tip : UInt32}
    {att : Option Attestation}
    {api : ApiClient} {esplora : EsploraClient} {next : VerifiedHead × List TxEvent}
    (h : verifyOneL2Block prim head height att tip api esplora = .ok next) :
    ∃ block batch, api.getBlock height = some block ∧
      prefetchL1ForBlock esplora block tip = .ok batch ∧
      verifyMints prim batch.view block.txs = .ok () := by
  simp only [verifyOneL2Block, bind_ok_iff, okOr_ok_iff, mapErr_ok_iff] at h
  obtain ⟨block, hblock, -, -, -, -, batch, hbatch, ⟨⟩, hmints, -⟩ := h
  exact ⟨block, batch, hblock, hbatch, hmints⟩

/-! ### The tip a block is built under -/

/-- A coin of a longer chain that is not above the tip of the shorter one was there already. -/
theorem Chain.utxos_earlier {c more : Chain} {op : OutPoint} {coin : Coin} (hc : c ≠ [])
    (h : Chain.utxos (c ++ more) op = some coin) (hheight : coin.height ≤ c.tip) :
    c.utxos op = some coin := by
  rw [Chain.utxos_append hc] at h
  rcases connectFrom_origin _ _ h with hold | ⟨i, b, -, hnew, -⟩
  · exact hold
  · have hpos := List.length_pos_of_ne_nil hc
    unfold Chain.tip at hheight
    omega

/-- A coin of the shorter chain, if an output of the longer one is unspent, is that output. -/
theorem Chain.utxos_eq_later {c more : Chain} (hids : Chain.UniqueTxids (c ++ more)) {op : OutPoint}
    {coin coin' : Coin} (h : c.utxos op = some coin)
    (h' : Chain.utxos (c ++ more) op = some coin') :
    coin = coin' := by
  rw [Chain.utxos_later hids h] at h'
  split at h'
  · cases h'
  · exact Option.some.inj h'

/-- A mint that verifies on a longer chain was locked at the tip of the shorter one exactly when
the shorter one has its output, with the unlock height ahead. -/
theorem active_tip_iff {c more : Chain} (hc : c ≠ []) (hids : Chain.UniqueTxids (c ++ more))
    (hlen : (c ++ more).length ≤ 2 ^ 32)
    (hok : verifyMintEntry prim entry (NodeL1.view (c ++ more)) = .ok ()) :
    entry.event.Active (UInt32.ofNat c.tip) ↔ ∃ coin,
      c.utxos entry.witness.outpoint = some coin ∧
        c.tip < coin.height + entry.witness.lockBlocks.toNat := by
  obtain ⟨coin, hcoin⟩ : ∃ coin, Chain.utxos (c ++ more) entry.witness.outpoint = some coin := by
    obtain ⟨out, hout⟩ := verifyMintEntry_found hok
    cases hu : Chain.utxos (c ++ more) entry.witness.outpoint with
    | some coin => exact ⟨coin, rfl⟩
    | none =>
        rw [nodeView_getOutput_none hu] at hout
        cases hout
  obtain ⟨-, hhigh, -⟩ := Chain.utxos_origin hids hcoin
  have hpos := List.length_pos_of_ne_nil hc
  have htip : (UInt32.ofNat c.tip).toNat = c.tip := by
    refine toNat_ofNat32 ?_
    rw [List.length_append] at hlen
    unfold Chain.tip
    omega
  have hheight : (UInt32.ofNat coin.height).toNat = coin.height := by
    refine toNat_ofNat32 ?_
    unfold Chain.tip at hhigh
    rw [List.length_append] at hlen hhigh
    omega
  rw [active_iff_lockedAt (nodeView_getOutput hids hlen hcoin) hok]
  unfold L1Output.LockedAt Coin.l1Output
  rw [UInt32.le_iff_toNat_le, hheight, htip]
  constructor
  · intro ⟨hlow, hlock⟩
    exact ⟨coin, Chain.utxos_earlier hc hcoin hlow, hlock⟩
  · intro ⟨coin', hcoin', hlock⟩
    obtain rfl := Chain.utxos_eq_later hids hcoin' hcoin
    exact ⟨(Chain.utxos_origin hids.earlier hcoin').2.1, hlock⟩

end

namespace Sequencer

/-- **Mints are credited in time exactly when the block is for a time of their locks.**  A block
that a follower accepts, under any view of L1, or a wallet, from any Esplora, credits each mint
within its lock period if and only if its height is one at which the outputs they were shown were
locked.  A block that `produce_block` builds does if and only if, when it read the tip, L1 had the
output of each mint it takes and had not reached the height that unlocks it. -/
theorem mints_active_iff (prim : Primitives) :
    (∀ view state head height att block next,
      checkL2Block prim view state head height att block = .ok next →
        (block.MintsActive ↔ ∀ entry, L2Tx.mint entry ∈ block.txs → ∀ out,
          view.getOutput entry.witness.outpoint = some out →
            out.LockedAt entry.witness.lockBlocks block.header.l1Height)) ∧
    (∀ head height att tip api esplora next,
      verifyOneL2Block prim head height att tip api esplora = .ok next →
        ∃ block, api.getBlock height = some block ∧
          (block.MintsActive ↔ ∀ entry, L2Tx.mint entry ∈ block.txs → ∀ out,
            esplora.output tip entry.witness.outpoint = .ok out →
              out.LockedAt entry.witness.lockBlocks block.header.l1Height)) ∧
    ∀ (env : BlockEnv) app (c : Chain) (more : Nat → Chain) tip, c ≠ [] →
      env.blockCount = some (UInt32.ofNat c.tip) → env.l1Tip = .ok tip →
      (∀ i, env.view i = NodeL1.view (c ++ more i)) →
      (∀ i, Chain.UniqueTxids (c ++ more i) ∧ (c ++ more i).length ≤ 2 ^ 32) →
        ((env.nextBlock prim tip app).MintsActive ↔
          ∀ entry, L2Tx.mint entry ∈ env.body prim app → ∃ coin,
            c.utxos entry.witness.outpoint = some coin ∧
              c.tip < coin.height + entry.witness.lockBlocks.toNat) := by
  refine ⟨?_, ?_, ?_⟩
  · intro view state head height att block next hok
    exact mintsActive_iff_lockedAt (checkL2Block_ok_iff.mp hok).2.2.1
  · intro head height att tip api esplora next hok
    obtain ⟨block, batch, hblock, hbatch, hmints⟩ := verifyOneL2Block_mints hok
    have hview := prefetch_getOutput hbatch
    refine ⟨block, hblock, (mintsActive_iff_lockedAt hmints).trans (forall₂_congr ?_)⟩
    intro entry hentry
    rw [hview.getOutput entry hentry]
    exact forall_congr' fun _ => imp_congr_left toOption_eq_some_iff
  · intro env app c more tip hc hcount htip hview hregular
    have htip1 : tip.1 = UInt32.ofNat c.tip := by
      simp only [BlockEnv.l1Tip, hcount, bind_ok_iff, okOr_ok_iff, pure_ok_iff] at htip
      obtain ⟨_, hheight, _, -, _, -, rfl⟩ := htip
      exact (Option.some.inj hheight).symm
    refine forall₂_congr fun entry hentry => ?_
    obtain ⟨i, hok⟩ := mem_body_verifies hentry
    rw [hview] at hok
    show entry.event.Active tip.1 ↔ _
    rw [htip1]
    exact active_tip_iff hc (hregular i).1 (hregular i).2 hok

/-- The mint a body takes from `shortMint` alone has its witness. -/
private theorem mem_body_shortMint {prim : Primitives} {env : BlockEnv} {app : AppState}
    {entry : MintEntry} (h : L2Tx.mint entry ∈ env.body prim app.withShortMint) :
    entry.witness = shortMint.witness := by
  have hoffered := (LedgerState.accepted_sublist _ _).mem h
  rcases List.mem_append.mp hoffered with hmint | htransfer
  · obtain ⟨k, old, hold, hfresh⟩ := mem_freshMints.mp hmint
    have hshort : old = shortMint := List.mem_singleton.mp (List.mem_of_getElem? hold)
    rw [hshort] at hfresh
    unfold freshMint at hfresh
    split at hfresh
    · cases hfresh
    · rw [← (L2Tx.mint.inj (Except.ok.inj hfresh))]
  · cases htransfer

private theorem nextBlock_withShortMint (prim : Primitives) (env : BlockEnv) (tip : UInt32 × H256)
    (app : AppState) : (env.nextBlock prim tip app.withShortMint).txs
      = body prim env.view app.shared.state [shortMint] [] := rfl

/-- Built at height 1, the block credits the mint of the lock at height 1 in time. -/
theorem mints_active_shortMint : ∃ app tip, Reachable Primitives.sample app ∧
    steadyEnv.l1Tip = .ok tip ∧ (steadyEnv.nextBlock Primitives.sample tip app).txs ≠ [] ∧
    (steadyEnv.nextBlock Primitives.sample tip app).MintsActive := by
  obtain ⟨app, hstarted, hstate, hmempool, -, -⟩ :=
    exists_started Primitives.sample sampleIdentity
  obtain ⟨tip, htip⟩ := steadyEnv_l1Tip
  have hsubmit : Step Primitives.sample (fun _ _ => True) app
      (submitMint Primitives.sample (NodeL1.view lockChain) 0 shortMint.witness
        shortMint.event.l2Destination app).2 :=
    .submitMint _ _ _ _ (by rw [hmempool]; decide)
  rw [submitMint_shortMint hstate hmempool] at hsubmit
  refine ⟨app.withShortMint, tip, .step (.init hstarted) hsubmit, htip, ?_, ?_⟩
  · rw [nextBlock_withShortMint, hstate]
    decide +kernel
  · refine ((mints_active_iff Primitives.sample).2.2 steadyEnv app.withShortMint lockChain
      (fun _ => []) tip (by decide) rfl htip (fun _ => ?_) (fun _ => ?_)).mpr ?_
    · rw [List.append_nil]
      rfl
    · rw [List.append_nil]
      decide
    · intro entry hentry
      have hlocked : (lockChain.utxos shortMint.witness.outpoint).map Coin.height = some 1 := by
        decide
      obtain ⟨coin, hcoin, hheight⟩ := Option.map_eq_some_iff.mp hlocked
      rw [mem_body_shortMint hentry]
      refine ⟨coin, hcoin, ?_⟩
      rw [hheight]
      decide

/-- L1 has come to the height that unlocks the output, which nobody has reclaimed. -/
def expiredEnv : BlockEnv :=
  { steadyEnv with
    blockCount := some 2
    view := fun _ => NodeL1.view (lockChain ++ [nextBlock false]) }

theorem expiredEnv_l1Tip : ∃ hash, expiredEnv.l1Tip = .ok (2, hash) := by
  have hsome : expiredEnv.l1Tip.toOption.map Prod.fst = some 2 := by decide
  obtain ⟨⟨height, hash⟩, htip, hheight⟩ := Option.map_eq_some_iff.mp hsome
  obtain rfl : height = 2 := hheight
  exact ⟨hash, toOption_eq_some_iff.mp htip⟩

/-- The mint is submitted at height 1, the height it was signed for, and waits.  At height 2 its
lock is over, and the block built then credits it; a follower at height 2 accepts that block. -/
theorem mints_active_expired : ∃ app app' block, Reachable Primitives.sample app ∧
    produceBlock Primitives.sample expiredEnv
      (submitMint Primitives.sample (NodeL1.view lockChain) 0 shortMint.witness
        shortMint.event.l2Destination app).2 = (.ok (), app') ∧
    app'.store.getBlock app'.shared.head.height = some block ∧
    (∃ next, checkL2Block Primitives.sample (NodeL1.view (lockChain ++ [nextBlock false]))
      app.shared.state app.shared.head.follower block.header.height none block = .ok next) ∧
    (∃ entry, L2Tx.mint entry ∈ block.txs ∧
      entry.event.l1CreateHeight.toNat + entry.event.lockBlocks.toNat
        ≤ block.header.l1Height.toNat) ∧
    ¬ block.MintsActive := by
  obtain ⟨app, hstarted, hstate, hmempool, -, -⟩ :=
    exists_started Primitives.sample sampleIdentity
  obtain ⟨hash, htip⟩ := expiredEnv_l1Tip
  obtain ⟨-, hwrite⟩ := @Started.writable _ _ expiredEnv hstarted rfl
  have hproduce := @produceBlock_done Primitives.sample expiredEnv app.withShortMint _ htip
    ⟨hwrite.call, hwrite.blocks, hwrite.stateSnapshots, hwrite.blockWitnesses⟩ rfl
  have hpasses : Passes Primitives.sample (NodeL1.view (lockChain ++ [nextBlock false]))
      app.shared.state app.shared.head.follower
      (expiredEnv.nextBlock Primitives.sample (2, hash) app.withShortMint) _ _ :=
    @nextBlock_passes _ expiredEnv app.withShortMint _ _ fun _ => rfl
  have htxs : (expiredEnv.nextBlock Primitives.sample (2, hash) app.withShortMint).txs
      = [.mint shortMint] := by
    rw [nextBlock_withShortMint, hstate]
    decide +kernel
  obtain ⟨next, hnext⟩ := hpasses none (List.mem_cons_self ..)
  have hlate : shortMint.event.l1CreateHeight.toNat + shortMint.event.lockBlocks.toNat
      ≤ (2 : UInt32).toNat := by decide
  refine ⟨app, expiredEnv.finished Primitives.sample (2, hash) app.withShortMint,
    expiredEnv.nextBlock Primitives.sample (2, hash) app.withShortMint, .init hstarted, ?_, ?_,
    ⟨_, hnext⟩, ⟨shortMint, ?_, hlate⟩, ?_⟩
  · rw [submitMint_shortMint hstate hmempool]
    exact hproduce
  · exact Std.ExtTreeMap.getElem?_insert_self
  · rw [htxs]
    exact List.mem_singleton_self _
  · intro hactive
    have hmint := hactive shortMint (by rw [htxs]; exact List.mem_singleton_self _)
    exact absurd hlate (Nat.not_le.mpr hmint.2)

end Sequencer

end Hodlchain
