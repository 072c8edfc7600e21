/-
An honest block is accepted.

The producer checks one mint, applies it, and goes on to the next; the follower checks
all mints of a block first and then applies everything.  Under one view of L1 both come
to the same ledger: what the producer left out left no trace in its copy, and a fresh
mint carries the event that checking it again derives.  So a node that has followed the
sequencer up to a row follows it to the next.
-/
import Hodlchain.Node.Feed
import Hodlchain.Sequencer.Atomic

namespace Hodlchain.Sequencer

/-- The head as a node holds it. -/
def HeadInfo.follower (head : HeadInfo) : Hodlchain.HeadInfo where
  height := head.height
  blockHash := head.blockHash
  stateRoot := head.stateRoot
  l1Height := head.l1Height

/-- The row a sequencer has persisted at a height. -/
def Store.row (s : Store) (height : UInt32) : Option Row :=
  match s.getBlock height, s.stateSnapshots[height]? with
  | some block, some state => some ⟨block, state⟩
  | _, _ => none

section

variable {prim : Primitives} {env : BlockEnv} {app app' : AppState} {tip : UInt32 × H256}
  {l1 : L1View}

/-! ### One block -/

/-- The event a witness authorises has the destination it was checked for. -/
theorem verify_l2Destination {w : MintProofEnvelope} {dest : L2Address} {credit : MintCredit}
    (h : w.verify prim l1 dest = .ok credit) : credit.event.l2Destination = dest := by
  cases w with
  | v0Outpoint p =>
      obtain ⟨output, -, hverified⟩ := OutpointProof.verify_ok h
      rw [hverified.event]

/-- A fresh mint verifies again, under the view it was made fresh with. -/
theorem freshMint_verifies {entry : MintEntry} {tx : L2Tx} (h : freshMint prim l1 entry = .ok tx) :
    ∃ fresh, tx = .mint fresh ∧ verifyMintEntry prim fresh l1 = .ok () := by
  unfold freshMint at h
  cases hverify : entry.witness.verify prim l1 entry.event.l2Destination with
  | error e =>
      rw [hverify] at h
      cases h
  | ok credit =>
      rw [hverify] at h
      refine ⟨⟨credit.event, entry.witness⟩, (Except.ok.inj h).symm, ?_⟩
      unfold verifyMintEntry
      simp only [verify_l2Destination hverify, hverify]
      exact compareEvents_ok_iff.mpr rfl

/-- Every mint of a built body verifies again, under the view it was made fresh with. -/
theorem mem_body_verifies {entry : MintEntry} (h : L2Tx.mint entry ∈ env.body prim app) :
    ∃ i, verifyMintEntry prim entry (env.view i) = .ok () := by
  have hoffered := (LedgerState.accepted_sublist _ _).mem h
  rcases List.mem_append.mp hoffered with hmint | htransfer
  · obtain ⟨k, old, -, hfresh⟩ := mem_freshMints.mp hmint
    obtain ⟨fresh, heq, hverifies⟩ := freshMint_verifies hfresh
    rw [L2Tx.mint.injEq] at heq
    rw [heq]
    exact ⟨_, hverifies⟩
  · obtain ⟨t, -, ht⟩ := List.mem_map.mp htransfer
    cases ht

theorem verifyMints_body (hview : ∀ i, env.view i = l1) :
    verifyMints prim l1 (env.body prim app) = .ok () := by
  refine verifyMintsFrom_ok_iff.mpr fun entry hentry => ?_
  obtain ⟨i, hverifies⟩ := mem_body_verifies hentry
  rwa [hview] at hverifies

theorem finished_state (env : BlockEnv) (tip : UInt32 × H256) (app : AppState) :
    (env.finished prim tip app).shared.state = env.nextState prim app := rfl

/-- **A built block passes.**  On a node with the producer's ledger and head, the block passes
every check of the follower, and leads to the producer's new ledger and head. -/
theorem nextBlock_passes (hview : ∀ i, env.view i = l1) :
    Passes prim l1 app.shared.state app.shared.head.follower (env.nextBlock prim tip app)
      (env.nextState prim app) (headOf prim (env.nextBlock prim tip app)).follower := by
  intro att hatt
  refine ⟨_, checkL2Block_ok_iff.mpr ⟨rfl, ?_, verifyMints_body hview,
    replay_body _ _ _ _, rfl, rfl, rfl, rfl⟩⟩
  rcases List.mem_cons.mp hatt with rfl | hatt
  · rfl
  · rw [List.mem_singleton.mp hatt]
    exact validateBlock_ok_iff.mpr ⟨rfl, rfl, rfl, rfl⟩

end

/-! ### The rows of a run -/

section

variable (prim : Primitives) (view : UInt32 → L1View)

/-- A call of `produce_block` that sees L1 as the followers of its block will, and that changes
nothing where it returns an error. -/
def Produces (env : BlockEnv) (app : AppState) : Prop :=
  FailsHarmlessly prim env app ∧ ∀ i, env.view i = view (app.shared.head.height + 1)

/-- Rows up to height `m`, each following the one below it. -/
structure Linked (store : Store) (m : UInt32) : Prop where
  rows : Rows store m
  follows : ∀ k, k < m → ∀ r r', store.row k = some r → store.row (k + 1) = some r' →
    r.Follows prim (view (k + 1)) r'

/-- The rows are linked, and the head is not above them. -/
def Followable (app : AppState) : Prop :=
  ∃ m, Linked prim view app.store m ∧ app.shared.head.height ≤ m

end

section

variable {prim : Primitives} {view : UInt32 → L1View} {env : BlockEnv} {app app' : AppState}
  {tip : UInt32 × H256} {store : Store} {m : UInt32}

theorem Store.row_eq_some_iff {k : UInt32} {r : Row} : store.row k = some r ↔
    store.getBlock k = some r.block ∧ store.stateSnapshots[k]? = some r.state := by
  unfold Store.row
  obtain ⟨block, state⟩ := r
  cases store.getBlock k with
  | none => simp
  | some block' =>
      cases store.stateSnapshots[k]? with
      | none => simp
      | some state' => simp

theorem Store.row_congr {store' : Store} (hblocks : store'.blocks = store.blocks)
    (hsnapshots : store'.stateSnapshots = store.stateSnapshots) (k : UInt32) :
    store'.row k = store.row k := by
  unfold Store.row Store.getBlock
  rw [hblocks, hsnapshots]

/-- There is a row at each height up to the latest. -/
theorem Rows.row (h : Rows store m) {k : UInt32} (hk : k ≤ m) :
    ∃ r, store.row k = some r ∧ r.block.header.height = k := by
  obtain ⟨block, hblock⟩ := Option.isSome_iff_exists.mp
    (Std.ExtTreeMap.isSome_getElem?_iff_mem.mpr ((h.blocks k).mpr hk))
  obtain ⟨state, hstate⟩ := Option.isSome_iff_exists.mp
    (Std.ExtTreeMap.isSome_getElem?_iff_mem.mpr ((h.stateSnapshots k).mpr hk))
  exact ⟨⟨block, state⟩, Store.row_eq_some_iff.mpr ⟨hblock, hstate⟩, h.height k block hblock⟩

theorem Rows.row_le (h : Rows store m) {k : UInt32} {r : Row} (hr : store.row k = some r) : k ≤ m :=
  (h.blocks k).mp (Std.ExtTreeMap.mem_iff_isSome_getElem?.mpr
    (Option.isSome_iff_exists.mpr ⟨_, (Store.row_eq_some_iff.mp hr).1⟩))

/-- A row written is there, and the others are as they were. -/
theorem Store.row_insertBlock (store : Store) (block : L2Block) (state : LedgerState)
    (witness : BlockWitness) (k : UInt32) : (store.insertBlock block state witness).row k
      = if block.header.height = k then some ⟨block, state⟩ else store.row k := by
  unfold Store.row Store.getBlock Store.insertBlock
  simp only [Std.ExtTreeMap.getElem?_insert, Std.compare_eq_iff_eq]
  by_cases hk : block.header.height = k
  · simp [hk]
  · simp [hk]

/-- Memory that a restart would load is the latest row. -/
theorem Synced.row (h : Synced prim app) (hrows : Rows app.store m) :
    ∃ r, app.store.row m = some r ∧ app.shared.state = r.state ∧
      app.shared.head = headOf prim r.block := by
  obtain ⟨height, block, hload, hblock, hhead⟩ := resume_eq_some_iff.mp h
  obtain ⟨state, block', hlatest, rfl⟩ := hrows.latest
  obtain ⟨rfl, hstate⟩ := Prod.mk.inj (Option.some.inj (hload.symm.trans hlatest.state))
  refine ⟨⟨block, app.shared.state⟩, Store.row_eq_some_iff.mpr ⟨hblock, ?_⟩, rfl, hhead⟩
  exact (lastRow?_eq_some_iff.mp hload).1

/-- The next row follows the latest. -/
theorem Linked.written (h : Linked prim view app.store m) (hle : app.shared.head.height ≤ m)
    (hsynced : Synced prim app) (hview : ∀ i, env.view i = view (app.shared.head.height + 1))
    (hwrite : Writable env app) :
    Linked prim view (env.written prim tip app) (app.shared.head.height + 1) := by
  obtain ⟨hm, hnext⟩ := h.rows.gap hle hwrite.blocks
  have hrows := (@Rowed.written prim _ _ tip ⟨m, h.rows, hle⟩ hwrite).1
  refine ⟨hrows, fun k hk r r' hr hr' => ?_⟩
  rw [UInt32.lt_iff_toNat_lt, hnext] at hk
  have hkup : (k + 1).toNat = k.toNat + 1 := by
    have hbound := (app.shared.head.height + 1).toNat_lt
    rw [UInt32.toNat_add, UInt32.toNat_one, Nat.mod_eq_of_lt (by omega)]
  unfold BlockEnv.written at hr hr'
  rw [Store.row_insertBlock] at hr hr'
  have hheight : (env.nextBlock prim tip app).header.height = app.shared.head.height + 1 := rfl
  have hbelow : (env.nextBlock prim tip app).header.height ≠ k := by
    intro hc
    rw [← hc, hheight, hnext] at hk
    omega
  rw [if_neg hbelow] at hr
  by_cases htop : k = app.shared.head.height
  · -- the new row, on top of what is in memory
    obtain ⟨r₀, hr₀, hstate, hhead⟩ := hsynced.row h.rows
    rw [← hm, ← htop] at hr₀
    rw [htop, if_pos hheight] at hr'
    obtain rfl := Option.some.inj (hr₀.symm.trans hr)
    rw [← Option.some.inj hr']
    unfold Row.Follows
    rw [← hstate, show Hodlchain.headOf prim r₀.block = app.shared.head.follower by rw [hhead]; rfl,
      htop]
    exact nextBlock_passes hview
  · have hlow : k < m := by
      rw [UInt32.lt_iff_toNat_lt, ← hm]
      have hne : k.toNat ≠ app.shared.head.height.toNat := fun hc => htop (UInt32.toNat_inj.mp hc)
      omega
    have hother : (env.nextBlock prim tip app).header.height ≠ k + 1 := by
      intro hc
      rw [hheight, ← UInt32.toNat_inj, hnext, hkup] at hc
      exact htop (UInt32.toNat_inj.mp (by omega))
    rw [if_neg hother] at hr'
    exact h.follows k hlow r r' hr hr'

theorem Linked.congr {store' : Store} (h : Linked prim view store m)
    (hblocks : store'.blocks = store.blocks)
    (hsnapshots : store'.stateSnapshots = store.stateSnapshots) : Linked prim view store' m := by
  refine ⟨h.rows.congr hblocks hsnapshots, fun k hk r r' hr hr' => ?_⟩
  rw [Store.row_congr hblocks hsnapshots] at hr hr'
  exact h.follows k hk r r' hr hr'

private theorem synced_of_produces (h : (system prim (Produces prim view)).Reachable app) :
    Synced prim app := by
  have hinit : ∀ app, (system prim (Produces prim view)).init app →
      (system prim (FailsHarmlessly prim)).init app := fun _ hstarted => hstarted
  exact synced_of_reachable
    (h.mono hinit fun _ _ hstep => Step.mono hstep fun _ _ hallowed => hallowed.1)

/-- However a call ends, the rows stay linked. -/
theorem ProduceEnds.followable {r : Except Halt Unit} (hend : ProduceEnds prim env app r app')
    (hsynced : Synced prim app) (hview : ∀ i, env.view i = view (app.shared.head.height + 1))
    (h : Followable prim view app) : Followable prim view app' := by
  obtain ⟨m, hlinked, hle⟩ := h
  cases hend with
  | noTip => exact ⟨m, hlinked, hle⟩
  | unwritten => exact ⟨m, hlinked, hle⟩
  | @behind tip f _ hwrite _ =>
      have hnext := (hlinked.rows.gap hle hwrite.blocks).2
      refine ⟨_, hlinked.written hle hsynced hview hwrite, ?_⟩
      show app.shared.head.height ≤ _
      rw [UInt32.le_iff_toNat_le, hnext]
      exact Nat.le_succ _
  | @done tip _ hwrite _ =>
      exact ⟨_, (hlinked.written hle hsynced hview hwrite).congr rfl rfl, UInt32.le_refl _⟩

theorem Started.followable (h : Started prim app) : Followable prim view app := by
  obtain ⟨identity, l1BlockHash, l1GenesisHeight, now, anchor0, hstart⟩ := h
  obtain ⟨block, hrows, hlatest, hhead, -⟩ := coldStart_latest hstart
  refine ⟨0, ⟨hrows, fun k hk => ?_⟩, ?_⟩
  · exact absurd hk (UInt32.not_lt.mpr UInt32.zero_le)
  · rw [hhead]
    exact (hrows.blocks _).mp (Std.ExtTreeMap.mem_iff_isSome_getElem?.mpr
      (Option.isSome_iff_exists.mpr ⟨block, hlatest.block⟩))

/-- **Every row follows the one below it**, in every run of produced blocks. -/
theorem followable_of_reachable (h : (system prim (Produces prim view)).Reachable app) :
    Followable prim view app := by
  have hcore : ∀ {app app'}, SameCore app app' → Followable prim view app →
      Followable prim view app' := by
    intro app app' hsame ⟨m, hlinked, hle⟩
    exact ⟨m, hlinked.congr hsame.blocks hsame.stateSnapshots, by rw [hsame.shared]; exact hle⟩
  refine StepKeeps.reachable (P := Followable prim view) (I := Followable prim view)
    ⟨hcore, hcore, id, ?_, ?_, ?_, ?_⟩ (fun _ => Started.followable) h
  · intro app l1 now proof l2Destination _ happ
    exact submitMint_keeps (fun _ h => h) l1 now proof l2Destination happ
  · intro app now transfer _ happ
    exact submitTransfer_keeps (fun _ h => h) now transfer happ
  · intro env app r app' hreach hallowed hrun happ
    have hkept := (produceBlock_ends hrun).followable (synced_of_produces hreach) hallowed.2 happ
    exact ⟨hkept, fun _ => hkept⟩
  · intro app app' ⟨m, hlinked, hle⟩ hrestart
    obtain ⟨state, head, hresume, rfl⟩ := restart_eq_some_iff.mp hrestart
    obtain ⟨state', block, hlatest, hm⟩ := hlinked.rows.latest
    rw [hlatest.resume] at hresume
    cases hresume
    exact ⟨m, hlinked, by rw [← hm]; exact UInt32.le_refl _⟩

end

/-! ### A node behind a sequencer -/

/-- A sequencer, what it has attested with the ledger it had then, and a node. -/
structure Followed where
  app : AppState
  attested : List (Attestation × LedgerState)
  node : NodeState

section

variable (prim : Primitives) (view : UInt32 → L1View)

/-- What the node is served: the blocks the sequencer holds. -/
def Followed.served (s : Followed) : Served := ⟨s.app.store.getBlock, view⟩

/-- The node's `process_advance`, while nothing fails. -/
def Followed.processAdvance (s : Followed) (adv : ChainAdvance) :
    Except Hodlchain.Halt Unit × World :=
  Hodlchain.processAdvance prim (Env.plain [] (s.served view)) adv (World.start s.node)

/-- The sequencer does something, attests its head, or the node processes an attestation. -/
inductive FollowedStep (s : Followed) : Followed → Prop
  | sequencer {app' : AppState} (h : Step prim (Produces prim view) s.app app') :
      FollowedStep s { s with app := app' }
  | attest : FollowedStep s
      { s with
        attested := s.attested ++
          [(Attestation.new s.app.shared.head.height s.app.shared.head.blockHash
            s.app.shared.head.stateRoot, s.app.shared.state)] }
  | processAdvance (adv : ChainAdvance) (state : LedgerState)
      (h : (adv.attestation, state) ∈ s.attested) :
      FollowedStep s { s with node := (s.processAdvance prim view adv).2.toNodeState }

/-- A new sequencer, and a node that has started from its first block. -/
def FollowedStart (s : Followed) : Prop :=
  Started prim s.app ∧ s.attested = [] ∧ ∃ genesis, s.app.store.getBlock 0 = some genesis ∧
    bootstrap prim genesis.header.l1Height (some genesis) .empty = .ok s.node

def followedSystem : System Followed := ⟨FollowedStart prim, FollowedStep prim view⟩

/-- The node stands on a row, and every attestation is that of a row. -/
structure InStep (s : Followed) : Prop where
  reachable : (system prim (Produces prim view)).Reachable s.app
  node : ∃ r, s.app.store.row s.node.head.height = some r ∧ OnRow prim r s.node
  attested : ∀ p ∈ s.attested, ∃ r, s.app.store.row p.1.height = some r ∧
    p.1 = r.block.attestation prim ∧ p.2 = r.state

end

section

variable {prim : Primitives} {view : UInt32 → L1View} {app app' : AppState} {s s' : Followed}

/-- A row, once persisted, stays. -/
theorem Step.row {k : UInt32} {r : Row} (hreach : (system prim (Produces prim view)).Reachable app)
    (h : Step prim (Produces prim view) app app') (hr : app.store.row k = some r) :
    app'.store.row k = some r := by
  have hcore : ∀ {app app'}, SameCore app app' → app.store.row k = some r →
      app'.store.row k = some r := by
    intro app app' hsame hr
    rw [Store.row_congr hsame.blocks hsame.stateSnapshots]
    exact hr
  have hkeeps : StepKeeps prim (Produces prim view) (fun app => app.store.row k = some r)
      fun app => app.store.row k = some r := by
    refine ⟨hcore, hcore, id, ?_, ?_, ?_, ?_⟩
    · intro app l1 now proof l2Destination _ hr
      exact submitMint_keeps (I := fun app => app.store.row k = some r) (fun _ h => h) l1 now proof
        l2Destination hr
    · intro app now transfer _ hr
      exact submitTransfer_keeps (I := fun app => app.store.row k = some r) (fun _ h => h) now
        transfer hr
    · intro env app r' app' _ _ hrun hr
      have hwritten : ∀ tip, Writable env app →
          (env.written prim tip app).row k = some r := by
        intro tip hwrite
        have hin : k ∈ app.store.blocks := Std.ExtTreeMap.mem_iff_isSome_getElem?.mpr
          (Option.isSome_iff_exists.mpr ⟨_, (Store.row_eq_some_iff.mp hr).1⟩)
        have hne : (env.nextBlock prim tip app).header.height ≠ k := by
          intro hc
          rw [← hc] at hin
          exact hwrite.blocks hin
        unfold BlockEnv.written
        rw [Store.row_insertBlock, if_neg hne]
        exact hr
      have hkept : app'.store.row k = some r := by
        cases produceBlock_ends hrun with
        | noTip => exact hr
        | unwritten => exact hr
        | behind _ hwrite => exact hwritten _ hwrite
        | done _ hwrite => exact hwritten _ hwrite
      exact ⟨hkept, fun _ => hkept⟩
    · intro app app' hr hrestart
      obtain ⟨state, head, -, rfl⟩ := restart_eq_some_iff.mp hrestart
      exact hr
  exact hkeeps.step hreach hr h

/-- The first row of a new sequencer. -/
theorem Started.row (h : Started prim app) : ∃ genesis,
    app.store.row 0 = some ⟨genesis, LedgerState.start genesis.header.sequencerFeeAddress⟩ := by
  obtain ⟨identity, l1BlockHash, l1GenesisHeight, now, anchor0, hstart⟩ := h
  simp only [coldStart, bind_ok_iff, Store.writeBlockAndState_ok_iff, pure_ok_iff] at hstart
  obtain ⟨store, ⟨-, rfl⟩, rfl⟩ := hstart
  refine ⟨genesis prim l1BlockHash l1GenesisHeight now anchor0 (some identity.xOnlyPublicKey)
    (some identity.xOnlyPublicKey), ?_⟩
  exact Store.row_eq_some_iff.mpr
    ⟨Std.ExtTreeMap.getElem?_insert_self, Std.ExtTreeMap.getElem?_insert_self⟩

/-- Where a node starts from a genesis block. -/
theorem bootstrap_state {l1GenesisHeight : UInt32} {genesis : L2Block} {n : NodeState}
    (h : bootstrap prim l1GenesisHeight (some genesis) .empty = .ok n) :
    n.head = Hodlchain.headOf prim genesis ∧ n.head.height = 0 ∧
      n.state = LedgerState.start genesis.header.sequencerFeeAddress := by
  have hload : NodeStore.empty.loadLatestState = none := lastRow?_eq_none_iff.mpr rfl
  simp only [bootstrap, Hodlchain.resume, hload, Hodlchain.coldStart, bind_ok_iff, ensure_ok_iff,
    okOr_ok_iff, mapErr_ok_iff, pure_ok_iff] at h
  obtain ⟨_, hheight, _, -, _, -, anchor, -, store, -, rfl⟩ := h
  refine ⟨?_, rfl, rfl⟩
  unfold Hodlchain.headOf
  rw [hheight]

theorem FollowedStart.inStep (h : FollowedStart prim s) : InStep prim view s := by
  obtain ⟨hstarted, hattested, genesis, hgenesis, hboot⟩ := h
  obtain ⟨genesis', hrow⟩ := Started.row hstarted
  obtain rfl : genesis = genesis' :=
    Option.some.inj (hgenesis.symm.trans (Store.row_eq_some_iff.mp hrow).1)
  obtain ⟨hhead, hheight, hstate⟩ := bootstrap_state hboot
  refine ⟨.init hstarted, ⟨⟨genesis, _⟩, ?_, (bootstrap_synced hboot).1, hstate, hhead⟩, ?_⟩
  · rw [hheight]
    exact hrow
  · rw [hattested]
    intro p hp
    cases hp

/-- The sequencer's rows feed the node. -/
theorem InStep.feed (h : InStep prim view s) :
    ∃ m, Rows s.app.store m ∧ Feed prim (s.served view) s.app.store.row m := by
  obtain ⟨m, hlinked, -⟩ := followable_of_reachable h.reachable
  refine ⟨m, hlinked.rows, fun k hk => ?_, hlinked.follows⟩
  obtain ⟨r, hr, hheight⟩ := hlinked.rows.row hk
  exact ⟨r, hr, hheight, (Store.row_eq_some_iff.mp hr).1⟩

/-- What the node does with an attestation of its sequencer. -/
theorem InStep.processAdvance (h : InStep prim view s) {adv : ChainAdvance} {state : LedgerState}
    (hadv : (adv.attestation, state) ∈ s.attested) :
    ∃ w r, s.processAdvance prim view adv = (.ok (), w) ∧ OnRow prim r w.toNodeState ∧
      s.app.store.row w.head.height = some r ∧
      (s.node.head.height ≤ adv.attestation.height → w.head.height = adv.attestation.height) ∧
      (adv.attestation.height ≤ s.node.head.height → w.toNodeState = s.node) := by
  obtain ⟨m, hrows, hfeed⟩ := h.feed
  obtain ⟨r, hr, hn⟩ := h.node
  obtain ⟨r', hr', hatt, -⟩ := h.attested _ hadv
  have hrow : ∀ r'', s.app.store.row adv.attestation.height = some r'' →
      adv.attestation = r''.block.attestation prim := by
    intro r'' hr''
    obtain rfl := Option.some.inj (hr'.symm.trans hr'')
    exact hatt
  exact @Feed.processAdvance _ _ _ (World.start s.node) _ _ _ hfeed (fun _ => rfl)
    (fun _ => rfl) _ hn hr
    (hrows.row_le hr') hrow

theorem InStep.step (h : InStep prim view s) (hstep : FollowedStep prim view s s') :
    InStep prim view s' := by
  cases hstep with
  | sequencer hstep =>
      obtain ⟨r, hr, hn⟩ := h.node
      refine ⟨.step h.reachable hstep, ⟨r, hstep.row h.reachable hr, hn⟩, fun p hp => ?_⟩
      obtain ⟨r', hr', heq⟩ := h.attested p hp
      exact ⟨r', hstep.row h.reachable hr', heq⟩
  | attest =>
      refine ⟨h.reachable, h.node, fun p hp => ?_⟩
      rcases List.mem_append.mp hp with hold | hnew
      · exact h.attested p hold
      · rw [List.mem_singleton.mp hnew]
        obtain ⟨m, hlinked, -⟩ := followable_of_reachable h.reachable
        obtain ⟨r, hr, hstate, hhead⟩ := (synced_of_produces h.reachable).row hlinked.rows
        refine ⟨r, ?_, by rw [hhead]; rfl, hstate⟩
        rw [hhead]
        show s.app.store.row r.block.header.height = some r
        rw [hlinked.rows.height m r.block (Store.row_eq_some_iff.mp hr).1]
        exact hr
  | processAdvance adv state hadv =>
      obtain ⟨w, r, hrun, hn, hr, -⟩ := h.processAdvance hadv
      refine ⟨h.reachable, ⟨r, ?_, ?_⟩, h.attested⟩
      · rw [hrun]
        exact hr
      · rw [hrun]
        exact hn

theorem inStep_of_reachable (h : (followedSystem prim view).Reachable s) : InStep prim view s :=
  h.invariant (I := InStep prim view) (fun _ => FollowedStart.inStep)
    fun _ _ _ hin hstep => hin.step hstep

/-- **Honest blocks are accepted.**  From any state and mempool, under one view of L1, the block a
call builds passes every check on a node with the producer's ledger and head, and leads to the
producer's new ones.  In any run of produced and attested blocks, the node gets through every
attestation, and at an attested height it has the ledger the sequencer had. -/
theorem honest_blocks_accepted (prim : Primitives) :
    (∀ app env tip l1, env.l1Tip = .ok tip → (∀ i, env.view i = l1) →
      Passes prim l1 app.shared.state app.shared.head.follower (env.nextBlock prim tip app)
        (env.nextState prim app) (headOf prim (env.nextBlock prim tip app)).follower ∧
      ∀ app', produceBlock prim env app = (.ok (), app') →
        app'.store.getBlock app'.shared.head.height = some (env.nextBlock prim tip app) ∧
        app'.shared.state = env.nextState prim app ∧
        app'.shared.head = headOf prim (env.nextBlock prim tip app) ∧
        (env.nextBlock prim tip app).attestation prim = Attestation.new app'.shared.head.height
          app'.shared.head.blockHash app'.shared.head.stateRoot) ∧
    ∀ view s, (followedSystem prim view).Reachable s →
      (∀ p ∈ s.attested, s.node.head.height = p.1.height → s.node.state = p.2) ∧
      ∀ adv state, (adv.attestation, state) ∈ s.attested →
        ∃ w, s.processAdvance prim view adv = (.ok (), w) ∧
          adv.attestation.height ≤ w.head.height ∧
          (s.node.head.height ≤ adv.attestation.height →
            w.head.height = adv.attestation.height ∧ w.state = state) := by
  refine ⟨fun app env tip l1 htip hview => ⟨nextBlock_passes hview, fun app' hrun => ?_⟩,
    fun view s hs => ⟨fun p hp hheight => ?_, fun adv state hadv => ?_⟩⟩
  · have hend := produceBlock_ends hrun
    generalize hr : (Except.ok () : Except Halt Unit) = r at hend
    cases hend with
    | noTip => cases hr
    | unwritten => cases hr
    | behind => cases hr
    | done htip' =>
        rw [htip] at htip'
        cases htip'
        refine ⟨?_, rfl, rfl, rfl⟩
        exact Std.ExtTreeMap.getElem?_insert_self
  · have hin := inStep_of_reachable hs
    obtain ⟨r, hr, hn⟩ := hin.node
    obtain ⟨r', hr', -, hstate⟩ := hin.attested p hp
    rw [hheight] at hr
    obtain rfl := Option.some.inj (hr.symm.trans hr')
    rw [hn.state, hstate]
  · have hin := inStep_of_reachable hs
    obtain ⟨w, r, hrun, hn, hr, hup, hsame⟩ := hin.processAdvance hadv
    obtain ⟨r', hr', -, hstate⟩ := hin.attested _ hadv
    refine ⟨w, hrun, ?_, fun hle => ⟨hup hle, ?_⟩⟩
    · by_cases hle : s.node.head.height ≤ adv.attestation.height
      · rw [hup hle]
        exact UInt32.le_refl _
      · have hge := UInt32.le_of_lt (UInt32.not_le.mp hle)
        rw [show w.head = s.node.head from congrArg NodeState.head (hsame hge)]
        exact hge
    · rw [hup hle] at hr
      obtain rfl := Option.some.inj (hr.symm.trans hr')
      rw [hn.state, ← hstate]

end

/-- A node can start from the first block of a new sequencer. -/
theorem exists_followedStart {prim : Primitives} {app : AppState} (h : Started prim app) :
    ∃ node, FollowedStart prim ⟨app, [], node⟩ := by
  have hload : NodeStore.empty.loadLatestState = none := lastRow?_eq_none_iff.mpr rfl
  have hstarted := h
  obtain ⟨identity, l1BlockHash, l1GenesisHeight, now, anchor0, hstart⟩ := h
  simp only [coldStart, bind_ok_iff, Store.writeBlockAndState_ok_iff, pure_ok_iff] at hstart
  obtain ⟨store, ⟨-, rfl⟩, rfl⟩ := hstart
  have hboot : ∃ node, bootstrap prim l1GenesisHeight
    (some (genesis prim l1BlockHash l1GenesisHeight
      now anchor0 (some identity.xOnlyPublicKey) (some identity.xOnlyPublicKey))) .empty
        = .ok node := by
    simp only [bootstrap, Hodlchain.resume, hload, Hodlchain.coldStart, bind_ok_iff, ensure_ok_iff,
      okOr_ok_iff, mapErr_ok_iff, pure_ok_iff, NodeStore.writeBlockAndState_ok_iff]
    exact ⟨_, (), rfl, (), rfl, (), rfl, anchor0, rfl, _, ⟨⟨Std.ExtTreeMap.not_mem_empty,
      Std.ExtTreeMap.not_mem_empty, Std.ExtTreeMap.not_mem_empty⟩, rfl⟩, rfl⟩
  obtain ⟨node, hnode⟩ := hboot
  exact ⟨node, hstarted, rfl, _, Std.ExtTreeMap.getElem?_insert_self, hnode⟩

/-- The view of L1 in `steadyEnv`, at each height. -/
def steadyView (_ : UInt32) : L1View := NodeL1.view lockChain

/-- A mint of seven atoms is submitted, put in block 1 and attested: the block passes on a node
with the first head, and a node that has started from the genesis block comes to a ledger with the
seven atoms. -/
theorem honest_blocks_accepted_shortMint : ∃ s adv state,
    (followedSystem Primitives.sample steadyView).Reachable s ∧
    (adv.attestation, state) ∈ s.attested ∧ s.node.state.totalMintedAtoms = 0 ∧
    state.totalMintedAtoms = 7 ∧ (∃ app tip, steadyEnv.l1Tip = .ok tip ∧
      Passes Primitives.sample (NodeL1.view lockChain) app.shared.state app.shared.head.follower
        (steadyEnv.nextBlock Primitives.sample tip app) state
        (headOf Primitives.sample (steadyEnv.nextBlock Primitives.sample tip app)).follower) ∧
    ∃ w, s.processAdvance Primitives.sample steadyView adv = (.ok (), w) ∧ w.state = state := by
  obtain ⟨app, hstarted, hstate, hmempool, -, -⟩ :=
    exists_started Primitives.sample sampleIdentity
  obtain ⟨tip, htip⟩ := steadyEnv_l1Tip
  obtain ⟨hblock, hrun⟩ := honest_blocks_accepted Primitives.sample
  obtain ⟨node, hstart⟩ := exists_followedStart hstarted
  obtain ⟨hnodeHeight, hnodeState⟩ : node.head.height = 0 ∧ node.state.totalMintedAtoms = 0 := by
    obtain ⟨-, -, genesis, -, hboot⟩ := hstart
    obtain ⟨-, hheight, hnode⟩ := bootstrap_state hboot
    exact ⟨hheight, by rw [hnode]; rfl⟩
  -- the mint is submitted
  have hsubmit : Step Primitives.sample (Produces Primitives.sample steadyView) app
      (submitMint Primitives.sample (NodeL1.view lockChain) 0 shortMint.witness
        shortMint.event.l2Destination app).2 :=
    .submitMint _ _ _ _ (by rw [hmempool]; decide)
  rw [submitMint_shortMint hstate hmempool] at hsubmit
  -- the block is produced
  obtain ⟨hheight, hwrite⟩ := @Started.writable _ _ steadyEnv hstarted rfl
  have hproduce := @produceBlock_done Primitives.sample steadyEnv app.withShortMint tip htip
    ⟨hwrite.call, hwrite.blocks, hwrite.stateSnapshots, hwrite.blockWitnesses⟩ rfl
  have hpasses := (hblock app.withShortMint steadyEnv tip (NodeL1.view lockChain) htip
    fun _ => rfl).1
  have hminted := @shortMint_minted app.withShortMint steadyEnv rfl hstate rfl rfl
  have hallowed : Produces Primitives.sample steadyView steadyEnv app.withShortMint := by
    refine ⟨fun e app' h => ?_, fun _ => rfl⟩
    rw [hproduce] at h
    cases h
  have hproduced : Step Primitives.sample (Produces Primitives.sample steadyView) app.withShortMint
      (steadyEnv.finished Primitives.sample tip app.withShortMint) :=
    .produceBlock hallowed (by rw [hproduce]; rfl)
  rw [← finished_state steadyEnv tip] at hminted hpasses
  generalize steadyEnv.finished Primitives.sample tip app.withShortMint = after at *
  -- the head is attested
  have hreach : (followedSystem Primitives.sample steadyView).Reachable
      ⟨after, [(Attestation.new after.shared.head.height after.shared.head.blockHash
        after.shared.head.stateRoot, after.shared.state)], node⟩ :=
    .step (.step (.step (.init hstart) (.sequencer hsubmit)) (.sequencer hproduced)) .attest
  obtain ⟨w, hw, -, hup⟩ := (hrun steadyView _ hreach).2
    ⟨_, 1, ⟨ByteArr.ofNat 32 1⟩, anchor0, anchor0⟩ _ (List.mem_singleton_self _)
  refine ⟨_, _, _, hreach, List.mem_singleton_self _, hnodeState, hminted,
    ⟨app.withShortMint, tip, htip, hpasses⟩, w, hw, (hup ?_).2⟩
  show node.head.height ≤ after.shared.head.height
  rw [hnodeHeight]
  exact UInt32.zero_le

/-! ### A block behind a failed one -/

/-- A node that has just started from the sequencer's first block has its ledger and head. -/
theorem FollowedStart.agree {prim : Primitives} {s : Followed} (h : FollowedStart prim s) :
    s.node.state = s.app.shared.state ∧ s.node.head = s.app.shared.head.follower := by
  obtain ⟨hstarted, -, genesis, hgenesis, hboot⟩ := h
  obtain ⟨genesis', hrow⟩ := Started.row hstarted
  obtain rfl : genesis = genesis' :=
    Option.some.inj (hgenesis.symm.trans (Store.row_eq_some_iff.mp hrow).1)
  obtain ⟨hhead, -, hstate⟩ := bootstrap_state hboot
  obtain ⟨identity, l1BlockHash, l1GenesisHeight, now, anchor0, hstart⟩ := hstarted
  obtain ⟨block, hrows, hlatest, hfirst, -⟩ := coldStart_latest hstart
  have hsynced : Synced prim s.app := by
    rw [Synced, hfirst]
    exact hlatest.resume
  obtain ⟨r, hr, happ, happHead⟩ := hsynced.row hrows
  obtain rfl := Option.some.inj (hrow.symm.trans hr)
  refine ⟨hstate.trans happ.symm, ?_⟩
  rw [hhead, happHead]
  rfl

/-- A block that the follower's checks refuse is fetched, and nothing else. -/
theorem processAdvance_refused {prim : Primitives} {s : Followed} {view : UInt32 → L1View}
    {adv : ChainAdvance} {block : L2Block} {e : FollowerError}
    (hheight : adv.attestation.height = s.node.head.height + 1)
    (hlt : s.node.head.height < adv.attestation.height)
    (hblock : s.app.store.getBlock adv.attestation.height = some block)
    (hcheck : checkL2Block prim (view adv.attestation.height) s.node.state s.node.head
      adv.attestation.height (some adv.attestation) block = .error e) :
    ∃ w, s.processAdvance prim view adv = (.error (.error e), w) ∧ w.toNodeState = s.node := by
  have hsize : batchSize s.node.head adv.attestation = 1 := by
    rw [UInt32.lt_iff_toNat_lt] at hlt
    have hbound := adv.attestation.height.toNat_lt
    have hnat := congrArg UInt32.toNat hheight
    rw [UInt32.toNat_add, UInt32.toNat_one, Nat.mod_eq_of_lt (by omega)] at hnat
    unfold batchSize
    omega
  have hend : endAttestation adv.attestation adv.attestation.height = some adv.attestation :=
    if_pos rfl
  have hrange : ∀ (i : ℕ) (w : World), w.toNodeState = s.node →
      applyRange prim (Env.plain [] (s.served view)) ((Env.plain [] (s.served view)).served i)
        adv.attestation 1 adv.attestation.height w
        = (.error (.error e), { w with calls := w.calls + 1 }) := by
    intro i w hw
    rw [← hw] at hcheck
    rw [applyRange, hend]
    exact Action.bind_run_error (applyOneL2Block_refused (fun _ => rfl) hblock hcheck)
  have hhead : (World.start s.node).head = s.node.head := rfl
  unfold Followed.processAdvance Hodlchain.processAdvance
  simp only [Action.bind_run, Action.get_run, Action.modify_run, hhead,
    if_neg (UInt32.not_le.mpr hlt), hsize, ← hheight]
  rw [hrange _ _ rfl]
  exact ⟨_, rfl, rfl⟩

/-- A block without transactions that commits to another ledger than the node's is refused. -/
theorem checkL2Block_drifted {prim : Primitives} {l1 : L1View} {state : LedgerState}
    {head : Hodlchain.HeadInfo} {block : L2Block} (htxs : block.txs = [])
    (htxsRoot : computeTxsRoot prim [] = block.header.txsRoot)
    (hroot : state.stateRoot prim ≠ block.header.stateRoot) :
    checkL2Block prim l1 state head block.header.height (some (block.attestation prim)) block
      = .error (.stateRoot block.header.height (state.stateRoot prim) block.header.stateRoot) := by
  have hend : validateEnd prim block (some (block.attestation prim)) = .ok () :=
    validateBlock_ok_iff.mpr ⟨rfl, rfl, rfl, by rw [htxs]; exact htxsRoot⟩
  have hmints : verifyMints prim l1 [] = .ok () := rfl
  have hreplay : state.replay prim [] = .ok state := rfl
  unfold checkL2Block
  rw [hend, htxs, hmints, hreplay]
  simp [ensure, mapErr, hroot, bind, Except.bind]

/-- A call behind the swap has nothing to put in its block, and commits to the swapped ledger. -/
theorem nextBlock_swapped (prim : Primitives) (env env' : BlockEnv) (tip : UInt32 × H256)
    (app : AppState) :
    let block := env'.nextBlock prim tip (env.swapped prim app)
    block.txs = [] ∧ computeTxsRoot prim [] = block.header.txsRoot ∧
      block.header.stateRoot = (env.nextState prim app).stateRoot prim ∧
      block.header.height = app.shared.head.height + 1 := ⟨rfl, rfl, rfl, rfl⟩

/-- What is in place after a call: the block, what is attested of it, and the ledger it commits
to. -/
theorem finished_block (prim : Primitives) (env : BlockEnv) (tip : UInt32 × H256) (app : AppState) :
    let block := env.nextBlock prim tip app
    let after := env.finished prim tip app
    Attestation.new after.shared.head.height after.shared.head.blockHash after.shared.head.stateRoot
        = block.attestation prim ∧
      after.store.getBlock block.header.height = some block ∧
      block.header.stateRoot = after.shared.state.stateRoot prim :=
  ⟨rfl, Std.ExtTreeMap.getElem?_insert_self, rfl⟩

/-- A hash that knows nothing of the accounts: all branches of a tree are one. -/
def flatHash (x : Bytes) : H256 := if x.length = 82 then H256.zero else Primitives.polyHash x

/-- `Primitives.sample` with `flatHash`. -/
def Primitives.flat : Primitives := { Primitives.sample with sha256 := flatHash }

theorem branchHash_flat (left right : H256) :
    branchHash Primitives.flat left right = H256.zero := by
  have hlength : (branchPreimage left right).length = 82 := by
    unfold branchPreimage
    rw [List.length_append, List.length_append, H256.length_raw, H256.length_raw]
    rfl
  exact if_pos hlength

theorem accountsRoot_flat (s : LedgerState) : s.accountsRoot Primitives.flat = H256.zero := by
  unfold LedgerState.accountsRoot computeRoot treeDepth
  rw [rootRecursive]
  split
  · exact branchHash_flat _ _
  · exact branchHash_flat _ _

theorem stateRoot_flat (s : LedgerState) : s.stateRoot Primitives.flat
    = StateComponents.stateRoot Primitives.flat
        ⟨H256.zero, s.nullifiersHash Primitives.flat, s.sequencerFeeAddress⟩ := by
  unfold LedgerState.stateRoot LedgerState.components
  rw [accountsRoot_flat]

/-- `shortMint` verifies under it. -/
theorem shortMint_verify_flat : ∃ credit, shortMint.witness.verify Primitives.flat
    (NodeL1.view lockChain) shortMint.event.l2Destination = .ok credit ∧
      credit.event = shortMint.event := by
  have hverify : (shortMint.witness.verify Primitives.flat (NodeL1.view lockChain)
      shortMint.event.l2Destination).map (·.event) = .ok shortMint.event := by decide +kernel
  exact map_ok_iff.mp hverify

/-- A mint waits, and the write of its block fails behind the swap.  The next call succeeds: its
block has no transaction, and commits to the ledger with the mint.  It is attested, and a node that
stands on the first block refuses it, under the same view of L1. -/
theorem honest_block_refused : ∃ s app app₁ app₂ e, FollowedStart Primitives.flat s ∧
    Step Primitives.flat (fun _ _ => True) s.app app ∧
    produceBlock Primitives.flat failingEnv app = (.error (.error e), app₁) ∧
    produceBlock Primitives.flat steadyEnv app₁ = (.ok (), app₂) ∧
    (∀ i, failingEnv.view i = steadyView 1 ∧ steadyEnv.view i = steadyView 1) ∧
    ∀ adv : ChainAdvance, adv.attestation = Attestation.new app₂.shared.head.height
        app₂.shared.head.blockHash app₂.shared.head.stateRoot →
      ∃ computed header w, Followed.processAdvance Primitives.flat steadyView
          ⟨app₂, [(adv.attestation, app₂.shared.state)], s.node⟩ adv
          = (.error (.error (.stateRoot 1 computed header)), w) ∧
        w.state ≠ app₂.shared.state := by
  obtain ⟨app, hstarted, hstate, hmempool, -, -⟩ :=
    exists_started Primitives.flat sampleIdentity
  obtain ⟨tip, htip⟩ := steadyEnv_l1Tip
  obtain ⟨node, hstart⟩ := exists_followedStart hstarted
  obtain ⟨hnodeState, hnodeHead⟩ := hstart.agree
  have hsubmit : Step Primitives.flat (fun _ _ => True) app
      (submitMint Primitives.flat (NodeL1.view lockChain) 0 shortMint.witness
        shortMint.event.l2Destination app).2 :=
    .submitMint _ _ _ _ (by rw [hmempool]; decide)
  obtain ⟨credit, hcredit, hevent⟩ := shortMint_verify_flat
  rw [submitMint_verified hcredit hevent hstate hmempool] at hsubmit
  obtain ⟨e, hfail⟩ := @failingEnv_run Primitives.flat app.withShortMint
  obtain ⟨hheight, hwrite⟩ := @Started.writable _ _ steadyEnv hstarted rfl
  have hproduce := @produceBlock_done Primitives.flat steadyEnv
    (failingEnv.swapped Primitives.flat app.withShortMint) tip htip
    ⟨hwrite.call, hwrite.blocks, hwrite.stateSnapshots, hwrite.blockWitnesses⟩ rfl
  -- the block that the second call builds
  obtain ⟨htxs, htxsRoot, hnext, hone⟩ := nextBlock_swapped Primitives.flat failingEnv steadyEnv tip
    app.withShortMint
  obtain ⟨hattested, hserved, hdrifted⟩ := finished_block Primitives.flat steadyEnv tip
    (failingEnv.swapped Primitives.flat app.withShortMint)
  generalize steadyEnv.nextBlock Primitives.flat tip
    (failingEnv.swapped Primitives.flat app.withShortMint) = block at *
  generalize steadyEnv.finished Primitives.flat tip
    (failingEnv.swapped Primitives.flat app.withShortMint) = after at *
  have hzero : node.head.height = 0 := by
    rw [hnodeHead]
    exact hheight
  have hup : block.header.height = node.head.height + 1 := by
    rw [hone, hnodeHead]
    rfl
  have hroot : node.state.stateRoot Primitives.flat ≠ block.header.stateRoot := by
    have hminted : failingEnv.nextState Primitives.flat app.withShortMint
        = app.shared.state.applyAll Primitives.flat
            (body Primitives.flat failingEnv.view app.shared.state [shortMint] []) := rfl
    rw [hnodeState, hnext, hminted, hstate, stateRoot_flat, stateRoot_flat]
    decide +kernel
  have hcheck := @checkL2Block_drifted Primitives.flat (steadyView 1) node.state node.head block
    htxs htxsRoot hroot
  refine ⟨⟨app, [], node⟩, _, _, after, e, hstart, hsubmit, hfail, hproduce, fun _ => ⟨rfl, rfl⟩,
    fun adv hadv => ?_⟩
  have hatt : adv.attestation = block.attestation Primitives.flat := hadv.trans hattested
  have hadvHeight : adv.attestation.height = block.header.height := congrArg Attestation.height hatt
  rw [← hatt, ← hadvHeight] at hcheck
  obtain ⟨w, hw, hkept⟩ := @processAdvance_refused Primitives.flat
    ⟨after, [(adv.attestation, after.shared.state)], node⟩ steadyView adv block _
    (hadvHeight.trans hup) (by rw [hadvHeight, hup, hzero]; decide)
    (by rw [hadvHeight]; exact hserved) hcheck
  rw [hadvHeight.trans hup, hzero] at hw
  refine ⟨_, _, w, hw, fun hsame => hroot ?_⟩
  rw [hdrifted, ← hsame, show w.state = node.state from congrArg NodeState.state hkept]

end Hodlchain.Sequencer
