/-
The stored anchor when L1 reorganises.

The follower's cursor only grows, and the stored anchor is never taken back.  What it
relies on is that the anchor keeps its place: the attestations of L1 still lead to
it, and nothing spends it at or below the cursor.  Blocks that are mined on top keep
the place and so does a tick, which carries it to the end of the attestations.  A
reorg need not: the block that comes instead may hold an attestation where the
follower has already looked, or lack the one that made the stored anchor.
-/
import Hodlchain.Node.History
import Hodlchain.Node.Links
import Hodlchain.Sequencer.Producer

namespace Hodlchain

namespace Chain

/-- The attestations lead from the first anchor to this one. -/
def OnPath (c : Chain) (genesis anchor : OutPoint) : Prop := ∃ links, c.Linked genesis links anchor

/-- The end of the attestation chain. -/
structure Ends (c : Chain) (genesis anchor : OutPoint) : Prop where
  onPath : c.OnPath genesis anchor
  unspent : ¬ c.Spends anchor

/-- Nothing spends it at or below a height. -/
def SpentAbove (c : Chain) (h : ℕ) (op : OutPoint) : Prop :=
  ∀ k tx, (k, tx) ∈ c.placed → op ∈ tx.input → h < k

variable {c : Chain} {genesis anchor : OutPoint}

/-! ### Links -/

theorem Linked.snoc {links : List ChainAdvance} {h : ℕ} {tx : BtcTx} {adv : ChainAdvance}
    (hlinked : c.Linked genesis links anchor) (hmem : (h, tx) ∈ c.placed)
    (hspends : anchor ∈ tx.input) (hread : readAdvance h anchor tx = .ok adv) :
    c.Linked genesis (links ++ [adv]) adv.newAnchor := by
  induction links generalizing genesis with
  | nil =>
      obtain rfl : genesis = anchor := hlinked
      exact ⟨⟨h, tx, hmem, hspends, hread⟩, rfl⟩
  | cons first links ih => exact ⟨hlinked.1, ih hlinked.2⟩

theorem Linked.append {links : List ChainAdvance} (more : List BtcBlock)
    (hlinked : c.Linked genesis links anchor) :
    Chain.Linked (c ++ more) genesis links anchor := by
  induction links generalizing genesis with
  | nil => exact hlinked
  | cons first links ih =>
      obtain ⟨⟨h, tx, hmem, hspends, hread⟩, hrest⟩ := hlinked
      refine ⟨⟨h, tx, ?_, hspends, hread⟩, ih hrest⟩
      unfold placed
      rw [placedFrom_append]
      exact List.mem_append_left _ hmem

/-- A transaction has one place. -/
theorem Valid.placed_inj (hc : c.Valid) {h k : ℕ} {tx u : BtcTx} (htx : (h, tx) ∈ c.placed)
    (hu : (k, u) ∈ c.placed) (hspends : anchor ∈ tx.input) (hspends' : anchor ∈ u.input) :
    h = k ∧ tx = u := by
  have hnodup : (c.placed.map Prod.snd).Nodup := by
    rw [← txs_eq_placed]
    exact List.Nodup.of_map _ hc.uniqueTxids
  have hsame := hc.spentOnce tx (mem_txs_of_placed htx) u (mem_txs_of_placed hu) anchor hspends
    hspends'
  exact Prod.mk.inj (List.inj_on_of_nodup_map hnodup htx hu hsame)

/-- The attestation chain has one end. -/
theorem Ends.unique (hc : c.Valid) {other : OutPoint} (h : c.Ends genesis anchor)
    (h' : c.Ends genesis other) : other = anchor := by
  obtain ⟨⟨links, hlinked⟩, hunspent⟩ := h
  obtain ⟨⟨links', hlinked'⟩, hunspent'⟩ := h'
  induction links generalizing genesis links' with
  | nil =>
      obtain rfl : genesis = anchor := hlinked
      cases links' with
      | nil => exact hlinked'.symm
      | cons adv links' =>
          obtain ⟨⟨h, tx, hmem, hspends, -⟩, -⟩ := hlinked'
          exact absurd ⟨tx, mem_txs_of_placed hmem, hspends⟩ hunspent
  | cons adv links ih =>
      obtain ⟨⟨h, tx, hmem, hspends, hread⟩, hrest⟩ := hlinked
      cases links' with
      | nil =>
          obtain rfl : genesis = other := hlinked'
          exact absurd ⟨tx, mem_txs_of_placed hmem, hspends⟩ hunspent'
      | cons adv' links' =>
          obtain ⟨⟨h', tx', hmem', hspends', hread'⟩, hrest'⟩ := hlinked'
          obtain ⟨rfl, rfl⟩ := hc.placed_inj hmem hmem' hspends hspends'
          obtain rfl : adv = adv' := Except.ok.inj (hread.symm.trans hread')
          exact ih hrest links' hrest'

/-! ### Scans -/

theorem mem_placed_of_scan {h : ℕ} {adv : ChainAdvance}
    (hscan : scanBlockForChainAdvance c h anchor = .ok (some adv)) :
    ∃ tx, (h, tx) ∈ c.placed ∧ anchor ∈ tx.input ∧ readAdvance h anchor tx = .ok adv := by
  unfold scanBlockForChainAdvance at hscan
  split at hscan
  · cases hscan
  · rename_i block hblock
    split at hscan
    · cases hscan
    · rename_i tx hfind
      have hmem := mem_placed.mpr ⟨block, hblock, List.mem_of_find?_eq_some hfind⟩
      have hspends : anchor ∈ tx.input := by simpa using List.find?_some hfind
      split at hscan
      · cases hscan
      · rename_i adv' hread
        obtain rfl : adv' = adv := by simpa using hscan
        exact ⟨tx, hmem, hspends, hread⟩

theorem not_mem_input_of_scan {h : ℕ} (hscan : scanBlockForChainAdvance c h anchor = .ok none) :
    ∀ tx, (h, tx) ∈ c.placed → anchor ∉ tx.input := by
  intro tx hmem hspends
  obtain ⟨block, hblock, htx⟩ := mem_placed.mp hmem
  unfold scanBlockForChainAdvance at hscan
  rw [hblock] at hscan
  dsimp only at hscan
  cases hfind : block.txdata.find? fun u => u.input.contains anchor with
  | none => exact List.find?_eq_none.mp hfind tx htx (by simpa using hspends)
  | some u =>
      rw [hfind] at hscan
      dsimp only at hscan
      cases hread : readAdvance h anchor u with
      | error e =>
          rw [hread] at hscan
          cases hscan
      | ok adv =>
          rw [hread] at hscan
          cases hscan

/-- What spends a new anchor comes above every height below its own. -/
theorem Valid.spentAbove_new (hc : c.Valid) {h k : ℕ} {tx : BtcTx} {adv : ChainAdvance}
    (hmem : (k, tx) ∈ c.placed) (hread : readAdvance k anchor tx = .ok adv) (hlt : h < k) :
    c.SpentAbove h adv.newAnchor := by
  intro k' u hu hspends
  obtain ⟨-, -, hnew, -⟩ := readAdvance_ok hread
  exact Nat.lt_of_lt_of_le hlt (hc.spent_above hmem (by rw [hnew]) hu hspends)

/-- Nothing in the next block. -/
theorem SpentAbove.succ {h : ℕ} (habove : c.SpentAbove h anchor)
    (hnone : ∀ tx, (h + 1, tx) ∈ c.placed → anchor ∉ tx.input) : c.SpentAbove (h + 1) anchor := by
  intro k tx hmem hspends
  have hlt := habove k tx hmem hspends
  by_cases hk : k = h + 1
  · subst hk
    exact absurd hspends (hnone tx hmem)
  · omega

/-- Nothing up to the tip, nothing at all. -/
theorem SpentAbove.unspent {h : ℕ} (habove : c.SpentAbove h anchor) (htip : c.tip ≤ h) :
    ¬ c.Spends anchor := by
  rintro ⟨tx, htx, hspends⟩
  rw [txs_eq_placed] at htx
  obtain ⟨⟨k, tx⟩, hmem, rfl⟩ := List.mem_map.mp htx
  obtain ⟨block, hblock, -⟩ := mem_placed.mp hmem
  have hk := (List.getElem?_eq_some_iff.mp hblock).1
  have hlt := habove k tx hmem hspends
  unfold tip at htip
  omega

/-- More blocks only bring spends above the old tip. -/
theorem SpentAbove.append {h : ℕ} (habove : c.SpentAbove h anchor) (hlt : h < c.length)
    (more : List BtcBlock) : Chain.SpentAbove (c ++ more) h anchor := by
  intro k tx hmem hspends
  unfold placed at hmem
  rw [placedFrom_append, Nat.zero_add] at hmem
  rcases List.mem_append.mp hmem with hmem | hmem
  · exact habove k tx hmem hspends
  · exact Nat.lt_of_lt_of_le hlt (placedFrom_le _ hmem)

end Chain

/-! ### The anchor's place -/

/-- The stored anchor is on the path of a chain, and nothing spends it up to a height. -/
def NodeStore.Placed (s : NodeStore) (genesis : OutPoint) (c : Chain) (h : ℕ) : Prop :=
  ∃ anchor, s.anchor = some anchor ∧ c.OnPath genesis anchor ∧ c.SpentAbove h anchor

section

variable {prim : Primitives} {genesis : OutPoint} {c : Chain} {env : Env}

theorem AdvanceEnds.cursor {served : Served} {adv : ChainAdvance} {n n' : NodeState}
    {r : Except Halt Unit} {hits : List (CallSite × Fault)}
    (h : AdvanceEnds prim served adv n r n' hits) : n'.cursor = n.cursor := by
  have hsame : n'.store.l1Cursor = n.store.l1Cursor := by
    cases h with
    | known _ => rfl
    | halted _ hrange => exact hrange.frame.2.1
    | setAnchorHit _ _ hrange => exact hrange.frame.2.1
    | recordHit _ _ hrange => exact hrange.frame.2.1
    | done _ hrange => exact hrange.frame.2.1
  unfold NodeState.cursor
  rw [hsame]

/-- A batch for a link of the chain leaves the anchor in place. -/
theorem AdvanceEnds.placed (hc : c.Valid) {served : Served} {adv : ChainAdvance} {n n' : NodeState}
    {r : Except Halt Unit} {hits : List (CallSite × Fault)} {h : ℕ} {anchor : OutPoint}
    (hends : AdvanceEnds prim served adv n r n' hits) (hplaced : n.store.Placed genesis c h)
    (hanchor : n.store.anchor = some anchor)
    (hscan : scanBlockForChainAdvance c (h + 1) anchor = .ok (some adv)) :
    n'.store.Placed genesis c h := by
  obtain ⟨tx, hmem, hspends, hread⟩ := Chain.mem_placed_of_scan hscan
  obtain ⟨stored, hstored, hpath, habove⟩ := hplaced
  obtain rfl : anchor = stored := Option.some.inj (hanchor.symm.trans hstored)
  rcases hends.anchor with hsame | hmoved
  · exact ⟨anchor, hsame.trans hanchor, hpath, habove⟩
  · obtain ⟨links, hlinked⟩ := hpath
    exact ⟨adv.newAnchor, hmoved, ⟨_, hlinked.snoc hmem hspends hread⟩,
      hc.spentAbove_new hmem hread (Nat.lt_succ_self h)⟩

/-! ### A tick -/

/-- The inner loop keeps the place, and leaves no spend of the anchor in its block. -/
theorem scanLoop_placed (hc : env.chain.Valid) {h fuel : ℕ} {w w' : World} {r : Except Halt Unit}
    (hrun : scanLoop prim env (h + 1) fuel w = (r, w'))
    (hplaced : w.store.Placed genesis env.chain h) : w'.store.Placed genesis env.chain h ∧
      w'.cursor = w.cursor ∧ (r = .ok () → w'.store.Placed genesis env.chain (h + 1)) := by
  have hkeeps : BlockKeeps prim env (h + 1) fun n _ =>
      n.store.Placed genesis env.chain h ∧ n.cursor = w.cursor := by
    intro n log anchor adv r n' hits hn hanchor hscan hends
    exact ⟨hends.placed hc hn.1 hanchor hscan, hends.cursor.trans hn.2⟩
  obtain ⟨⟨hplaced', hcursor⟩, hok⟩ := hkeeps.loop fuel hrun ⟨hplaced, rfl⟩
  refine ⟨hplaced', hcursor, fun hr => ?_⟩
  obtain ⟨anchor, hanchor, hscan⟩ := hok hr
  obtain ⟨stored, hstored, hpath, habove⟩ := hplaced'
  obtain rfl : anchor = stored := Option.some.inj (hanchor.symm.trans hstored)
  exact ⟨anchor, hanchor, hpath, habove.succ (Chain.not_mem_input_of_scan hscan)⟩

/-- What a tick relies on and leaves behind. -/
structure NodeState.InPlace (n : NodeState) (genesis : OutPoint) (c : Chain) : Prop where
  reached : n.cursor < c.length
  placed : n.store.Placed genesis c n.cursor

/-- The outer loop carries the place along with the cursor. -/
theorem scanHeights_inPlace (hc : env.chain.Valid) {fuel : ℕ} : ∀ (k : ℕ) {h : ℕ} {w w' : World}
    {r : Except Halt Unit}, scanHeights prim env fuel k (h + 1) w = (r, w') → w.cursor = h →
    h + k < env.chain.length → w.store.Placed genesis env.chain h →
    w'.InPlace genesis env.chain ∧ (r = .ok () → w'.cursor = h + k) := by
  intro k
  induction k with
  | zero =>
      intro h w w' r hrun hcursor hlt hplaced
      obtain ⟨rfl, rfl⟩ := Prod.mk.inj hrun
      subst hcursor
      exact ⟨⟨hlt, hplaced⟩, fun _ => rfl⟩
  | succ k ih =>
      intro h w w' r hrun hcursor hlt hplaced
      rw [scanHeights] at hrun
      rcases hloop : scanLoop prim env (h + 1) fuel w with ⟨r₁, w₁⟩
      obtain ⟨hplaced₁, hcursor₁, hok⟩ := scanLoop_placed hc hloop hplaced
      have hin₁ : w₁.InPlace genesis env.chain := by
        have hh : w₁.cursor = h := hcursor₁.trans hcursor
        refine ⟨?_, ?_⟩
        · rw [hh]
          omega
        · rwa [hh]
      cases r₁ with
      | error halt =>
          rw [Action.bind_run_error hloop] at hrun
          obtain ⟨rfl, rfl⟩ := Prod.mk.inj hrun
          exact ⟨hin₁, fun h => by cases h⟩
      | ok _ =>
          rw [Action.bind_run_ok hloop] at hrun
          rcases callModify_ends env .setL1Cursor
            (fun v => { v with store := v.store.setL1Cursor (h + 1) }) w₁
            with ⟨-, hset⟩ | ⟨f, -, hset⟩
          · rw [setL1Cursor, Action.bind_run_ok hset] at hrun
            obtain ⟨hin, hend⟩ := ih hrun rfl (by omega) (hok rfl)
            refine ⟨hin, fun hr => (hend hr).trans ?_⟩
            omega
          · rw [setL1Cursor, Action.bind_run_error hset] at hrun
            obtain ⟨rfl, rfl⟩ := Prod.mk.inj hrun
            exact ⟨hin₁, fun h => by cases h⟩

/-- **A tick keeps the anchor in place, and one that returns leaves it at the end.** -/
theorem tick_inPlace (hc : env.chain.Valid) {fuel : ℕ} {w w' : World} {r : Except Halt Unit}
    (hrun : tick prim env fuel w = (r, w')) (hin : w.InPlace genesis env.chain) :
    w'.InPlace genesis env.chain ∧ (r = .ok () →
      ∃ anchor, w'.store.anchor = some anchor ∧ env.chain.Ends genesis anchor) := by
  have hreached := hin.reached
  rcases tick_cases env fuel w with ⟨site, f, w₁, -, htick, -, hnode, -⟩ | ⟨-, -, htick⟩
  · rw [htick] at hrun
    obtain ⟨rfl, rfl⟩ := Prod.mk.inj hrun
    refine ⟨by rwa [hnode], fun hr => ?_⟩
    cases f <;> cases hr
  · rw [htick] at hrun
    have hlt : w.cursor + (env.chain.tip - w.cursor) < env.chain.length := by
      unfold Chain.tip
      omega
    obtain ⟨hin', hcursor⟩ := scanHeights_inPlace hc _ hrun rfl hlt hin.placed
    refine ⟨hin', fun hr => ?_⟩
    obtain ⟨anchor, hanchor, hpath, habove⟩ := hin'.placed
    refine ⟨anchor, hanchor, hpath, habove.unspent ?_⟩
    rw [hcursor hr]
    omega

/-! ### Histories -/

variable (prim)

/-- What happens to L1 and to a node that watches it.  Blocks come on top, or a few of the last
ones are replaced by more; the node ticks on the chain there is, or is started again. -/
inductive WatchStep (allowed : NodeState → Chain → Prop) : Chain × World → Chain × World → Prop
  | mined {c more : Chain} {w : World} : Chain.Valid (c ++ more) →
      WatchStep allowed (c, w) (c ++ more, w)
  | reorg {kept dropped more : Chain} {w : World} : Chain.Valid (kept ++ more) →
      dropped.length < Sequencer.reorgFinalityDepth.toNat → dropped.length < more.length →
      allowed w.toNodeState (kept ++ more) →
      WatchStep allowed (kept ++ dropped, w) (kept ++ more, w)
  | node {c : Chain} {w w' : World} : NodeStep prim (fun env => env.chain = c) w w' →
      WatchStep allowed (c, w) (c, w')

abbrev WatchRun (allowed : NodeState → Chain → Prop) : Chain × World → Chain × World → Prop :=
  Relation.ReflTransGen (WatchStep prim allowed)

/-- A reorg that the stored anchor outlives: it stays on the path, and nothing spends it at or
below the cursor. -/
def KeepsPlace (genesis : OutPoint) (n : NodeState) (c : Chain) : Prop :=
  n.store.Placed genesis c n.cursor

variable {prim}

theorem NodeStep.inPlace {w w' : World} (hc : c.Valid)
    (hstep : NodeStep prim (fun env => env.chain = c) w w') (hin : w.InPlace genesis c) :
    w'.InPlace genesis c := by
  cases hstep with
  | tick henv hrun _ _ =>
      subst henv
      exact (tick_inPlace hc hrun hin).1
  | crash henv hrun _ =>
      subst henv
      obtain ⟨hreached, hplaced⟩ := (tick_inPlace hc hrun hin).1
      exact ⟨hreached, hplaced⟩
  | restart _ => exact ⟨hin.reached, hin.placed⟩

theorem WatchStep.inPlace {p q : Chain × World}
    (hstep : WatchStep prim (KeepsPlace genesis) p q) (hc : p.1.Valid)
    (hin : p.2.InPlace genesis p.1) : q.1.Valid ∧ q.2.InPlace genesis q.1 := by
  cases hstep with
  | @mined c more w hvalid =>
      obtain ⟨anchor, hanchor, ⟨links, hlinked⟩, habove⟩ := hin.placed
      have hreached : w.cursor < c.length := hin.reached
      refine ⟨hvalid, ?_, anchor, hanchor, ⟨links, hlinked.append more⟩,
        habove.append hreached more⟩
      show w.cursor < (c ++ more).length
      rw [List.length_append]
      omega
  | @reorg kept dropped more w hvalid _ hlonger hplaced =>
      refine ⟨hvalid, ?_, hplaced⟩
      have hreached : w.cursor < (kept ++ dropped).length := hin.reached
      show w.cursor < (kept ++ more).length
      rw [List.length_append] at hreached ⊢
      omega
  | node hnode => exact ⟨hc, hnode.inPlace hc hin⟩

theorem WatchRun.inPlace {p q : Chain × World} (hrun : WatchRun prim (KeepsPlace genesis) p q)
    (hc : p.1.Valid) (hin : p.2.InPlace genesis p.1) :
    q.1.Valid ∧ q.2.InPlace genesis q.1 := by
  induction hrun with
  | refl => exact ⟨hc, hin⟩
  | tail _ hstep ih => exact hstep.inPlace ih.1 ih.2

/-- **Across reorgs that keep its place, the stored anchor ends every tick at the end.** -/
theorem anchor_canonical {w w' : World} {c' : Chain} (hc : c.Valid)
    (hanchor : w.store.anchor = some genesis) (hreached : w.cursor < c.length)
    (hfresh : c.SpentAbove w.cursor genesis)
    (hrun : WatchRun prim (KeepsPlace genesis) (c, w) (c', w')) {fuel : ℕ} {w'' : World}
    (henv : env.chain = c') (htick : tick prim env fuel w' = (.ok (), w'')) :
    ∃ anchor, w''.store.anchor = some anchor ∧ c'.Ends genesis anchor ∧
      ∀ other, c'.Ends genesis other → other = anchor := by
  obtain ⟨hc', hin⟩ := hrun.inPlace hc ⟨hreached, genesis, hanchor, ⟨[], rfl⟩, hfresh⟩
  subst henv
  obtain ⟨anchor, hstored, hends⟩ := (tick_inPlace hc' htick hin).2 rfl
  exact ⟨anchor, hstored, hends, fun other hother => hends.unique hc' hother⟩

end

/-! ### One block replaced

The node starts from its genesis block, ticks on a chain of two blocks, and ticks again when the
second of them has been replaced by two others.
-/

/-- The surroundings of a tick on a chain, without a fault and with `block1` served. -/
def watchEnv (c : Chain) : Env := { shortEnv [block1] block1 none with chain := c }

/-- What is left of a tick there. -/
def watchTick (c : Chain) (w : World) : World := (tick Primitives.headers (watchEnv c) 3 w).2

/-- The anchor and the cursor of a node. -/
def World.place (w : World) : Option OutPoint × ℕ := (w.store.anchor, w.cursor)

def emptyBtcBlock : BtcBlock := ⟨[]⟩

def attestingBlock : BtcBlock := ⟨[attestingTx block1]⟩

/-- A later attestation that spends the first anchor too. -/
def repostedTx : BtcTx := { attestingTx block1 with txid := ⟨ByteArr.ofNat 32 2⟩ }

def repostedBlock : BtcBlock := ⟨[repostedTx]⟩

/-- What a tick there answers, and the place it leaves. -/
def seenTick (c : Chain) (w : World) : Except Halt Unit × (Option OutPoint × ℕ) :=
  ((tick Primitives.headers (watchEnv c) 3 w).1, (watchTick c w).place)

/-- Both ticks return, the first leaving this place. -/
theorem watch_run {last : BtcBlock} {more : Chain} {place₁ place₂ : Option OutPoint × ℕ} {w : World}
    (hplace : w.place = (some anchor0, 0))
    (hfirst : seenTick [emptyBtcBlock, last] w = (.ok (), place₁))
    (hsecond : seenTick (emptyBtcBlock :: more) (watchTick [emptyBtcBlock, last] w) =
      (.ok (), place₂))
    (hvalid : Chain.Valid (emptyBtcBlock :: more)) (hlonger : 1 < more.length)
    {allowed : NodeState → Chain → Prop}
    (hallowed : ∀ w : World, w.place = place₁ → allowed w.toNodeState (emptyBtcBlock :: more)) :
    ∃ w w' w'', w.place = (some anchor0, 0) ∧
      WatchRun Primitives.headers allowed ([emptyBtcBlock, last], w) (emptyBtcBlock :: more, w') ∧
      tick Primitives.headers (watchEnv (emptyBtcBlock :: more)) 3 w' = (.ok (), w'') ∧
      w''.place = place₂ := by
  obtain ⟨hok, hplace₁⟩ := Prod.mk.inj hfirst
  obtain ⟨hok', hplace₂⟩ := Prod.mk.inj hsecond
  refine ⟨w, watchTick [emptyBtcBlock, last] w, _, hplace, ?_, Prod.ext hok' rfl, hplace₂⟩
  refine Relation.ReflTransGen.head (.node (.tick rfl (Prod.ext hok rfl) nofun nofun)) ?_
  have hshallow : [last].length < Sequencer.reorgFinalityDepth.toNat := by
    show 1 < Sequencer.reorgFinalityDepth.toNat
    decide
  exact .single (@WatchStep.reorg _ allowed [emptyBtcBlock] [last] more _ hvalid hshallow hlonger
    (hallowed _ hplace₁))

/-- The transaction that attests `block1` is mined in a block that replaces one the follower has
looked at, and is never found. -/
def overtaken : Chain := [emptyBtcBlock, attestingBlock, emptyBtcBlock]

/-- It is evicted by a reorg, and a later one is posted that spends the same anchor. -/
def evicted : Chain := [emptyBtcBlock, emptyBtcBlock, repostedBlock]

/-- The transaction is mined again, in the block that comes instead. -/
def remined : Chain :=
  [emptyBtcBlock, ⟨[⟨⟨ByteArr.ofNat 32 3⟩, [], []⟩, attestingTx block1]⟩, emptyBtcBlock]

/-- The anchor that the transaction with an id leaves. -/
def anchorOf (id : ℕ) : OutPoint := ⟨⟨ByteArr.ofNat 32 id⟩, 1⟩

/-- A chain with one transaction, besides ones that spend nothing. -/
theorem valid_of_spender {c : Chain} (tx : BtcTx) (hids : c.UniqueTxids)
    (hothers : ∀ u ∈ c.txs, u.input = [] ∨ u = tx)
    (hnone : ∀ op ∈ tx.input, ∀ u ∈ c.txs, op.txid ≠ u.txid) : c.Valid where
  uniqueTxids := hids
  spentOnce := by
    intro u hu v hv op hop hop'
    rcases hothers u hu with hempty | rfl
    · rw [hempty] at hop
      cases hop
    · rcases hothers v hv with hempty | rfl
      · rw [hempty] at hop'
        cases hop'
      · rfl
  notOwn := by
    intro u hu op hop
    rcases hothers u hu with hempty | rfl
    · rw [hempty] at hop
      cases hop
    · exact hnone op hop u hu
  notLater := by
    refine List.Pairwise.imp_of_mem ?_ (List.pairwise_of_forall fun _ _ => trivial)
    intro u v hu hv _ op hop
    rcases hothers u hu with hempty | rfl
    · rw [hempty] at hop
      cases hop
    · exact hnone op hop v hv

theorem quiet_valid : Chain.Valid [emptyBtcBlock, emptyBtcBlock] :=
  ⟨List.nodup_nil, nofun, nofun, .nil⟩

theorem posted_valid : Chain.Valid [emptyBtcBlock, attestingBlock] :=
  valid_of_spender (attestingTx block1) (by decide) (by
    simp [attestingBlock, emptyBtcBlock, Chain.txs]) (by decide)

theorem overtaken_valid : overtaken.Valid :=
  valid_of_spender (attestingTx block1) (by decide) (by
    simp [overtaken, attestingBlock, emptyBtcBlock, Chain.txs]) (by decide)

theorem evicted_valid : evicted.Valid :=
  valid_of_spender repostedTx (by decide) (by
    simp [evicted, repostedBlock, emptyBtcBlock, Chain.txs]) (by decide)

/-- A transaction with the script of an attestation is read as the link it is. -/
theorem readAdvance_of_script {tx : BtcTx} {out0 out1 : TxOut} {att : Attestation}
    (hout : tx.output = [out0, out1]) (hscript : out0.scriptPubkey = att.toScript)
    (hversion : att.version = attestationVersion) (h : ℕ) (anchor : OutPoint) :
    readAdvance h anchor tx = .ok ⟨att, h, tx.txid, anchor, ⟨tx.txid, 1⟩⟩ := by
  unfold readAdvance
  rw [hout]
  simp only [hscript, Attestation.tryFromScript_toScript hversion]

theorem evicted_ends : evicted.Ends anchor0 (anchorOf 2) := by
  refine ⟨⟨[{ firstAdvance with l1Height := 2, txid := repostedTx.txid, newAnchor := anchorOf 2 }],
    ⟨2, repostedTx, ?_, ?_, ?_⟩, rfl⟩, ?_⟩
  · exact Chain.mem_placed.mpr ⟨repostedBlock, rfl, List.mem_singleton_self _⟩
  · exact List.mem_singleton_self anchor0
  · exact readAdvance_of_script rfl rfl rfl 2 anchor0
  · decide

theorem spentAbove_zero (rest : Chain) (op : OutPoint) :
    Chain.SpentAbove (emptyBtcBlock :: rest) 0 op := by
  intro k tx hmem hspends
  obtain ⟨block, hblock, htx⟩ := Chain.mem_placed.mp hmem
  cases k with
  | zero =>
      obtain rfl : emptyBtcBlock = block := Option.some.inj hblock
      cases htx
  | succ k => exact Nat.succ_pos k

/-- First ticks from a world, and the second ticks after them. -/
def seenTicks (w : World) : List (Except Halt Unit × (Option OutPoint × ℕ)) :=
  let quiet := watchTick [emptyBtcBlock, emptyBtcBlock] w
  let posted := watchTick [emptyBtcBlock, attestingBlock] w
  [seenTick [emptyBtcBlock, emptyBtcBlock] w, seenTick overtaken quiet,
    seenTick [emptyBtcBlock, attestingBlock] w, seenTick evicted posted, seenTick remined posted]

theorem seenTicks_start : startWorld.map (fun w => (w.place, seenTicks w))
    = some ((some anchor0, 0),
        [(.ok (), (some anchor0, 1)), (.ok (), (some anchor0, 2)), (.ok (), (some (anchorOf 1), 1)),
          (.ok (), (some (anchorOf 1), 2)), (.ok (), (some (anchorOf 1), 2))]) := by
  decide +kernel

theorem ticks_start : ∃ w : World, w.place = (some anchor0, 0) ∧
    seenTick [emptyBtcBlock, emptyBtcBlock] w = (.ok (), (some anchor0, 1)) ∧
    seenTick overtaken (watchTick [emptyBtcBlock, emptyBtcBlock] w) = (.ok (), (some anchor0, 2)) ∧
    seenTick [emptyBtcBlock, attestingBlock] w = (.ok (), (some (anchorOf 1), 1)) ∧
    seenTick evicted (watchTick [emptyBtcBlock, attestingBlock] w) =
    (.ok (), (some (anchorOf 1), 2)) ∧
    seenTick remined (watchTick [emptyBtcBlock, attestingBlock] w)
      = (.ok (), (some (anchorOf 1), 2)) := by
  obtain ⟨w, -, hseen⟩ := Option.map_eq_some_iff.mp seenTicks_start
  obtain ⟨hplace, hticks⟩ := Prod.mk.inj hseen
  unfold seenTicks at hticks
  simp only [List.cons.injEq, and_true] at hticks
  exact ⟨w, hplace, hticks⟩

/-- With its last block replaced, a chain of two leads a node that has started from its genesis
block to a tick that returns and leaves an anchor which is not the end. -/
def Strays (last : BtcBlock) (c' : Chain) : Prop :=
  Chain.Valid [emptyBtcBlock, last] ∧ Chain.SpentAbove [emptyBtcBlock, last] 0 anchor0 ∧
  ∃ w w' w'', w.place = (some anchor0, 0) ∧
    WatchRun Primitives.headers (fun _ _ => True) ([emptyBtcBlock, last], w) (c', w') ∧
    tick Primitives.headers (watchEnv c') 3 w' = (.ok (), w'') ∧
    ∀ anchor, w''.store.anchor = some anchor → ¬ c'.Ends anchor0 anchor

/-- **The follower misses an attestation that a reorg puts at its cursor, and keeps an anchor
that a reorg has taken away.** -/
theorem anchor_strays :
    Strays emptyBtcBlock overtaken ∧ Strays attestingBlock evicted := by
  obtain ⟨start, hstart, hquiet, hovertaken, hposted, hevicted, -⟩ := ticks_start
  constructor
  · refine ⟨quiet_valid, spentAbove_zero _ _, ?_⟩
    obtain ⟨w, w', w'', hplace, hrun, htick, hend⟩ := @watch_run _ _ _ _ _ hstart hquiet
      hovertaken overtaken_valid (by decide) (fun _ _ => True) fun _ _ => trivial
    refine ⟨w, w', w'', hplace, hrun, htick, fun anchor hanchor hends => hends.unspent ?_⟩
    obtain rfl : anchor0 = anchor := Option.some.inj ((congrArg Prod.fst hend).symm.trans hanchor)
    exact ⟨attestingTx block1, by simp [overtaken, attestingBlock, Chain.txs], by
      simp [attestingTx]⟩
  · refine ⟨posted_valid, spentAbove_zero _ _, ?_⟩
    obtain ⟨w, w', w'', hplace, hrun, htick, hend⟩ := @watch_run _ _ _ _ _ hstart hposted
      hevicted evicted_valid (by decide) (fun _ _ => True) fun _ _ => trivial
    refine ⟨w, w', w'', hplace, hrun, htick, fun anchor hanchor hends => ?_⟩
    obtain rfl : anchorOf 1 = anchor :=
      Option.some.inj ((congrArg Prod.fst hend).symm.trans hanchor)
    exact absurd (evicted_ends.unique evicted_valid hends) (by decide)

theorem remined_valid : remined.Valid :=
  valid_of_spender (attestingTx block1) (by decide) (by
    simp [remined, emptyBtcBlock, Chain.txs]) (by decide)

theorem remined_keepsPlace {w : World} (hplace : w.place = (some (anchorOf 1), 1)) :
    KeepsPlace anchor0 w.toNodeState remined := by
  obtain ⟨hanchor, hcursor⟩ := Prod.mk.inj hplace
  unfold KeepsPlace
  rw [hcursor]
  refine ⟨anchorOf 1, hanchor, ⟨[firstAdvance], ⟨1, attestingTx block1, ?_, ?_, ?_⟩, rfl⟩, ?_⟩
  · exact Chain.mem_placed.mpr ⟨_, rfl, by simp⟩
  · exact List.mem_singleton_self anchor0
  · exact readAdvance_of_script rfl rfl rfl 1 anchor0
  · have hunspent : ∀ p ∈ remined.placed, anchorOf 1 ∉ p.2.input := by decide
    exact fun k tx hmem hspends => absurd hspends (hunspent _ hmem)

/-- The attestation that is mined again is still the end. -/
theorem anchor_canonical_remined : ∃ w w' w'', w.place = (some anchor0, 0) ∧
    WatchRun Primitives.headers (KeepsPlace anchor0) ([emptyBtcBlock, attestingBlock], w)
      (remined, w') ∧
    tick Primitives.headers (watchEnv remined) 3 w' = (.ok (), w'') ∧
    ∃ anchor, w''.store.anchor = some anchor ∧ remined.Ends anchor0 anchor ∧
      ∀ other, remined.Ends anchor0 other → other = anchor := by
  obtain ⟨start, hstart, -, -, hposted, -, hremined⟩ := ticks_start
  obtain ⟨w, w', w'', hplace, hrun, htick, -⟩ := watch_run hstart hposted hremined remined_valid
    (by decide) fun _ => remined_keepsPlace
  obtain ⟨hanchor, hcursor⟩ := Prod.mk.inj hplace
  refine ⟨w, w', w'', hplace, hrun, htick,
    anchor_canonical posted_valid hanchor ?_ ?_ hrun rfl htick⟩
  · rw [hcursor]
    decide
  · rw [hcursor]
    exact spentAbove_zero _ _

end Hodlchain
