/-
A node that catches up.

Where the heights on L1 rise, a node stands between two links: its anchor is the one the
next link spends, its head is below the height attested there, and its cursor below the
block.  A core step keeps that, and while there is a block above the cursor there is a
step.  So a tick that is not disturbed ends at the last attestation, wherever it started.
-/
import Hodlchain.Wallet.Deployment

namespace Hodlchain

/-! ### What a scan finds -/

namespace Chain

section

variable {anchor last : OutPoint} {c : Chain} {attested : List Attestation}
  {before after : List ChainAdvance}

/-- The links are in the order of their blocks. -/
theorem pass_heights (txs : List (ℕ × BtcTx)) : ∀ anchor,
    ((pass anchor txs).1.map (·.l1Height)).Sublist (txs.map Prod.fst) := by
  induction txs with
  | nil => exact fun _ => .slnil
  | cons p txs ih =>
      intro anchor
      obtain ⟨height, tx⟩ := p
      rw [pass_cons]
      by_cases hspends : tx.input.contains anchor = true
      · rw [if_pos hspends]
        cases hread : readAdvance height anchor tx with
        | error e => exact List.nil_sublist _
        | ok adv =>
            obtain ⟨-, -, -, hheight⟩ := readAdvance_ok hread
            show (adv.l1Height :: _).Sublist (height :: _)
            rw [hheight]
            exact (ih adv.newAnchor).cons_cons height
      · rw [if_neg hspends]
        exact (ih anchor).cons height

theorem links_heights (anchor : OutPoint) (c : Chain) :
    ((c.links anchor).map (·.l1Height)).Pairwise (· ≤ ·) :=
  (List.pairwise_map.mpr (placedFrom_pairwise 0 c)).sublist (pass_heights _ _)

/-- A link is in a block of the chain. -/
theorem links_l1Height_lt {adv : ChainAdvance} (hadv : adv ∈ c.links anchor) :
    adv.l1Height < c.length := by
  have hmem := (pass_heights c.placed anchor).subset (List.mem_map_of_mem hadv)
  obtain ⟨⟨height, tx⟩, hplaced, hheight⟩ := List.mem_map.mp hmem
  obtain ⟨block, hblock, -⟩ := mem_placed.mp hplaced
  rw [← show height = adv.l1Height from hheight]
  exact (List.getElem?_eq_some_iff.mp hblock).1

/-- The links that come with more blocks are in these. -/
theorem Carries.links_later (h : c.Carries anchor attested) (more : List BtcBlock) :
    ∃ later, Chain.links anchor (c ++ more) = c.links anchor ++ later ∧
      ∀ adv ∈ later, c.length ≤ adv.l1Height := by
  obtain ⟨last, hlast⟩ := h.unbroken
  have hplaced : Chain.placed (c ++ more) = c.placed ++ placedFrom (0 + c.length) more :=
    placedFrom_append 0 c more
  refine ⟨(pass last (placedFrom (0 + c.length) more)).1, ?_, fun adv hadv => ?_⟩
  · unfold links
    rw [hplaced, pass_append, Followed.andThen, hlast]
  · have hmem := (pass_heights (placedFrom (0 + c.length) more) last).subset
      (List.mem_map_of_mem hadv)
    obtain ⟨p, hp, hheight⟩ := List.mem_map.mp hmem
    have hle := placedFrom_le p hp
    rw [← hheight]
    omega

/-- A pass without links finds no spend. -/
theorem pass_nil {txs : List (ℕ × BtcTx)} (h : pass anchor txs = ([], .ok last)) :
    ∀ p ∈ txs, anchor ∉ p.2.input := by
  induction txs with
  | nil => exact fun p hp => absurd hp List.not_mem_nil
  | cons q txs ih =>
      obtain ⟨height, tx⟩ := q
      rw [pass_cons] at h
      by_cases hspends : tx.input.contains anchor = true
      · rw [if_pos hspends] at h
        cases hread : readAdvance height anchor tx with
        | error e =>
            rw [hread] at h
            cases h
        | ok adv =>
            rw [hread] at h
            cases h
      · rw [if_neg hspends] at h
        refine List.forall_mem_cons.mpr ⟨fun hop => ?_, ih h⟩
        exact hspends (List.contains_iff_mem.mpr hop)

/-- **What spends the anchor of a link** is the transaction of the next link. -/
theorem Carries.spender (h : c.Carries anchor attested) (hsplit : c.links anchor = before ++ after)
    {k : ℕ} {tx : BtcTx} (hplaced : (k, tx) ∈ c.placed)
    (hspends : lastAnchor anchor (before.map ChainAdvance.step) ∈ tx.input) :
    ∃ adv rest, after = adv :: rest ∧ adv.l1Height = k ∧
      readAdvance k (lastAnchor anchor (before.map ChainAdvance.step)) tx = .ok adv := by
  obtain ⟨last, front, height, tx₀, back, hall, htxid, hpass⟩ := h.behind hsplit
  have htxs : c.txs = front.map Prod.snd ++ tx₀ :: back.map Prod.snd := by
    rw [txs_eq_placed, hall, List.map_append, List.map_cons]
  -- nothing spends it before it is there
  have hback : (k, tx) ∈ back := by
    rw [hall, List.append_cons] at hplaced
    rcases List.mem_append.mp hplaced with hmem | hmem
    · refine absurd hspends (h.valid.not_spent_before htxs htxid ?_)
      rw [← List.map_singleton (f := Prod.snd) (a := (height, tx₀)), ← List.map_append]
      exact List.mem_map.mpr ⟨_, hmem, rfl⟩
    · exact hmem
  cases after with
  | nil => exact absurd hspends (pass_nil hpass _ hback)
  | cons adv rest =>
      obtain ⟨front', k', tx', back', hsplit', hspends', hread, -⟩ := pass_cons_split hpass
      have hmem' : (k', tx') ∈ c.placed := by
        rw [hall, hsplit']
        simp
      obtain ⟨rfl, rfl⟩ := h.valid.placed_inj hplaced hmem' hspends hspends'
      obtain ⟨-, -, -, hheight⟩ := readAdvance_ok hread
      exact ⟨adv, rest, rfl, hheight, hread⟩

/-- **A scan for the anchor of a link** finds the next link in its block, and nothing in others. -/
theorem Carries.scan (h : c.Carries anchor attested) (hsplit : c.links anchor = before ++ after)
    {k : ℕ} (hk : k < c.length) :
    scanBlockForChainAdvance c k (lastAnchor anchor (before.map ChainAdvance.step))
      = .ok (after.head?.filter fun adv => adv.l1Height = k) := by
  rw [scanBlockForChainAdvance, List.getElem?_eq_getElem hk]
  dsimp only
  cases hfind : (c.get ⟨k, hk⟩).txdata.find? fun tx =>
      tx.input.contains (lastAnchor anchor (before.map ChainAdvance.step)) with
  | some tx =>
      have hplaced : (k, tx) ∈ c.placed := mem_placed.mpr ⟨_, List.getElem?_eq_getElem hk,
        List.mem_of_find?_eq_some hfind⟩
      have hspends := List.contains_iff_mem.mp (List.find?_some (p := fun tx : BtcTx =>
        tx.input.contains (lastAnchor anchor (before.map ChainAdvance.step))) hfind)
      obtain ⟨adv, rest, rfl, hheight, hread⟩ := h.spender hsplit hplaced hspends
      dsimp only
      rw [hread, List.head?_cons, Option.filter_some, if_pos (decide_eq_true hheight)]
  | none =>
      cases after with
      | nil => rfl
      | cons adv rest =>
          rw [List.head?_cons, Option.filter_some, if_neg]
          intro hheight
          obtain ⟨last, front, height, tx₀, back, hall, htxid, hpass⟩ := h.behind hsplit
          obtain ⟨front', k', tx', back', hsplit', hspends, hread, -⟩ := pass_cons_split hpass
          obtain ⟨-, -, -, hheight'⟩ := readAdvance_ok hread
          have hmem : (k', tx') ∈ c.placed := by
            rw [hall, hsplit']
            simp
          rw [← hheight', of_decide_eq_true hheight] at hmem
          obtain ⟨block, hblock, htx⟩ := mem_placed.mp hmem
          obtain rfl := Option.some.inj ((List.getElem?_eq_getElem hk).symm.trans hblock)
          have hnone := List.find?_eq_none.mp hfind tx' htx
          exact hnone (List.contains_iff_mem.mpr hspends)

/-- The heights that are attested rise, from above the first block. -/
def Rises (anchor : OutPoint) (c : Chain) : Prop :=
  ((0 : UInt32) :: (c.links anchor).map (·.attestation.height)).Pairwise (· < ·)

/-- A link attests more than those before it. -/
theorem Rises.lt (h : c.Rises anchor) (hsplit : c.links anchor = before ++ after)
    {adv : ChainAdvance}
    (hadv : adv ∈ after) : lastHeight (before.map ChainAdvance.step) < adv.attestation.height := by
  unfold Rises at h
  rw [hsplit, List.map_append, ← List.cons_append, List.pairwise_append] at h
  refine h.2.2 _ ?_ _ (List.mem_map_of_mem hadv)
  unfold lastHeight
  rw [List.getLast?_map]
  cases hlast : before.getLast? with
  | none => exact List.mem_cons_self
  | some last => exact List.mem_cons_of_mem _ (List.mem_map_of_mem (List.mem_of_getLast? hlast))

end

end Chain

/-! ### Between two links -/

/-- A node that has taken some of the links, and not the others. -/
structure NodeState.Between (n : NodeState) (anchor : OutPoint) (before after : List ChainAdvance) :
    Prop where
  anchor : n.store.anchor = some (lastAnchor anchor (before.map ChainAdvance.step))
  below : ∀ adv ∈ after.head?, n.head.height < adv.attestation.height ∧ n.cursor < adv.l1Height
  last : after = [] → n.head.height = lastHeight (before.map ChainAdvance.step)
  mined : ∀ adv ∈ before, 0 < adv.l1Height
  spends : ∀ op, n.store.getAnchorSpender op
    = (before.reverse.find? fun adv => adv.spentAnchor = op).map fun adv => (adv.txid, adv.l1Height)

/-- A node on one of the rows, with all of them in its store, between two links on L1. -/
structure InLine (prim : Primitives) (row : UInt32 → Option Row) (anchor : OutPoint) (c : Chain)
    (n : NodeState) : Prop where
  stands : ∃ r, row n.head.height = some r ∧ OnRow prim r n
  archived : Archived prim row n
  reached : n.cursor < c.length
  between : ∃ before after, c.links anchor = before ++ after ∧ n.Between anchor before after

section

variable {prim : Primitives} {served : Served} {row : UInt32 → Option Row} {anchor : OutPoint}
  {c : Chain} {attested : List Attestation} {n n' : NodeState} {m : UInt32}
  {before after rest : List ChainAdvance} {adv : ChainAdvance}

/-- The next block is looked at, and is not that of the next link. -/
theorem NodeState.Between.skip (h : n.Between anchor before after)
    (hother : ∀ adv ∈ after.head?, adv.l1Height ≠ n.cursor + 1) :
    ({ n with store := n.store.setL1Cursor (n.cursor + 1) } : NodeState).Between anchor
      before after := by
  refine ⟨h.anchor, fun adv hadv => ?_, h.last, h.mined, h.spends⟩
  obtain ⟨hheight, hcursor⟩ := h.below adv hadv
  have hne := hother adv hadv
  refine ⟨hheight, ?_⟩
  show n.cursor + 1 < adv.l1Height
  omega

/-- A block inside of a batch. -/
theorem NodeState.Between.accept (h : n.Between anchor before (adv :: rest)) {block : L2Block}
    {next : Accepted} (hlt : (n.accept block next).head.height < adv.attestation.height) :
    (n.accept block next).Between anchor before (adv :: rest) := by
  refine ⟨h.anchor, fun adv' hadv' => ?_, fun hnil => (List.cons_ne_nil _ _ hnil).elim, h.mined,
    h.spends⟩
  obtain ⟨-, hcursor⟩ := h.below adv' hadv'
  obtain rfl := Option.some.inj hadv'
  exact ⟨hlt, hcursor⟩

/-- The last block of a batch, with the move of the anchor. -/
theorem NodeState.Between.moveAnchor (h : n.Between anchor before (adv :: rest))
    (hrises : c.Rises anchor) (hsplit : c.links anchor = before ++ adv :: rest)
    {block : L2Block} {next : Accepted}
    (heq : (n.accept block next).head.height = adv.attestation.height) :
    ((n.accept block next).moveAnchor adv).Between anchor (before ++ [adv]) rest := by
  have hsplit' : c.links anchor = (before ++ [adv]) ++ rest := by
    rw [List.append_assoc, List.singleton_append]
    exact hsplit
  have hheight : lastHeight ((before ++ [adv]).map ChainAdvance.step) = adv.attestation.height := by
    rw [List.map_append, lastHeight_append]
    rfl
  have hanchor : lastAnchor anchor ((before ++ [adv]).map ChainAdvance.step) = adv.newAnchor := by
    rw [List.map_append, lastAnchor, List.getLast?_append]
    rfl
  refine ⟨?_, fun next' hnext => ?_, fun _ => ?_, fun adv' hadv' => ?_, fun op => ?_⟩
  · rw [hanchor]
    rfl
  · have hmem : next' ∈ rest := List.mem_of_head? hnext
    refine ⟨?_, ?_⟩
    · show (n.accept block next).head.height < _
      rw [heq, ← hheight]
      exact hrises.lt hsplit' hmem
    · have hsorted := Chain.links_heights anchor c
      rw [hsplit, List.map_append, List.map_cons, List.pairwise_append,
        List.pairwise_cons] at hsorted
      exact Nat.lt_of_lt_of_le (h.below adv rfl).2 (hsorted.2.1.1 _ (List.mem_map_of_mem hmem))
  · rw [hheight]
    exact heq
  · rcases List.mem_append.mp hadv' with hold | hnew
    · exact h.mined adv' hold
    · rw [List.mem_singleton.mp hnew]
      exact Nat.lt_of_le_of_lt (Nat.zero_le _) (h.below adv rfl).2
  · rw [List.reverse_append, List.reverse_singleton, List.singleton_append, List.find?_cons]
    show ((n.store.anchorSpends.insert adv.spentAnchor (adv.txid, adv.l1Height))[op]?) = _
    rw [Std.ExtTreeMap.getElem?_insert]
    by_cases hop : adv.spentAnchor = op
    · rw [if_pos (Std.compare_eq_iff_eq.mpr hop), decide_eq_true hop]
      rfl
    · rw [if_neg fun hc => hop (Std.compare_eq_iff_eq.mp hc), decide_eq_false hop]
      exact h.spends op

/-- No node is above the last link. -/
theorem InLine.behind (h : InLine prim row anchor c n) (hcarries : c.Carries anchor attested) :
    n.head.height ≤ lastHeight ((c.links anchor).map ChainAdvance.step) := by
  obtain ⟨before, after, hsplit, hbetween⟩ := h.between
  cases after with
  | nil =>
      rw [hbetween.last rfl, hsplit, List.append_nil]
      exact UInt32.le_refl _
  | cons adv rest =>
      have hmem : adv.step ∈ (c.links anchor).map ChainAdvance.step := by
        refine List.mem_map_of_mem ?_
        rw [hsplit]
        simp
      exact UInt32.le_trans (UInt32.le_of_lt (hbetween.below adv rfl).1)
        (le_lastHeight (Sequencer.steps_sorted hcarries) hmem)

theorem InLine.mono (h : InLine prim row anchor c n) {row' : UInt32 → Option Row}
    (hrow : ∀ k r, row k = some r → row' k = some r) : InLine prim row' anchor c n := by
  obtain ⟨r, hr, hn⟩ := h.stands
  exact ⟨⟨r, hrow _ r hr, hn⟩, h.archived.mono hrow, h.reached, h.between⟩

/-- Blocks on top leave a node where it is. -/
theorem InLine.append (h : InLine prim row anchor c n) (hcarries : c.Carries anchor attested)
    (more : List BtcBlock) (hrises : Chain.Rises anchor (c ++ more)) :
    InLine prim row anchor (c ++ more) n := by
  obtain ⟨before, after, hsplit, hbetween⟩ := h.between
  obtain ⟨later, hlinks, hlater⟩ := hcarries.links_later more
  rw [hsplit, List.append_assoc] at hlinks
  have hreached : n.cursor < (c ++ more).length := by
    rw [List.length_append]
    exact Nat.lt_add_right _ h.reached
  refine ⟨h.stands, h.archived, hreached, before, after ++ later, hlinks, hbetween.anchor,
    fun adv hadv => ?_, fun hnil => hbetween.last (List.append_eq_nil_iff.mp hnil).1,
      hbetween.mined, hbetween.spends⟩
  cases after with
  | nil =>
      have hmem : adv ∈ later := List.mem_of_head? hadv
      refine ⟨?_, Nat.lt_of_lt_of_le h.reached (hlater adv hmem)⟩
      rw [hbetween.last rfl]
      exact hrises.lt hlinks hmem
  | cons next rest => exact hbetween.below adv hadv

/-- From a height up to another, the next row is the next block that is accepted. -/
structure Leads (prim : Primitives) (served : Served) (row : UInt32 → Option Row)
    (low high : UInt32) : Prop where
  next : ∀ {n : NodeState} {r : Row} {att : Attestation}, OnRow prim r n →
    row n.head.height = some r → low ≤ n.head.height → n.head.height < high → att.OfRow prim row →
    ∃ r' next, row (n.head.height + 1) = some r' ∧
      acceptNext prim served att n = some (r'.block, next) ∧ next.state = r'.state

theorem Feed.leads (h : Feed prim served row m) (low : UInt32) : Leads prim served row low m :=
  ⟨fun hn hr _ hlt hof => h.acceptNext hn hr hlt hof⟩

theorem Leads.restrict {low high high' : UInt32} (h : Leads prim served row low high)
    (hle : high' ≤ high) : Leads prim served row low high' :=
  ⟨fun hn hr hlow hlt hof => h.next hn hr hlow (UInt32.lt_of_lt_of_le hlt hle) hof⟩

/-- Where the mints of the blocks in between pass as well, these lead on. -/
theorem Leads.admits {other : Served} {low high : UInt32} (h : Leads prim other row low high)
    (hadmits : ∀ k, low < k → k ≤ high → served.Admits prim other k) :
    Leads prim served row low high := by
  refine ⟨fun hn hr hlow hlt hof => ?_⟩
  obtain ⟨r', next, hr', haccept, hstate⟩ := h.next hn hr hlow hlt hof
  have hup := succ_toNat hlt
  refine ⟨r', next, hr', (hadmits _ ?_ ?_).acceptNext haccept, hstate⟩
  · rw [UInt32.lt_iff_toNat_lt, hup]
    exact Nat.lt_succ_of_le (UInt32.le_iff_toNat_le.mp hlow)
  · rw [UInt32.le_iff_toNat_le, hup]
    exact UInt32.lt_iff_toNat_lt.mp hlt

variable {low : UInt32} (hcarries : c.Carries anchor attested) (hrises : c.Rises anchor)
  (hleads : Leads prim served row low m)
  (hrows : ∀ adv ∈ c.links anchor, adv.attestation.height ≤ m ∧ adv.attestation.OfRow prim row)
include hcarries hrises hleads hrows

/-- **While there is a block above the cursor there is a step**, and the node is in line
after it. -/
theorem InLine.step (h : InLine prim row anchor c n) (hlow : low ≤ n.head.height)
    (htip : n.cursor < c.tip) :
    ∃ n', coreStep prim c served n = some n' ∧ InLine prim row anchor c n' ∧
      n.head.height ≤ n'.head.height ∧
      n.cursor + n.head.height.toNat < n'.cursor + n'.head.height.toNat := by
  obtain ⟨r, hr, hn⟩ := h.stands
  obtain ⟨before, after, hsplit, hbetween⟩ := h.between
  have hk : n.cursor + 1 < c.length := by
    unfold Chain.tip at htip
    omega
  have hscan := hcarries.scan hsplit hk
  unfold coreStep
  rw [if_neg (Nat.not_le.mpr htip), hbetween.anchor]
  dsimp only
  rw [hscan]
  cases hfound : after.head?.filter fun adv => adv.l1Height = n.cursor + 1 with
  | none =>
      refine ⟨_, rfl, ⟨⟨r, hr, hn.synced.setL1Cursor _, hn.state, hn.head⟩,
        ⟨h.archived.block, h.archived.witness⟩, hk, before, after, hsplit, hbetween.skip ?_⟩,
        UInt32.le_refl _, ?_⟩
      · intro adv hadv heq
        rw [Option.filter_eq_none_iff] at hfound
        exact hfound adv hadv (decide_eq_true heq)
      · show n.cursor + n.head.height.toNat < (n.cursor + 1) + n.head.height.toNat
        omega
  | some adv =>
      obtain ⟨hhead, hheight⟩ := Option.filter_eq_some_iff.mp hfound
      obtain ⟨rest, rfl⟩ : ∃ rest, after = adv :: rest := List.head?_eq_some_iff.mp hhead
      have hmem : adv ∈ c.links anchor := by
        rw [hsplit]
        simp
      obtain ⟨hm, hof⟩ := hrows adv hmem
      have hroom := (hbetween.below adv rfl).1
      obtain ⟨r', next, hr', haccept, hstate⟩ :=
        hleads.next hn hr hlow (UInt32.lt_of_lt_of_le hroom hm) hof
      have hup := accept_height haccept
      have hcount := succ_toNat hroom
      have hstands : ∃ r, row (n.accept r'.block next).head.height = some r ∧
          OnRow prim r (n.accept r'.block next) := by
        refine ⟨r', ?_, hn.synced.accept haccept hroom, hstate, (acceptNext_head haccept).2.2⟩
        rw [hup]
        exact hr'
      have harchived := h.archived.accept hn hr haccept hr' rfl hcount
      have hhigher : n.head.height ≤ (n.accept r'.block next).head.height := by
        rw [hup, UInt32.le_iff_toNat_le, hcount]
        omega
      have hmore : n.cursor + n.head.height.toNat
          < n.cursor + (n.accept r'.block next).head.height.toNat := by
        rw [hup, hcount]
        omega
      dsimp only
      rw [batchStep_accept hroom haccept]
      by_cases hend : (n.accept r'.block next).head.height = adv.attestation.height
      · rw [if_pos hend]
        obtain ⟨r₁, hr₁, hn₁⟩ := hstands
        refine ⟨_, rfl, ⟨⟨r₁, hr₁, hn₁.synced.moveAnchor adv, hn₁.state, hn₁.head⟩,
          ⟨harchived.block, harchived.witness⟩, h.reached, before ++ [adv], rest, ?_,
          hbetween.moveAnchor hrises hsplit hend⟩, hhigher, hmore⟩
        rw [hsplit, List.append_assoc, List.singleton_append]
      · rw [if_neg hend]
        refine ⟨_, rfl, ⟨hstands, harchived, h.reached, before, adv :: rest, hsplit,
          hbetween.accept ?_⟩, hhigher, hmore⟩
        have hne : (n.accept r'.block next).head.height.toNat ≠ adv.attestation.height.toNat :=
          fun hc => hend (UInt32.toNat_inj.mp hc)
        rw [UInt32.lt_iff_toNat_lt] at hroom ⊢
        rw [hup, hcount] at hne ⊢
        omega

/-- A run of core steps. -/
theorem InLine.run {k : ℕ} (hrun : orbit (coreStep prim c served) k n = some n')
    (h : InLine prim row anchor c n) (hlow : low ≤ n.head.height) :
    InLine prim row anchor c n' ∧ n.head.height ≤ n'.head.height := by
  induction k generalizing n with
  | zero =>
      obtain rfl := Option.some.inj hrun
      exact ⟨h, UInt32.le_refl _⟩
  | succ k ih =>
      by_cases htip : n.cursor < c.tip
      · obtain ⟨next, hstep, hnext, hle, -⟩ := h.step hcarries hrises hleads hrows hlow htip
        rw [orbit_succ hstep] at hrun
        obtain ⟨hline, hhigher⟩ := ih hrun hnext (UInt32.le_trans hlow hle)
        exact ⟨hline, UInt32.le_trans hle hhigher⟩
      · have hend : coreStep prim c served n = none := by
          unfold coreStep
          rw [if_pos (Nat.not_lt.mp htip)]
        obtain ⟨hzero, -⟩ := orbit_end hend hrun
        cases hzero

/-- **The steps come to the tip.** -/
theorem InLine.comes (h : InLine prim row anchor c n) (hlow : low ≤ n.head.height) :
    ∃ k n', orbit (coreStep prim c served) k n = some n' ∧ c.tip ≤ n'.cursor := by
  -- the cursor and the head together rise with each step, and are bounded
  obtain ⟨d, hd⟩ : ∃ d, c.length + 2 ^ 32 ≤ n.cursor + n.head.height.toNat + d :=
    ⟨c.length + 2 ^ 32, by omega⟩
  induction d generalizing n with
  | zero =>
      have hreached := h.reached
      have hheight := n.head.height.toNat_lt
      omega
  | succ d ih =>
      by_cases htip : n.cursor < c.tip
      · obtain ⟨next, hstep, hnext, hle, hmore⟩ := h.step hcarries hrises hleads hrows hlow htip
        obtain ⟨k, n', hrun, hend⟩ := ih hnext (UInt32.le_trans hlow hle) (by omega)
        exact ⟨k + 1, n', (orbit_succ hstep).trans hrun, hend⟩
      · exact ⟨0, n, rfl, Nat.not_lt.mp htip⟩

omit hcarries hrises hleads hrows in
/-- At the tip there is no link left. -/
theorem InLine.atTip (h : InLine prim row anchor c n) (htip : c.tip ≤ n.cursor) :
    n.Between anchor (c.links anchor) [] := by
  obtain ⟨before, after, hsplit, hbetween⟩ := h.between
  cases after with
  | nil =>
      rw [List.append_nil] at hsplit
      rw [hsplit]
      exact hbetween
  | cons adv rest =>
      have hlt := Chain.links_l1Height_lt (show adv ∈ c.links anchor by rw [hsplit]; simp)
      have hcursor := (hbetween.below adv rfl).2
      unfold Chain.tip at htip
      omega

/-- **A tick that is not disturbed comes to the last attestation.** -/
theorem InLine.tick {w : World} (h : InLine prim row anchor c w.toNodeState)
    (hlow : low ≤ w.head.height) :
    ∃ enough, ∀ fuel, enough ≤ fuel → ∃ w',
      Hodlchain.tick prim (Env.plain c served) fuel w = (.ok (), w') ∧
      InLine prim row anchor c w'.toNodeState ∧ w.head.height ≤ w'.head.height ∧
      w'.toNodeState.Between anchor (c.links anchor) [] := by
  obtain ⟨r, -, hn⟩ := h.stands
  obtain ⟨k, n', hrun, htip⟩ := h.comes hcarries hrises hleads hrows hlow
  have hend : coreStep prim c served n' = none := by
    unfold coreStep
    rw [if_pos htip]
  refine ⟨k + 1, fun fuel hfuel => ?_⟩
  rcases htick : Hodlchain.tick prim (Env.plain c served) fuel w with ⟨result, w'⟩
  obtain ⟨steps, n₁, hrun₁, hend₁, hout⟩ := (Env.plain_undisturbed _ _).ends htick hn.synced
  obtain ⟨hsteps, hrest⟩ := orbit_resume hend hrun hrun₁
  have hfuel' : result ≠ .error .outOfFuel := by
    intro hc
    rcases hout hc with ⟨hlt, hhalted⟩ | hle
    · rw [← (orbit_end hhalted hrest).2] at hlt
      omega
    · omega
  obtain ⟨rfl, hnone, hok⟩ := hend₁ hfuel'
  obtain ⟨-, rfl⟩ := orbit_end hnone hrest
  obtain rfl := hok.mpr htip
  obtain ⟨hline, hhigher⟩ := h.run hcarries hrises hleads hrows hrun hlow
  exact ⟨w', rfl, hline, hhigher, hline.atTip htip⟩

end

end Hodlchain
