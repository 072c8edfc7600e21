/-
The node as an Esplora.

A node answers the requests a wallet makes of an Esplora: transactions and the tip from
bitcoind, spends of anchors from the links it has recorded.  A walk over it takes the
links that the node has processed, and ends there.
-/
import Hodlchain.Node.CatchUp

namespace Hodlchain

open Bytes

/-! ### What it answers -/

/-- `get_tx_with_height`, for what is mined: the height by the confirmations. -/
def NodeL1.getTxWithHeight (c : Chain) (txid : Txid) : Option (BtcTx × UInt32) :=
  (c.findTx txid).map fun (tx, h) =>
    let tip := UInt32.ofNat c.tip
    let confs := UInt32.ofNat (c.tip - h + 1)
    (tx, satAdd32 (satSub32 tip confs) 1)

/-- `esplora_outspend`. -/
def NodeStore.outspend (s : NodeStore) (op : OutPoint) : Outspend :=
  match s.getAnchorSpender op with
  | some (spender, height) => ⟨true, some spender.toStr, some (UInt32.ofNat height)⟩
  | none => ⟨false, none, none⟩

/-- The Esplora handlers that a wallet's walk calls. -/
def NodeState.esplora (n : NodeState) (c : Chain) : EsploraServer where
  getTx txid := (NodeL1.getTxWithHeight c txid).map fun (tx, h) =>
    { vout := tx.output.map fun o => ⟨hexEncode o.scriptPubkey, o.value⟩
      status := ⟨some h⟩ }
  txExists txid := some (NodeL1.getTxWithHeight c txid).isSome
  getOutspend txid vout := some (n.store.outspend ⟨txid, vout⟩)
  tipHeight := some (UInt32.ofNat c.tip)

/-! ### Transactions -/

section

variable {c v : Chain} {n : NodeState} {txid : Txid} {tx : BtcTx} {h : ℕ}

/-- A mined transaction is reported at its height. -/
theorem getTxWithHeight_eq (hlen : c.length ≤ 2 ^ 32) (hfind : c.findTx txid = some (tx, h))
    (hlow : 1 ≤ h) (hhigh : h ≤ c.tip) :
    NodeL1.getTxWithHeight c txid = some (tx, UInt32.ofNat h) := by
  have htip : c.tip < 2 ^ 32 := by
    unfold Chain.tip at hhigh ⊢
    omega
  unfold NodeL1.getTxWithHeight
  rw [hfind, Option.map_some]
  dsimp only
  rw [satSub32_ofNat htip (by omega) (by omega), satAdd32_one (by omega)]
  congr 3
  omega

/-- So the answer is that of an Esplora over the chain. -/
theorem esplora_getTx (hlen : c.length ≤ 2 ^ 32) (hfind : c.findTx txid = some (tx, h))
    (hlow : 1 ≤ h) (hhigh : h ≤ c.tip) : (n.esplora c).getTx txid = c.esplora.getTx txid := by
  show (NodeL1.getTxWithHeight c txid).map _ = (c.findTx txid).map _
  rw [getTxWithHeight_eq hlen hfind hlow hhigh, hfind]
  rfl

/-- **The node shows what was ever seen of L1.** -/
theorem esplora_showsLater (hv : v <+: c) (hids : c.UniqueTxids) (hlen : c.length ≤ 2 ^ 32) :
    ShowsLater (n.esplora c).toEsploraClient (UInt32.ofNat c.tip) (NodeL1.view v) := by
  obtain ⟨htip, houtput⟩ := Chain.showsLater hv hids hlen
  refine ⟨htip, fun op out hout => ?_⟩
  obtain ⟨confs, hconfs, hshown⟩ := houtput op out hout
  refine ⟨confs, hconfs, ?_⟩
  obtain ⟨more, rfl⟩ := hv
  cases hcoin : v.utxos op with
  | none =>
      rw [nodeView_getOutput_none hcoin] at hout
      cases hout
  | some coin =>
      obtain ⟨hlow, hhigh, tx, hfind, -⟩ := Chain.utxos_origin hids.earlier hcoin
      have htips : coin.height ≤ Chain.tip (v ++ more) := by
        unfold Chain.tip at hhigh ⊢
        rw [List.length_append]
        omega
      unfold EsploraClient.output at hshown ⊢
      rw [esplora_getTx hlen (Chain.findTx_append hfind more) hlow htips]
      exact hshown

end

/-! ### The walk -/

section

variable {anchor last : OutPoint} {c : Chain} {attested : List Attestation} {n : NodeState}
  {before after taken rest : List ChainAdvance} {adv adv' : ChainAdvance}

/-- Every link is read from a transaction that spends its anchor. -/
theorem Chain.pass_read (txs : List (ℕ × BtcTx)) : ∀ anchor, ∀ adv ∈ (Chain.pass anchor txs).1,
    ∃ tx, (adv.l1Height, tx) ∈ txs ∧ adv.spentAnchor ∈ tx.input ∧
      readAdvance adv.l1Height adv.spentAnchor tx = .ok adv := by
  induction txs with
  | nil => exact fun _ adv hadv => absurd hadv List.not_mem_nil
  | cons p txs ih =>
      intro anchor adv hadv
      obtain ⟨height, tx⟩ := p
      rw [Chain.pass_cons] at hadv
      by_cases hspends : tx.input.contains anchor = true
      · rw [if_pos hspends] at hadv
        cases hread : readAdvance height anchor tx with
        | error e =>
            rw [hread] at hadv
            cases hadv
        | ok first =>
            rw [hread] at hadv
            rcases List.mem_cons.mp hadv with rfl | hlater
            · obtain ⟨-, hspent, -, hheight⟩ := readAdvance_ok hread
              rw [hspent, hheight]
              exact ⟨tx, List.mem_cons_self, List.contains_iff_mem.mp hspends, hread⟩
            · obtain ⟨tx', hmem, hin, hread'⟩ := ih first.newAnchor adv hlater
              exact ⟨tx', List.mem_cons_of_mem _ hmem, hin, hread'⟩
      · rw [if_neg hspends] at hadv
        obtain ⟨tx', hmem, hin, hread⟩ := ih anchor adv hadv
        exact ⟨tx', List.mem_cons_of_mem _ hmem, hin, hread⟩

/-- **An anchor belongs to one link**, the one after those that lead to it. -/
theorem Chain.Carries.next_unique (h : c.Carries anchor attested)
    (hsplit : c.links anchor = before ++ after) (hadv : adv ∈ c.links anchor)
    (hspent : adv.spentAnchor = lastAnchor anchor (before.map ChainAdvance.step)) :
    ∃ rest, after = adv :: rest := by
  obtain ⟨tx, hplaced, hin, hread⟩ := Chain.pass_read c.placed anchor adv hadv
  rw [hspent] at hin hread
  obtain ⟨adv', rest, rfl, -, hread'⟩ := h.spender hsplit hplaced hin
  obtain rfl := Except.ok.inj (hread.symm.trans hread')
  exact ⟨rest, rfl⟩

theorem Chain.Carries.spentAnchor (h : c.Carries anchor attested)
    (hsplit : c.links anchor = before ++ adv :: rest) :
    adv.spentAnchor = lastAnchor anchor (before.map ChainAdvance.step) := by
  obtain ⟨last, front, height, tx, back, -, -, hpass⟩ := h.behind hsplit
  obtain ⟨front', height', tx', back', -, -, hread, -⟩ := Chain.pass_cons_split hpass
  exact (readAdvance_ok hread).2.1

/-- Where heights rise, no link is behind itself. -/
theorem Chain.Rises.not_mem (h : c.Rises anchor) (hsplit : c.links anchor = before ++ adv :: rest) :
    adv ∉ before := by
  intro hmem
  have hrises := h
  unfold Chain.Rises at hrises
  rw [hsplit, List.map_append, List.pairwise_cons, List.pairwise_append] at hrises
  have hlt := hrises.2.2.2 _ (List.mem_map_of_mem hmem) adv.attestation.height (by simp)
  exact UInt32.lt_irrefl _ hlt

/-- No two places among the links have one anchor. -/
theorem Chain.Rises.split_unique (h : c.Rises anchor) (hcarries : c.Carries anchor attested)
    (hsplit : c.links anchor = before ++ after) (hsplit' : c.links anchor = taken ++ rest)
    (hsame : lastAnchor anchor (before.map ChainAdvance.step)
      = lastAnchor anchor (taken.map ChainAdvance.step)) : before = taken := by
  -- the longer one would have the link behind the shorter twice
  have hshorter : ∀ {b a d : List ChainAdvance}, c.links anchor = (b ++ d) ++ a →
      lastAnchor anchor (b.map ChainAdvance.step) =
        lastAnchor anchor ((b ++ d).map ChainAdvance.step) →
      d = [] := by
    intro b a d hlinks hanchor
    cases d with
    | nil => rfl
    | cons adv d =>
        have hbehind : c.links anchor = b ++ adv :: (d ++ a) := by
          rw [hlinks, List.append_assoc, List.cons_append]
        have hmem : adv ∈ c.links anchor := by
          rw [hbehind]
          simp
        obtain ⟨more, rfl⟩ := hcarries.next_unique hlinks hmem
          ((hcarries.spentAnchor hbehind).trans hanchor)
        exact absurd (by simp) (h.not_mem hlinks)
  rcases List.prefix_or_prefix_of_prefix (hsplit ▸ List.prefix_append before after)
    (hsplit' ▸ List.prefix_append taken rest) with ⟨d, rfl⟩ | ⟨d, rfl⟩
  · rw [hshorter hsplit' hsame, List.append_nil]
  · rw [hshorter hsplit hsame.symm, List.append_nil]

/-- The node knows who spends the anchor of a link it has taken, and of no other. -/
theorem NodeState.Between.getAnchorSpender (h : n.Between anchor before after)
    (hcarries : c.Carries anchor attested) (hrises : c.Rises anchor)
    (hsplit : c.links anchor = before ++ after) (htaken : before = taken ++ rest) :
    n.store.getAnchorSpender (lastAnchor anchor (taken.map ChainAdvance.step))
      = rest.head?.map fun adv => (adv.txid, adv.l1Height) := by
  have hlinks : c.links anchor = taken ++ (rest ++ after) := by
    rw [hsplit, htaken, List.append_assoc]
  rw [h.spends]
  cases hfind : before.reverse.find? fun adv =>
      adv.spentAnchor = lastAnchor anchor (taken.map ChainAdvance.step) with
  | some adv =>
      have hmem : adv ∈ before := List.mem_reverse.mp (List.mem_of_find?_eq_some hfind)
      obtain ⟨more, hmore⟩ := hcarries.next_unique hlinks
        (by rw [hsplit]; exact List.mem_append_left _ hmem)
        (of_decide_eq_true (List.find?_some (p := fun adv : ChainAdvance => decide
          (adv.spentAnchor = lastAnchor anchor (taken.map ChainAdvance.step))) hfind))
      cases rest with
      | nil =>
          rw [List.nil_append] at hmore
          rw [hmore] at hsplit
          exact absurd hmem (hrises.not_mem hsplit)
      | cons first rest =>
          obtain ⟨rfl, -⟩ := List.cons.inj hmore
          rfl
  | none =>
      cases rest with
      | nil => rfl
      | cons first rest =>
          have hmem : first ∈ before.reverse := by
            rw [htaken]
            simp
          have hnone := List.find?_eq_none.mp hfind first hmem
          exact absurd (decide_eq_true (hcarries.spentAnchor hlinks)) hnone

theorem NodeState.Between.getOutspend (h : n.Between anchor before after)
    (hcarries : c.Carries anchor attested) (hrises : c.Rises anchor)
    (hsplit : c.links anchor = before ++ after) (htaken : before = taken ++ rest) :
    (n.esplora c).getOutspend (lastAnchor anchor (taken.map ChainAdvance.step)).txid
        (lastAnchor anchor (taken.map ChainAdvance.step)).vout
      = some (rest.head?.elim ⟨false, none, none⟩ fun adv =>
          ⟨true, some adv.txid.toStr, some (UInt32.ofNat adv.l1Height)⟩) := by
  show some (n.store.outspend _) = _
  rw [NodeStore.outspend, h.getAnchorSpender hcarries hrises hsplit htaken]
  cases rest with
  | nil => rfl
  | cons adv rest => rfl

/-- What is served of a link is read as that link. -/
theorem esplora_readChainStep (hcarries : c.Carries anchor attested) (hadv : adv ∈ c.links anchor)
    (hmined : 0 < adv.l1Height) : readChainStep (n.esplora c)
      ⟨true, some adv.txid.toStr, some (UInt32.ofNat adv.l1Height)⟩ = .ok adv.step := by
  obtain ⟨tx, hplaced, hin, hread⟩ := Chain.pass_read c.placed anchor adv hadv
  obtain ⟨htxid, -⟩ := readAdvance_ok hread
  obtain ⟨block, hblock, htx⟩ := Chain.mem_placed.mp hplaced
  have hfind : c.findTx adv.txid = some (tx, adv.l1Height) := by
    have hfrom := Chain.findTxFrom_eq htx (h := 0) hcarries.valid.uniqueTxids hblock
    rw [Nat.zero_add, ← htxid] at hfrom
    exact hfrom
  have hhigh : adv.l1Height ≤ c.tip := by
    have hlt := (List.getElem?_eq_some_iff.mp hblock).1
    unfold Chain.tip
    omega
  have hserved := @esplora_getTx c n _ _ _ hcarries.length hfind hmined hhigh
  have hsame : readChainStep (n.esplora c)
      ⟨true, some adv.txid.toStr, some (UInt32.ofNat adv.l1Height)⟩
        = readChainStep c.server ⟨true, some adv.txid.toStr, some (UInt32.ofNat adv.l1Height)⟩ := by
    unfold readChainStep
    simp only [okOr, bind, Except.bind, Txid.fromStr_toStr, hserved]
    rfl
  rw [hsame, htxid]
  rcases readChainStep_reports hcarries.valid.reports (Chain.mem_txs_of_placed hplaced)
    adv.spentAnchor with ⟨adv', hread', hstep⟩ | ⟨cause, e, hread', -⟩
  · obtain rfl := Except.ok.inj (hread.symm.trans hread')
    exact hstep
  · rw [hread] at hread'
    cases hread'

/-- **A walk over the node takes the links the node has taken.** -/
theorem NodeState.Between.walkFrom (h : n.Between anchor before after)
    (hcarries : c.Carries anchor attested) (hrises : c.Rises anchor)
    (hsplit : c.links anchor = before ++ after) {fuel : ℕ} (htaken : before = taken ++ rest)
    (hfuel : rest.length < fuel) :
    Hodlchain.walkFrom (n.esplora c) fuel (lastAnchor anchor (taken.map ChainAdvance.step))
      = .ok (rest.map ChainAdvance.step) := by
  induction rest generalizing taken fuel with
  | nil =>
      obtain ⟨fuel, rfl⟩ := Nat.exists_eq_succ_of_ne_zero (Nat.ne_of_gt hfuel)
      unfold Hodlchain.walkFrom
      rw [h.getOutspend hcarries hrises hsplit htaken]
      rfl
  | cons adv rest ih =>
      obtain ⟨fuel, rfl⟩ := Nat.exists_eq_succ_of_ne_zero (Nat.ne_of_gt (Nat.zero_lt_of_lt hfuel))
      have hmem : adv ∈ before := by
        rw [htaken]
        simp
      have hstep := @esplora_readChainStep _ _ _ n _ hcarries
        (by rw [hsplit]; exact List.mem_append_left _ hmem) (h.mined adv hmem)
      have hnext : lastAnchor anchor ((taken ++ [adv]).map ChainAdvance.step) =
          adv.step.newAnchor := by
        rw [List.map_append, lastAnchor, List.getLast?_append]
        rfl
      have hwalk := @ih (taken ++ [adv]) fuel
        (by rw [htaken, List.append_assoc, List.singleton_append]) (Nat.lt_of_succ_lt_succ hfuel)
      rw [hnext] at hwalk
      unfold Hodlchain.walkFrom
      rw [h.getOutspend hcarries hrises hsplit htaken]
      simp only [okOr, bind, Except.bind, List.head?_cons, Option.elim_some, hstep, Bool.not_true,
        Bool.false_eq_true, if_false, hwalk]
      rfl

/-- **The node is an Esplora for the links it has taken.** -/
theorem NodeState.Between.shown (h : n.Between anchor before after)
    (hcarries : c.Carries anchor attested) (hrises : c.Rises anchor)
    (hsplit : c.links anchor = before ++ after) {fuel : ℕ} (hfuel : c.txs.length < fuel) :
    c.ShownBy anchor before (n.esplora c) fuel := by
  refine ⟨fun hv => esplora_showsLater hv hcarries.valid.uniqueTxids hcarries.length, rfl,
    fun {taken rest} htaken => ?_⟩
  have hlinks : c.links anchor = taken ++ (rest ++ after) := by
    rw [hsplit, htaken, List.append_assoc]
  obtain ⟨last, front, height, tx, back, hplaced, htxid, -⟩ := hcarries.behind hlinks
  have hknown : (n.esplora c).txExists (lastAnchor anchor (taken.map ChainAdvance.step)).txid
      = some true := by
    have hmem : tx ∈ c.txs := by
      rw [Chain.txs_eq_placed, hplaced]
      exact List.mem_map.mpr ⟨(height, tx), by simp, rfl⟩
    obtain ⟨h, hfind⟩ := hcarries.valid.findTx hmem
    show some ((c.findTx _).map _).isSome = some true
    rw [htxid, hfind]
    rfl
  have hcount : rest.length < fuel := by
    have hsub := (Chain.pass_heights c.placed anchor).length_le
    have hlen := congrArg List.length hlinks
    unfold Chain.links at hlen
    simp only [List.length_map, List.length_append] at hsub hlen
    rw [Chain.txs_eq_placed, List.length_map] at hfuel
    omega
  rw [walkAttestationChain_known hknown]
  exact h.walkFrom hcarries hrises hsplit htaken hcount

end

end Hodlchain
