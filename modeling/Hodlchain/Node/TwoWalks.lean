/-
Two ways along the attestation chain.

The wallet asks who spent an anchor and goes on from the spender; the follower reads
block after block.  Both are the pass over the transactions that come after the one
the anchor is an output of.  The follower misses a link only if the anchor it starts
with is spent in its own block and it starts with the next.
-/
import Hodlchain.Node.Links
import Hodlchain.Node.MintReplay
import Hodlchain.Wallet.Esplora

namespace Hodlchain

open Bytes

/-- An Esplora that answers from the blocks of a chain. -/
structure EsploraServer.Reports (esplora : EsploraServer) (c : Chain) : Prop where
  known : ∀ tx ∈ c.txs, esplora.txExists tx.txid = some true
  outputs : ∀ tx ∈ c.txs, ∃ info, esplora.getTx tx.txid = some info ∧
    info.vout = tx.output.map fun o => ⟨hexEncode o.scriptPubkey, o.value⟩
  spent : ∀ h tx, (h, tx) ∈ c.placed → ∀ op ∈ tx.input, esplora.getOutspend op.txid op.vout
    = some ⟨true, some tx.txid.toStr, some (UInt32.ofNat h)⟩
  unspent : ∀ op, ¬ c.Spends op →
    ∃ outspend, esplora.getOutspend op.txid op.vout = some outspend ∧ outspend.spent = false

/-- A link as the wallet lists it. -/
def ChainAdvance.step (adv : ChainAdvance) : ChainStep :=
  ⟨adv.attestation, UInt32.ofNat adv.l1Height, adv.newAnchor⟩

/-- Both errors are about the same transaction and say the same of it. -/
inductive SameLink : ScanError → WalkError → Prop
  | tooFewOutputs (txid : Txid) (count : ℕ) :
      SameLink (.tooFewOutputs txid count) (.fewOutputs txid count)
  | notOpReturn (txid : Txid) (cause : AttestationError) :
      SameLink (.notOpReturn txid cause) (.attestation txid cause)
  | notAttestation (txid : Txid) (h : ℕ) :
      SameLink (.notAttestation txid) (.notAttestation txid (UInt32.ofNat h))

/-- A walk took the links that were followed.  Both come to an anchor that nothing spends, or
report the transaction that breaks the chain. -/
structure SameWalk (c : Chain) (anchor : OutPoint) (walk : Except WalkError (List ChainStep))
    (r : Followed ScanError) : Prop where
  ends : ∀ last, r.2 = .ok last →
    c.Linked anchor r.1 last ∧ ¬ c.Spends last ∧ walk = .ok (r.1.map ChainAdvance.step)
  fails : ∀ cause, r.2 = .error cause → ∃ last h tx e, c.Linked anchor r.1 last ∧
    (h, tx) ∈ c.placed ∧ last ∈ tx.input ∧ readAdvance h last tx = .error cause ∧
      walk = .error e ∧ SameLink cause e

variable {c : Chain} {esplora : EsploraServer}

/-! ### One link -/

/-- Both read the same in a transaction that spends the anchor. -/
theorem readChainStep_reports (hesp : esplora.Reports c) {h : ℕ} {tx : BtcTx} (htx : tx ∈ c.txs)
    (anchor : OutPoint) :
    (∃ adv, readAdvance h anchor tx = .ok adv ∧
      readChainStep esplora ⟨true, some tx.txid.toStr, some (UInt32.ofNat h)⟩ = .ok adv.step) ∨
    ∃ cause e, readAdvance h anchor tx = .error cause ∧
      readChainStep esplora ⟨true, some tx.txid.toStr, some (UInt32.ofNat h)⟩ = .error e ∧
      SameLink cause e := by
  obtain ⟨info, hinfo, hvout⟩ := hesp.outputs tx htx
  unfold readChainStep readAdvance
  simp only [okOr, bind, Except.bind, Txid.fromStr_toStr, hinfo, hvout]
  rcases tx.output with _ | ⟨out0, _ | ⟨out1, outs⟩⟩
  · exact .inr ⟨_, _, rfl, rfl, .tooFewOutputs tx.txid 0⟩
  · exact .inr ⟨_, _, rfl, rfl, .tooFewOutputs tx.txid 1⟩
  · simp only [List.map_cons, hexDecode_hexEncode]
    cases Attestation.tryFromScript out0.scriptPubkey with
    | error cause => exact .inr ⟨_, _, rfl, rfl, .notOpReturn tx.txid cause⟩
    | ok found =>
        cases found with
        | none => exact .inr ⟨_, _, rfl, rfl, .notAttestation tx.txid h⟩
        | some att => exact .inl ⟨_, rfl, rfl⟩

/-! ### Walks, link by link -/

theorem SameWalk.ended {anchor : OutPoint} (h : ¬ c.Spends anchor) :
    SameWalk c anchor (.ok []) ([], .ok anchor) where
  ends := by
    intro last hlast
    obtain rfl : anchor = last := Except.ok.inj hlast
    exact ⟨rfl, h, rfl⟩
  fails := by
    intro cause hcause
    cases hcause

section

variable {anchor : OutPoint} {h : ℕ} {tx : BtcTx} (hmem : (h, tx) ∈ c.placed)
  (hspends : anchor ∈ tx.input)
include hmem hspends

theorem SameWalk.broken {cause : ScanError} {e : WalkError}
    (hread : readAdvance h anchor tx = .error cause) (hsame : SameLink cause e) :
    SameWalk c anchor (.error e) ([], .error cause) where
  ends := by
    intro last hlast
    cases hlast
  fails := by
    intro cause' hcause
    obtain rfl : cause = cause' := Except.error.inj hcause
    exact ⟨anchor, h, tx, e, rfl, hmem, hspends, hread, rfl, hsame⟩

theorem SameWalk.link {adv : ChainAdvance} {walk : Except WalkError (List ChainStep)}
    {r : Followed ScanError} (hread : readAdvance h anchor tx = .ok adv)
    (hrest : SameWalk c adv.newAnchor walk r) :
    SameWalk c anchor (do let rest ← walk; pure (adv.step :: rest)) (adv :: r.1, r.2) where
  ends := by
    intro last hlast
    obtain ⟨hlinked, hunspent, hwalk⟩ := hrest.ends last hlast
    exact ⟨⟨⟨h, tx, hmem, hspends, hread⟩, hlinked⟩, hunspent, by rw [hwalk]; rfl⟩
  fails := by
    intro cause hcause
    obtain ⟨last, h', tx', e, hlinked, hmem', hspends', hread', hwalk, hsame⟩ :=
      hrest.fails cause hcause
    exact ⟨last, h', tx', e, ⟨⟨h, tx, hmem, hspends, hread⟩, hlinked⟩, hmem', hspends', hread',
      by rw [hwalk]; rfl, hsame⟩

end

/-! ### The wallet's walk -/

/-- **The walk takes the links of the pass after the transaction that made its anchor.** -/
theorem walkFrom_pass (hc : c.Valid) (hesp : esplora.Reports c) :
    ∀ (back front : List (ℕ × BtcTx)) (h : ℕ) (tx : BtcTx) (anchor : OutPoint) (fuel : ℕ),
      c.placed = front ++ (h, tx) :: back → anchor.txid = tx.txid → back.length < fuel →
      SameWalk c anchor (walkFrom esplora fuel anchor) (Chain.pass anchor back) := by
  intro back
  induction hlen : back.length using Nat.strong_induction_on generalizing back with
  | _ n ih =>
      intro front h tx anchor fuel hplaced hanchor hfuel
      obtain ⟨fuel, rfl⟩ := Nat.exists_eq_succ_of_ne_zero (Nat.ne_of_gt (Nat.zero_lt_of_lt hfuel))
      unfold walkFrom
      by_cases hany : ∃ p ∈ back, anchor ∈ p.2.input
      · obtain ⟨front', ⟨h', tx'⟩, back', hback, hfront', hspends⟩ :=
          exists_first_spender (fun p : ℕ × BtcTx => p.2.input) hany
        have hmem : (h', tx') ∈ c.placed := by
          rw [hplaced, hback]
          simp
        have htx' : tx' ∈ c.txs := Chain.mem_txs_of_placed hmem
        rw [hback, Chain.pass_spent hfront' hspends, hesp.spent h' tx' hmem anchor hspends]
        rcases @readChainStep_reports c esplora hesp h' tx' htx' anchor with
          ⟨adv, hread, hstep⟩ | ⟨cause, e, hread, hstep, hsame⟩
        · obtain ⟨-, -, hnew, -⟩ := readAdvance_ok hread
          have hshorter : back'.length < back.length := by
            rw [hback, List.length_append, List.length_cons]
            omega
          have hrest := ih back'.length (by omega) back' rfl (front ++ (h, tx) :: front') h' tx'
            adv.newAnchor fuel (by rw [hplaced, hback]; simp) (by rw [hnew]) (by omega)
          rw [hread]
          simp only [okOr, bind, Except.bind, hstep, Bool.not_true, Bool.false_eq_true, if_false]
          exact SameWalk.link hmem hspends hread hrest
        · rw [hread]
          simp only [okOr, bind, Except.bind, hstep, Bool.not_true, Bool.false_eq_true, if_false]
          exact SameWalk.broken hmem hspends hread hsame
      · have hnone : ∀ p ∈ back, anchor ∉ p.2.input := fun p hp hin => hany ⟨p, hp, hin⟩
        have htxs : c.txs = front.map Prod.snd ++ tx :: back.map Prod.snd := by
          rw [Chain.txs_eq_placed, hplaced, List.map_append, List.map_cons]
        have hunspent : ¬ c.Spends anchor := by
          rintro ⟨u, hu, hin⟩
          rw [htxs, List.append_cons] at hu
          rcases List.mem_append.mp hu with hu | hu
          · exact hc.not_spent_before htxs hanchor hu hin
          · obtain ⟨p, hp, rfl⟩ := List.mem_map.mp hu
            exact hnone p hp hin
        obtain ⟨outspend, hout, hspent⟩ := hesp.unspent anchor hunspent
        rw [Chain.pass_unspent hnone, hout]
        simp only [okOr, bind, Except.bind, hspent, Bool.not_false, if_true]
        exact SameWalk.ended hunspent

theorem walkAttestationChain_known {anchor : OutPoint}
    (hknown : esplora.txExists anchor.txid = some true) (fuel : ℕ) :
    walkAttestationChain esplora fuel anchor = walkFrom esplora fuel anchor := by
  unfold walkAttestationChain
  rw [hknown]
  rfl

/-! ### The follower's procedure -/

section

variable {before after : List BtcBlock} {block : BtcBlock} {anchor : OutPoint} {scans : ℕ}
  (hc : c.Valid) (hsplit : c = before ++ block :: after)
include hc hsplit

/-- Nothing up to the transaction that made the anchor spends it, so a pass over its block only
begins after it. -/
theorem pass_after_creator {front back : List BtcTx} {tx : BtcTx}
    (htxs : block.txdata = front ++ tx :: back) (hanchor : anchor.txid = tx.txid) :
    Chain.pass anchor (Chain.placedFrom before.length (block :: after))
      = Chain.pass anchor (back.map (fun u => (before.length, u)) ++
          Chain.placedFrom (before.length + 1) after) := by
  have hwhole : c.txs = (Chain.txs before ++ front) ++ tx :: (back ++ Chain.txs after) := by
    rw [hsplit]
    unfold Chain.txs
    rw [List.flatMap_append, List.flatMap_cons, htxs]
    simp
  have hearlier : ∀ p ∈ (front ++ [tx]).map (fun u => (before.length, u)), anchor ∉ p.2.input := by
    intro p hp
    obtain ⟨u, hu, rfl⟩ := List.mem_map.mp hp
    refine hc.not_spent_before hwhole hanchor ?_
    rw [List.append_assoc]
    exact List.mem_append_right _ hu
  rw [Chain.placedFrom, htxs, List.append_cons, List.map_append, List.append_assoc,
    Chain.pass_append, Chain.pass_unspent hearlier, Followed.nil_andThen]

/-- An anchor spent in a block is spent in no later one. -/
theorem pass_after_spend {tx : BtcTx} (htx : tx ∈ block.txdata) (hspends : anchor ∈ tx.input) :
    Chain.pass anchor (Chain.placedFrom (before.length + 1) after) = ([], .ok anchor) := by
  have hwhole : c.txs = Chain.txs before ++ (block.txdata ++ Chain.txs after) := by
    rw [hsplit]
    unfold Chain.txs
    rw [List.flatMap_append, List.flatMap_cons]
  have hnodup : (block.txdata ++ Chain.txs after).Nodup := by
    have hall : c.txs.Nodup := List.Nodup.of_map _ hc.uniqueTxids
    rw [hwhole] at hall
    exact (List.nodup_append.mp hall).2.1
  refine Chain.pass_unspent fun p hp hin => ?_
  have hlater : p.2 ∈ Chain.txs after := by
    rw [← Chain.map_snd_placedFrom (before.length + 1) after]
    exact List.mem_map.mpr ⟨p, hp, rfl⟩
  have hsame : tx = p.2 := by
    refine hc.spentOnce tx ?_ p.2 ?_ anchor hspends hin
    · rw [hwhole]
      simp [htx]
    · rw [hwhole]
      simp [hlater]
  exact (List.nodup_append.mp hnodup).2.2 tx htx p.2 hlater hsame

/-- Starting with the next block changes nothing exactly when the anchor outlives its own. -/
theorem followBlocks_next_iff (hscans : c.txs.length < scans) :
    followBlocks c scans (List.range' (before.length + 1) after.length) anchor
        = followBlocks c scans (List.range' before.length (block :: after).length) anchor ↔
      ∀ tx ∈ block.txdata, anchor ∉ tx.input := by
  have hown := followBlocks_eq hc hscans (block :: after) before anchor hsplit
  have hnext := followBlocks_eq hc hscans after (before ++ [block]) anchor
    (by rw [hsplit, List.append_assoc]; rfl)
  rw [List.length_append] at hnext
  change followBlocks c scans (List.range' (before.length + 1) after.length) anchor = _ at hnext
  rw [hown, hnext]
  constructor
  · intro hsame tx htx hspends
    obtain ⟨front, u, back, htxs, hfront, hu⟩ := exists_first_spender BtcTx.input ⟨tx, htx, hspends⟩
    change Followed.mapErr _ (Chain.pass anchor (Chain.placedFrom (before.length + 1) after)) = _
      at hsame
    rw [pass_after_spend hc hsplit htx hspends, Chain.placedFrom, htxs, List.map_append,
      List.map_cons, List.append_assoc, List.cons_append,
      Chain.pass_spent (by simpa using hfront) hu] at hsame
    cases hread : readAdvance before.length anchor u with
    | error e =>
        rw [hread] at hsame
        cases hsame
    | ok adv =>
        rw [hread] at hsame
        cases hsame
  · intro hnone
    have hblock : ∀ p ∈ block.txdata.map (fun u => (before.length, u)), anchor ∉ p.2.input := by
      simpa using hnone
    rw [Chain.placedFrom, Chain.pass_append, Chain.pass_unspent hblock, Followed.nil_andThen]
    rfl

end

/-- **The walk by spenders and the scan of blocks from the anchor's own block on are the same.**
Scanning from the next block on differs exactly when the anchor is spent in its own. -/
theorem walks_agree (hc : c.Valid) (hesp : esplora.Reports c) {h0 : ℕ} {block : BtcBlock}
    (hblock : (c)[h0]? = some block) {tx0 : BtcTx} (htx0 : tx0 ∈ block.txdata) {anchor : OutPoint}
    (hanchor : anchor.txid = tx0.txid) {fuel scans : ℕ} (hfuel : c.txs.length < fuel)
    (hscans : c.txs.length < scans) :
    (∃ r, followBlocks c scans (c.heightsFrom h0) anchor = r.mapErr .scan ∧
      SameWalk c anchor (walkAttestationChain esplora fuel anchor) r) ∧
    (followBlocks c scans (c.heightsFrom (h0 + 1)) anchor
        = followBlocks c scans (c.heightsFrom h0) anchor ↔
      ∀ tx ∈ block.txdata, anchor ∉ tx.input) := by
  obtain ⟨hlt, hget⟩ := List.getElem?_eq_some_iff.mp hblock
  have hsplit : c = c.take h0 ++ block :: c.drop (h0 + 1) := by
    rw [← hget, ← List.drop_eq_getElem_cons hlt, List.take_append_drop]
  have hbefore : (c.take h0).length = h0 := List.length_take_of_le (Nat.le_of_lt hlt)
  have hfrom : c.heightsFrom h0
      = List.range' (c.take h0).length (block :: c.drop (h0 + 1)).length := by
    unfold Chain.heightsFrom
    rw [hbefore, List.length_cons, List.length_drop]
    congr 1
    omega
  have hfrom' : c.heightsFrom (h0 + 1)
      = List.range' ((c.take h0).length + 1) (c.drop (h0 + 1)).length := by
    unfold Chain.heightsFrom
    rw [hbefore, List.length_drop]
  rw [hfrom, hfrom']
  refine ⟨?_, followBlocks_next_iff hc hsplit hscans⟩
  obtain ⟨front, back, htxs⟩ := List.append_of_mem htx0
  refine ⟨_, followBlocks_eq hc hscans _ _ anchor hsplit, ?_⟩
  rw [pass_after_creator hc hsplit htxs hanchor]
  have hmem : tx0 ∈ c.txs := List.mem_flatMap.mpr ⟨block, List.mem_of_getElem? hblock, htx0⟩
  have hknown : esplora.txExists anchor.txid = some true := by
    rw [hanchor]
    exact hesp.known tx0 hmem
  have hplaced : c.placed = (Chain.placedFrom 0 (c.take h0) ++ front.map fun u => (h0, u)) ++
      (h0, tx0) :: (back.map (fun u => (h0, u)) ++
        Chain.placedFrom (h0 + 1) (c.drop (h0 + 1))) := by
    unfold Chain.placed
    conv_lhs => rw [hsplit]
    rw [Chain.placedFrom_append, Nat.zero_add, hbefore, Chain.placedFrom, htxs]
    simp
  have hlen : c.placed.length = c.txs.length := by
    rw [Chain.txs_eq_placed, List.length_map]
  rw [walkAttestationChain_known hknown, hbefore]
  refine walkFrom_pass hc hesp _ _ h0 tx0 anchor fuel hplaced hanchor ?_
  rw [hplaced, List.length_append, List.length_cons] at hlen
  omega

/-! ### An Esplora over a chain -/

/-- `outspend`: who spends an outpoint. -/
def Chain.outspend (c : Chain) (op : OutPoint) : Outspend :=
  match c.placed.find? fun p => p.2.input.contains op with
  | none => ⟨false, none, none⟩
  | some (h, tx) => ⟨true, some tx.txid.toStr, some (UInt32.ofNat h)⟩

/-- The server that answers from a chain. -/
def Chain.server (c : Chain) : EsploraServer :=
  { c.esplora with
    txExists := fun txid => some (c.findTx txid).isSome
    getOutspend := fun txid vout => some (c.outspend ⟨txid, vout⟩)
    tipHeight := some (UInt32.ofNat c.tip) }

theorem Chain.Valid.findTx (hc : c.Valid) {tx : BtcTx} (htx : tx ∈ c.txs) :
    ∃ h, c.findTx tx.txid = some (tx, h) := by
  obtain ⟨block, hblock, hmem⟩ := List.mem_flatMap.mp htx
  obtain ⟨i, hi⟩ := List.getElem?_of_mem hblock
  exact ⟨_, Chain.findTxFrom_eq hmem hc.uniqueTxids hi⟩

/-- It reports what the chain says. -/
theorem Chain.Valid.reports (hc : c.Valid) : c.server.Reports c where
  known := by
    intro tx htx
    obtain ⟨h, hfind⟩ := hc.findTx htx
    show some (c.findTx tx.txid).isSome = some true
    rw [hfind]
    rfl
  outputs := by
    intro tx htx
    obtain ⟨h, hfind⟩ := hc.findTx htx
    refine ⟨⟨tx.output.map fun o => ⟨hexEncode o.scriptPubkey, o.value⟩, ⟨some (UInt32.ofNat h)⟩⟩,
      ?_, rfl⟩
    show (c.findTx tx.txid).map _ = _
    rw [hfind]
    rfl
  spent := by
    intro h tx hmem op hop
    have hnodup : (c.placed.map Prod.snd).Nodup := by
      rw [← Chain.txs_eq_placed]
      exact List.Nodup.of_map _ hc.uniqueTxids
    obtain ⟨p, hp⟩ : ∃ p, c.placed.find? (fun p => p.2.input.contains op) = some p :=
      Option.isSome_iff_exists.mp (List.find?_isSome.mpr ⟨_, hmem, by simpa using hop⟩)
    have hpmem := List.mem_of_find?_eq_some hp
    have hpop : op ∈ p.2.input := by simpa using List.find?_some hp
    have hsame : p = (h, tx) := List.inj_on_of_nodup_map hnodup hpmem hmem (hc.spentOnce p.2
      (Chain.mem_txs_of_placed hpmem) tx (Chain.mem_txs_of_placed hmem) op hpop hop)
    show some (c.outspend op) = _
    rw [outspend, hp, hsame]
  unspent := by
    intro op hop
    refine ⟨_, rfl, ?_⟩
    have hnone : c.placed.find? (fun p => p.2.input.contains op) = none := by
      exact List.find?_eq_none.mpr fun p hp hin =>
        hop ⟨p.2, Chain.mem_txs_of_placed hp, by simpa using hin⟩
    rw [outspend, hnone]

/-! ### Two chains -/

/-- The `i`-th anchor of a chain whose seed has the id 1. -/
def seedAnchor (i : ℕ) : OutPoint := ⟨⟨ByteArr.ofNat 32 (i + 1)⟩, 1⟩

def seedTx : BtcTx := ⟨⟨ByteArr.ofNat 32 1⟩, [], [⟨0, []⟩, ⟨5000, []⟩]⟩

/-- What the transaction that spends the `i`-th anchor attests. -/
def linkAttestation (i : ℕ) : Attestation :=
  Attestation.new (UInt32.ofNat (i + 1)) H256.zero H256.zero

def linkTx (i : ℕ) : BtcTx :=
  ⟨(seedAnchor (i + 1)).txid, [seedAnchor i], [⟨0, (linkAttestation i).toScript⟩, ⟨1000, []⟩]⟩

/-- Two links in block 1 and one in block 2. -/
def threeLinks : Chain := [⟨[seedTx]⟩, ⟨[linkTx 0, linkTx 1]⟩, ⟨[linkTx 2]⟩]

/-- The seed is spent in its own block. -/
def spentAtOnce : Chain := [⟨[seedTx, linkTx 0]⟩]

theorem threeLinks_valid : threeLinks.Valid where
  uniqueTxids := by decide
  spentOnce := by decide +kernel
  notOwn := by decide
  notLater := by decide

theorem spentAtOnce_valid : spentAtOnce.Valid where
  uniqueTxids := by decide
  spentOnce := by decide
  notOwn := by decide
  notLater := by decide

/-- What reading the transaction gives, in block `h`. -/
def linkAdvance (h i : ℕ) : ChainAdvance where
  attestation := linkAttestation i
  l1Height := h
  txid := (seedAnchor (i + 1)).txid
  spentAnchor := seedAnchor i
  newAnchor := seedAnchor (i + 1)

/-- Both ways give the three links. -/
theorem walks_agree_threeLinks :
    followBlocks threeLinks 5 (threeLinks.heightsFrom 1) (seedAnchor 0)
      = ([linkAdvance 1 0, linkAdvance 1 1, linkAdvance 2 2], .ok (seedAnchor 3)) ∧
    walkAttestationChain threeLinks.server 5 (seedAnchor 0) =
      .ok [(linkAdvance 1 0).step, (linkAdvance 1 1).step, (linkAdvance 2 2).step] := by
  obtain ⟨⟨r, hr, hsame⟩, hnext⟩ := @walks_agree threeLinks threeLinks.server threeLinks_valid
    threeLinks_valid.reports 0 ⟨[seedTx]⟩ rfl seedTx (by simp) (seedAnchor 0) rfl 5 5 (by decide)
    (by decide)
  have hfollow : followBlocks threeLinks 5 (threeLinks.heightsFrom 1) (seedAnchor 0)
      = ([linkAdvance 1 0, linkAdvance 1 1, linkAdvance 2 2], .ok (seedAnchor 3)) := by
    decide +kernel
  have hown : ([linkAdvance 1 0, linkAdvance 1 1, linkAdvance 2 2], .ok (seedAnchor 3))
      = r.mapErr FollowStop.scan := by
    rw [← hfollow, ← hr]
    exact hnext.mpr (by decide)
  refine ⟨hfollow, ?_⟩
  obtain ⟨links, stop⟩ := r
  cases stop with
  | error e => cases hown
  | ok last =>
      obtain ⟨rfl, -⟩ := Prod.mk.inj hown
      exact (hsame.ends last rfl).2.2

/-- The walk finds the link in the seed's own block, and scanning from the next block on does
not. -/
theorem next_block_misses_link :
    spentAtOnce.Valid ∧ spentAtOnce.server.Reports spentAtOnce ∧
    walkAttestationChain spentAtOnce.server 3 (seedAnchor 0) = .ok [(linkAdvance 0 0).step] ∧
    followBlocks spentAtOnce 3 (spentAtOnce.heightsFrom 1) (seedAnchor 0)
      = ([], .ok (seedAnchor 0)) := by
  have hpass : Chain.pass (seedAnchor 0) [(0, linkTx 0)]
      = ([linkAdvance 0 0], .ok (seedAnchor 1)) := by decide
  have hwalk := walkFrom_pass spentAtOnce_valid spentAtOnce_valid.reports [(0, linkTx 0)] [] 0
    seedTx (seedAnchor 0) 3 rfl rfl (by decide)
  have hknown : spentAtOnce.server.txExists (seedAnchor 0).txid = some true :=
    spentAtOnce_valid.reports.known seedTx (by decide)
  refine ⟨spentAtOnce_valid, spentAtOnce_valid.reports, ?_, rfl⟩
  rw [hpass] at hwalk
  rw [walkAttestationChain_known hknown]
  exact (hwalk.ends (seedAnchor 1) rfl).2.2

end Hodlchain
