/-
Checking a mint again on a longer chain.

A node reads outputs through `gettxout`, a wallet through the transaction that
created them.  Both derive the same heights and confirmations, and a longer chain
only adds confirmations and raises the tip, so a mint that passed keeps passing,
for both, as long as its output is unspent.  Once the locked output is reclaimed
the node no longer finds it, and the wallet still does.
-/
import Hodlchain.Node.Bitcoind
import Hodlchain.Wallet.Refinement

namespace Hodlchain

open Bytes

/-- An Esplora that serves a chain. -/
def Chain.esplora (c : Chain) : EsploraClient where
  getTx txid := (c.findTx txid).map fun (tx, h) =>
    { vout := tx.output.map fun o => ⟨hexEncode o.scriptPubkey, o.value⟩
      status := ⟨some (UInt32.ofNat h)⟩ }

/-! ### One output, two readings -/

/-- A coin as an `L1Output`, at a tip. -/
def Coin.l1Output (coin : Coin) (tip : Nat) : L1Output where
  valueSat := coin.output.value
  scriptPubkey := coin.output.scriptPubkey
  confirmedHeight := UInt32.ofNat coin.height
  confirmations := UInt32.ofNat (tip - coin.height + 1)

/-- A coin of the chain was created at a height from 1 to the tip, by a transaction its id
finds. -/
theorem Chain.utxos_origin {c : Chain} (hids : c.UniqueTxids) {op : OutPoint} {coin : Coin}
    (h : c.utxos op = some coin) : 1 ≤ coin.height ∧ coin.height ≤ c.tip ∧
      ∃ tx, c.findTx op.txid = some (tx, coin.height)
        ∧ tx.output[op.vout.toNat]? = some coin.output := by
  rcases connectFrom_origin 1 _ h with hnone | ⟨i, b, hb, hheight, tx, htx, hid, hout⟩
  · cases hnone
  · rw [List.getElem?_drop] at hb
    have hlt : 1 + i < c.length := (List.getElem?_eq_some_iff.mp hb).1
    have hfind := Chain.findTxFrom_eq htx (h := 0) hids hb
    rw [hid, Nat.zero_add, ← hheight] at hfind
    exact ⟨by omega, by rw [Chain.tip]; omega, tx, hfind, hout⟩

section

variable {c : Chain} {op : OutPoint} {coin : Coin}

theorem toNat_ofNat32 {n : Nat} (h : n < 2 ^ 32) : (UInt32.ofNat n).toNat = n := by
  rw [UInt32.toNat_ofNat']
  exact Nat.mod_eq_of_lt h

theorem satSub32_ofNat {a b : Nat} (ha : a < 2 ^ 32) (hb : b < 2 ^ 32) (h : b ≤ a) :
    satSub32 (UInt32.ofNat a) (UInt32.ofNat b) = UInt32.ofNat (a - b) := by
  have hle : UInt32.ofNat b ≤ UInt32.ofNat a := by
    rw [UInt32.le_iff_toNat_le, toNat_ofNat32 ha, toNat_ofNat32 hb]
    exact h
  rw [satSub32, if_pos hle]
  refine UInt32.toNat_inj.mp ?_
  rw [UInt32.toNat_sub_of_le _ _ hle, toNat_ofNat32 ha, toNat_ofNat32 hb,
    toNat_ofNat32 (by omega)]

theorem satAdd32_one {a : Nat} (ha : a + 1 < 2 ^ 32) :
    satAdd32 (UInt32.ofNat a) 1 = UInt32.ofNat (a + 1) := by
  have hone : (1 : UInt32).toNat = 1 := rfl
  rw [satAdd32, toNat_ofNat32 (by omega), hone, if_pos ha]
  refine UInt32.toNat_inj.mp ?_
  rw [UInt32.toNat_add, toNat_ofNat32 (by omega), toNat_ofNat32 ha, hone]
  exact Nat.mod_eq_of_lt ha

/-- The node reads an unspent output as its coin. -/
theorem nodeView_getOutput (hids : c.UniqueTxids) (hlen : c.length ≤ 2 ^ 32)
    (h : c.utxos op = some coin) : (NodeL1.view c).getOutput op = some (coin.l1Output c.tip) := by
  obtain ⟨hlow, hhigh, -⟩ := Chain.utxos_origin hids h
  have htip : c.tip < 2 ^ 32 := by rw [Chain.tip] at hhigh ⊢; omega
  have hconfs : c.tip - (c.tip - coin.height + 1) + 1 = coin.height := by omega
  simp only [NodeL1.view, getTxOut, h, Option.map_some, Coin.l1Output,
    satSub32_ofNat htip (show c.tip - coin.height + 1 < 2 ^ 32 by omega) (by omega),
    satAdd32_one (show c.tip - (c.tip - coin.height + 1) + 1 < 2 ^ 32 by omega), hconfs]

theorem nodeView_getOutput_none (h : c.utxos op = none) :
    (NodeL1.view c).getOutput op = none := by
  simp only [NodeL1.view, getTxOut, h, Option.map_none]

/-- The wallet reads the same output from the transaction that created it. -/
theorem esplora_output {coin : Coin} {tip : Nat} {tx : BtcTx} (hlow : 1 ≤ coin.height)
    (hhigh : coin.height ≤ tip) (htip : tip < 2 ^ 32)
    (hfind : c.findTx op.txid = some (tx, coin.height))
    (hout : tx.output[op.vout.toNat]? = some coin.output) :
    c.esplora.output (UInt32.ofNat tip) op = .ok (coin.l1Output tip) := by
  simp only [EsploraClient.output, Chain.esplora, hfind, Option.map_some, bind_ok_iff, okOr_ok_iff,
    pure_ok_iff]
  refine ⟨_, rfl, _, by rw [List.getElem?_map, hout]; rfl, _, rfl, _, hexDecode_hexEncode _, ?_⟩
  simp only [Coin.l1Output, satSub32_ofNat htip (show coin.height < 2 ^ 32 by omega) hhigh,
    satAdd32_one (show tip - coin.height + 1 < 2 ^ 32 by omega)]

end

/-! ### Later checks -/

/-- **A proof that passed keeps passing** with more confirmations and a higher tip. -/
theorem OutpointProof.verifyOutput_later {prim : Primitives} {p : OutpointProof}
    {tip tip' confs' : UInt32} {dest : L2Address} {out : L1Output} {credit : MintCredit}
    (h : p.verifyOutput prim tip dest out = .ok credit) (hconfs : mintConfirmations ≤ confs')
    (htip : tip ≤ tip') :
    p.verifyOutput prim tip' dest { out with confirmations := confs' } = .ok credit := by
  simp only [verifyOutput] at h ⊢
  rw [if_neg (by simpa using hconfs)]
  -- the checks before the tip do not look at what changes
  by_cases hold : out.confirmations < mintConfirmations
  · rw [if_pos hold] at h; cases h
  rw [if_neg hold] at h
  by_cases hlock : p.lockBlocks = 0 ∨ p.lockBlocks > maxLockBlocks
  · rw [if_pos hlock] at h; cases h
  rw [if_neg hlock] at h ⊢
  by_cases hcreate : p.claimedBlockHeight < out.confirmedHeight
  · rw [if_pos hcreate] at h; cases h
  rw [if_neg hcreate] at h ⊢
  by_cases hexpired : p.claimedBlockHeight ≥ satAdd32 out.confirmedHeight p.lockBlocks
  · rw [if_pos hexpired] at h; cases h
  rw [if_neg hexpired] at h ⊢
  by_cases hfuture : p.claimedBlockHeight > tip
  · rw [if_pos hfuture] at h; cases h
  have hfuture' : ¬ p.claimedBlockHeight > tip' := by
    rw [gt_iff_lt, UInt32.not_lt] at hfuture ⊢
    exact UInt32.le_trans hfuture htip
  rw [if_neg hfuture] at h
  rw [if_neg hfuture']
  exact h

/-- A mint, as a check of one output. -/
theorem verifyMintEntry_some {prim : Primitives} {entry : MintEntry} {l1 : L1View} {out : L1Output}
    (h : l1.getOutput entry.witness.outpoint = some out) :
    verifyMintEntry prim entry l1 = .ok () ↔ ∃ p, entry.witness = .v0Outpoint p ∧
      ∃ credit, p.verifyOutput prim l1.tipHeight entry.event.l2Destination out = .ok credit
        ∧ credit.event = entry.event := by
  rw [verifyMintEntry_eq, h]
  obtain ⟨ev, ⟨p⟩⟩ := entry
  simp only [MintProofEnvelope.v0Outpoint.injEq, exists_eq_left']
  cases hv : p.verifyOutput prim l1.tipHeight ev.l2Destination out with
  | error e => simp
  | ok credit => simp [compareEvents_ok_iff]

/-- The ids of a shorter chain are unique too. -/
theorem Chain.UniqueTxids.earlier {c more : Chain} (h : Chain.UniqueTxids (c ++ more)) :
    c.UniqueTxids := by
  have htxs : Chain.txs (c ++ more) = c.txs ++ Chain.txs more := List.flatMap_append
  rw [UniqueTxids, htxs, List.map_append] at h
  exact (List.nodup_append.mp h).1

/-- After more blocks, an unspent output is spent by them or still there. -/
theorem Chain.utxos_later {c more : Chain} (hids : Chain.UniqueTxids (c ++ more)) {op : OutPoint}
    {coin : Coin} (h : c.utxos op = some coin) :
    Chain.utxos (c ++ more) op = if Chain.Spends more op then none else some coin := by
  have htxs : Chain.txs (c ++ more) = c.txs ++ Chain.txs more := List.flatMap_append
  rw [UniqueTxids, htxs, List.map_append] at hids
  obtain ⟨-, -, hdisj⟩ := List.nodup_append.mp hids
  have hne : c ≠ [] := by
    rintro rfl
    cases h
  have hmem : op.txid ∈ c.txs.map (·.txid) := by
    rcases connectFrom_origin 1 _ h with hnone | ⟨i, b, hb, -, t, ht, hid, -⟩
    · cases hnone
    · exact List.mem_map.mpr ⟨t, List.mem_flatMap.mpr
        ⟨b, List.mem_of_mem_drop (List.mem_of_getElem? hb), ht⟩, hid⟩
  rw [Chain.utxos_append hne,
    connectFrom_absent fun t ht hc => hdisj _ hmem _ (List.mem_map_of_mem ht) hc.symm, h]

/-- A mint that passes on a node has found its output among the unspent ones. -/
theorem verifyMintEntry_coin {prim : Primitives} {c : Chain} {entry : MintEntry}
    (h : verifyMintEntry prim entry (NodeL1.view c) = .ok ()) :
    ∃ coin, c.utxos entry.witness.outpoint = some coin := by
  obtain ⟨out, hout⟩ := verifyMintEntry_found h
  cases hcoin : c.utxos entry.witness.outpoint with
  | some coin => exact ⟨coin, rfl⟩
  | none =>
      rw [nodeView_getOutput_none hcoin] at hout
      cases hout

/-- **A mint that has passed passes again** on a longer chain, where no later block spends its
output. -/
theorem verifyMintEntry_again {prim : Primitives} {v1 more : Chain} {entry : MintEntry}
    (hids : Chain.UniqueTxids (v1 ++ more)) (hlen : (v1 ++ more).length ≤ 2 ^ 32)
    (hv1 : verifyMintEntry prim entry (NodeL1.view v1) = .ok ())
    (hunspent : ¬ Chain.Spends more entry.witness.outpoint) :
    verifyMintEntry prim entry (NodeL1.view (v1 ++ more)) = .ok () := by
  have hlen1 : v1.length ≤ 2 ^ 32 := by
    rw [List.length_append] at hlen
    omega
  obtain ⟨coin, hcoin⟩ := verifyMintEntry_coin hv1
  have hlater := Chain.utxos_later hids hcoin
  rw [if_neg hunspent] at hlater
  obtain ⟨hlow, hhigh, -⟩ := Chain.utxos_origin hids hlater
  have htip2 : Chain.tip (v1 ++ more) < 2 ^ 32 := by
    rw [Chain.tip] at hhigh ⊢
    omega
  have htip1 : v1.tip ≤ Chain.tip (v1 ++ more) := by
    simp only [Chain.tip, List.length_append]
    omega
  obtain ⟨p, hp, credit, hcredit, hevent⟩ :=
    (verifyMintEntry_some (nodeView_getOutput hids.earlier hlen1 hcoin)).mp hv1
  refine (verifyMintEntry_some (nodeView_getOutput hids hlen hlater)).mpr
    ⟨p, hp, credit, OutpointProof.verifyOutput_later hcredit ?_ ?_, hevent⟩
  · rw [UInt32.le_iff_toNat_le, toNat_ofNat32 (by omega)]
    show 1 ≤ _
    omega
  · show UInt32.ofNat v1.tip ≤ UInt32.ofNat (Chain.tip (v1 ++ more))
    rw [UInt32.le_iff_toNat_le, toNat_ofNat32 (by omega), toNat_ofNat32 htip2]
    exact htip1

/--
**A mint verdict is stable exactly while the output is unspent.**  For a mint the
node accepted at one chain and any chain that extends it: the node accepts it
there, with the wallet's verdict, if and only if no later block spends the output.
-/
theorem mintVerdict_stable_iff {prim : Primitives} {v1 more : Chain} {entry : MintEntry}
    {block : L2Block} {batch : BatchL1View} (hids : Chain.UniqueTxids (v1 ++ more))
    (hlen : (v1 ++ more).length ≤ 2 ^ 32)
    (hv1 : verifyMintEntry prim entry (NodeL1.view v1) = .ok ())
    (hmem : L2Tx.mint entry ∈ block.txs)
    (hbatch : prefetchL1ForBlock (Chain.esplora (v1 ++ more)) block
      (UInt32.ofNat (Chain.tip (v1 ++ more))) = .ok batch) :
    (verifyMintEntry prim entry (NodeL1.view (v1 ++ more)) = .ok () ∧
      verifyMintEntry prim entry (NodeL1.view (v1 ++ more))
        = verifyMintEntry prim entry batch.view)
      ↔ ¬ Chain.Spends more entry.witness.outpoint := by
  -- the coin the first check found
  obtain ⟨coin, hcoin⟩ := verifyMintEntry_coin hv1
  have hlater := Chain.utxos_later hids hcoin
  by_cases hspent : Chain.Spends more entry.witness.outpoint
  · rw [if_pos hspent] at hlater
    refine iff_of_false (fun hboth => ?_) (not_not_intro hspent)
    obtain ⟨out, hout⟩ := verifyMintEntry_found hboth.1
    rw [nodeView_getOutput_none hlater] at hout
    cases hout
  · rw [if_neg hspent] at hlater
    refine iff_of_true ⟨verifyMintEntry_again hids hlen hv1 hspent, ?_⟩ hspent
    obtain ⟨hlow, hhigh, tx, hfind, hout⟩ := Chain.utxos_origin hids hlater
    have htip2 : Chain.tip (v1 ++ more) < 2 ^ 32 := by
      rw [Chain.tip] at hhigh ⊢
      omega
    have hview := prefetch_getOutput hbatch
    refine verifyMintEntry_congr ?_ hview.tipHeight.symm
    rw [nodeView_getOutput hids hlen hlater, hview.getOutput entry hmem,
      esplora_output hlow hhigh htip2 hfind hout]
    rfl

/-! ### A reclaimed output -/

/-- A mint of an output locked for one block, claimed at height 1. -/
def shortMint : MintEntry :=
  let key : XOnlyPublicKey := ⟨ByteArr.ofNat 32 1⟩
  let outpoint : OutPoint := ⟨⟨ByteArr.ofNat 32 7⟩, 0⟩
  let digest := OutpointProof.sighash Primitives.sample outpoint 1 key
  { event :=
      { nullifierHex := hexEncode (OutpointProof.outpointNullifier outpoint)
        amount := 7
        l2Destination := key
        l1CreateHeight := 1
        lockBlocks := 1
        l1ValueSat := 1000000 }
    witness := .v0Outpoint
      { outpoint := outpoint
        userXonlyPubkey := key
        lockBlocks := 1
        claimedBlockHeight := 1
        signature := ⟨(digest.bytes ++ key.bytes).cast Primitives.digest_and_key⟩ } }

/-- A chain whose block 1 locks that output. -/
def lockChain : Chain :=
  let spk := match expectedP2trSpk Primitives.sample 1 ⟨ByteArr.ofNat 32 1⟩ with
    | .ok spk => spk
    | .error _ => []
  [⟨[]⟩, ⟨[⟨⟨ByteArr.ofNat 32 7⟩, [], [⟨1000000, spk⟩]⟩]⟩]

/-- A next block, empty or with the transaction that reclaims the output. -/
def nextBlock (reclaim : Bool) : BtcBlock :=
  ⟨if reclaim then [⟨⟨ByteArr.ofNat 32 8⟩, [⟨⟨ByteArr.ofNat 32 7⟩, 0⟩], []⟩] else []⟩

/-- The L2 block that holds the mint. -/
def shortMintBlock : L2Block :=
  { genesis Primitives.sample H256.zero 1 0 ⟨⟨ByteArr.ofNat 32 9⟩, 1⟩ none none with
    txs := [.mint shortMint] }

/-- The wallet's view of the lock chain and a next block. -/
def lockChainBatch : BatchL1View where
  outputs := [(shortMint.witness.outpoint, Coin.l1Output
    ⟨((lockChain.txs.flatMap (·.output)).headD ⟨0, []⟩), 1⟩ 2)]
  tip := 2

/-- Accepted at height 1, refused by the node at height 2 once reclaimed, and still accepted
by the wallet. -/
theorem mintVerdict_reclaimed :
    verifyMintEntry Primitives.sample shortMint (NodeL1.view lockChain) = .ok () ∧
      Chain.UniqueTxids (lockChain ++ [nextBlock true]) ∧
      verifyMintEntry Primitives.sample shortMint (NodeL1.view (lockChain ++ [nextBlock true]))
        = .error .outpointNotFound ∧
      prefetchL1ForBlock (Chain.esplora (lockChain ++ [nextBlock true])) shortMintBlock 2
        = .ok lockChainBatch ∧
      verifyMintEntry Primitives.sample shortMint lockChainBatch.view = .ok () := by
  decide +kernel

/-- While the output is unspent, both accept it. -/
theorem mintVerdict_stable_unspent :
    (verifyMintEntry Primitives.sample shortMint (NodeL1.view (lockChain ++ [nextBlock false]))
        = .ok () ∧
      verifyMintEntry Primitives.sample shortMint (NodeL1.view (lockChain ++ [nextBlock false]))
        = verifyMintEntry Primitives.sample shortMint lockChainBatch.view)
      ↔ ¬ Chain.Spends [nextBlock false] shortMint.witness.outpoint :=
  @mintVerdict_stable_iff _ _ _ _ shortMintBlock _ (by decide) (by decide)
    (by decide +kernel) (by decide +kernel) (by decide +kernel)

end Hodlchain
