/-
What backs the atoms of the ledger.

A follower takes a mint after two checks: the witness against L1, and the ledger's
set of consumed nullifiers.  Over any number of blocks the two together make the
mints a list of distinct outputs, each credited once with what its value and lock
are worth, so the supply is bounded by what is locked.
-/
import Hodlchain.Core.Accepted
import Hodlchain.Core.Signing
import Hodlchain.Node.Batch
import Hodlchain.Node.MintReplay
import Mathlib.Algebra.BigOperators.Group.Finset.Piecewise
import Mathlib.Algebra.Order.BigOperators.Group.Finset

namespace Hodlchain

open Bytes

variable {prim : Primitives}

/-! ### What one mint is backed by -/

theorem OutpointProof.nullifier_inj {op op' : OutPoint}
    (h : hexEncode (OutpointProof.outpointNullifier op)
      = hexEncode (OutpointProof.outpointNullifier op')) : op = op' := by
  have hbytes := hexEncode_inj h
  simp only [OutpointProof.outpointNullifier] at hbytes
  rw [append_split (by simp), Txid.raw_inj, le32_inj] at hbytes
  obtain ⟨htxid, hvout⟩ := hbytes
  cases op; cases op'
  simp_all

/-- What an output and a proof say about the event of a mint: the output commits to the
proof's lock and key and to no other, the amount is what its value and that lock are worth,
and the key has signed the output together with the destination. -/
structure Backs (prim : Primitives) (signed : XOnlyPublicKey → H256 → Prop)
    (output : L1Output) (p : OutpointProof) (ev : MintEvent) : Prop where
  script : expectedP2trSpk prim p.lockBlocks p.userXonlyPubkey = .ok output.scriptPubkey
  committed : ∀ lock pk, expectedP2trSpk prim lock pk = .ok output.scriptPubkey →
    lock = p.lockBlocks ∧ pk = p.userXonlyPubkey
  lock : p.lockBlocks ≠ 0 ∧ p.lockBlocks ≤ maxLockBlocks
  amount : ev.amount = mintFn prim output.valueSat p.lockBlocks
  nullifier : ev.nullifierHex = hexEncode (OutpointProof.outpointNullifier p.outpoint)
  signature : signed p.userXonlyPubkey
    (OutpointProof.sighash prim p.outpoint p.claimedBlockHeight ev.l2Destination)
  message : ∀ op h d, OutpointProof.sighashPreimage op h d
      = OutpointProof.sighashPreimage p.outpoint p.claimedBlockHeight ev.l2Destination →
    op = p.outpoint ∧ d = ev.l2Destination

/-- The mint's own output and proof back it. -/
def MintEntry.Backed (l1 : L1View) (signed : XOnlyPublicKey → H256 → Prop) (entry : MintEntry)
    (prim : Primitives) : Prop :=
  ∃ output p, entry.witness = .v0Outpoint p ∧ l1.getOutput p.outpoint = some output ∧
    Backs prim signed output p entry.event

/-- What an output is worth in a view. -/
def L1View.valueOf (l1 : L1View) (op : OutPoint) : ℕ :=
  (l1.getOutput op).elim 0 (·.valueSat.toNat)

section

variable {l1 : L1View} {signed : XOnlyPublicKey → H256 → Prop}

/-- `derive_mint_taproot` commits to the lock and the key. -/
def TaprootCommits (prim : Primitives) : Prop :=
  ∀ lock pk lock' pk' spk, expectedP2trSpk prim lock pk = .ok spk →
    expectedP2trSpk prim lock' pk' = .ok spk → lock = lock' ∧ pk = pk'

/-- A signature that verifies was made by the key's holder. -/
def Unforgeable (prim : Primitives) (signed : XOnlyPublicKey → H256 → Prop) : Prop :=
  ∀ sig digest pk, prim.verifySchnorr sig digest pk = true → signed pk digest

/-- **A verified mint is backed.** -/
theorem verifyMintEntry_backed {entry : MintEntry} (htap : TaprootCommits prim)
    (hsig : Unforgeable prim signed) (h : verifyMintEntry prim entry l1 = .ok ()) :
    entry.Backed l1 signed prim := by
  obtain ⟨output, hout⟩ := verifyMintEntry_found h
  rw [verifyMintEntry_eq, hout] at h
  obtain ⟨ev, ⟨p⟩⟩ := entry
  refine ⟨output, p, rfl, hout, ?_⟩
  simp only at h
  cases hcredit : p.verifyOutput prim l1.tipHeight ev.l2Destination output with
  | error e => simp [hcredit] at h
  | ok credit =>
      rw [hcredit] at h
      have hpassed := OutpointProof.verifyOutput_ok hcredit
      have hevent : credit.event = ev := compareEvents_ok_iff.mp h
      exact
        { script := hpassed.script
          committed := fun lock pk heq => (htap _ _ _ _ _ hpassed.script heq).imp Eq.symm Eq.symm
          lock := hpassed.lock
          amount := by rw [← hevent, hpassed.event]
          nullifier := by rw [← hevent, hpassed.event]; rfl
          signature := hsig _ _ _ hpassed.signature
          message := fun op h d heq =>
            let ⟨hop, _, hd⟩ := OutpointProof.sighashPreimage_inj heq
            ⟨hop, hd⟩ }

theorem MintEntry.Backed.nullifier {entry : MintEntry} (h : entry.Backed l1 signed prim) :
    entry.event.nullifierHex
      = hexEncode (OutpointProof.outpointNullifier entry.witness.outpoint) := by
  obtain ⟨output, p, hwit, -, hbacks⟩ := h
  rw [hbacks.nullifier, hwit]
  rfl

theorem MintEntry.Backed.amount_le {entry : MintEntry} (h : entry.Backed l1 signed prim)
    (hcurve : ∀ value lock, lock ≤ maxLockBlocks → mintFn prim value lock ≤ value) :
    entry.event.amount.toNat ≤ l1.valueOf entry.witness.outpoint := by
  obtain ⟨output, p, hwit, hout, hbacks⟩ := h
  have hwitness : entry.witness.outpoint = p.outpoint := by rw [hwit]; rfl
  rw [L1View.valueOf, hwitness, hout, hbacks.amount]
  exact UInt64.le_iff_toNat_le.mp (hcurve _ _ hbacks.lock.2)

end

/-! ### The follower's checks, block after block -/

/-- The checks the follower makes of a block's transactions: every mint against L1, then
the ledger. -/
def acceptBlock (prim : Primitives) (l1 : L1View) (s : LedgerState) (block : L2Block) :
    Option LedgerState :=
  match verifyMints prim l1 block.txs, s.replay prim block.txs with
  | .ok (), .ok s' => some s'
  | _, _ => none

/-- What `apply_one_l2_block` accepts passes these checks. -/
theorem checkL2Block_acceptBlock {view : L1View} {state : LedgerState} {head : HeadInfo}
    {height : UInt32} {att : Option Attestation} {block : L2Block} {next : Accepted}
    (h : checkL2Block prim view state head height att block = .ok next) :
    acceptBlock prim view state block = some next.state := by
  obtain ⟨-, -, hmints, hreplay, -⟩ := checkL2Block_ok_iff.mp h
  rw [acceptBlock, hmints, hreplay]

theorem acceptBlock_eq_some {l1 : L1View} {s s' : LedgerState} {block : L2Block} :
    acceptBlock prim l1 s block = some s' ↔
      verifyMints prim l1 block.txs = .ok () ∧ s.replay prim block.txs = .ok s' := by
  rw [acceptBlock]
  cases verifyMints prim l1 block.txs <;> cases s.replay prim block.txs <;> simp

section

variable {l1 : L1View} {signed : XOnlyPublicKey → H256 → Prop}

/-- A run of accepted blocks is a run of accepted transactions with verified mints. -/
theorem acceptBlocks_run {blocks : List L2Block} {s s' : LedgerState}
    (h : blocks.foldlM (acceptBlock prim l1) s = some s') :
    s.AllOk prim (blocks.flatMap (·.txs)) ∧ s.applyAll prim (blocks.flatMap (·.txs)) = s' ∧
      ∀ entry ∈ mintsOf (blocks.flatMap (·.txs)), verifyMintEntry prim entry l1 = .ok () := by
  induction blocks generalizing s with
  | nil =>
      obtain rfl := Option.some.inj h
      exact ⟨trivial, rfl, by simp [mintsOf]⟩
  | cons block blocks ih =>
      rw [List.foldlM_cons] at h
      obtain ⟨next, hblock, hblocks⟩ := Option.bind_eq_some_iff.mp h
      obtain ⟨hmints, hreplay⟩ := acceptBlock_eq_some.mp hblock
      obtain ⟨hok, happly⟩ := LedgerState.replayFrom_ok_iff.mp hreplay
      obtain ⟨hokRest, hend, hmintsRest⟩ := ih hblocks
      rw [List.flatMap_cons]
      refine ⟨LedgerState.allOk_append.mpr ⟨hok, happly ▸ hokRest⟩, ?_, fun entry hentry => ?_⟩
      · rw [LedgerState.applyAll_append, happly, hend]
      · rw [mintsOf, List.filterMap_append, List.mem_append] at hentry
        rcases hentry with hin | hin
        · obtain ⟨tx, htx, hmint⟩ := List.mem_filterMap.mp hin
          rw [L2Tx.mint?_eq_some] at hmint
          exact verifyMintsFrom_ok_iff.mp hmints entry (hmint ▸ htx)
        · exact hmintsRest entry hin

/-- The outputs a list of mints consumes. -/
def consumedOutpoints (entries : List MintEntry) : Finset OutPoint :=
  (entries.map (·.witness.outpoint)).toFinset

/-- Backed mints of distinct nullifiers are mints of distinct outputs, and add up to no more
than those outputs are worth. -/
theorem mints_le_value {entries : List MintEntry}
    (hbacked : ∀ entry ∈ entries, entry.Backed l1 signed prim)
    (hnodup : (entries.map (·.event.nullifierHex)).Nodup)
    (hcurve : ∀ value lock, lock ≤ maxLockBlocks → mintFn prim value lock ≤ value) :
    (entries.map (·.witness.outpoint)).Nodup ∧
      (entries.map (·.event.amount.toNat)).sum ≤ ∑ op ∈ consumedOutpoints entries,
        l1.valueOf op := by
  have hops : (entries.map (·.witness.outpoint)).Nodup := by
    have heq : entries.map (·.event.nullifierHex)
        = (entries.map (·.witness.outpoint)).map
            fun op => hexEncode (OutpointProof.outpointNullifier op) := by
      rw [List.map_map]
      exact List.map_congr_left fun entry hentry => (hbacked entry hentry).nullifier
    rw [heq] at hnodup
    exact hnodup.of_map _
  refine ⟨hops, ?_⟩
  rw [consumedOutpoints, List.sum_toFinset _ hops, List.map_map]
  exact List.sum_le_sum fun entry hentry => (hbacked entry hentry).amount_le hcurve

/-- One accepted mint credits its destination by exactly its amount, and no one else. -/
theorem minted_balanceOf_exact {s : LedgerState} {entry : MintEntry} {mints fees : ℕ}
    (hbooks : s.Books mints fees) (hfit : mints + entry.event.amount.toNat < 2 ^ 64)
    (a : L2Address) :
    ((s.minted entry).balanceOf a).toNat = (s.balanceOf a).toNat
      + if entry.event.l2Destination = a then entry.event.amount.toNat else 0 := by
  have hcredit : (s.minted entry).balanceOf a
      = (s.credit entry.event.l2Destination entry.event.amount).balanceOf a := rfl
  have hle := s.balanceOf_le_supply a
  have hsupply := hbooks.supply_le
  rw [hcredit, LedgerState.credit_balanceOf]
  split_ifs with hdest
  · exact LedgerState.toNat_satAdd_of_lt (by omega)
  · rfl

/--
**Every atom is backed by a distinct locked output.**  Over any blocks that pass the
follower's checks on one view of L1: no outpoint is credited twice, and the nullifiers
consumed are those of the credited outpoints; every mint is backed by its output and credits
exactly its amount to its destination; and all that was minted, and all that is in the
balances, is at most what the consumed outputs hold.
-/
theorem supply_backed {fee : Option L2Address} {blocks : List L2Block} {s : LedgerState}
    (htap : TaprootCommits prim) (hsig : Unforgeable prim signed)
    (hcurve : ∀ value lock, lock ≤ maxLockBlocks → mintFn prim value lock ≤ value)
    (hvalues : ∀ ops : Finset OutPoint, ∑ op ∈ ops, l1.valueOf op < 2 ^ 64 - 1)
    (h : blocks.foldlM (acceptBlock prim l1) (LedgerState.start fee) = some s) :
    ((mintsOf (blocks.flatMap (·.txs))).map (·.witness.outpoint)).Nodup ∧
    (∀ op, op ∈ consumedOutpoints (mintsOf (blocks.flatMap (·.txs))) ↔
      hexEncode (OutpointProof.outpointNullifier op) ∈ s.consumedNullifiers) ∧
    (∀ n ∈ s.consumedNullifiers, ∃ op, hexEncode (OutpointProof.outpointNullifier op) = n) ∧
    (∀ front entry back, blocks.flatMap (·.txs) = front ++ .mint entry :: back →
      entry.Backed l1 signed prim ∧
      ∀ a, ((((LedgerState.start fee).applyAll prim front).apply prim (.mint entry)).2.balanceOf
          a).toNat
        = (((LedgerState.start fee).applyAll prim front).balanceOf a).toNat
          + if entry.event.l2Destination = a then entry.event.amount.toNat else 0) ∧
    s.totalMintedAtoms.toNat
      ≤ ∑ op ∈ consumedOutpoints (mintsOf (blocks.flatMap (·.txs))), l1.valueOf op ∧
    s.supply ≤ ∑ op ∈ consumedOutpoints (mintsOf (blocks.flatMap (·.txs))), l1.valueOf op := by
  obtain ⟨hok, hend, hmints⟩ := acceptBlocks_run h
  have hbacked := fun entry hentry => verifyMintEntry_backed htap hsig (hmints entry hentry)
  obtain ⟨hops, hle⟩ := mints_le_value hbacked hok.nodup.1 hcurve
  have hsum := hok.mintSum_eq
  have hbound := hvalues (consumedOutpoints (mintsOf (blocks.flatMap (·.txs))))
  have hfits : (LedgerState.start fee).mintSum prim (blocks.flatMap (·.txs)) < 2 ^ 64 - 1 := by
    omega
  have hbooks := (LedgerState.start_books fee).applyAll (by rwa [Nat.zero_add])
  rw [hend] at hbooks
  have hconsumed := hok.consumed
  rw [hend] at hconsumed
  have hstart : ∀ n, n ∉ (LedgerState.start fee).consumedNullifiers := fun n =>
    Std.ExtTreeSet.not_mem_empty
  have htotal := hbooks.total
  have hsupply := hbooks.supply_le
  refine ⟨hops, fun op => ?_, fun n hn => ?_, fun front entry back heq => ⟨?_, fun a => ?_⟩,
    by omega, by omega⟩
  · rw [hconsumed, consumedOutpoints, List.mem_toFinset, List.mem_map]
    constructor
    · rintro ⟨entry, hentry, rfl⟩
      exact .inr ⟨entry, hentry, (hbacked entry hentry).nullifier⟩
    · rintro (hin | ⟨entry, hentry, hn⟩)
      · exact absurd hin (hstart _)
      · exact ⟨entry, hentry,
          OutpointProof.nullifier_inj ((hbacked entry hentry).nullifier.symm.trans hn)⟩
  · rcases (hconsumed n).mp hn with hin | ⟨entry, hentry, hnull⟩
    · exact absurd hin (hstart _)
    · exact ⟨_, (hbacked entry hentry).nullifier.symm.trans hnull⟩
  · refine hbacked entry (List.mem_filterMap.mpr ⟨.mint entry, ?_, rfl⟩)
    rw [heq]
    simp
  · rw [heq, LedgerState.allOk_append] at hok
    obtain ⟨hentry, -⟩ := hok.2
    have hmint : ((LedgerState.start fee).applyAll prim front).acceptedMint prim (.mint entry)
        = entry.event.amount.toNat := by
      simp [LedgerState.acceptedMint, LedgerState.apply_of_ok hentry]
    rw [heq, LedgerState.mintSum_append, LedgerState.mintSum, hmint] at hfits
    have hfront := @LedgerState.Books.applyAll prim _ _ _ front (LedgerState.start_books fee)
      (by omega)
    rw [LedgerState.apply_of_ok hentry]
    exact minted_balanceOf_exact hfront (by omega) a

end

/-! ### One locked output -/

/-- The sample primitives with a Taproot output that spells out its leaves. -/
def Primitives.openTaproot : Primitives :=
  { Primitives.sample with taprootSpk := fun spend data => spend ++ data }

theorem openTaproot_commits : TaprootCommits Primitives.openTaproot := by
  have hok : ∀ {lock pk spk}, expectedP2trSpk Primitives.openTaproot lock pk = .ok spk →
      ∃ spend, csvTapleafScript lock pk = .ok spend ∧
        spend ++ dataTapleafScript Primitives.openTaproot pk = spk := by
    intro lock pk spk h
    rw [expectedP2trSpk] at h
    cases hspend : csvTapleafScript lock pk with
    | error e => simp [hspend] at h
    | ok spend =>
        rw [hspend] at h
        exact ⟨spend, rfl, Except.ok.inj h⟩
  intro lock pk lock' pk' spk h h'
  obtain ⟨spend, hspend, hspk⟩ := hok h
  obtain ⟨spend', hspend', hspk'⟩ := hok h'
  have heq := hspk.trans hspk'.symm
  rw [append_split_right (by simp [dataTapleafScript, pushSlice])] at heq
  exact csvTapleafScript_inj hspend (heq.1 ▸ hspend')

theorem mintFn_openTaproot_le (value : UInt64) (lock : UInt32) (h : lock ≤ maxLockBlocks) :
    mintFn Primitives.openTaproot value lock ≤ value := by
  rw [mintFn]
  split_ifs with h0
  · exact UInt64.zero_le
  · have hlock : lock.toNat ≤ 65535 := UInt32.le_iff_toNat_le.mp h
    have hmul : (value * lock.toUInt64).toNat ≤ value.toNat * 65535 := by
      rw [UInt64.toNat_mul, UInt32.toNat_toUInt64]
      exact (Nat.mod_le _ _).trans (Nat.mul_le_mul_left _ hlock)
    have hcurve : (value * lock.toUInt64 / 131072).toNat
        = (value * lock.toUInt64).toNat / 131072 := UInt64.toNat_div _ _
    refine UInt64.le_iff_toNat_le.mpr ?_
    change (value * lock.toUInt64 / 131072).toNat ≤ value.toNat
    omega

/-- A view with the one output `shortMint` claims. -/
def shortView : L1View where
  getOutput op :=
    if op = shortMint.witness.outpoint then
      match expectedP2trSpk Primitives.openTaproot 1 ⟨ByteArr.ofNat 32 1⟩ with
      | .ok spk => some ⟨1000000, spk, 1, 1⟩
      | .error _ => none
    else none
  tipHeight := 1

theorem shortView_sum_le (ops : Finset OutPoint) : ∑ op ∈ ops, shortView.valueOf op ≤ 1000000 := by
  have hvalue : ∀ op, shortView.valueOf op
      = if op = shortMint.witness.outpoint then 1000000 else 0 := by
    intro op
    simp only [L1View.valueOf, shortView]
    split_ifs with hop
    · rfl
    · rfl
  simp only [hvalue, Finset.sum_ite_eq']
  split_ifs <;> omega

/-- The block with that mint: seven atoms, backed by its million satoshi. -/
theorem supply_backed_shortMint :
    ∃ s, [shortMintBlock].foldlM (acceptBlock Primitives.openTaproot shortView)
        (LedgerState.start none) = some s ∧
      s.totalMintedAtoms = 7 ∧ s.supply ≤ 1000000 := by
  have hrun : (([shortMintBlock].foldlM (acceptBlock Primitives.openTaproot shortView)
      (LedgerState.start none)).map (·.totalMintedAtoms)) = some 7 := by decide +kernel
  obtain ⟨s, hs, htotal⟩ := Option.map_eq_some_iff.mp hrun
  obtain ⟨-, -, -, -, -, hsupply⟩ := @supply_backed Primitives.openTaproot shortView
    (fun pk digest => ∃ sig, Primitives.openTaproot.verifySchnorr sig digest pk = true)
    _ _ _ openTaproot_commits (fun sig digest pk h => ⟨sig, h⟩) mintFn_openTaproot_le
    (fun ops => (shortView_sum_le ops).trans_lt (by norm_num)) hs
  exact ⟨s, hs, htotal, hsupply.trans (shortView_sum_le _)⟩

end Hodlchain
