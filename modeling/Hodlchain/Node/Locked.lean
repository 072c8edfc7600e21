/-
What backs the atoms whose lock has not run.

A follower checks a mint once, against L1 as it is then.  That the output stays where it
is for the length of the lock is not checked by anyone: it is what the script of the
output says.  So at every later L1, the atoms minted under locks that still run are at
most what outputs hold that are unspent there, a distinct one for each mint.
-/
import Hodlchain.Node.Backing
import Hodlchain.Node.Canonical
import Hodlchain.Wallet.SpendPaths

namespace Hodlchain

open Bytes Tapscript

/-! ### An output under its lock -/

section

variable {prim : Primitives} {rules : SpendRules (BtcTx × OutPoint)} {c seen : Chain}
    {op : OutPoint}
  {coin : Coin}

/-- Every input that spends a mint output is a valid spend of it, where it is. -/
def Chain.ObeysLocks (prim : Primitives) (rules : SpendRules (BtcTx × OutPoint))
    (c : Chain) : Prop :=
  ∀ b tx, (b, tx) ∈ c.placed → ∀ op ∈ tx.input, ∀ h creator, (h, creator) ∈ c.placed →
    creator.txid = op.txid → ∀ out, creator.output[op.vout.toNat]? = some out →
      ∀ lock pk, expectedP2trSpk prim lock pk = .ok out.scriptPubkey →
        rules.ValidSpend out.scriptPubkey h b (tx, op)

/-- A coin is an output of a transaction in the block it was created in. -/
theorem Chain.utxos_placed (h : c.utxos op = some coin) : ∃ tx, (coin.height, tx) ∈ c.placed ∧
    tx.txid = op.txid ∧ tx.output[op.vout.toNat]? = some coin.output := by
  rcases connectFrom_origin 1 _ h with hnone | ⟨i, b, hb, hheight, tx, htx, hid, hout⟩
  · cases hnone
  · rw [List.getElem?_drop] at hb
    refine ⟨tx, mem_placed.mpr ⟨b, ?_, htx⟩, hid, hout⟩
    rw [hheight]
    exact hb

/-- **A mint output stays unspent until its lock has run.** -/
theorem Chain.utxos_locked (hvalid : c.Valid) (hobeys : c.ObeysLocks prim rules)
    (hrules : Wallet.MintOutputs prim rules) (hseen : seen <+: c)
    (hcoin : seen.utxos op = some coin) {lock : UInt32} {pk : XOnlyPublicKey}
    (hspk : expectedP2trSpk prim lock pk = .ok coin.output.scriptPubkey)
    (hactive : c.length ≤ coin.height + lock.toNat) : c.utxos op = some coin := by
  obtain ⟨more, rfl⟩ := hseen
  rw [Chain.utxos_later hvalid.uniqueTxids hcoin, if_neg]
  rintro ⟨tx, htx, hop⟩
  -- the block of the spender
  obtain ⟨creator, hcreator, hid, hout⟩ := Chain.utxos_placed hcoin
  have hearlier : (coin.height, creator) ∈ Chain.placed (seen ++ more) := by
    unfold Chain.placed
    rw [placedFrom_append]
    exact List.mem_append_left _ hcreator
  have htxs : tx ∈ Chain.txs (seen ++ more) := by
    unfold Chain.txs
    rw [List.flatMap_append]
    exact List.mem_append_right _ htx
  rw [txs_eq_placed] at htxs
  obtain ⟨⟨b, tx'⟩, hplaced, rfl⟩ := List.mem_map.mp htxs
  have hmature := Wallet.validSpend_mint_mature hrules hspk
    (hobeys b tx' hplaced op hop coin.height creator hearlier hid _ hout lock pk hspk)
  obtain ⟨block, hblock, -⟩ := mem_placed.mp hplaced
  have hbelow := (List.getElem?_eq_some_iff.mp hblock).1
  omega

end

/-! ### The mints of a run -/

section

variable {prim : Primitives} {c : Chain}

/-- A block that passes the follower's checks, under L1 as the follower sees it then. -/
def acceptSeen (prim : Primitives) (s : LedgerState) (p : Chain × L2Block) : Option LedgerState :=
  acceptBlock prim (NodeL1.view p.1) s p.2

def txsOf (run : List (Chain × L2Block)) : List L2Tx := run.flatMap (·.2.txs)

/-- A run of accepted blocks is a run of accepted transactions, whose mints passed under what was
seen. -/
theorem acceptSeen_run {run : List (Chain × L2Block)} {s s' : LedgerState}
    (h : run.foldlM (acceptSeen prim) s = some s') : s.AllOk prim (txsOf run) ∧
      ∀ entry ∈ mintsOf (txsOf run), ∃ p ∈ run,
        verifyMintEntry prim entry (NodeL1.view p.1) = .ok () := by
  induction run generalizing s with
  | nil => exact ⟨trivial, fun entry hentry => absurd hentry List.not_mem_nil⟩
  | cons p run ih =>
      rw [List.foldlM_cons] at h
      obtain ⟨next, hblock, hrest⟩ := Option.bind_eq_some_iff.mp h
      have hone : [p.2].foldlM (acceptBlock prim (NodeL1.view p.1)) s = some next := by
        rw [List.foldlM_cons, show acceptBlock prim (NodeL1.view p.1) s p.2 = some next from hblock]
        rfl
      obtain ⟨hok, happly, hmints⟩ := acceptBlocks_run hone
      rw [List.flatMap_cons, List.flatMap_nil, List.append_nil] at hok happly hmints
      obtain ⟨hokRest, hmintsRest⟩ := ih hrest
      unfold txsOf at hokRest hmintsRest ⊢
      rw [List.flatMap_cons]
      refine ⟨LedgerState.allOk_append.mpr ⟨hok, by rw [happly]; exact hokRest⟩,
        fun entry hentry => ?_⟩
      rw [mintsOf, List.filterMap_append, List.mem_append] at hentry
      rcases hentry with hin | hin
      · exact ⟨p, List.mem_cons_self, hmints entry hin⟩
      · obtain ⟨q, hq, hverified⟩ := hmintsRest entry hin
        exact ⟨q, List.mem_cons_of_mem _ hq, hverified⟩

/-- The lock has not run in the next block. -/
def MintEvent.Running (c : Chain) (ev : MintEvent) : Prop :=
  c.length ≤ ev.l1CreateHeight.toNat + ev.lockBlocks.toNat

instance (c : Chain) (ev : MintEvent) : Decidable (ev.Running c) :=
  inferInstanceAs (Decidable (c.length ≤ _))

/-- The mints whose locks still run. -/
def activeMints (c : Chain) (run : List (Chain × L2Block)) : List MintEntry :=
  (mintsOf (txsOf run)).filter fun entry => decide (entry.event.Running c)

/-- What an output holds that is unspent. -/
def Chain.unspentValue (c : Chain) (op : OutPoint) : ℕ :=
  (c.utxos op).elim 0 (·.output.value.toNat)

/-- The output of a mint, as its event has it: the height it was created at, its value, and the lock
of its script. -/
structure MintEntry.Holds (prim : Primitives) (entry : MintEntry) (coin : Coin) : Prop where
  height : coin.height = entry.event.l1CreateHeight.toNat
  value : coin.output.value = entry.event.l1ValueSat
  amount : entry.event.amount = mintFn prim coin.output.value entry.event.lockBlocks
  lock : entry.event.lockBlocks ≤ maxLockBlocks
  script : ∃ pk, expectedP2trSpk prim entry.event.lockBlocks pk = .ok coin.output.scriptPubkey
  nullifier : entry.event.nullifierHex
    = hexEncode (OutpointProof.outpointNullifier entry.witness.outpoint)

/-- A mint that passes under a chain claims an unspent output of it. -/
theorem verifyMintEntry_holds {entry : MintEntry} (hids : c.UniqueTxids) (hlen : c.length ≤ 2 ^ 32)
    (h : verifyMintEntry prim entry (NodeL1.view c) = .ok ()) :
    ∃ coin, c.utxos entry.witness.outpoint = some coin ∧ entry.Holds prim coin := by
  obtain ⟨coin, hcoin⟩ := verifyMintEntry_coin h
  obtain ⟨p, hp, credit, hcredit, hevent⟩ :=
    (verifyMintEntry_some (nodeView_getOutput hids hlen hcoin)).mp h
  have hverified := OutpointProof.verifyOutput_ok hcredit
  have hheight : coin.height < 2 ^ 32 := by
    obtain ⟨-, hhigh, -⟩ := Chain.utxos_origin hids hcoin
    rw [Chain.tip] at hhigh
    omega
  rw [hevent] at hverified
  have hev := hverified.event
  refine ⟨coin, hcoin, ?_, by rw [hev]; rfl, by rw [hev]; rfl, by rw [hev]; exact hverified.lock.2,
    ⟨p.userXonlyPubkey, by rw [hev]; exact hverified.script⟩, ?_⟩
  · rw [hev]
    exact (toNat_ofNat32 hheight).symm
  · rw [hev, hp]
    rfl

/-- **Atoms under a lock that runs are backed by unspent outputs.**  In any run of blocks that pass
the follower's checks, each under L1 as it was seen then: at every later L1, the output of each mint
whose lock has not run is unspent, at the height, with the value and under the lock of the mint's
event; no two of the mints have one output; and together they are at most what these outputs
hold. -/
theorem active_backed {prim : Primitives} {rules : SpendRules (BtcTx × OutPoint)} {c : Chain}
    {fee : Option L2Address} {run : List (Chain × L2Block)} {s : LedgerState} (hvalid : c.Valid)
    (hlen : c.length ≤ 2 ^ 32) (hobeys : c.ObeysLocks prim rules)
    (hrules : Wallet.MintOutputs prim rules)
    (hcurve : ∀ value lock, lock ≤ maxLockBlocks → mintFn prim value lock ≤ value)
    (hseen : ∀ p ∈ run, p.1 <+: c)
    (h : run.foldlM (acceptSeen prim) (LedgerState.start fee) = some s) :
    (∀ entry ∈ activeMints c run, ∃ coin, c.utxos entry.witness.outpoint = some coin ∧
      entry.Holds prim coin) ∧
    ((activeMints c run).map (·.witness.outpoint)).Nodup ∧
    ((activeMints c run).map (·.event.amount.toNat)).sum
      ≤ ∑ op ∈ consumedOutpoints (activeMints c run), c.unspentValue op := by
  obtain ⟨hok, hmints⟩ := acceptSeen_run h
  have hunspent : ∀ entry ∈ activeMints c run, ∃ coin, c.utxos entry.witness.outpoint = some coin ∧
      entry.Holds prim coin := by
    intro entry hentry
    obtain ⟨hmem, hactive⟩ := List.mem_filter.mp hentry
    obtain ⟨p, hp, hverified⟩ := hmints entry hmem
    have hearlier := hseen p hp
    obtain ⟨coin, hcoin, hholds⟩ := verifyMintEntry_holds
      (by obtain ⟨more, hmore⟩ := hearlier; exact (hmore ▸ hvalid.uniqueTxids).earlier)
      (hearlier.length_le.trans hlen) hverified
    obtain ⟨pk, hspk⟩ := hholds.script
    refine ⟨coin, Chain.utxos_locked hvalid hobeys hrules hearlier hcoin hspk ?_, hholds⟩
    rw [hholds.height]
    exact of_decide_eq_true hactive
  have hnodup : ((activeMints c run).map (·.witness.outpoint)).Nodup := by
    have hall : ((activeMints c run).map (·.event.nullifierHex)).Nodup :=
      hok.nodup.1.sublist (List.filter_sublist.map _)
    have heq : (activeMints c run).map (·.event.nullifierHex)
        = ((activeMints c run).map (·.witness.outpoint)).map
            fun op => hexEncode (OutpointProof.outpointNullifier op) := by
      rw [List.map_map]
      refine List.map_congr_left fun entry hentry => ?_
      obtain ⟨coin, -, hholds⟩ := hunspent entry hentry
      exact hholds.nullifier
    rw [heq] at hall
    exact hall.of_map _
  refine ⟨hunspent, hnodup, ?_⟩
  rw [consumedOutpoints, List.sum_toFinset _ hnodup, List.map_map]
  refine List.sum_le_sum fun entry hentry => ?_
  obtain ⟨coin, hcoin, hholds⟩ := hunspent entry hentry
  show entry.event.amount.toNat ≤ c.unspentValue entry.witness.outpoint
  rw [Chain.unspentValue, hcoin, hholds.amount]
  exact UInt64.le_iff_toNat_le.mp (hcurve _ _ hholds.lock)

end

/-! ### A lock of three blocks -/

/-- `shortMint` over a longer lock. -/
def threeBlockMint : MintEntry where
  event := { shortMint.event with amount := 22, lockBlocks := 3 }
  witness := match shortMint.witness with
    | .v0Outpoint p => .v0Outpoint { p with lockBlocks := 3 }

def threeBlockBlock : L2Block := { shortMintBlock with txs := [.mint threeBlockMint] }

/-- A chain whose block 1 locks the output. -/
def threeBlockChain : Chain :=
  [⟨[]⟩, ⟨[⟨⟨ByteArr.ofNat 32 7⟩, [], [⟨1000000,
    ((expectedP2trSpk Primitives.openTaproot 3 ⟨ByteArr.ofNat 32 1⟩).toOption).getD []⟩]⟩]⟩]

/-- Every output commits to the leaves it spells out. -/
def openRules : SpendRules (BtcTx × OutPoint) where
  version _ := 2
  sequence _ := 0
  witness _ := []
  witnessSize _ := 0
  keyPath _ _ _ := False
  commits spk control script := leafVersion control = some 0xc0 ∧ ∃ lock pk lSpend,
    expectedP2trSpk Primitives.openTaproot lock pk = .ok spk ∧
      csvTapleafScript lock pk = .ok lSpend ∧
      (script = lSpend ∨ script = dataTapleafScript Primitives.openTaproot pk)
  checkSig _ _ _ _ := false
  other _ _ := none
  mtp _ := 0

theorem openRules_mintOutputs : Wallet.MintOutputs Primitives.openTaproot openRules where
  noKeyPath := fun _ _ _ _ _ _ h => h
  leaves := by
    rintro lock pk spk lSpend hspk hspend control script
      ⟨hversion, lock', pk', lSpend', hspk', hspend', hscript⟩
    obtain ⟨rfl, rfl⟩ := openTaproot_commits _ _ _ _ _ hspk hspk'
    obtain rfl := Except.ok.inj (hspend.symm.trans hspend')
    exact ⟨hversion, hscript⟩

theorem threeBlockChain_quiet :
    ∀ tx ∈ Chain.txs (threeBlockChain ++ [⟨[]⟩]), tx.input = [] := by decide

theorem threeBlockChain_valid : Chain.Valid (threeBlockChain ++ [⟨[]⟩]) :=
  valid_of_spender ⟨⟨ByteArr.ofNat 32 7⟩, [], []⟩ (by decide)
    (fun u hu => .inl (threeBlockChain_quiet u hu)) (by simp)

/-- Seen from the block after it was created, the output is there, and backs the atoms of its
mint. -/
theorem active_backed_threeBlocks : ∃ s,
    [(threeBlockChain, threeBlockBlock)].foldlM (acceptSeen Primitives.openTaproot)
      (LedgerState.start none) = some s ∧ s.totalMintedAtoms = 22 ∧
    activeMints (threeBlockChain ++ [⟨[]⟩]) [(threeBlockChain, threeBlockBlock)] =
    [threeBlockMint] ∧
    ∃ coin, Chain.utxos (threeBlockChain ++ [⟨[]⟩]) threeBlockMint.witness.outpoint = some coin ∧
      threeBlockMint.Holds Primitives.openTaproot coin := by
  have hrun : (([(threeBlockChain, threeBlockBlock)].foldlM (acceptSeen Primitives.openTaproot)
      (LedgerState.start none)).map (·.totalMintedAtoms)) = some 22 := by decide +kernel
  obtain ⟨s, hs, htotal⟩ := Option.map_eq_some_iff.mp hrun
  have hactive : activeMints (threeBlockChain ++ [⟨[]⟩]) [(threeBlockChain, threeBlockBlock)]
      = [threeBlockMint] := by decide +kernel
  have hobeys : Chain.ObeysLocks Primitives.openTaproot openRules (threeBlockChain ++ [⟨[]⟩]) := by
    intro b tx hplaced op hop
    rw [threeBlockChain_quiet tx (Chain.mem_txs_of_placed hplaced)] at hop
    cases hop
  have hseen : ∀ p ∈ [(threeBlockChain, threeBlockBlock)], p.1 <+: threeBlockChain ++ [⟨[]⟩] := by
    intro p hp
    rw [List.mem_singleton.mp hp]
    exact List.prefix_append _ _
  obtain ⟨hunspent, -, -⟩ := active_backed threeBlockChain_valid (by decide) hobeys
    openRules_mintOutputs mintFn_openTaproot_le hseen hs
  rw [hactive] at hunspent
  exact ⟨s, hs, htotal, hactive, hunspent _ (List.mem_singleton_self _)⟩

end Hodlchain
