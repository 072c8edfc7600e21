/-
The part of Bitcoin the repository looks at.

A chain is the list of its blocks, the block at height `h` being the `h`-th.  A
transaction carries its id, the outpoints it spends and its outputs.  `utxos` is
what `gettxout` answers from: the outputs connected so far and not spent.  An
output leaves that set for good once it is spent, while the transaction that
created it stays in the chain; the two views the clients have of L1 differ there.
-/
import Mathlib.Data.List.Nodup
import Hodlchain.Core.Primitives

namespace Hodlchain

structure TxOut where
  value : UInt64
  scriptPubkey : ScriptBuf
deriving DecidableEq, Repr

/-- A transaction, with the id that its bytes hash to. -/
structure BtcTx where
  txid : Txid
  input : List OutPoint
  output : List TxOut
deriving DecidableEq, Repr

structure BtcBlock where
  txdata : List BtcTx
deriving DecidableEq, Repr

/-- The blocks from height 0 up. -/
abbrev Chain := List BtcBlock

namespace Chain

/-- `getblockcount`. -/
def tip (c : Chain) : Nat := c.length - 1

/-- Every transaction, in chain order. -/
def txs (c : Chain) : List BtcTx := c.flatMap (·.txdata)

/-- Some transaction spends the outpoint. -/
def Spends (c : Chain) (op : OutPoint) : Prop := ∃ tx ∈ c.txs, op ∈ tx.input

instance (c : Chain) (op : OutPoint) : Decidable (c.Spends op) :=
  inferInstanceAs (Decidable (∃ tx ∈ c.txs, op ∈ tx.input))

/-- No two transactions share an id. -/
def UniqueTxids (c : Chain) : Prop := (c.txs.map (·.txid)).Nodup

instance (c : Chain) : Decidable c.UniqueTxids :=
  inferInstanceAs (Decidable (c.txs.map (·.txid)).Nodup)

/-- The transaction with an id and the height of its block, for blocks from `h` up. -/
def findTxFrom (txid : Txid) : Nat → List BtcBlock → Option (BtcTx × Nat)
  | _, [] => none
  | h, b :: bs =>
      match b.txdata.find? fun tx => tx.txid == txid with
      | some tx => some (tx, h)
      | none => findTxFrom txid (h + 1) bs

/-- `getrawtransaction`, over the whole chain. -/
def findTx (c : Chain) (txid : Txid) : Option (BtcTx × Nat) := findTxFrom txid 0 c

end Chain

/-! ### Unspent outputs -/

/-- An output with the height it was created at. -/
structure Coin where
  output : TxOut
  height : Nat
deriving DecidableEq, Repr

/-- The unspent outputs. -/
abbrev Utxos := OutPoint → Option Coin

/-- Outputs that can never be spent are not kept. -/
def TxOut.spendable (o : TxOut) : Bool :=
  o.scriptPubkey.head? != some 0x6a && o.scriptPubkey.length ≤ 10000

/-- Spend the inputs of a transaction, then add its outputs. -/
def connectTx (height : Nat) (u : Utxos) (tx : BtcTx) : Utxos := fun op =>
  if op.txid = tx.txid then
    (tx.output[op.vout.toNat]?.filter TxOut.spendable).map fun o => ⟨o, height⟩
  else if op ∈ tx.input then none
  else u op

/-- Connect blocks, the first at height `h`. -/
def connectFrom : Nat → Utxos → List BtcBlock → Utxos
  | _, u, [] => u
  | h, u, b :: bs => connectFrom (h + 1) (b.txdata.foldl (connectTx h) u) bs

/-- The unspent outputs after a chain; those of the block at height 0 never enter the set. -/
def Chain.utxos (c : Chain) : Utxos := connectFrom 1 (fun _ => none) (c.drop 1)

/-! ### How the set changes -/

theorem connectFrom_append {h : Nat} {u : Utxos} {bs bs' : List BtcBlock} :
    connectFrom h u (bs ++ bs') = connectFrom (h + bs.length) (connectFrom h u bs) bs' := by
  induction bs generalizing h u with
  | nil => rfl
  | cons b bs ih =>
      rw [List.cons_append, connectFrom, ih, connectFrom, List.length_cons]
      congr 1
      omega

/-- The set after more blocks. -/
theorem Chain.utxos_append {c more : Chain} (hc : c ≠ []) :
    Chain.utxos (c ++ more) = connectFrom c.length c.utxos more := by
  obtain ⟨b, bs, rfl⟩ := List.exists_cons_of_ne_nil hc
  rw [utxos, utxos, List.cons_append, List.drop_one, List.tail_cons, List.drop_one, List.tail_cons,
    connectFrom_append, List.length_cons, Nat.add_comm 1]

section

variable {op : OutPoint}

private theorem foldl_connectTx_absent {h : Nat} {txs : List BtcTx}
    (hid : ∀ tx ∈ txs, tx.txid ≠ op.txid) :
    ∀ u : Utxos, txs.foldl (connectTx h) u op
      = if ∃ tx ∈ txs, op ∈ tx.input then none else u op := by
  induction txs with
  | nil => intro u; simp
  | cons tx txs ih =>
      intro u
      have hne : op.txid ≠ tx.txid := fun hc => hid tx (by simp) hc.symm
      rw [List.foldl_cons, ih (fun t ht => hid t (by simp [ht])), connectTx, if_neg hne]
      by_cases hrest : ∃ t ∈ txs, op ∈ t.input
      · simp [hrest]
      · by_cases hin : op ∈ tx.input <;> simp [hrest, hin]

/-- Blocks that do not create an outpoint either spend it or leave it. -/
theorem connectFrom_absent {bs : List BtcBlock}
    (hid : ∀ tx ∈ Chain.txs bs, tx.txid ≠ op.txid) :
    ∀ (h : Nat) (u : Utxos), connectFrom h u bs op = if Chain.Spends bs op then none else u op := by
  induction bs with
  | nil =>
      intro h u
      rw [connectFrom, if_neg]
      rintro ⟨tx, htx, -⟩
      simp [Chain.txs] at htx
  | cons b bs ih =>
      intro h u
      have hsplit : Chain.Spends (b :: bs) op
          ↔ (∃ tx ∈ b.txdata, op ∈ tx.input) ∨ Chain.Spends bs op := by
        simp [Chain.Spends, Chain.txs, or_and_right, exists_or]
      rw [connectFrom, ih (fun tx htx => hid tx (by
          simp only [Chain.txs, List.flatMap_cons, List.mem_append]
          exact Or.inr htx)),
        foldl_connectTx_absent (fun tx htx => hid tx (by
          simp only [Chain.txs, List.flatMap_cons, List.mem_append]
          exact Or.inl htx))]
      by_cases h1 : Chain.Spends bs op
      · rw [if_pos h1, if_pos (hsplit.mpr (Or.inr h1))]
      · rw [if_neg h1]
        by_cases h2 : ∃ tx ∈ b.txdata, op ∈ tx.input
        · rw [if_pos h2, if_pos (hsplit.mpr (Or.inl h2))]
        · rw [if_neg h2, if_neg fun hc => (hsplit.mp hc).elim h2 h1]

/-- Where a coin comes from. -/
private theorem foldl_connectTx_origin {h : Nat} {txs : List BtcTx} {coin : Coin} :
    ∀ u : Utxos, txs.foldl (connectTx h) u op = some coin → u op = some coin ∨
      ∃ tx ∈ txs, tx.txid = op.txid ∧ tx.output[op.vout.toNat]? = some coin.output
        ∧ coin.height = h := by
  induction txs with
  | nil => intro u hu; exact Or.inl hu
  | cons tx txs ih =>
      intro u hu
      rw [List.foldl_cons] at hu
      rcases ih _ hu with hfirst | ⟨t, ht, hrest⟩
      · rw [connectTx] at hfirst
        by_cases hid : op.txid = tx.txid
        · rw [if_pos hid] at hfirst
          obtain ⟨o, ho, rfl⟩ := Option.map_eq_some_iff.mp hfirst
          exact Or.inr ⟨tx, by simp, hid.symm, (Option.filter_eq_some_iff.mp ho).1, rfl⟩
        · rw [if_neg hid] at hfirst
          by_cases hin : op ∈ tx.input
          · rw [if_pos hin] at hfirst
            cases hfirst
          · rw [if_neg hin] at hfirst
            exact Or.inl hfirst
      · exact Or.inr ⟨t, by simp [ht], hrest⟩

/-- **A coin is an output of a block of the chain, at that block's height.** -/
theorem connectFrom_origin {bs : List BtcBlock} {coin : Coin} :
    ∀ (h : Nat) (u : Utxos), connectFrom h u bs op = some coin → u op = some coin ∨
      ∃ i b, bs[i]? = some b ∧ coin.height = h + i ∧
        ∃ tx ∈ b.txdata, tx.txid = op.txid ∧ tx.output[op.vout.toNat]? = some coin.output := by
  induction bs with
  | nil => intro h u hu; exact Or.inl hu
  | cons b bs ih =>
      intro h u hu
      rw [connectFrom] at hu
      rcases ih _ _ hu with hfirst | ⟨i, b', hb', hheight, htx⟩
      · rcases foldl_connectTx_origin _ hfirst with hu' | ⟨tx, htx, hid, hout, hheight⟩
        · exact Or.inl hu'
        · exact Or.inr ⟨0, b, rfl, by simpa using hheight, tx, htx, hid, hout⟩
      · exact Or.inr ⟨i + 1, b', by simpa using hb', by omega, htx⟩

end

/-- With unique ids, a transaction of a block is what its id finds. -/
theorem Chain.findTxFrom_eq {tx : BtcTx} {b : BtcBlock} (hmem : tx ∈ b.txdata) :
    ∀ {bs : List BtcBlock} {h i : Nat}, Chain.UniqueTxids bs → bs[i]? = some b →
      Chain.findTxFrom tx.txid h bs = some (tx, h + i) := by
  intro bs
  induction bs with
  | nil => intro h i _ hi; simp at hi
  | cons b' bs ih =>
      intro h i hnd hi
      simp only [UniqueTxids, txs, List.flatMap_cons, List.map_append] at hnd
      obtain ⟨hfirst, hrest, hdisj⟩ := List.nodup_append.mp hnd
      rw [findTxFrom]
      cases i with
      | zero =>
          obtain rfl : b' = b := by simpa using hi
          have hfind : b'.txdata.find? (fun t => t.txid == tx.txid) = some tx := by
            obtain ⟨t, ht⟩ : ∃ t, b'.txdata.find? (fun t => t.txid == tx.txid) = some t :=
              Option.isSome_iff_exists.mp (List.find?_isSome.mpr ⟨tx, hmem, by simp⟩)
            have hid : t.txid = tx.txid := by simpa using List.find?_some ht
            rw [ht, List.inj_on_of_nodup_map hfirst (List.mem_of_find?_eq_some ht) hmem hid]
          rw [hfind]
          rfl
      | succ i =>
          rw [List.getElem?_cons_succ] at hi
          have hin : tx.txid ∈ (bs.flatMap (·.txdata)).map (·.txid) :=
            List.mem_map.mpr ⟨tx, List.mem_flatMap.mpr ⟨b, List.mem_of_getElem? hi, hmem⟩, rfl⟩
          have hnone : b'.txdata.find? (fun t => t.txid == tx.txid) = none :=
            List.find?_eq_none.mpr fun t ht hc =>
              hdisj _ (List.mem_map_of_mem ht) _ hin (by simpa using hc)
          rw [hnone]
          simp only [ih hrest hi, Option.some.injEq, Prod.mk.injEq, true_and]
          omega

end Hodlchain
