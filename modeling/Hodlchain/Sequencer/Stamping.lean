/-
The creation height a block declares for a mint.

bitcoind does not answer with a height: both daemons ask for the confirmations of an
output and then for the tip, and count back.  Blocks that arrive between the two calls
are counted as if they had been there at the first, so the height comes out too high by
their number, and what a producer stamps is checked by others with readings of theirs.
-/
import Hodlchain.Node.MintReplay
import Hodlchain.Sequencer.Honest

namespace Hodlchain.Sequencer

open Bytes

/-! ### Readings -/

/-- Two calls in a row: the chain at the first, and the blocks that arrive before the second. -/
structure Reading where
  chain : Chain
  arrived : Chain

namespace Reading

/-- The chain at the second call. -/
def later (r : Reading) : Chain := r.chain ++ r.arrived

/-- Count the confirmations back from the tip. -/
def heightOf (r : Reading) (confs : UInt32) : UInt32 :=
  satAdd32 (satSub32 (UInt32.ofNat r.later.tip) confs) 1

/-- `get_output` of either daemon: `gettxout`, then `getblockcount`. -/
def getOutput (r : Reading) (op : OutPoint) : Option L1Output :=
  (getTxOut r.chain op).map fun (output, confs) =>
    { valueSat := output.value
      scriptPubkey := output.scriptPubkey
      confirmedHeight := r.heightOf confs
      confirmations := confs }

/-- What a check of one mint sees: its output, and the tip it asks for afterwards. -/
def view (r : Reading) (tip : UInt32) : L1View := ⟨r.getOutput, tip⟩

end Reading

/-- `getrawtransaction` with its confirmations; the transactions of block 0 are not served. -/
def getRawTransactionInfo (c : Chain) (txid : Txid) : Option (BtcTx × UInt32) :=
  match c.findTx txid with
  | none => none
  | some (tx, h) => if h = 0 then none else some (tx, UInt32.ofNat (c.tip - h + 1))

/-- `get_tx_with_height`. -/
def Reading.getTxWithHeight (r : Reading) (txid : Txid) : Option (BtcTx × Option UInt32) :=
  (getRawTransactionInfo r.chain txid).map fun (tx, confs) =>
    (tx, if confs > 0 then some (r.heightOf confs) else none)

/-- The Esplora endpoint over it. -/
def Reading.esplora (r : Reading) : EsploraClient where
  getTx txid := (r.getTxWithHeight txid).map fun (tx, height) =>
    { vout := tx.output.map fun o => ⟨hexEncode o.scriptPubkey, o.value⟩
      status := ⟨height⟩ }

/-- Ids are unique, and heights fit. -/
structure Reading.Regular (r : Reading) : Prop where
  ids : r.chain.UniqueTxids
  length : r.later.length ≤ 2 ^ 32

/-- A coin, read with its height too high by some blocks. -/
def Coin.readLate (coin : Coin) (late : Nat) (confs : UInt32) : L1Output where
  valueSat := coin.output.value
  scriptPubkey := coin.output.scriptPubkey
  confirmedHeight := UInt32.ofNat (coin.height + late)
  confirmations := confs

section

variable {r : Reading} {op : OutPoint} {coin : Coin}

theorem Reading.tip_later (r : Reading) (h : r.chain ≠ []) :
    r.later.tip = r.chain.tip + r.arrived.length := by
  have hpos := List.length_pos_of_ne_nil h
  unfold later Chain.tip
  rw [List.length_append]
  omega

/-- Counting back lands too high by the blocks that arrived. -/
theorem Reading.Regular.heightOf (hr : r.Regular) {h : Nat} (hlow : 1 ≤ h)
    (hhigh : h ≤ r.chain.tip) :
    r.heightOf (UInt32.ofNat (r.chain.tip - h + 1)) = UInt32.ofNat (h + r.arrived.length) ∧
      h + r.arrived.length < 2 ^ 32 := by
  have hne : r.chain ≠ [] := by
    intro hnil
    rw [hnil] at hhigh
    exact absurd (Nat.le_trans hlow hhigh) (by decide)
  have htip := r.tip_later hne
  have hlen := hr.length
  have hpos := List.length_pos_of_ne_nil hne
  have hbound : r.later.tip < 2 ^ 32 := by
    unfold Chain.tip
    omega
  have hback : r.later.tip - (r.chain.tip - h + 1) + 1 = h + r.arrived.length := by omega
  refine ⟨?_, by omega⟩
  unfold Reading.heightOf
  rw [satSub32_ofNat hbound (by omega) (by omega), satAdd32_one (by omega), hback]

theorem Reading.Regular.getOutput (hr : r.Regular) (h : r.chain.utxos op = some coin) :
    r.getOutput op = some
      (Coin.readLate coin r.arrived.length (UInt32.ofNat (r.chain.tip - coin.height + 1))) := by
  obtain ⟨hlow, hhigh, -⟩ := Chain.utxos_origin hr.ids h
  unfold Reading.getOutput getTxOut
  rw [h, Option.map_some, Option.map_some]
  dsimp only
  rw [(hr.heightOf hlow hhigh).1]
  rfl

theorem Reading.Regular.getTxWithHeight (hr : r.Regular) {txid : Txid} {tx : BtcTx} {h : Nat}
    (hfind : r.chain.findTx txid = some (tx, h)) (hlow : 1 ≤ h) (hhigh : h ≤ r.chain.tip) :
    r.getTxWithHeight txid = some (tx, some (UInt32.ofNat (h + r.arrived.length))) := by
  have hconfs : UInt32.ofNat (r.chain.tip - h + 1) > 0 := by
    have hlen := hr.length
    unfold Reading.later at hlen
    rw [List.length_append] at hlen
    have hbound : r.chain.tip - h + 1 < 2 ^ 32 := by
      unfold Chain.tip at hhigh ⊢
      omega
    rw [gt_iff_lt, UInt32.lt_iff_toNat_lt, toNat_ofNat32 hbound]
    exact Nat.succ_pos _
  unfold Reading.getTxWithHeight getRawTransactionInfo
  rw [hfind]
  dsimp only
  rw [if_neg (Nat.ne_of_gt hlow), Option.map_some]
  dsimp only
  rw [if_pos hconfs, (hr.heightOf hlow hhigh).1]

/-- A height read late is the true one when nothing arrived. -/
theorem ofNat_add_eq_iff {h late : Nat} (hbound : h + late < 2 ^ 32) :
    UInt32.ofNat (h + late) = UInt32.ofNat h ↔ late = 0 := by
  constructor
  · intro heq
    have hnat := congrArg UInt32.toNat heq
    rw [toNat_ofNat32 hbound, toNat_ofNat32 (by omega)] at hnat
    omega
  · rintro rfl
    rfl

/-- Without arrivals a reading is the node's view of its chain. -/
theorem Reading.view_nil (c : Chain) :
    (Reading.mk c []).view (UInt32.ofNat c.tip) = NodeL1.view c := by
  have hlater : (Reading.mk c []).later = c := List.append_nil c
  unfold Reading.view Reading.getOutput Reading.heightOf NodeL1.view
  rw [hlater]

theorem findTxFrom_bound {txid : Txid} {tx : BtcTx} {k : Nat} : ∀ {bs : List BtcBlock} {h : Nat},
    Chain.findTxFrom txid h bs = some (tx, k) → k < h + bs.length := by
  intro bs
  induction bs with
  | nil =>
      intro h hfind
      cases hfind
  | cons b bs ih =>
      intro h hfind
      rw [Chain.findTxFrom] at hfind
      split at hfind
      · obtain ⟨-, rfl⟩ := Prod.mk.inj (Option.some.inj hfind)
        rw [List.length_cons]
        omega
      · have hrest := ih hfind
        rw [List.length_cons]
        omega

end

/-! ### Those who check -/

/-- Who checks a mint of a block: a node reads its output, a wallet the transaction behind it. -/
inductive Checker where
  | node (r : Reading) (tip : UInt32)
  | wallet (r : Reading) (tip : UInt32)

namespace Checker

def reading : Checker → Reading
  | node r _ => r
  | wallet r _ => r

/-- L1 as the check of the mint sees it. -/
def view : Checker → L1View
  | node r tip => r.view tip
  | wallet r tip => ⟨fun op => (r.esplora.output tip op).toOption, tip⟩

/-- The coin is there for it. -/
def Finds (op : OutPoint) (coin : Coin) : Checker → Prop
  | node r _ => r.chain.utxos op = some coin
  | wallet r _ => 1 ≤ coin.height ∧ ∃ tx, r.chain.findTx op.txid = some (tx, coin.height) ∧
      tx.output[op.vout.toNat]? = some coin.output

end Checker

theorem Checker.Finds.getOutput {c : Checker} {op : OutPoint} {coin : Coin}
    (h : c.Finds op coin) (hr : c.reading.Regular) :
    coin.height + c.reading.arrived.length < 2 ^ 32 ∧
      ∃ confs, c.view.getOutput op = some (Coin.readLate coin c.reading.arrived.length confs) := by
  cases c with
  | node r tip =>
      obtain ⟨hlow, hhigh, -⟩ := Chain.utxos_origin hr.ids h
      exact ⟨(hr.heightOf hlow hhigh).2, _, hr.getOutput h⟩
  | wallet r tip =>
      obtain ⟨hlow, tx, hfind, hout⟩ := h
      have hhigh : coin.height ≤ r.chain.tip := by
        have hbound := findTxFrom_bound hfind
        unfold Chain.tip
        omega
      refine ⟨(hr.heightOf hlow hhigh).2, satAdd32 (satSub32 tip
        (UInt32.ofNat (coin.height + r.arrived.length))) 1, ?_⟩
      have hserved : r.esplora.output tip op = .ok (Coin.readLate coin r.arrived.length (satAdd32
          (satSub32 tip (UInt32.ofNat (coin.height + r.arrived.length))) 1)) := by
        have hread : r.getTxWithHeight op.txid
            = some (tx, some (UInt32.ofNat (coin.height + r.arrived.length))) :=
          Reading.Regular.getTxWithHeight hr hfind hlow hhigh
        simp only [EsploraClient.output, Reading.esplora, hread, Option.map_some, bind_ok_iff,
          okOr_ok_iff, pure_ok_iff]
        exact ⟨_, rfl, _, by rw [List.getElem?_map, hout]; rfl, _, rfl, _,
          hexDecode_hexEncode _, rfl⟩
      show (r.esplora.output tip op).toOption = _
      rw [hserved]
      rfl

/-- What a height is for: the block declares the one of the block that contains the transaction,
the checker derives it too, and it finds no field that disagrees. -/
structure StampAgrees (prim : Primitives) (entry : MintEntry) (coin : Coin)
    (c : Checker) : Prop where
  stamped : entry.event.l1CreateHeight = UInt32.ofNat coin.height
  derived : (c.view.getOutput entry.witness.outpoint).map L1Output.confirmedHeight
    = some (UInt32.ofNat coin.height)
  agrees : ∀ field, verifyMintEntry prim entry c.view ≠ .error (.eventMismatch field)

section

variable {prim : Primitives} {entry : MintEntry} {coin : Coin} {l1 l1' : L1View}
  {late late' : Nat} {confs confs' : UInt32}

/-- The event of a checked mint, from the output it was checked with. -/
theorem verifyMintEntry_event {out : L1Output}
    (h : l1.getOutput entry.witness.outpoint = some out)
    (hok : verifyMintEntry prim entry l1 = .ok ()) :
    ∃ p, entry.witness = .v0Outpoint p ∧
      p.Verified prim l1.tipHeight entry.event.l2Destination out entry.event := by
  obtain ⟨p, hp, credit, hcredit, hevent⟩ := (verifyMintEntry_some h).mp hok
  have hverified := OutpointProof.verifyOutput_ok hcredit
  rw [hevent] at hverified
  exact ⟨p, hp, hverified⟩

/-- The checks on an output compare no events. -/
theorem verifyOutput_eventMismatch {p : OutpointProof} {tip : UInt32} {dest : L2Address}
    {out : L1Output} {field : String}
    (h : p.verifyOutput prim tip dest out = .error (.eventMismatch field)) : False := by
  unfold OutpointProof.verifyOutput at h
  cases hspk : expectedP2trSpk prim p.lockBlocks p.userXonlyPubkey with
  | error e =>
      simp only [hspk] at h
      split_ifs at h <;> cases h
  | ok expected =>
      simp only [hspk] at h
      split_ifs at h <;> cases h

/-- Two readings of one coin that come to one height disagree in no field. -/
theorem verifyMintEntry_agrees
    (h : l1.getOutput entry.witness.outpoint = some (Coin.readLate coin late confs))
    (h' : l1'.getOutput entry.witness.outpoint = some (Coin.readLate coin late confs'))
    (hok : verifyMintEntry prim entry l1 = .ok ()) (field : String) :
    verifyMintEntry prim entry l1' ≠ .error (.eventMismatch field) := by
  intro hmismatch
  obtain ⟨p, hp, hverified⟩ := verifyMintEntry_event h hok
  rw [verifyMintEntry_eq, h', hp] at hmismatch
  cases hcheck : p.verifyOutput prim l1'.tipHeight entry.event.l2Destination
      (Coin.readLate coin late confs') with
  | error e =>
      simp only [hcheck, Except.error.injEq] at hmismatch
      subst hmismatch
      exact verifyOutput_eventMismatch hcheck
  | ok credit =>
      have hevent : credit.event = entry.event := by
        rw [(OutpointProof.verifyOutput_ok hcheck).event, hverified.event]
        rfl
      simp only [hcheck, compareEvents_ok_iff.mpr hevent] at hmismatch
      cases hmismatch

/-- And two that both accept the mint came to one height. -/
theorem verifyMintEntry_same_height (hbound : coin.height + late < 2 ^ 32)
    (hbound' : coin.height + late' < 2 ^ 32)
    (h : l1.getOutput entry.witness.outpoint = some (Coin.readLate coin late confs))
    (h' : l1'.getOutput entry.witness.outpoint = some (Coin.readLate coin late' confs'))
    (hok : verifyMintEntry prim entry l1 = .ok ())
    (hok' : verifyMintEntry prim entry l1' = .ok ()) :
    late = late' := by
  obtain ⟨p, hp, hverified⟩ := verifyMintEntry_event h hok
  obtain ⟨p', hp', hverified'⟩ := verifyMintEntry_event h' hok'
  have hheight : UInt32.ofNat (coin.height + late) = UInt32.ofNat (coin.height + late') :=
    congrArg MintEvent.l1CreateHeight (hverified.event.symm.trans hverified'.event)
  have hnat := congrArg UInt32.toNat hheight
  rw [toNat_ofNat32 hbound, toNat_ofNat32 hbound'] at hnat
  omega

/-- **A creation height is the true one exactly when no block arrives within the reading.**  Either
daemon returns the height of the block that contains a confirmed output or transaction if and only
if no block arrives between the two calls.  A mint that `produce_block` puts in a block declares
that height, and a node or a wallet derives it too, if and only if none arrives in the producer's
reading nor in the checker's; and who accepts the mint had as many arrive as the producer. -/
theorem createHeight_iff (prim : Primitives) :
    (∀ r : Reading, r.Regular → ∀ op coin, r.chain.utxos op = some coin →
      ((r.getOutput op).map L1Output.confirmedHeight = some (UInt32.ofNat coin.height) ↔
        r.arrived = [])) ∧
    (∀ r : Reading, r.Regular → ∀ txid tx h, r.chain.findTx txid = some (tx, h) → 1 ≤ h →
      (r.getTxWithHeight txid = some (tx, some (UInt32.ofNat h)) ↔ r.arrived = [])) ∧
    ∀ (env : BlockEnv) (app : AppState) (seq : Nat → Reading) (tip : Nat → UInt32),
      (∀ i, env.view i = (seq i).view (tip i)) → (∀ i, (seq i).Regular) →
      ∀ entry, L2Tx.mint entry ∈ env.body prim app →
        ∃ i coin, (seq i).chain.utxos entry.witness.outpoint = some coin ∧
          ∀ c : Checker, c.reading.Regular → c.Finds entry.witness.outpoint coin →
            (StampAgrees prim entry coin c ↔ (seq i).arrived = [] ∧ c.reading.arrived = []) ∧
            (verifyMintEntry prim entry c.view = .ok () →
              (seq i).arrived.length = c.reading.arrived.length) := by
  refine ⟨fun r hr op coin hcoin => ?_, fun r hr txid tx h hfind hlow => ?_, ?_⟩
  · obtain ⟨hlow, hhigh, -⟩ := Chain.utxos_origin hr.ids hcoin
    rw [hr.getOutput hcoin, Option.map_some, Option.some.injEq, ← List.length_eq_zero_iff]
    exact ofNat_add_eq_iff (hr.heightOf hlow hhigh).2
  · have hhigh : h ≤ r.chain.tip := by
      have hbound := findTxFrom_bound hfind
      unfold Chain.tip
      omega
    rw [hr.getTxWithHeight hfind hlow hhigh, Option.some.injEq, Prod.mk.injEq, Option.some.injEq,
      ← List.length_eq_zero_iff]
    exact (and_iff_right rfl).trans (ofNat_add_eq_iff (hr.heightOf hlow hhigh).2)
  · intro env app seq tip hview hregular entry hentry
    obtain ⟨i, hok⟩ := mem_body_verifies hentry
    rw [hview] at hok
    obtain ⟨out, hout⟩ := verifyMintEntry_found hok
    obtain ⟨coin, hcoin⟩ : ∃ coin, (seq i).chain.utxos entry.witness.outpoint = some coin := by
      cases hu : (seq i).chain.utxos entry.witness.outpoint with
      | some coin => exact ⟨coin, rfl⟩
      | none =>
          have hnone : (seq i).getOutput entry.witness.outpoint = none := by
            unfold Reading.getOutput getTxOut
            rw [hu]
            rfl
          cases hnone.symm.trans hout
    refine ⟨i, coin, hcoin, fun c hc hfinds => ?_⟩
    obtain ⟨hlow, hhigh, -⟩ := Chain.utxos_origin (hregular i).ids hcoin
    have hbound := ((hregular i).heightOf hlow hhigh).2
    have hread := (hregular i).getOutput hcoin
    obtain ⟨p, hp, hverified⟩ := verifyMintEntry_event hread hok
    obtain ⟨hbound', confs, hread'⟩ := hfinds.getOutput hc
    have hstamp : entry.event.l1CreateHeight
        = UInt32.ofNat (coin.height + (seq i).arrived.length) := by
      rw [hverified.event]
      rfl
    refine ⟨⟨fun h => ⟨?_, ?_⟩, fun ⟨hseq, hcheck⟩ => ?_⟩, fun hok' => ?_⟩
    · rw [← List.length_eq_zero_iff, ← ofNat_add_eq_iff hbound, ← hstamp]
      exact h.stamped
    · have hderived := h.derived
      rw [hread', Option.map_some, Option.some.injEq] at hderived
      rw [← List.length_eq_zero_iff]
      exact (ofNat_add_eq_iff hbound').mp hderived
    · rw [hseq] at hread
      rw [hcheck] at hread'
      refine ⟨?_, ?_, verifyMintEntry_agrees hread hread' hok⟩
      · rw [hstamp, hseq]
        rfl
      · rw [hread']
        rfl
    · exact verifyMintEntry_same_height hbound hbound' hread hread' hok hok'

end

/-! ### One block in between -/

/-- A mint of an output locked for two blocks, claimed at height 2 and stamped with it. -/
def lateMint : MintEntry :=
  let key : XOnlyPublicKey := ⟨ByteArr.ofNat 32 1⟩
  let outpoint : OutPoint := ⟨⟨ByteArr.ofNat 32 7⟩, 0⟩
  let digest := OutpointProof.sighash Primitives.sample outpoint 2 key
  { event :=
      { nullifierHex := hexEncode (OutpointProof.outpointNullifier outpoint)
        amount := mintFn Primitives.sample 1000000 2
        l2Destination := key
        l1CreateHeight := 2
        lockBlocks := 2
        l1ValueSat := 1000000 }
    witness := .v0Outpoint
      { outpoint := outpoint
        userXonlyPubkey := key
        lockBlocks := 2
        claimedBlockHeight := 2
        signature := ⟨(digest.bytes ++ key.bytes).cast Primitives.digest_and_key⟩ } }

/-- A chain whose block 1 locks that output. -/
def lateChain : Chain :=
  let spk := match expectedP2trSpk Primitives.sample 2 ⟨ByteArr.ofNat 32 1⟩ with
    | .ok spk => spk
    | .error _ => []
  [⟨[]⟩, ⟨[⟨⟨ByteArr.ofNat 32 7⟩, [], [⟨1000000, spk⟩]⟩]⟩]

/-- Block 2 arrives between the two calls. -/
def lateReading : Reading := ⟨lateChain, [⟨[]⟩]⟩

/-- The output is of block 1; read while block 2 arrives, it is stamped with 2, and a node that
checks the block at height 2 refuses the mint. -/
theorem createHeight_late :
    (lateChain.utxos lateMint.witness.outpoint).map Coin.height = some 1 ∧
    (lateReading.getOutput lateMint.witness.outpoint).map L1Output.confirmedHeight = some 2 ∧
    (lateReading.getTxWithHeight lateMint.witness.outpoint.txid).map Prod.snd = some (some 2) ∧
    (∃ (env : BlockEnv) (app : AppState), (∀ i, env.view i = lateReading.view 2) ∧
      L2Tx.mint lateMint ∈ env.body Primitives.sample app) ∧
    verifyMintEntry Primitives.sample lateMint (NodeL1.view lateReading.later)
      = .error (.eventMismatch "l1_create_height") := by
  have hbody : L2Tx.mint lateMint ∈ body Primitives.sample (fun _ => lateReading.view 2)
      (LedgerState.start none) [lateMint] [] := by decide +kernel
  refine ⟨by decide +kernel, by decide +kernel, by decide +kernel, ?_, by decide +kernel⟩
  obtain ⟨app, -⟩ := exists_started Primitives.sample sampleIdentity
  refine ⟨{ steadyEnv with view := fun _ => lateReading.view 2 },
    (app.setMempool ⟨[lateMint], [], ∅⟩).setState (LedgerState.start none), fun _ => rfl, ?_⟩
  exact hbody

end Hodlchain.Sequencer
