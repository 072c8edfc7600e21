/-
When a mint can be reclaimed.

The lock of a mint stands in four places: in the leaf script, in the sequence of the
reclaim, in the list of reclaimable mints and in the check of a reclaim.  Bitcoin looks at
the first two and the wallet at the other two, and they agree on the block from which the
reclaim can be mined.
-/
import Mathlib.Order.Bounds.Basic
import Hodlchain.Bitcoin.RelativeLock
import Hodlchain.Wallet.Ops

namespace Hodlchain

open Bytes

/-! ### The lock in the script -/

/-- The bytes of a script number spell it, with the top bit clear. -/
theorem scriptNumBytes_spells {fuel n : ℕ} (h : n < 256 ^ fuel) :
    Nat.ofDigits 256 ((scriptNumBytes fuel n).map UInt8.toNat) = n ∧
      2 * n < 256 ^ (scriptNumBytes fuel n).length := by
  induction fuel generalizing n with
  | zero =>
      obtain rfl : n = 0 := by omega
      exact ⟨rfl, by decide⟩
  | succ fuel ih =>
      rw [scriptNumBytes]
      split_ifs with h0 h128 h256
      · subst h0
        exact ⟨rfl, by decide⟩
      · simp
        omega
      · simp [Nat.ofDigits]
        omega
      · obtain ⟨hvalue, htop⟩ := @ih (n / 256) (Nat.div_lt_of_lt_mul (by rwa [pow_succ'] at h))
        rw [List.map_cons, Nat.ofDigits_cons, hvalue, List.length_cons, pow_succ]
        refine ⟨by simp; omega, ?_⟩
        -- the bytes above the lowest are a number below half of an even power
        obtain ⟨k, hk⟩ : ∃ k, 256 ^ (scriptNumBytes fuel (n / 256)).length = 2 * k := by
          cases hlen : (scriptNumBytes fuel (n / 256)).length with
          | zero => rw [hlen] at htop; omega
          | succ m => exact ⟨128 * 256 ^ m, by ring⟩
        omega

theorem length_scriptNumBytes_le {fuel n k : ℕ} (h : n < 128 * 256 ^ k) :
    (scriptNumBytes fuel n).length ≤ k + 1 := by
  induction fuel generalizing n k with
  | zero => exact Nat.zero_le _
  | succ fuel ih =>
      rw [scriptNumBytes]
      split_ifs with h0 h128 h256
      · exact Nat.zero_le _
      · exact Nat.succ_le_succ (Nat.zero_le k)
      · cases k with
        | zero => omega
        | succ k => simp
      · cases k with
        | zero => omega
        | succ k =>
            have hdiv : n / 256 < 128 * 256 ^ k := by
              rw [pow_succ, ← mul_assoc] at h
              exact Nat.div_lt_of_lt_mul (by rwa [mul_comm] at h)
            simpa using ih hdiv

/-- A pushed lock is read back. -/
theorem readPush_pushInt {lock : UInt32} (hpos : lock ≠ 0) (hmax : lock ≤ maxLockBlocks)
    (rest : Bytes) :
    ∃ operand, readPush (pushInt lock ++ rest) = some (operand, rest) ∧ operand.length ≤ 5 ∧
      scriptNum operand = (lock.toNat : ℤ) := by
  have hle := UInt32.le_iff_toNat_le.mp hmax
  have hmaxNat : maxLockBlocks.toNat = 65535 := rfl
  rw [pushInt, if_neg hpos]
  by_cases hsmall : lock ≤ 16
  · have hlow : lock.toNat ≤ 16 := UInt32.le_iff_toNat_le.mp hsmall
    have hne : lock.toNat ≠ 0 := fun h => hpos (UInt32.toNat_inj.mp h)
    have hop : (0x50 + lock.toUInt8).toNat = 0x50 + lock.toNat := by
      rw [UInt8.toNat_add, UInt32.toNat_toUInt8]
      show (80 + lock.toNat % 256) % 256 = _
      omega
    have hback : 0x50 + lock.toUInt8 - 0x50 = lock.toUInt8 := by grind
    refine ⟨[lock.toUInt8], ?_, by simp, ?_⟩
    · rw [if_pos hsmall, List.singleton_append, readPush, if_neg, if_pos, hback]
      · rw [UInt8.le_iff_toNat_le, UInt8.le_iff_toNat_le, hop]
        exact ⟨show 81 ≤ _ by omega, show _ ≤ 96 by omega⟩
      · rw [UInt8.le_iff_toNat_le, hop]
        exact show ¬ _ ≤ 75 by omega
    · refine scriptNum_of_lt (n := lock.toNat) ?_ (by simp; omega)
      simp
      omega
  · obtain ⟨hvalue, htop⟩ := @scriptNumBytes_spells 5 lock.toNat (by omega)
    have hlength := @length_scriptNumBytes_le 5 lock.toNat 2 (by omega)
    have hbyte : (UInt8.ofNat (scriptNumBytes 5 lock.toNat).length).toNat
        = (scriptNumBytes 5 lock.toNat).length := by
      rw [UInt8.toNat_ofNat']
      omega
    refine ⟨scriptNumBytes 5 lock.toNat, ?_, by omega, scriptNum_of_lt hvalue htop⟩
    rw [if_neg hsmall, pushSlice, List.cons_append, readPush, if_pos, hbyte, List.take_left,
      List.drop_left]
    rw [UInt8.le_iff_toNat_le, hbyte]
    exact show _ ≤ 75 by omega

namespace Wallet

/-! ### The list of reclaimable mints -/

inductive ReclaimStatus where
  | pending
  | locked
  | ready
  | reclaimed
deriving DecidableEq, Repr

structure ReclaimableMint where
  bip32Index : UInt32
  mintAddress : String
  lockBlocks : UInt32
  outpoint : Option String
  valueSat : Option UInt64
  fundedAtHeight : Option UInt32
  minted : Bool
  status : ReclaimStatus
  blocksRemaining : Option UInt32
deriving DecidableEq, Repr

/-- The status of a mint that was not reclaimed, and how many blocks are missing. -/
def lockStatus (tip : Option UInt32) (m : MintRecord) : ReclaimStatus × Option UInt32 :=
  match m.fundedAtHeight, tip with
  | none, _ => (.pending, none)
  -- The source expects a tip here, which it has asked for.
  | some _, none => (.pending, none)
  | some h, some tip =>
      let unlockHeight := satAdd32 h m.lockBlocks
      if satAdd32 tip 1 ≥ unlockHeight then (.ready, some 0)
      else (.locked, some (satSub32 unlockHeight (satAdd32 tip 1)))

/-- One entry of the list. -/
def reclaimableMint (tip : Option UInt32) (m : MintRecord) : ReclaimableMint :=
  let (status, blocksRemaining) := if m.reclaimed then (.reclaimed, none) else lockStatus tip m
  { bip32Index := m.bip32Index
    mintAddress := m.mintAddress
    lockBlocks := m.lockBlocks
    outpoint := m.outpoint
    valueSat := m.valueSat
    fundedAtHeight := m.fundedAtHeight
    minted := m.minted
    status := status
    blocksRemaining := blocksRemaining }

/-- `list_reclaimable_mints`. -/
def listReclaimableMints (w : Surroundings) (wf : WalletFile) :
    Except OpError (List ReclaimableMint) := do
  let tip ←
    if wf.mints.any fun m => !m.reclaimed && m.fundedAtHeight.isSome then
      (okOr w.esplora.tipHeight .tipHeight).map some
    else pure none
  pure (wf.mints.map (reclaimableMint tip))

/-! ### What Bitcoin asks of a reclaim -/

/-- The leaf script of a script-path spend stands before the control block. -/
def TxIn.leafScript (i : TxIn) : ScriptBuf := (i.witness.dropLast.getLast?).getD []

/-- A transaction that spends what was confirmed at height `confirmed` may be in block `b`, as far
as relative locks go, and the opcode in its leaf scripts passes. -/
def Transaction.Spendable (tx : Transaction) (mtp : ℕ → ℕ) (confirmed b : ℕ) : Prop :=
  ∀ i ∈ tx.input, (relativeLock tx.version i.sequence).Met mtp confirmed b ∧
    CsvPasses tx.version i.sequence i.leafScript

section

variable {prim : Primitives} {libs : Libraries} {w : Surroundings} {wf : WalletFile} {mtp : ℕ → ℕ}
  {lock h t : UInt32} {tx : Transaction}

/-- What a reclaim is made of. -/
theorem buildSignedReclaimTx_ok {btc : BitcoinCrate} {kp : Keypair} {op : OutPoint}
    {value fee : UInt64}
    {dest : L1Address} (hok : buildSignedReclaimTx prim btc kp op value lock dest fee = .ok tx) :
    lock ≠ 0 ∧ lock ≤ maxLockBlocks ∧ tx.version = 2 ∧ ∃ sig leaf control,
      csvTapleafScript lock kp.xOnlyPublicKey = .ok leaf ∧
      tx.input = [⟨op, sequenceFromHeight lock.toUInt16, [sig, leaf, control]⟩] := by
  simp only [buildSignedReclaimTx, bind_ok_iff, ensure_ok_iff, mapErr_ok_iff, okOr_ok_iff,
    pure_ok_iff] at hok
  obtain ⟨_, hrange, _, -, _, -, leaf, hleaf, control, -, _, -, _, -, rfl⟩ := hok
  refine ⟨fun h0 => hrange (.inl h0), UInt32.not_lt.mp fun hbig => hrange (.inr hbig), rfl, ?_⟩
  exact ⟨_, leaf, control, hleaf, rfl⟩

/-- **A reclaim may be in a block from `confirmed + lock` on**, and its script passes. -/
theorem spendable_iff {btc : BitcoinCrate} {kp : Keypair} {op : OutPoint} {value fee : UInt64}
    {dest : L1Address} (hok : buildSignedReclaimTx prim btc kp op value lock dest fee = .ok tx)
    {confirmed b : ℕ} : tx.Spendable mtp confirmed b ↔ confirmed + lock.toNat ≤ b := by
  obtain ⟨hpos, hmax, hversion, sig, leaf, control, hleaf, hinput⟩ := buildSignedReclaimTx_ok hok
  have hle : lock.toNat ≤ 65535 := UInt32.le_iff_toNat_le.mp hmax
  have hsequence : (sequenceFromHeight lock.toUInt16).toNat = lock.toNat := by
    show (lock.toNat % 65536) = _
    omega
  have hlock : relativeLock tx.version (sequenceFromHeight lock.toUInt16) = .blocks lock.toNat := by
    rw [hversion, relativeLock_of_lt (UInt32.le_refl 2) (by omega), hsequence]
  have hcsv : CsvPasses tx.version (sequenceFromHeight lock.toUInt16) leaf := by
    rw [csvTapleafScript, validateLockBlocks_ok_iff.mpr ⟨hpos, hmax⟩] at hleaf
    obtain rfl := Except.ok.inj hleaf
    obtain ⟨operand, hread, hlength, hvalue⟩ := readPush_pushInt hpos hmax
      ([0xb2, 0x75] ++ pushSlice kp.xOnlyPublicKey.serialize ++ [0xac])
    refine ⟨operand, [0x75] ++ pushSlice kp.xOnlyPublicKey.serialize ++ [0xac], ?_, ?_⟩
    · simpa using hread
    · rw [hversion]
      exact checkSequenceVerify_of_le (UInt32.le_refl 2) (by omega) hlength hvalue (by omega)
  unfold Transaction.Spendable
  rw [hinput, List.forall_mem_singleton]
  show (relativeLock tx.version (sequenceFromHeight lock.toUInt16)).Met mtp confirmed b ∧
    CsvPasses tx.version (sequenceFromHeight lock.toUInt16) leaf ↔ _
  rw [hlock]
  exact and_iff_left hcsv

/-! ### The wallet's two checks -/

theorem toNat_satAdd32 (a b : UInt32) :
    (satAdd32 a b).toNat = min (a.toNat + b.toNat) (2 ^ 32 - 1) := by
  have hmax : (UInt32.ofNat (2 ^ 32 - 1)).toNat = 2 ^ 32 - 1 := by decide
  unfold satAdd32
  split
  · rw [UInt32.toNat_add]
    omega
  · rw [hmax]
    omega

theorem toNat_satSub32 (a b : UInt32) : (satSub32 a b).toNat = a.toNat - b.toNat := by
  unfold satSub32
  split
  · next hle => rw [UInt32.toNat_sub_of_le _ _ hle]
  · next hle =>
      rw [UInt32.le_iff_toNat_le] at hle
      show 0 = _
      omega

/-- The comparison that both checks make. -/
theorem unlocked_iff (hbound : h.toNat + lock.toNat < 2 ^ 32) :
    satAdd32 h lock ≤ satAdd32 t 1 ↔ h.toNat + lock.toNat ≤ t.toNat + 1 := by
  have hone : (1 : UInt32).toNat = 1 := rfl
  rw [UInt32.le_iff_toNat_le, toNat_satAdd32, toNat_satAdd32, hone]
  omega

/-- The difference that both checks report. -/
theorem toNat_remaining (hbound : h.toNat + lock.toNat < 2 ^ 32)
    (hlocked : ¬ h.toNat + lock.toNat ≤ t.toNat + 1) :
    (satSub32 (satAdd32 h lock) (satAdd32 t 1)).toNat = h.toNat + lock.toNat - (t.toNat + 1) := by
  have hone : (1 : UInt32).toNat = 1 := rfl
  rw [toNat_satSub32, toNat_satAdd32, toNat_satAdd32, hone]
  omega

/-- What a run of `reclaim_mint` has got to when it checks the maturity. -/
structure ReachesMaturity (libs : Libraries) (w : Surroundings) (wf : WalletFile)
    (input : ReclaimMintInput) (record : MintRecord) : Prop where
  found : wf.findMintByIndex input.bip32Index = some record
  unreclaimed : record.reclaimed = false
  outpoint : ∃ s op, record.outpoint = some s ∧ parseOutpoint s = .ok op
  value : record.valueSat.isSome
  destination : ∃ dest, libs.btc.parseAddress input.destAddress = some dest ∧
    libs.btc.isOnNetwork dest wf.network = true

theorem reclaimMint_notReclaimable_iff {input : ReclaimMintInput} {record : MintRecord}
    (hreach : ReachesMaturity libs w wf input record) (hfunded : record.fundedAtHeight = some h)
    (htip : w.esplora.tipHeight = some t) {remaining unlock tip : UInt32} :
    (reclaimMint prim libs w input wf).1 = .error (.notReclaimable remaining unlock tip) ↔
      satAdd32 t 1 < satAdd32 h record.lockBlocks ∧
        satSub32 (satAdd32 h record.lockBlocks) (satAdd32 t 1) = remaining ∧
        satAdd32 h record.lockBlocks = unlock ∧ t = tip := by
  obtain ⟨s, op, hs, hop⟩ := hreach.outpoint
  obtain ⟨value, hvalue⟩ := Option.isSome_iff_exists.mp hreach.value
  obtain ⟨dest, hdest, hnetwork⟩ := hreach.destination
  simp [reclaimMint, Action.lift_bind_error_iff, okOr_error_iff, okOr_ok_iff, mapErr_error_iff,
    ensure_error_iff, hreach.found, hreach.unreclaimed, hs, hop, hvalue, hfunded, hdest,
      hnetwork, htip]

/-- The list, where the tip is known. -/
theorem listReclaimableMints_ok (htip : w.esplora.tipHeight = some t) :
    ∃ tip, listReclaimableMints w wf = .ok (wf.mints.map (reclaimableMint tip)) ∧
      ∀ m ∈ wf.mints, m.reclaimed = false → m.fundedAtHeight.isSome → tip = some t := by
  unfold listReclaimableMints
  by_cases hask : (wf.mints.any fun m => !m.reclaimed && m.fundedAtHeight.isSome) = true
  · rw [if_pos hask, htip]
    exact ⟨some t, rfl, fun _ _ _ _ => rfl⟩
  · rw [if_neg hask]
    refine ⟨none, rfl, fun m hm hopen hfunded => absurd (List.any_eq_true.mpr ⟨m, hm, ?_⟩) hask⟩
    rw [hopen, hfunded]
    rfl

theorem lockStatus_ready (hunlocked : satAdd32 h lock ≤ satAdd32 t 1) {m : MintRecord}
    (hlock : m.lockBlocks = lock) (hfunded : m.fundedAtHeight = some h) :
    lockStatus (some t) m = (.ready, some 0) := by
  subst hlock
  unfold lockStatus
  rw [hfunded]
  exact if_pos hunlocked

theorem lockStatus_locked (hlocked : ¬ satAdd32 h lock ≤ satAdd32 t 1) {m : MintRecord}
    (hlock : m.lockBlocks = lock) (hfunded : m.fundedAtHeight = some h) :
    lockStatus (some t) m = (.locked, some (satSub32 (satAdd32 h lock) (satAdd32 t 1))) := by
  subst hlock
  unfold lockStatus
  rw [hfunded]
  exact if_neg hlocked

/-- **The wallet's maturity is Bitcoin's**: a mint that was not reclaimed is listed as ready, and
its reclaim passes the check, exactly when the reclaim may be in the next block and its script
passes; otherwise it is listed as locked for the least number of blocks until then.  One that was
reclaimed is listed as that, and not reclaimed again. -/
theorem ready_iff_spendable {i : ℕ} {record : MintRecord} (hrecord : wf.mints[i]? = some record)
    (hfunded : record.fundedAtHeight = some h) (htip : w.esplora.tipHeight = some t)
    (hbound : h.toNat + record.lockBlocks.toNat < 2 ^ 32) {kp : Keypair} {op : OutPoint}
    {value fee : UInt64} {dest : L1Address}
    (htx : buildSignedReclaimTx prim libs.btc kp op value record.lockBlocks dest fee = .ok tx) :
    (∃ out m, listReclaimableMints w wf = .ok out ∧ out[i]? = some m ∧
      (m.status = .ready ↔ record.reclaimed = false ∧ tx.Spendable mtp h.toNat (t.toNat + 1)) ∧
      (m.status = .locked ↔ record.reclaimed = false ∧ ¬ tx.Spendable mtp h.toNat (t.toNat + 1)) ∧
      (m.status = .reclaimed ↔ record.reclaimed = true) ∧
      (m.status = .ready → m.blocksRemaining = some 0) ∧
      (m.status = .locked → ∃ k, m.blocksRemaining = some k ∧
        IsLeast {n | tx.Spendable mtp h.toNat (t.toNat + n + 1)} k.toNat)) ∧
    (∀ input, ReachesMaturity libs w wf input record →
      ((∀ remaining unlock tip,
          (reclaimMint prim libs w input wf).1 ≠ .error (.notReclaimable remaining unlock tip)) ↔
        tx.Spendable mtp h.toNat (t.toNat + 1))) ∧
    (∀ input, wf.findMintByIndex input.bip32Index = some record → record.reclaimed = true →
      (reclaimMint prim libs w input wf).1 = .error (.alreadyReclaimed input.bip32Index)) := by
  have hnext : tx.Spendable mtp h.toNat (t.toNat + 1)
      ↔ satAdd32 h record.lockBlocks ≤ satAdd32 t 1 :=
    (spendable_iff htx).trans (unlocked_iff hbound).symm
  refine ⟨?_, fun input hreach => ?_, fun input hfound hreclaimed => ?_⟩
  · obtain ⟨tip, hlist, hasked⟩ := @listReclaimableMints_ok w wf _ htip
    refine ⟨_, reclaimableMint tip record, hlist, by rw [List.getElem?_map, hrecord]; rfl, ?_⟩
    by_cases hreclaimed : record.reclaimed = true
    · have hstatus : (reclaimableMint tip record).status = .reclaimed := by
        simp [reclaimableMint, hreclaimed]
      simp [hstatus, hreclaimed]
    · have hopen : record.reclaimed = false := Bool.eq_false_iff.mpr hreclaimed
      obtain rfl := hasked record (List.mem_of_getElem? hrecord) hopen (by rw [hfunded]; rfl)
      have hentry : ∀ {status blocks}, lockStatus (some t) record = (status, blocks) →
          (reclaimableMint (some t) record).status = status ∧
            (reclaimableMint (some t) record).blocksRemaining = blocks := by
        intro status blocks hlock
        simp [reclaimableMint, hopen, hlock]
      by_cases hunlocked : satAdd32 h record.lockBlocks ≤ satAdd32 t 1
      · obtain ⟨hstatus, hblocks⟩ := hentry (lockStatus_ready hunlocked rfl hfunded)
        simp [hstatus, hblocks, hopen, hnext.mpr hunlocked]
      · obtain ⟨hstatus, hblocks⟩ := hentry (lockStatus_locked hunlocked rfl hfunded)
        have hfar : ¬ h.toNat + record.lockBlocks.toNat ≤ t.toNat + 1 :=
          fun hle => hunlocked ((unlocked_iff hbound).mpr hle)
        have hleast : IsLeast {n | tx.Spendable mtp h.toNat (t.toNat + n + 1)}
            (satSub32 (satAdd32 h record.lockBlocks) (satAdd32 t 1)).toNat := by
          rw [toNat_remaining hbound hfar]
          constructor
          · exact (spendable_iff htx).mpr (by omega)
          · intro n hn
            have hle := (spendable_iff htx).mp hn
            omega
        simp [hstatus, hblocks, hopen, hnext, hunlocked, hleast]
  · rw [hnext]
    constructor
    · intro hpasses
      by_contra hlocked
      exact hpasses _ _ _ ((reclaimMint_notReclaimable_iff hreach hfunded htip).mpr
        ⟨UInt32.not_le.mp hlocked, rfl, rfl, rfl⟩)
    · intro hunlocked remaining unlock tip herror
      have hlt := ((reclaimMint_notReclaimable_iff hreach hfunded htip).mp herror).1
      exact absurd hunlocked (UInt32.not_le.mpr hlt)
  · simp [reclaimMint, Action.lift_bind_error_iff, okOr_error_iff, ensure_error_iff,
      hfound, hreclaimed]

end

/-! ### A mint of 20 blocks, confirmed at height 100 -/

def twentyBlocks (reclaimed : Bool) : MintRecord where
  mintAddress := ""
  lockBlocks := 20
  bip32Index := 0
  outpoint := some (showOutpoint ⟨ByteArr.ofNat 32 7⟩ 0)
  valueSat := some 1000000
  fundedAtHeight := some 100
  minted := true
  reclaimed := reclaimed

def walletOf (record : MintRecord) : WalletFile where
  network := .regtest
  mnemonic := ""
  sequencerUrl := ""
  nodeUrl := none
  esploraUrl := ""
  nextMintIndex := 1
  mints := [record]
  verifiedHead := none
  transactions := []
  encryptionCtx := none

def quietAt (tip : UInt32) : Surroundings :=
  { Surroundings.quiet with esplora := { Surroundings.quiet.esplora with tipHeight := some tip } }

/-- Any keypair does. -/
def anyKeypair : Keypair :=
  ⟨⟨ByteArr.ofNat 32 7⟩, fun _ _ => ⟨ByteArr.ofNat 64 0⟩, fun _ => ⟨ByteArr.ofNat 64 0⟩⟩

theorem twentyBlocks_reclaim : ∃ tx, buildSignedReclaimTx Primitives.counting Libraries.sample.btc
    anyKeypair ⟨⟨ByteArr.ofNat 32 7⟩, 0⟩ 1000000 20 ⟨"", []⟩ 1000 = .ok tx := ⟨_, rfl⟩

/-- At tip 118 one more block is needed, and at tip 119 the reclaim can be mined. -/
theorem ready_iff_spendable_twentyBlocks : ∃ tx : Transaction,
    (¬ tx.Spendable (fun _ => 0) 100 119 ∧ tx.Spendable (fun _ => 0) 100 120) ∧
    (listReclaimableMints (quietAt 118) (walletOf (twentyBlocks false))).map
      (·.map fun m => (m.status, m.blocksRemaining)) = .ok [(.locked, some 1)] ∧
    (listReclaimableMints (quietAt 119) (walletOf (twentyBlocks false))).map
      (·.map fun m => (m.status, m.blocksRemaining)) = .ok [(.ready, some 0)] := by
  obtain ⟨tx, htx⟩ := twentyBlocks_reclaim
  refine ⟨tx, ⟨?_, ?_⟩, by decide, by decide⟩
  · obtain ⟨⟨out, m, hlist, hm, -, hlocked, -⟩, -⟩ := @ready_iff_spendable Primitives.counting
      .sample (quietAt 118) (walletOf (twentyBlocks false)) (fun _ => 0) 100 118 tx 0 _ rfl rfl rfl
      (by decide) _ _ _ _ _ htx
    obtain rfl := Except.ok.inj hlist
    obtain rfl := Option.some.inj hm
    exact (hlocked.mp (by decide)).2
  · obtain ⟨⟨out, m, hlist, hm, hready, -⟩, -⟩ := @ready_iff_spendable Primitives.counting
      .sample (quietAt 119) (walletOf (twentyBlocks false)) (fun _ => 0) 100 119 tx 0 _ rfl rfl rfl
      (by decide) _ _ _ _ _ htx
    obtain rfl := Except.ok.inj hlist
    obtain rfl := Option.some.inj hm
    exact (hready.mp (by decide)).2

/-- Once reclaimed, it is not listed as ready and not reclaimed again, mature as it is. -/
theorem reclaimed_not_ready : ∃ tx,
    buildSignedReclaimTx Primitives.counting Libraries.sample.btc anyKeypair
      ⟨⟨ByteArr.ofNat 32 7⟩, 0⟩ 1000000 20 ⟨"", []⟩ 1000 = .ok tx ∧
    (∀ mtp, tx.Spendable mtp 100 201) ∧
    (listReclaimableMints (quietAt 200) (walletOf (twentyBlocks true))).map (·.map (·.status))
      = .ok [.reclaimed] ∧
    (reclaimMint Primitives.counting .sample (quietAt 200) ⟨0, "", 1000⟩
      (walletOf (twentyBlocks true))).1
      = .error (.alreadyReclaimed 0) := by
  obtain ⟨tx, htx⟩ := twentyBlocks_reclaim
  refine ⟨tx, htx, fun mtp => (spendable_iff htx).mpr (by decide), by decide, ?_⟩
  decide

end Wallet

end Hodlchain
