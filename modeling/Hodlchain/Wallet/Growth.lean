/-
What an operation leaves in the wallet.

Each operation that succeeds makes one change to the wallet, said once below.  None of
them loses anything: records stay in their places, flags stay set, a confirmed funding
output stays the one it was, and the index counter does not go back.
-/
import Hodlchain.Wallet.Ops

namespace Hodlchain.Wallet

/-! ### Growth -/

/-- The funding output is known and confirmed. -/
def MintRecord.Funded (r : MintRecord) : Prop := r.outpoint.isSome ∧ r.fundedAtHeight.isSome

/-- A mint record later on. -/
structure MintRecord.Grows (r r' : MintRecord) : Prop where
  mintAddress : r'.mintAddress = r.mintAddress
  lockBlocks : r'.lockBlocks = r.lockBlocks
  bip32Index : r'.bip32Index = r.bip32Index
  minted : r.minted = true → r'.minted = true
  reclaimed : r.reclaimed = true → r'.reclaimed = true
  outpoint : r'.outpoint = r.outpoint ∨ r'.Funded
  funded : r.Funded → r'.Funded ∧ r'.outpoint = r.outpoint

/-- A history record later on: only its status can be another. -/
def TxRecord.Grows (t t' : TxRecord) : Prop := { t' with status := t.status } = t

/-- The part of a wallet that operations add to. -/
structure Records where
  nextMintIndex : UInt32
  mints : List MintRecord
  transactions : List TxRecord
deriving DecidableEq, Repr

def WalletFile.records (wf : WalletFile) : Records := ⟨wf.nextMintIndex, wf.mints, wf.transactions⟩

def DiskLoad.records (disk : DiskLoad) : Records :=
  ⟨disk.nextMintIndex, disk.mints, disk.transactions⟩

theorem WalletFile.Loaded.records {c : Cipher} {disk : DiskLoad} {wf : WalletFile}
    (h : WalletFile.Loaded c disk wf) : wf.records = disk.records := by
  rw [h.wallet]
  rfl

theorem WalletFile.records_of_toDisk {c : Cipher} {disk : DiskLoad} {wf : WalletFile}
    {nonce : ByteArr 24} (h : wf.toDisk c nonce = .ok disk) : disk.records = wf.records := by
  rw [WalletFile.toDisk] at h
  split at h
  · simp only [bind_ok_iff, pure_ok_iff] at h
    obtain ⟨blob, -, rfl⟩ := h
    rfl
  · rw [pure_ok_iff] at h
    subst h
    rfl

structure Records.Grows (a b : Records) : Prop where
  nextMintIndex : a.nextMintIndex ≤ b.nextMintIndex
  mints : Extends MintRecord.Grows a.mints b.mints
  transactions : Extends TxRecord.Grows a.transactions b.transactions

theorem MintRecord.Grows.refl (r : MintRecord) : r.Grows r where
  mintAddress := rfl
  lockBlocks := rfl
  bip32Index := rfl
  minted := id
  reclaimed := id
  outpoint := .inl rfl
  funded := fun h => ⟨h, rfl⟩

theorem MintRecord.Grows.trans {r r' r'' : MintRecord} (h : r.Grows r') (h' : r'.Grows r'') :
    r.Grows r'' where
  mintAddress := h'.mintAddress.trans h.mintAddress
  lockBlocks := h'.lockBlocks.trans h.lockBlocks
  bip32Index := h'.bip32Index.trans h.bip32Index
  minted := fun hm => h'.minted (h.minted hm)
  reclaimed := fun hr => h'.reclaimed (h.reclaimed hr)
  outpoint := by
    rcases h'.outpoint with hsame' | hfunded'
    · rcases h.outpoint with hsame | hfunded
      · exact .inl (hsame'.trans hsame)
      · exact .inr (h'.funded hfunded).1
    · exact .inr hfunded'
  funded := fun hf => ⟨(h'.funded (h.funded hf).1).1,
    (h'.funded (h.funded hf).1).2.trans (h.funded hf).2⟩

theorem TxRecord.Grows.refl (t : TxRecord) : t.Grows t := rfl

theorem TxRecord.Grows.trans {t t' t'' : TxRecord} (h : t.Grows t') (h' : t'.Grows t'') :
    t.Grows t'' := by
  rw [TxRecord.Grows] at *
  rw [← h, ← h']

theorem TxRecord.Grows.status (t : TxRecord) (status : TxStatus) :
    t.Grows { t with status := status } :=
  rfl

namespace Records.Grows

variable {a b c : Records}

theorem refl (a : Records) : a.Grows a :=
  ⟨UInt32.le_refl _, .refl MintRecord.Grows.refl _, .refl TxRecord.Grows.refl _⟩

theorem trans (h : a.Grows b) (h' : b.Grows c) : a.Grows c :=
  ⟨UInt32.le_trans h.nextMintIndex h'.nextMintIndex, h.mints.trans MintRecord.Grows.trans h'.mints,
    h.transactions.trans TxRecord.Grows.trans h'.transactions⟩

end Records.Grows

/-- The same wallet: its keys, its servers, and how it is kept on disk. -/
structure SameWallet (wf wf' : WalletFile) : Prop where
  network : wf'.network = wf.network
  mnemonic : wf'.mnemonic = wf.mnemonic
  sequencerUrl : wf'.sequencerUrl = wf.sequencerUrl
  nodeUrl : wf'.nodeUrl = wf.nodeUrl
  esploraUrl : wf'.esploraUrl = wf.esploraUrl
  encryptionCtx : wf'.encryptionCtx = wf.encryptionCtx

/-- What every operation keeps. -/
structure Grown (wf wf' : WalletFile) : Prop where
  same : SameWallet wf wf'
  records : wf.records.Grows wf'.records

namespace Grown

variable {wf wf' wf'' : WalletFile}

theorem refl (wf : WalletFile) : Grown wf wf := ⟨⟨rfl, rfl, rfl, rfl, rfl, rfl⟩, .refl _⟩

theorem trans (h : Grown wf wf') (h' : Grown wf' wf'') : Grown wf wf'' where
  same :=
    { network := h'.same.network.trans h.same.network
      mnemonic := h'.same.mnemonic.trans h.same.mnemonic
      sequencerUrl := h'.same.sequencerUrl.trans h.same.sequencerUrl
      nodeUrl := h'.same.nodeUrl.trans h.same.nodeUrl
      esploraUrl := h'.same.esploraUrl.trans h.same.esploraUrl
      encryptionCtx := h'.same.encryptionCtx.trans h.same.encryptionCtx }
  records := h.records.trans h'.records

theorem verifiedHead (wf : WalletFile) (head : Option VerifiedHead) :
    Grown wf { wf with verifiedHead := head } := ⟨⟨rfl, rfl, rfl, rfl, rfl, rfl⟩, .refl _⟩

theorem appendTx (wf : WalletFile) (t : TxRecord) : Grown wf (wf.appendTx t) where
  same := ⟨rfl, rfl, rfl, rfl, rfl, rfl⟩
  records := ⟨UInt32.le_refl _, .refl MintRecord.Grows.refl _, .append TxRecord.Grows.refl _ _⟩

theorem transactions {txs : List TxRecord} (h : Extends TxRecord.Grows wf.transactions txs) :
    Grown wf { wf with transactions := txs } where
  same := ⟨rfl, rfl, rfl, rfl, rfl, rfl⟩
  records := ⟨UInt32.le_refl _, .refl MintRecord.Grows.refl _, h⟩

theorem updateMint {index : UInt32} {f : MintRecord → MintRecord}
    (hf : ∀ r, wf.findMintByIndex index = some r → r.Grows (f r)) :
    Grown wf (wf.updateMintByIndex index f) where
  same := ⟨rfl, rfl, rfl, rfl, rfl, rfl⟩
  records := ⟨UInt32.le_refl _, .modifyFirst MintRecord.Grows.refl hf, .refl TxRecord.Grows.refl _⟩

theorem lt_succ_of_ne_max {i : UInt32} (h : i ≠ UInt32.ofNat (2 ^ 32 - 1)) : i < i + 1 := by
  have hne : i.toNat ≠ 2 ^ 32 - 1 := fun heq => h (UInt32.toNat_inj.mp (by simpa using heq))
  have hlt := i.toNat_lt
  rw [UInt32.lt_iff_toNat_lt, UInt32.toNat_add]
  simp only [UInt32.reduceToNat]
  omega

/-- A new mint record, and the index it took. -/
theorem allocated {record : MintRecord} (h : wf.nextMintIndex ≠ UInt32.ofNat (2 ^ 32 - 1)) :
    Grown wf ({ wf with nextMintIndex := wf.nextMintIndex + 1 }.appendMint record) where
  same := ⟨rfl, rfl, rfl, rfl, rfl, rfl⟩
  records := by
    refine ⟨?_, .append MintRecord.Grows.refl _ _, .refl TxRecord.Grows.refl _⟩
    exact UInt32.le_of_lt (lt_succ_of_ne_max h)

end Grown

section

variable {prim : Primitives} {libs : Libraries} {w : Surroundings} {wf wf' : WalletFile}

/-! ### What each operation writes -/

theorem mintUtxo_ok {input : MintUtxoInput} {out : MintUtxoOutput}
    (h : mintUtxo prim libs input wf = (.ok out, wf')) :
    out.bip32Index = wf.nextMintIndex ∧ wf.nextMintIndex ≠ UInt32.ofNat (2 ^ 32 - 1) ∧
      wf' = { wf with nextMintIndex := wf.nextMintIndex + 1 }.appendMint
        ⟨out.mintAddress, out.lockBlocks, out.bip32Index, none, none, none, false, false⟩ := by
  simp only [mintUtxo, Action.lift_bind_ok_iff, Action.get_bind_run] at h
  obtain ⟨-, -, -, -, h⟩ := h
  obtain ⟨⟨kp, index⟩, wf₁, halloc, h⟩ := Action.bind_ok_iff.mp h
  rw [Action.mapErr_ok_iff] at halloc
  simp only [Action.lift_bind_ok_iff, Action.modify_bind_run, Action.pure_ok_iff] at h
  obtain ⟨address, -, rfl, rfl⟩ := h
  simp only [WalletFile.allocateMintKeypair, Action.get_bind_run, Action.lift_bind_ok_iff] at halloc
  obtain ⟨kp', -, halloc⟩ := halloc
  by_cases hmax : wf.nextMintIndex = UInt32.ofNat (2 ^ 32 - 1)
  · rw [if_pos hmax] at halloc
    cases halloc
  · rw [if_neg hmax] at halloc
    cases halloc
    exact ⟨rfl, hmax, rfl⟩

theorem checkMintFunding_ok {input : CheckMintFundingInput} {out : CheckMintFundingOutput}
    (h : checkMintFunding libs w input wf = (.ok out, wf')) :
    wf' = wf ∨ ∃ record u height, wf.findMintByIndex input.bip32Index = some record ∧
      ¬ record.Funded ∧
      wf' = recordFunding w record.mintAddress input.bip32Index u height wf := by
  simp only [checkMintFunding, Action.get_bind_run, Action.lift_bind_ok_iff, okOr_ok_iff] at h
  obtain ⟨record, hrecord, h⟩ := h
  by_cases hfunded : record.outpoint.isSome ∧ record.fundedAtHeight.isSome
  · rw [if_pos hfunded] at h
    exact .inl (Action.pure_ok_iff.mp h).2.symm
  · rw [if_neg hfunded] at h
    simp only [Action.lift_bind_ok_iff] at h
    obtain ⟨address, -, -, -, utxos, -, h⟩ := h
    cases utxos with
    | nil => exact .inl (Action.pure_ok_iff.mp h).2.symm
    | cons u us =>
        cases hheight : u.status.blockHeight with
        | none =>
            simp only [hheight] at h
            exact .inl (Action.pure_ok_iff.mp h).2.symm
        | some height =>
            simp only [hheight] at h
            exact .inr ⟨record, u, height, hrecord, hfunded, (Action.pure_ok_iff.mp h).2.symm⟩

theorem mintMessage_ok {input : MintMessageInput} {out : MintMessageOutput}
    (h : mintMessage prim libs w input wf = (.ok out, wf')) :
    ∃ counterparty resp, wf' = recordMint w counterparty input.bip32Index resp wf := by
  simp only [mintMessage, Action.get_bind_run, Action.lift_bind_ok_iff, Action.modify_bind_run,
    Action.pure_ok_iff] at h
  obtain ⟨-, -, -, -, -, -, -, -, -, -, -, -, -, -, resp, -, -, rfl⟩ := h
  exact ⟨_, resp, rfl⟩

theorem transfer_ok {input : TransferInput} {out : TransferOutput}
    (h : transfer prim libs w input wf = (.ok out, wf')) : ∃ t, wf' = wf.appendTx t := by
  simp only [transfer, Action.get_bind_run, Action.lift_bind_ok_iff, Action.modify_bind_run,
    Action.pure_ok_iff] at h
  obtain ⟨-, -, -, -, -, -, -, -, resp, -, -, rfl⟩ := h
  exact ⟨_, rfl⟩

theorem reclaimMint_ok {input : ReclaimMintInput} {out : ReclaimMintOutput}
    (h : reclaimMint prim libs w input wf = (.ok out, wf')) :
    ∃ dest valueSat txid, wf' = recordReclaim w dest input valueSat txid wf := by
  simp only [reclaimMint, Action.get_bind_run, Action.lift_bind_ok_iff, Action.modify_bind_run,
    Action.pure_ok_iff] at h
  obtain ⟨-, -, -, -, -, -, -, -, valueSat, -, -, -, dest, -, -, -, -, -, -, -, -, -, -,
    -, txid, -, -, rfl⟩ := h
  exact ⟨dest, valueSat, txid, rfl⟩

/-- A light balance that succeeds is the query on the persisted head, and its events and the refresh
written to the history. -/
theorem lightBalance_ok {input : LightBalanceInput} {out : LightBalanceOutput}
    (h : lightBalance prim libs w input wf = (.ok out, wf')) :
    ∃ own target head events l1Tip,
      wf.xonlyPubkey libs.keys = .ok own ∧ addressOr libs own wf.network input.addr = .ok target ∧
      lightBalanceOver prim w.fuel w.light own (some target) wf.verifiedHead
        = .ok ⟨out, head, events⟩ ∧
      wf' = { (finalizeAndRefresh w l1Tip events.length
        (projectEvents w events { wf with verifiedHead := none })).2 with
          verifiedHead := some head } := by
  simp only [lightBalance, Action.get_bind_run, Action.lift_bind_ok_iff, Action.modify_bind_run,
    Action.pure_ok_iff, mapErr_ok_iff] at h
  obtain ⟨own, hown, target, htarget, u, htracked, ⟨walked, mode, count, events⟩,
    hwalk, ⟨head, out'⟩, hread, rfl, rfl⟩ := h
  refine ⟨own, target, head, events, _, hown, htarget, ?_, rfl⟩
  exact bind_ok_iff.mpr ⟨u, htracked, bind_ok_iff.mpr ⟨_, hwalk, bind_ok_iff.mpr ⟨_, hread, rfl⟩⟩⟩

/-! ### Nothing is lost -/

theorem recordFunding_grown {index : UInt32} {record : MintRecord}
    (hfind : wf.findMintByIndex index = some record) (hfunded : ¬ record.Funded) (addr : String)
    (u : AddressUtxo) (height : UInt32) : Grown wf (recordFunding w addr index u height wf) := by
  have hupdate : Grown wf (wf.updateMintByIndex index fun r =>
      { r with
        outpoint := some (showOutpoint u.txid u.vout)
        valueSat := some u.value
        fundedAtHeight := some height }) := by
    refine .updateMint fun r hr => ?_
    obtain rfl := Option.some.inj (hr.symm.trans hfind)
    exact
      { mintAddress := rfl
        lockBlocks := rfl
        bip32Index := rfl
        minted := id
        reclaimed := id
        outpoint := .inr ⟨rfl, rfl⟩
        funded := fun h => absurd h hfunded }
  simp only [recordFunding]
  split
  · exact hupdate.trans (.appendTx _ _)
  · exact hupdate

theorem recordMint_grown (counterparty : String) (index : UInt32) (resp : SubmitMintResponse) :
    Grown wf (recordMint w counterparty index resp wf) := by
  refine Grown.trans ?_ (.appendTx _ _)
  split
  · exact .updateMint fun r _ => { MintRecord.Grows.refl r with minted := fun _ => rfl }
  · exact .refl wf

theorem recordReclaim_grown (dest : L1Address) (input : ReclaimMintInput) (valueSat : UInt64)
    (txid : Txid) : Grown wf (recordReclaim w dest input valueSat txid wf) := by
  refine Grown.trans ?_ (.appendTx _ _)
  exact .updateMint fun r _ => { MintRecord.Grows.refl r with reclaimed := fun _ => rfl }

theorem observe_grown (key : String) (record : TxRecord) : Grown wf (observe key record wf) := by
  rw [observe]
  split
  · refine .transactions (.modifyFirst TxRecord.Grows.refl fun t _ => ?_)
    split
    · exact .refl t
    · exact .status t _
  · exact .appendTx _ _

theorem projectEvent_grown (ev : TxEvent) (i : Nat) : Grown wf (projectEvent w wf ev i) := by
  simp only [projectEvent]
  cases ev.kind with
  | transferIn sender amount key =>
      dsimp only
      split
      · exact .refl wf
      · exact .appendTx _ _
  | transferOut recipient amount key => exact observe_grown _ _
  | mintIn amount key => exact observe_grown _ _

theorem projectEvents_grown (events : List TxEvent) (wf : WalletFile) :
    Grown wf (projectEvents w events wf) := by
  rw [projectEvents]
  induction events.zipIdx generalizing wf with
  | nil => exact .refl wf
  | cons e events ih => exact (projectEvent_grown e.1 e.2).trans (ih _)

theorem promote_grows (f : (Nat × UInt32) × Nat → TxStatus) (promoted : List ((Nat × UInt32) × Nat))
    (txs : List TxRecord) :
    Extends TxRecord.Grows txs
      (promoted.foldl (fun txs p => txs.modify p.1.1 fun t => { t with status := f p }) txs) := by
  induction promoted generalizing txs with
  | nil => exact .refl TxRecord.Grows.refl txs
  | cons p promoted ih =>
      exact (Extends.modify TxRecord.Grows.refl (fun t => .status t (f p)) txs p.1.1).trans
        TxRecord.Grows.trans (ih _)

theorem finalizeAndRefresh_grown (l1Tip : UInt32) (reading : Nat) :
    Grown wf (finalizeAndRefresh w l1Tip reading wf).2 := by
  have hpromoted := promote_grows (fun p => .inBlock 0 p.1.2 (w.now (reading + p.2)))
    (promotions w.esplora wf.transactions).zipIdx wf.transactions
  exact .transactions (hpromoted.trans TxRecord.Grows.trans (.map (fun t => .status t _) _))

end

end Hodlchain.Wallet
