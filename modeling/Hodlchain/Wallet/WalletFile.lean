/-
The wallet file.

In memory the mnemonic is always plain.  On disk it is plain (v1) or encrypted (v2),
as `encryption_ctx` says; a file is written whole, over the one before it.
-/
import Hodlchain.Lib.Action
import Hodlchain.Lib.Record
import Hodlchain.Core.Address
import Hodlchain.Wallet.Encryption
import Hodlchain.Wallet.Esplora

namespace Hodlchain.Wallet

open Bytes

/-! ### Records -/

/-- One CSV-locked mint output. -/
structure MintRecord where
  mintAddress : String
  lockBlocks : UInt32
  bip32Index : UInt32
  /-- Funding outpoint, `txid:vout`, once seen. -/
  outpoint : Option String
  valueSat : Option UInt64
  fundedAtHeight : Option UInt32
  minted : Bool
  reclaimed : Bool
deriving DecidableEq, Repr

inductive TxKind where
  | l1Deposit
  | l1Reclaim
  | l2MintApply
  | l2TransferSent
  | l2TransferReceived
deriving DecidableEq, Repr

/-- Where a recorded transaction has got to. -/
inductive TxStatus where
  | soft (sinceTs : UInt64)
  | l1Mempool (sinceTs : UInt64)
  | inBlock (l2Height l1Height : UInt32) (includedTs : UInt64)
  | finalized (l2Height l1Height : UInt32)
  | failed (reason : String) (ts : UInt64)
deriving DecidableEq, Repr

/-- One event of the transaction history. -/
structure TxRecord where
  id : String
  kind : TxKind
  createdTs : UInt64
  amount : UInt64
  feeAtoms : Option UInt64
  feeSat : Option UInt64
  counterparty : Option String
  status : TxStatus
  l1Txid : Option String
  /-- The transfer's sighash or the mint's nullifier, in hex. -/
  l2Sighash : Option String
  bip32Index : Option UInt32
  note : Option String
deriving DecidableEq, Repr

/-- `new_tx_id`, with the `u64` it draws. -/
def newTxId (random : UInt64) : String := hexEncode (be64 random)

/-! ### The wallet -/

structure WalletFile where
  network : NetworkName
  mnemonic : String
  sequencerUrl : String
  nodeUrl : Option String
  esploraUrl : String
  nextMintIndex : UInt32
  mints : List MintRecord
  verifiedHead : Option VerifiedHead
  transactions : List TxRecord
  encryptionCtx : Option UnlockContext

/-- What `serde` reads of a wallet file. -/
structure DiskLoad where
  version : Option UInt32
  network : NetworkName
  mnemonic : Option String
  encryptedMnemonic : Option EncryptedMnemonic
  sequencerUrl : String
  nodeUrl : Option String
  esploraUrl : String
  nextMintIndex : UInt32
  mints : List MintRecord
  verifiedHead : Option VerifiedHead
  transactions : List TxRecord

/-- What is at a path: a wallet file, or something that does not parse as one. -/
inductive File where
  | wallet (disk : DiskLoad)
  | malformed

inductive LoadError where
  | read
  | parse
  | notEncrypted
  | version (got : Option UInt32)
  | needsPassphrase
  | noMnemonic
  | decrypt (cause : DecryptError)
deriving DecidableEq, Repr

/-- `read_disk`. -/
def readDisk : Option File → Except LoadError DiskLoad
  | none => .error .read
  | some .malformed => .error .parse
  | some (.wallet disk) => .ok disk

/-- The wallet in a file, once its mnemonic is known. -/
def DiskLoad.wallet (disk : DiskLoad) (mnemonic : String) (encryptionCtx : Option UnlockContext) :
    WalletFile :=
  { network := disk.network
    mnemonic := mnemonic
    sequencerUrl := disk.sequencerUrl
    nodeUrl := disk.nodeUrl
    esploraUrl := disk.esploraUrl
    nextMintIndex := disk.nextMintIndex
    mints := disk.mints
    verifiedHead := disk.verifiedHead
    transactions := disk.transactions
    encryptionCtx := encryptionCtx }

namespace WalletFile

section

variable (c : Cipher)

/-- `from_disk`. -/
def fromDisk (disk : DiskLoad) (passphrase : Option String) : Except LoadError WalletFile :=
  match disk.encryptedMnemonic, disk.mnemonic with
  | some blob, _ => do
      ensure (disk.version = some 2) (.version disk.version)
      let pp ← okOr passphrase .needsPassphrase
      let (mn, ctx) ← mapErr .decrypt (decrypt c blob pp)
      pure (disk.wallet mn (some ctx))
  | none, some mn => pure (disk.wallet mn none)
  | none, none => .error .noMnemonic

/-- `load`. -/
def load (file : Option File) : Except LoadError WalletFile := do
  let disk ← readDisk file
  fromDisk c disk none

/-- `load_unlocked`. -/
def loadUnlocked (file : Option File) (passphrase : Option String) :
    Except LoadError WalletFile := do
  let disk ← readDisk file
  fromDisk c disk passphrase

/-- `is_encrypted_at`. -/
def isEncryptedAt (file : Option File) : Except LoadError Bool := do
  let disk ← readDisk file
  pure disk.encryptedMnemonic.isSome

/-- `load_with_context`. -/
def loadWithContext (file : Option File) (ctx : UnlockContext) : Except LoadError WalletFile := do
  let disk ← readDisk file
  let blob ← okOr disk.encryptedMnemonic .notEncrypted
  let mnemonic ← mapErr .decrypt (ctx.decrypt c blob)
  pure (disk.wallet mnemonic (some ctx))

/-- `take_encryption_ctx`. -/
def takeEncryptionCtx (wf : WalletFile) : Option UnlockContext × WalletFile :=
  (wf.encryptionCtx, { wf with encryptionCtx := none })

/-- `DiskSaveV1`, as it is read back. -/
def diskSaveV1 (wf : WalletFile) : DiskLoad :=
  { version := none
    network := wf.network
    mnemonic := some wf.mnemonic
    encryptedMnemonic := none
    sequencerUrl := wf.sequencerUrl
    nodeUrl := wf.nodeUrl
    esploraUrl := wf.esploraUrl
    nextMintIndex := wf.nextMintIndex
    mints := wf.mints
    verifiedHead := wf.verifiedHead
    transactions := wf.transactions }

/-- `DiskSaveV2`, as it is read back. -/
def diskSaveV2 (wf : WalletFile) (blob : EncryptedMnemonic) : DiskLoad :=
  { version := some 2
    network := wf.network
    mnemonic := none
    encryptedMnemonic := some blob
    sequencerUrl := wf.sequencerUrl
    nodeUrl := wf.nodeUrl
    esploraUrl := wf.esploraUrl
    nextMintIndex := wf.nextMintIndex
    mints := wf.mints
    verifiedHead := wf.verifiedHead
    transactions := wf.transactions }

/-- What `save` writes, with the nonce it draws. -/
def toDisk (wf : WalletFile) (nonce : ByteArr 24) : Except EncryptError DiskLoad :=
  match wf.encryptionCtx with
  | some ctx => do
      let blob ← reencrypt c wf.mnemonic ctx nonce
      pure (wf.diskSaveV2 blob)
  | none => pure wf.diskSaveV1

/-- `encrypt_in_place`, with the salt and the nonce it draws. -/
def encryptInPlace (wf : WalletFile) (passphrase : String) (salt : ByteArr 16)
    (nonce : ByteArr 24) :
    Except EncryptError WalletFile := do
  let (_, ctx) ← encryptNew c wf.mnemonic passphrase salt nonce
  pure { wf with encryptionCtx := some ctx }

end

/-! ### Records of a wallet -/

/-- `append_mint`; that no record has the index is a debug assertion. -/
def appendMint (wf : WalletFile) (record : MintRecord) : WalletFile :=
  { wf with mints := wf.mints ++ [record] }

/-- `append_tx`. -/
def appendTx (wf : WalletFile) (record : TxRecord) : WalletFile :=
  { wf with transactions := wf.transactions ++ [record] }

/-- `find_mint_by_index`. -/
def findMintByIndex (wf : WalletFile) (index : UInt32) : Option MintRecord :=
  wf.mints.find? fun m => m.bip32Index = index

/-- A change through `find_mint_by_index_mut`. -/
def updateMintByIndex (wf : WalletFile) (index : UInt32) (f : MintRecord → MintRecord) :
    WalletFile :=
  { wf with mints := modifyFirst (fun m => m.bip32Index = index) f wf.mints }

/-- `find_l1_deposit_tx_mut`. -/
def findL1DepositTx (wf : WalletFile) (bip32Index : UInt32) : Option TxRecord :=
  wf.transactions.find? fun t => t.kind = .l1Deposit ∧ t.bip32Index = some bip32Index

end WalletFile

/-! ### Keys -/

/-- A key pair, as far as it is used. -/
structure Keypair where
  xOnlyPublicKey : XOnlyPublicKey
  /-- `sign_schnorr`, with the auxiliary randomness it draws. -/
  signSchnorr : ByteArr 32 → H256 → Signature
  signSchnorrNoAuxRand : H256 → Signature

inductive ChildNumber where
  | normal (index : UInt32)
  | hardened (index : UInt32)
deriving DecidableEq, Repr

/-- The bip39 and bip32 crates, as they are called. -/
structure KeyDerivation where
  /-- `Mnemonic::from_str(phrase.trim())`: the phrase it prints, and its seed. -/
  parseMnemonic : String → Option (String × Bytes)
  /-- `Xpriv::new_master`. -/
  newMaster : NetworkName → Bytes → Option Bytes
  /-- `derive_priv`, and the key pair of the result. -/
  derivePriv : Bytes → List ChildNumber → Option Keypair

inductive KeyError where
  | mnemonic
  | master
  | path
  | derive
deriving DecidableEq, Repr

inductive AllocateError where
  | keys (cause : KeyError)
  | indexOverflow
deriving DecidableEq, Repr

/-- `HODLCHAIN_PURPOSE`. -/
def hodlchainPurpose : UInt32 := 0x484F444C

/-- `DerivationPath::from_str` takes indices below `2^31`. -/
def childPath (children : List ChildNumber) : Except KeyError (List ChildNumber) :=
  if children.all fun child => match child with
      | .normal index | .hardened index => index < 0x80000000 then .ok children
  else .error .path

namespace WalletFile

section

variable (keys : KeyDerivation)

/-- `master_xpriv`. -/
def masterXpriv (wf : WalletFile) : Except KeyError Bytes := do
  let (_, seed) ← okOr (keys.parseMnemonic wf.mnemonic) .mnemonic
  okOr (keys.newMaster wf.network seed) .master

/-- `mint_key_path`: `m / HODL' / coin_type' / 0' / 0 / index`. -/
def mintKeyPath (wf : WalletFile) (index : UInt32) : Except KeyError (List ChildNumber) :=
  childPath [.hardened hodlchainPurpose, .hardened wf.network.slip44CoinType,
    .hardened 0, .normal 0, .normal index]

/-- `l2_identity_path`: `m / HODL' / coin_type' / 1' / 0 / 0`. -/
def l2IdentityPath (wf : WalletFile) : Except KeyError (List ChildNumber) :=
  childPath [.hardened hodlchainPurpose, .hardened wf.network.slip44CoinType,
    .hardened 1, .normal 0, .normal 0]

/-- `mint_keypair`. -/
def mintKeypair (wf : WalletFile) (index : UInt32) : Except KeyError Keypair := do
  let master ← wf.masterXpriv keys
  let path ← wf.mintKeyPath index
  okOr (keys.derivePriv master path) .derive

/-- `l2_identity_keypair`. -/
def l2IdentityKeypair (wf : WalletFile) : Except KeyError Keypair := do
  let master ← wf.masterXpriv keys
  let path ← wf.l2IdentityPath
  okOr (keys.derivePriv master path) .derive

/-- `xonly_pubkey`, and its alias `l2_identity_xonly`. -/
def xonlyPubkey (wf : WalletFile) : Except KeyError XOnlyPublicKey := do
  let kp ← wf.l2IdentityKeypair keys
  pure kp.xOnlyPublicKey

/-- `allocate_mint_keypair`. -/
def allocateMintKeypair : Action WalletFile AllocateError (Keypair × UInt32) := do
  let wf ← Action.get
  let index := wf.nextMintIndex
  let kp ← Action.lift (mapErr .keys (wf.mintKeypair keys index))
  if index = UInt32.ofNat (2 ^ 32 - 1) then Action.halt .indexOverflow
  else do
    Action.modify fun wf => { wf with nextMintIndex := wf.nextMintIndex + 1 }
    pure (kp, index)

end

end WalletFile

/-! ### Outpoints -/

inductive OutpointError where
  | format
  | txid
  | vout
deriving DecidableEq, Repr

/-- `str::split_once`, on characters. -/
def splitOnce (sep : Char) : List Char → Option (List Char × List Char)
  | [] => none
  | x :: xs => if x = sep then some ([], xs) else (splitOnce sep xs).map fun (a, b) => (x :: a, b)

/-- The number that decimal digits spell. -/
def decimalValue (digits : List Char) : Option Nat :=
  digits.foldl (fun acc d => acc.bind fun n =>
    if d.isDigit then some (n * 10 + (d.toNat - '0'.toNat)) else none) (some 0)

/-- `u32::from_str`. -/
def parseU32 (s : List Char) : Option UInt32 :=
  let digits := if s.head? = some '+' then s.tail else s
  if digits = [] then none
  else (decimalValue digits).bind fun n => if n < 2 ^ 32 then some (UInt32.ofNat n) else none

/-- `parse_outpoint`. -/
def parseOutpoint (s : String) : Except OutpointError OutPoint := do
  let (txid, vout) ← okOr (splitOnce ':' s.toList) .format
  let txid ← okOr (Txid.fromStr (String.ofList txid)) .txid
  let vout ← okOr (parseU32 vout) .vout
  pure ⟨txid, vout⟩

/-- `format!("{}:{}", txid, vout)`. -/
def showOutpoint (txid : Txid) (vout : UInt32) : String := txid.toStr ++ ":" ++ toString vout

/-! ### What a file reads as -/

/-- The mnemonic in a file, and the context it is kept under. -/
def DiskLoad.Reads (c : Cipher) (disk : DiskLoad) (ctx : Option UnlockContext) (mnemonic : String) :
    Prop :=
  match ctx with
  | none => disk.encryptedMnemonic = none ∧ disk.mnemonic = some mnemonic
  | some ctx => ∃ blob, disk.encryptedMnemonic = some blob ∧ ctx.decrypt c blob = .ok mnemonic

section

variable {c : Cipher} {disk : DiskLoad} {wf : WalletFile}

/-- A file reads as one mnemonic, under one context. -/
theorem DiskLoad.Reads.unique (hone : c.OneKey) {ctx ctx' : Option UnlockContext} {m m' : String}
    (h : disk.Reads c ctx m) (h' : disk.Reads c ctx' m') : ctx = ctx' ∧ m = m' := by
  cases ctx with
  | none =>
      cases ctx' with
      | none => exact ⟨rfl, Option.some.inj (h.2.symm.trans h'.2)⟩
      | some ctx' =>
          obtain ⟨blob, hblob, -⟩ := h'
          simp [h.1] at hblob
  | some ctx =>
      obtain ⟨blob, hblob, hm⟩ := h
      cases ctx' with
      | none => simp [h'.1] at hblob
      | some ctx' =>
          obtain ⟨blob', hblob', hm'⟩ := h'
          obtain rfl := Option.some.inj (hblob.symm.trans hblob')
          obtain ⟨rfl, rfl⟩ := UnlockContext.decrypt_unique hone hm hm'
          exact ⟨rfl, rfl⟩

theorem readDisk_ok_iff {file : Option File} :
    readDisk file = .ok disk ↔ file = some (.wallet disk) := by
  rcases file with _ | (_ | _) <;> simp [readDisk]

/-- A loaded wallet is that of a file, with the mnemonic the file reads as. -/
structure WalletFile.Loaded (c : Cipher) (disk : DiskLoad) (wf : WalletFile) : Prop where
  reads : disk.Reads c wf.encryptionCtx wf.mnemonic
  wallet : wf = disk.wallet wf.mnemonic wf.encryptionCtx

theorem WalletFile.loaded_of_fromDisk {passphrase : Option String}
    (h : WalletFile.fromDisk c disk passphrase = .ok wf) : WalletFile.Loaded c disk wf := by
  rw [WalletFile.fromDisk] at h
  cases hblob : disk.encryptedMnemonic with
  | some blob =>
      simp only [hblob, bind_ok_iff, ensure_ok_iff, okOr_ok_iff, mapErr_ok_iff, pure_ok_iff] at h
      obtain ⟨_, -, pp, -, ⟨mn, ctx⟩, hmn, rfl⟩ := h
      exact ⟨⟨blob, hblob, decrypt_of_passphrase hmn⟩, rfl⟩
  | none =>
      cases hmn : disk.mnemonic with
      | none => simp [hblob, hmn] at h
      | some mn =>
          simp only [hblob, hmn, pure_ok_iff] at h
          subst h
          exact ⟨⟨hblob, hmn⟩, rfl⟩

theorem WalletFile.loaded_of_loadWithContext {file : Option File} {ctx : UnlockContext}
    (h : WalletFile.loadWithContext c file ctx = .ok wf) :
    ∃ disk, file = some (.wallet disk) ∧ WalletFile.Loaded c disk wf := by
  simp only [WalletFile.loadWithContext, bind_ok_iff, okOr_ok_iff, mapErr_ok_iff, pure_ok_iff] at h
  obtain ⟨disk, hdisk, blob, hblob, mn, hmn, rfl⟩ := h
  exact ⟨disk, readDisk_ok_iff.mp hdisk, ⟨blob, hblob, hmn⟩, rfl⟩

/-- A wallet that is saved reads as it does in memory. -/
theorem WalletFile.reads_of_toDisk (hc : c.Lawful) {nonce : ByteArr 24}
    (h : wf.toDisk c nonce = .ok disk) : disk.Reads c wf.encryptionCtx wf.mnemonic := by
  rw [WalletFile.toDisk] at h
  cases hctx : wf.encryptionCtx with
  | none =>
      simp only [hctx, pure_ok_iff] at h
      subst h
      exact ⟨rfl, rfl⟩
  | some ctx =>
      simp only [hctx, bind_ok_iff, pure_ok_iff] at h
      obtain ⟨blob, hblob, rfl⟩ := h
      exact ⟨blob, rfl, decrypt_reencrypt hc hblob⟩

end

end Hodlchain.Wallet
