/-
Opening a wallet a second time.

A passphrase opens a wallet file; the context it leaves opens the file again without it.
Both read the same five fields of the blob, each with checks of its own.  What the two
make of a file, whatever stands in it, is compared here, and where they do not answer at
all: a nonce goes to the cipher without its length being looked at.
-/
import Hodlchain.Wallet.WalletFile

namespace Hodlchain.Wallet

open Bytes

/-! ### What a blob holds -/

section

variable (c : Cipher)

/-- The key of a context is the passphrase's, for the salt and the parameters it keeps. -/
def UnlockContext.UnlockedBy (ctx : UnlockContext) (passphrase : String) : Prop :=
  c.deriveKey ctx.kdfParams (utf8 passphrase) ctx.salt = .ok ctx.key

namespace EncryptedMnemonic

/-- The blob names the salt and the parameters of a context. -/
structure SaltedAs (blob : EncryptedMnemonic) (ctx : UnlockContext) : Prop where
  salt : c.base64Decode blob.saltB64 = some ctx.salt.toList
  kdfParams : blob.kdfParams = ctx.kdfParams

/-- The ciphertext is one of a mnemonic, under a key. -/
def SealedUnder (blob : EncryptedMnemonic) (key : ByteArr 32) (mnemonic : String) : Prop :=
  ∃ (nonce : ByteArr 24) (ct pt : Bytes), c.base64Decode blob.nonceB64 = some nonce.toList ∧
    c.base64Decode blob.ciphertextB64 = some ct ∧ c.decrypt key nonce ct = some pt ∧
      utf8Decode pt = some mnemonic

/-- A mnemonic kept under a context. -/
structure Holds (blob : EncryptedMnemonic) (ctx : UnlockContext) (mnemonic : String) : Prop where
  kdf : blob.kdf = "argon2id"
  salted : blob.SaltedAs c ctx
  isSealed : blob.SealedUnder c ctx.key mnemonic

end EncryptedMnemonic

end

section

variable {c : Cipher} {blob : EncryptedMnemonic} {ctx : UnlockContext}
    {passphrase mnemonic : String}

theorem decryptWithKey_ok_iff {key : ByteArr 32} {nonceBytes ct : Bytes} :
    decryptWithKey c key nonceBytes ct = .ok mnemonic ↔
      ∃ (nonce : ByteArr 24) (pt : Bytes), nonceBytes = nonce.toList ∧
        c.decrypt key nonce ct = some pt ∧
        utf8Decode pt = some mnemonic := by
  simp only [decryptWithKey, bind_ok_iff, okOr_ok_iff, toByteArr_eq_some]
  constructor
  · rintro ⟨nonce, hnonce, pt, hpt, hm⟩
    exact ⟨nonce, pt, hnonce, hpt, hm⟩
  · rintro ⟨nonce, pt, hnonce, hpt, hm⟩
    exact ⟨nonce, hnonce, pt, hpt, hm⟩

theorem UnlockContext.decrypt_ok_iff :
    ctx.decrypt c blob = .ok mnemonic ↔ blob.Holds c ctx mnemonic := by
  simp only [UnlockContext.decrypt, bind_ok_iff, ensure_ok_iff, okOr_ok_iff, decryptWithKey_ok_iff]
  constructor
  · rintro ⟨_, hkdf, saltBytes, hsalt, _, rfl, _, hparams, nonceBytes, hnonce, ct, hct,
      nonce, pt, rfl, hpt, hm⟩
    exact ⟨hkdf, ⟨hsalt, hparams⟩, nonce, ct, pt, hnonce, hct, hpt, hm⟩
  · rintro ⟨hkdf, ⟨hsalt, hparams⟩, nonce, ct, pt, hnonce, hct, hpt, hm⟩
    exact ⟨(), hkdf, _, hsalt, (), rfl, (), hparams, _, hnonce, ct, hct, nonce, pt, rfl, hpt, hm⟩

/-- A passphrase opens what its context opens. -/
theorem decrypt_ok_iff :
    decrypt c blob passphrase = .ok (mnemonic, ctx) ↔
      ctx.UnlockedBy c passphrase ∧ blob.Holds c ctx mnemonic := by
  simp only [decrypt, bind_ok_iff, ensure_ok_iff, okOr_ok_iff, mapErr_ok_iff, pure_ok_iff,
    toByteArr_eq_some, decryptWithKey_ok_iff, Prod.mk.injEq]
  constructor
  · rintro ⟨_, hkdf, _, hsalt, salt, rfl, _, hnonce, ct, hct, key, hkey, m,
      ⟨nonce, pt, rfl, hpt, hm⟩, rfl, rfl⟩
    exact ⟨hkey, hkdf, ⟨hsalt, rfl⟩, nonce, ct, pt, hnonce, hct, hpt, hm⟩
  · rintro ⟨hkey, hkdf, ⟨hsalt, hparams⟩, nonce, ct, pt, hnonce, hct, hpt, hm⟩
    obtain ⟨key, salt, params⟩ := ctx
    obtain rfl : blob.kdfParams = params := hparams
    exact ⟨(), hkdf, _, hsalt, salt, rfl, _, hnonce, ct, hct, key, hkey, mnemonic,
      ⟨nonce, pt, rfl, hpt, hm⟩, rfl, rfl⟩

end

/-! ### The two loads -/

section

variable {c : Cipher} {file : Option File} {ctx : UnlockContext} {passphrase : String}
    {wf : WalletFile}

/-- One passphrase gives no key twice. -/
def Cipher.KeysApart (c : Cipher) : Prop :=
  ∀ {params params' passphrase salt salt' key}, c.deriveKey params passphrase salt = .ok key →
    c.deriveKey params' passphrase salt' = .ok key → params = params' ∧ salt = salt'

/-- An encrypted wallet that was not encrypted again since the context was made: it has the salt and
the parameters of the context, or else no key but the context's opens it. -/
def KeptFor (c : Cipher) (ctx : UnlockContext) (file : Option File) : Prop :=
  ∀ disk, file = some (.wallet disk) → ∃ blob, disk.encryptedMnemonic = some blob ∧
    (blob.SaltedAs c ctx ∨ ∀ key mnemonic, blob.SealedUnder c key mnemonic → key = ctx.key)

theorem loadWithContext_ok_iff :
    WalletFile.loadWithContext c file ctx = .ok wf ↔
      ∃ disk blob mnemonic, file = some (.wallet disk) ∧ disk.encryptedMnemonic = some blob ∧
        blob.Holds c ctx mnemonic ∧ wf = disk.wallet mnemonic (some ctx) := by
  simp only [WalletFile.loadWithContext, bind_ok_iff, okOr_ok_iff, mapErr_ok_iff, pure_ok_iff,
    readDisk_ok_iff, UnlockContext.decrypt_ok_iff]
  constructor
  · rintro ⟨disk, hfile, blob, hblob, mnemonic, hholds, rfl⟩
    exact ⟨disk, blob, mnemonic, hfile, hblob, hholds, rfl⟩
  · rintro ⟨disk, blob, mnemonic, hfile, hblob, hholds, rfl⟩
    exact ⟨disk, hfile, blob, hblob, mnemonic, hholds, rfl⟩

/-- The passphrase opens an encrypted file when its version says so. -/
theorem loadUnlocked_ok_iff {disk : DiskLoad} {blob : EncryptedMnemonic}
    (hblob : disk.encryptedMnemonic = some blob) :
    WalletFile.loadUnlocked c (some (.wallet disk)) (some passphrase) = .ok wf ↔
      disk.version = some 2 ∧ ∃ ctx mnemonic, UnlockContext.UnlockedBy c ctx passphrase ∧
        blob.Holds c ctx mnemonic ∧ wf = disk.wallet mnemonic (some ctx) := by
  have hread : WalletFile.loadUnlocked c (some (.wallet disk)) (some passphrase)
      = WalletFile.fromDisk c disk (some passphrase) := rfl
  rw [hread, WalletFile.fromDisk]
  simp only [hblob, bind_ok_iff, ensure_ok_iff, okOr_ok_iff, mapErr_ok_iff, pure_ok_iff,
    Option.some.injEq]
  constructor
  · rintro ⟨_, hversion, _, rfl, ⟨mnemonic, ctx⟩, hdec, rfl⟩
    obtain ⟨hkey, hholds⟩ := decrypt_ok_iff.mp hdec
    exact ⟨hversion, ctx, mnemonic, hkey, hholds, rfl⟩
  · rintro ⟨hversion, ctx, mnemonic, hkey, hholds, rfl⟩
    exact ⟨(), hversion, passphrase, rfl, ⟨mnemonic, ctx⟩, decrypt_ok_iff.mpr ⟨hkey, hholds⟩, rfl⟩

/-- The context that a passphrase opens a file under is the one that was kept. -/
theorem UnlockContext.UnlockedBy.unique {blob : EncryptedMnemonic} {ctx' : UnlockContext}
    {mnemonic : String}
    (hkdf : c.KeysApart) (hctx : ctx.UnlockedBy c passphrase) (hctx' : ctx'.UnlockedBy c passphrase)
    (hblob : blob.SaltedAs c ctx ∨ ∀ key m, blob.SealedUnder c key m → key = ctx.key)
    (hholds : blob.Holds c ctx' mnemonic) : ctx' = ctx := by
  have hsame : ctx'.kdfParams = ctx.kdfParams ∧ ctx'.salt = ctx.salt := by
    rcases hblob with hsalted | hkey
    · have hsalt := Option.some.inj (hholds.salted.salt.symm.trans hsalted.salt)
      exact ⟨hholds.salted.kdfParams.symm.trans hsalted.kdfParams, Vector.toList_inj.mp hsalt⟩
    · rw [UnlockedBy, hkey _ _ hholds.isSealed] at hctx'
      exact hkdf hctx' hctx
  have hkeys : ctx'.key = ctx.key := by
    rw [UnlockedBy, hsame.1, hsame.2] at hctx'
    exact Except.ok.inj (hctx'.symm.trans hctx)
  obtain ⟨key, salt, params⟩ := ctx
  obtain ⟨key', salt', params'⟩ := ctx'
  obtain ⟨rfl, rfl⟩ := hsame
  obtain rfl := hkeys
  rfl

/-- **Where the two loads agree**: on every file but one of another version whose blob the context
opens. -/
theorem loads_agree_iff (hkdf : c.KeysApart) (hctx : ctx.UnlockedBy c passphrase)
    (hfile : KeptFor c ctx file) :
    (∀ wf, WalletFile.loadWithContext c file ctx = .ok wf ↔
        WalletFile.loadUnlocked c file (some passphrase) = .ok wf) ↔
      ∀ disk blob mnemonic, file = some (.wallet disk) → disk.encryptedMnemonic = some blob →
        blob.Holds c ctx mnemonic → disk.version = some 2 := by
  constructor
  · rintro hagree disk blob mnemonic rfl hblob hholds
    have hload := (hagree _).mp
      (loadWithContext_ok_iff.mpr ⟨disk, blob, mnemonic, rfl, hblob, hholds, rfl⟩)
    exact ((loadUnlocked_ok_iff hblob).mp hload).1
  · intro hversion wf
    constructor
    · intro hload
      obtain ⟨disk, blob, mnemonic, rfl, hblob, hholds, rfl⟩ := loadWithContext_ok_iff.mp hload
      exact (loadUnlocked_ok_iff hblob).mpr
        ⟨hversion disk blob mnemonic rfl hblob hholds, ctx, mnemonic, hctx, hholds, rfl⟩
    · intro hload
      have hread := hload
      simp only [WalletFile.loadUnlocked, bind_ok_iff, readDisk_ok_iff] at hread
      obtain ⟨disk, rfl, -⟩ := hread
      obtain ⟨blob, hblob, hkept⟩ := hfile disk rfl
      obtain ⟨-, ctx', mnemonic, hctx', hholds, rfl⟩ := (loadUnlocked_ok_iff hblob).mp hload
      obtain rfl := UnlockContext.UnlockedBy.unique hkdf hctx hctx' hkept hholds
      exact loadWithContext_ok_iff.mpr ⟨disk, blob, mnemonic, rfl, hblob, hholds, rfl⟩

end

/-! ### Calls that do not return -/

/-- `XNonce::from_slice` met a nonce that is not 24 bytes. -/
def Panics {α : Type} (r : Except DecryptError α) : Prop := ∃ n, r = .error (.noncePanic n)

section

variable (c : Cipher)

namespace EncryptedMnemonic

/-- The nonce is base64, but not of 24 bytes. -/
def BadNonce (blob : EncryptedMnemonic) : Prop :=
  ∃ nonce, c.base64Decode blob.nonceB64 = some nonce ∧ nonce.length ≠ 24

/-- The passphrase gives a key for what the blob names: 16 bytes of salt, and parameters Argon2
takes. -/
def GivesKey (blob : EncryptedMnemonic) (passphrase : String) : Prop :=
  ∃ (salt : ByteArr 16) (key : ByteArr 32), c.base64Decode blob.saltB64 = some salt.toList ∧
    c.deriveKey blob.kdfParams (utf8 passphrase) salt = .ok key

/-- Tag and ciphertext pass the checks they get. -/
def WellTagged (blob : EncryptedMnemonic) : Prop :=
  blob.kdf = "argon2id" ∧ ∃ ct, c.base64Decode blob.ciphertextB64 = some ct

end EncryptedMnemonic

end

section

variable {c : Cipher} {blob : EncryptedMnemonic} {ctx : UnlockContext} {passphrase : String}

theorem decryptWithKey_panic_iff {key : ByteArr 32} {nonceBytes ct : Bytes} {n : Nat} :
    decryptWithKey c key nonceBytes ct = .error (.noncePanic n) ↔
      nonceBytes.length ≠ 24 ∧ nonceBytes.length = n := by
  by_cases hlen : nonceBytes.length = 24
  · simp [decryptWithKey, toByteArr, hlen, bind_error_iff, okOr_error_iff]
  · simp [decryptWithKey, toByteArr, hlen, bind_error_iff, okOr_error_iff]

theorem UnlockContext.decrypt_panics_iff :
    Panics (ctx.decrypt c blob) ↔ blob.BadNonce c ∧ blob.WellTagged c ∧ blob.SaltedAs c ctx := by
  simp only [Panics, UnlockContext.decrypt, bind_error_iff, ensure_error_iff,
    okOr_error_iff, okOr_ok_iff,
    ensure_ok_iff, decryptWithKey_panic_iff, reduceCtorEq, and_false, false_or]
  constructor
  · rintro ⟨n, _, hkdf, _, hsalt, _, rfl, _, hparams, nonce, hnonce, ct, hct, hlen, -⟩
    exact ⟨⟨nonce, hnonce, hlen⟩, ⟨hkdf, ct, hct⟩, hsalt, hparams⟩
  · rintro ⟨⟨nonce, hnonce, hlen⟩, ⟨hkdf, ct, hct⟩, hsalt, hparams⟩
    exact ⟨nonce.length, (), hkdf, _, hsalt, (), rfl, (), hparams, nonce, hnonce, ct,
      hct, hlen, rfl⟩

/-- A load under a context panics where its decryption does. -/
theorem loadWithContext_noncePanic_iff {file : Option File} {n : Nat} :
    WalletFile.loadWithContext c file ctx = .error (.decrypt (.noncePanic n)) ↔
      ∃ disk blob, file = some (.wallet disk) ∧ disk.encryptedMnemonic = some blob ∧
        ctx.decrypt c blob = .error (.noncePanic n) := by
  simp only [WalletFile.loadWithContext, bind_error_iff, okOr_error_iff, mapErr_error_iff,
    readDisk_ok_iff,
    okOr_ok_iff, reduceCtorEq, and_false, exists_false, or_false, false_or, pure, Except.pure,
    LoadError.decrypt.injEq, exists_eq_right]
  constructor
  · rintro (hread | ⟨disk, hfile, blob, hblob, hdec⟩)
    · rcases file with _ | (_ | _) <;> cases hread
    · exact ⟨disk, blob, hfile, hblob, hdec⟩
  · rintro ⟨disk, blob, hfile, hblob, hdec⟩
    exact .inr ⟨disk, hfile, blob, hblob, hdec⟩

theorem decrypt_panics_iff :
    Panics (decrypt c blob passphrase) ↔
      blob.BadNonce c ∧ blob.WellTagged c ∧ blob.GivesKey c passphrase := by
  simp only [Panics, decrypt, bind_error_iff, ensure_error_iff, okOr_error_iff, okOr_ok_iff,
    ensure_ok_iff,
    mapErr_error_iff, mapErr_ok_iff, toByteArr_eq_some, decryptWithKey_panic_iff,
      reduceCtorEq, and_false, false_or, exists_false, or_false, pure, Except.pure]
  constructor
  · rintro ⟨n, _, hkdf, _, hsalt, salt, rfl, nonce, hnonce, ct, hct, key, hkey, hlen, -⟩
    exact ⟨⟨nonce, hnonce, hlen⟩, ⟨hkdf, ct, hct⟩, salt, key, hsalt, hkey⟩
  · rintro ⟨⟨nonce, hnonce, hlen⟩, ⟨hkdf, ct, hct⟩, salt, key, hsalt, hkey⟩
    exact ⟨nonce.length, (), hkdf, _, hsalt, salt, rfl, nonce, hnonce, ct, hct, key,
      hkey, hlen, rfl⟩

/-- **When both decryptions return**: the nonce has its length, or a check before it fails on both
paths. -/
theorem decrypt_returns_iff (c : Cipher) (blob : EncryptedMnemonic) (passphrase : String)
    (ctx : UnlockContext) :
    (¬ Panics (decrypt c blob passphrase) ∧ ¬ Panics (ctx.decrypt c blob)) ↔
      (blob.BadNonce c → blob.WellTagged c → ¬ blob.GivesKey c passphrase ∧
        ¬ blob.SaltedAs c ctx) := by
  rw [decrypt_panics_iff, UnlockContext.decrypt_panics_iff]
  tauto

end

/-! ### A file to run on -/

/-- A key that spells what it is derived from. -/
def Cipher.saltedKey (params : KdfParams) (passphrase : Bytes) (salt : ByteArr 16) : ByteArr 32 :=
  ⟨(be32 params.mCost ++ be32 params.tCost ++ be32 params.pCost ++ salt.toList
    ++ beBytes 4 (beValue passphrase)).toArray, by simp⟩

/-- The cipher to evaluate on, with such keys. -/
def Cipher.salted : Cipher :=
  { Cipher.sample with
    deriveKey := fun params passphrase salt => .ok (saltedKey params passphrase salt) }

theorem Cipher.Lawful.withKeys {c : Cipher} (h : c.Lawful)
    (keys : KdfParams → Bytes → ByteArr 16 → Except KdfError (ByteArr 32)) :
    { c with deriveKey := keys }.Lawful :=
  ⟨h.base64, h.open_seal⟩

theorem Cipher.salted_keysApart : Cipher.salted.KeysApart := by
  rintro ⟨m, t, p⟩ ⟨m', t', p'⟩ passphrase salt salt' key h h'
  have hkeys := Except.ok.inj (h.trans h'.symm)
  have hbytes := congrArg Vector.toList hkeys
  simp only [saltedKey, Vector.toList_mk, List.append_assoc] at hbytes
  obtain ⟨hm, hbytes⟩ := List.append_inj hbytes (by simp)
  obtain ⟨ht, hbytes⟩ := List.append_inj hbytes (by simp)
  obtain ⟨hp, hbytes⟩ := List.append_inj hbytes (by simp)
  obtain ⟨hsalt, -⟩ := List.append_inj hbytes (by simp)
  obtain rfl := be32_inj.mp hm
  obtain rfl := be32_inj.mp ht
  obtain rfl := be32_inj.mp hp
  exact ⟨rfl, Vector.toList_inj.mp hsalt⟩

/-- The context of `open sesame`, for one salt. -/
def sesame : UnlockContext :=
  ⟨Cipher.saltedKey .default (utf8 "open sesame") (ByteArr.ofNat 16 7),
   ByteArr.ofNat 16 7, .default⟩

def sesameBlob : EncryptedMnemonic :=
  { kdf := "argon2id"
    kdfParams := .default
    saltB64 := hexEncode sesame.salt.toList
    nonceB64 := hexEncode (ByteArr.ofNat 24 0).toList
    ciphertextB64 :=
      hexEncode (sesame.key.toList ++ ((ByteArr.ofNat 24 0).toList ++ utf8 "alice")) }

/-- A wallet kept under that context, with a version written on it. -/
def sesameFile (version : UInt32) : DiskLoad :=
  { version := some version
    network := .regtest
    mnemonic := none
    encryptedMnemonic := some sesameBlob
    sequencerUrl := "http://127.0.0.1:8081"
    nodeUrl := none
    esploraUrl := "http://127.0.0.1:8080"
    nextMintIndex := 0
    mints := []
    verifiedHead := none
    transactions := [] }

theorem sesameBlob_holds : sesameBlob.Holds Cipher.salted sesame "alice" := by
  have hwritten :
    reencrypt Cipher.salted "alice" sesame (ByteArr.ofNat 24 0) = .ok sesameBlob := rfl
  exact UnlockContext.decrypt_ok_iff.mp (decrypt_reencrypt
    (Cipher.sample_lawful.withKeys _) hwritten)

theorem sesameFile_keptFor (version : UInt32) :
    KeptFor Cipher.salted sesame (some (.wallet (sesameFile version))) := by
  rintro disk hdisk
  obtain rfl := File.wallet.inj (Option.some.inj hdisk)
  exact ⟨sesameBlob, rfl, .inl sesameBlob_holds.salted⟩

theorem sesame_unlockedBy : sesame.UnlockedBy Cipher.salted "open sesame" := rfl

/-- A version 2 file is opened alike. -/
theorem loads_agree_sesame :
    WalletFile.loadUnlocked Cipher.salted (some (.wallet (sesameFile 2))) (some "open sesame")
      = .ok ((sesameFile 2).wallet "alice" (some sesame)) := by
  refine ((loads_agree_iff Cipher.salted_keysApart sesame_unlockedBy
    (sesameFile_keptFor 2)).mpr ?_ _).mp
    (loadWithContext_ok_iff.mpr ⟨_, _, _, rfl, rfl, sesameBlob_holds, rfl⟩)
  intro disk _ _ hdisk _ _
  obtain rfl := File.wallet.inj (Option.some.inj hdisk)
  rfl

/-- **A version the passphrase is refused for.**  The context opens the file all the same, and what
is saved after that says version 2. -/
theorem loads_disagree_of_version :
    KeptFor Cipher.salted sesame (some (.wallet (sesameFile 3))) ∧
      sesame.UnlockedBy Cipher.salted "open sesame" ∧
      WalletFile.loadUnlocked Cipher.salted (some (.wallet (sesameFile 3))) (some "open sesame")
        = .error (.version (some 3)) ∧
      ∃ wf disk,
        WalletFile.loadWithContext Cipher.salted (some (.wallet (sesameFile 3))) sesame = .ok wf ∧
        wf.toDisk Cipher.salted (ByteArr.ofNat 24 1) = .ok disk ∧ disk.version = some 2 :=
  ⟨sesameFile_keptFor 3, sesame_unlockedBy, rfl, (sesameFile 3).wallet "alice" (some sesame), _,
    loadWithContext_ok_iff.mpr ⟨_, _, _, rfl, rfl, sesameBlob_holds, rfl⟩, rfl, rfl⟩

/-- The same blob without its nonce. -/
def cutBlob : EncryptedMnemonic := { sesameBlob with nonceB64 := "" }

theorem cutBlob_badNonce : cutBlob.BadNonce Cipher.salted := ⟨[], rfl, by simp⟩

theorem cutBlob_wellTagged : cutBlob.WellTagged Cipher.salted := by
  obtain ⟨hkdf, -, -, ct, -, -, hct, -, -⟩ := sesameBlob_holds
  exact ⟨hkdf, ct, hct⟩

theorem cutBlob_saltedAs : cutBlob.SaltedAs Cipher.salted sesame :=
  ⟨sesameBlob_holds.salted.salt, sesameBlob_holds.salted.kdfParams⟩

/-- **A nonce of no bytes**: neither call returns. -/
theorem decrypt_panics_of_empty_nonce :
    Panics (decrypt Cipher.salted cutBlob "open sesame") ∧
      Panics (sesame.decrypt Cipher.salted cutBlob) := by
  have hkey : cutBlob.GivesKey Cipher.salted "open sesame" :=
    ⟨sesame.salt, sesame.key, cutBlob_saltedAs.salt, sesame_unlockedBy⟩
  exact ⟨decrypt_panics_iff.mpr ⟨cutBlob_badNonce, cutBlob_wellTagged, hkey⟩,
    UnlockContext.decrypt_panics_iff.mpr ⟨cutBlob_badNonce, cutBlob_wellTagged, cutBlob_saltedAs⟩⟩

end Hodlchain.Wallet
