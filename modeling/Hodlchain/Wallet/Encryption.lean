/-
A mnemonic kept under a passphrase.

The passphrase and a salt give a key, the key encrypts the mnemonic, and the file
holds the salt, the nonce and the ciphertext.  An `UnlockContext` is the key with
what it was derived from: it opens the file again, and writes the next version of
it, without the passphrase.
-/
import Hodlchain.Lib.Result
import Hodlchain.Core.Primitives

namespace Hodlchain.Wallet

open Bytes

structure KdfParams where
  /-- Memory cost, in KiB. -/
  mCost : UInt32
  tCost : UInt32
  pCost : UInt32
deriving DecidableEq, Repr

/-- `KdfParams::default`. -/
def KdfParams.default : KdfParams := ⟨19456, 2, 1⟩

/-- The blob in a wallet file; binary fields are base64. -/
structure EncryptedMnemonic where
  kdf : String
  kdfParams : KdfParams
  saltB64 : String
  nonceB64 : String
  ciphertextB64 : String
deriving DecidableEq, Repr

structure UnlockContext where
  key : ByteArr 32
  salt : ByteArr 16
  kdfParams : KdfParams
deriving DecidableEq, Repr

inductive KdfError where
  | invalidParams
  | derivation
deriving DecidableEq, Repr

/-- The argon2, chacha20poly1305 and base64 crates, as they are called. -/
structure Cipher where
  /-- Argon2id over the passphrase and the salt. -/
  deriveKey : KdfParams → Bytes → ByteArr 16 → Except KdfError (ByteArr 32)
  encrypt : ByteArr 32 → ByteArr 24 → Bytes → Option Bytes
  decrypt : ByteArr 32 → ByteArr 24 → Bytes → Option Bytes
  base64Encode : Bytes → String
  base64Decode : String → Option Bytes

/-- What the callers rely on: what was written is read back. -/
structure Cipher.Lawful (c : Cipher) : Prop where
  base64 : ∀ b, c.base64Decode (c.base64Encode b) = some b
  open_seal : ∀ {key nonce m ct}, c.encrypt key nonce m = some ct → c.decrypt key nonce ct = some m

/-- A ciphertext opens under one key only.  No cipher has this law: it stands for that nobody has
come by a ciphertext that opens under two. -/
def Cipher.OneKey (c : Cipher) : Prop :=
  ∀ {key key' nonce ct m m'}, c.decrypt key nonce ct = some m → c.decrypt key' nonce ct = some m' →
    key = key'

inductive EncryptError where
  | emptyPassphrase
  | kdf (cause : KdfError)
  | aead
deriving DecidableEq, Repr

inductive DecryptError where
  | unsupportedKdf (kdf : String)
  | saltB64
  | saltLength (length : Nat)
  | saltChanged
  | kdfParamsChanged
  | nonceB64
  | ciphertextB64
  | kdf (cause : KdfError)
  | aead
  | notUtf8
  /-- `XNonce::from_slice` on a slice that is not 24 bytes: a panic, not an error. -/
  | noncePanic (length : Nat)
deriving DecidableEq, Repr

section

variable (c : Cipher)

/-- `encrypt_with_key`, with the nonce it draws. -/
def encryptWithKey (plaintext : String) (key : ByteArr 32) (nonce : ByteArr 24) :
    Except EncryptError (String × String) := do
  let ct ← okOr (c.encrypt key nonce (utf8 plaintext)) .aead
  pure (c.base64Encode nonce.toList, c.base64Encode ct)

/-- `reencrypt`: a new nonce, the same salt and parameters. -/
def reencrypt (mnemonic : String) (ctx : UnlockContext) (nonce : ByteArr 24) :
    Except EncryptError EncryptedMnemonic := do
  let (nonceB64, ciphertextB64) ← encryptWithKey c mnemonic ctx.key nonce
  pure ⟨"argon2id", ctx.kdfParams, c.base64Encode ctx.salt.toList, nonceB64, ciphertextB64⟩

/-- `encrypt_new`, with the salt and the nonce it draws. -/
def encryptNew (mnemonic passphrase : String) (salt : ByteArr 16) (nonce : ByteArr 24) :
    Except EncryptError (EncryptedMnemonic × UnlockContext) := do
  ensure (passphrase ≠ "") .emptyPassphrase
  let params := KdfParams.default
  let key ← mapErr .kdf (c.deriveKey params (utf8 passphrase) salt)
  let (nonceB64, ciphertextB64) ← encryptWithKey c mnemonic key nonce
  pure (⟨"argon2id", params, c.base64Encode salt.toList, nonceB64, ciphertextB64⟩,
    ⟨key, salt, params⟩)

/-- A slice as an array of `n` bytes. -/
def toByteArr (n : Nat) (b : Bytes) : Option (ByteArr n) :=
  if h : b.length = n then some ⟨b.toArray, by simpa using h⟩ else none

/-- `cipher.decrypt`, and the text it gives. -/
def decryptWithKey (key : ByteArr 32) (nonceBytes ct : Bytes) : Except DecryptError String := do
  let nonce ← okOr (toByteArr 24 nonceBytes) (.noncePanic nonceBytes.length)
  let pt ← okOr (c.decrypt key nonce ct) .aead
  okOr (utf8Decode pt) .notUtf8

/-- `UnlockContext::decrypt`. -/
def UnlockContext.decrypt (ctx : UnlockContext) (blob : EncryptedMnemonic) :
    Except DecryptError String := do
  ensure (blob.kdf = "argon2id") (.unsupportedKdf blob.kdf)
  let saltBytes ← okOr (c.base64Decode blob.saltB64) .saltB64
  ensure (saltBytes = ctx.salt.toList) .saltChanged
  ensure (blob.kdfParams = ctx.kdfParams) .kdfParamsChanged
  let nonceBytes ← okOr (c.base64Decode blob.nonceB64) .nonceB64
  let ct ← okOr (c.base64Decode blob.ciphertextB64) .ciphertextB64
  decryptWithKey c ctx.key nonceBytes ct

/-- `decrypt`. -/
def decrypt (blob : EncryptedMnemonic) (passphrase : String) :
    Except DecryptError (String × UnlockContext) := do
  ensure (blob.kdf = "argon2id") (.unsupportedKdf blob.kdf)
  let saltBytes ← okOr (c.base64Decode blob.saltB64) .saltB64
  let salt ← okOr (toByteArr 16 saltBytes) (.saltLength saltBytes.length)
  let nonceBytes ← okOr (c.base64Decode blob.nonceB64) .nonceB64
  let ct ← okOr (c.base64Decode blob.ciphertextB64) .ciphertextB64
  let key ← mapErr .kdf (c.deriveKey blob.kdfParams (utf8 passphrase) salt)
  let mnemonic ← decryptWithKey c key nonceBytes ct
  pure (mnemonic, ⟨key, salt, blob.kdfParams⟩)

end

/-! ### Opening what was written -/

@[simp] theorem toByteArr_toList {n : Nat} (a : ByteArr n) : toByteArr n a.toList = some a := by
  have hlen : a.toList.length = n := by simp
  rw [toByteArr, dif_pos hlen, Option.some.injEq]
  exact Vector.toList_inj.mp (by simp [Vector.toList])

theorem toByteArr_eq_some {n : Nat} {b : Bytes} {a : ByteArr n} :
    toByteArr n b = some a ↔ b = a.toList := by
  refine ⟨fun h => ?_, fun h => h ▸ toByteArr_toList a⟩
  by_cases hlen : b.length = n
  · rw [toByteArr, dif_pos hlen, Option.some.injEq] at h
    subst h
    simp [Vector.toList]
  · simp [toByteArr, hlen] at h

variable {c : Cipher}

/-- **What a context writes, it opens.** -/
theorem decrypt_reencrypt (hc : c.Lawful) {mnemonic : String} {ctx : UnlockContext}
    {nonce : ByteArr 24} {blob : EncryptedMnemonic}
    (h : reencrypt c mnemonic ctx nonce = .ok blob) : ctx.decrypt c blob = .ok mnemonic := by
  simp only [reencrypt, encryptWithKey, bind_ok_iff, okOr_ok_iff, pure_ok_iff] at h
  obtain ⟨_, ⟨ct, hct, rfl⟩, rfl⟩ := h
  simp only [UnlockContext.decrypt, decryptWithKey, bind_ok_iff, ensure_ok_iff,
    okOr_ok_iff, hc.base64]
  exact ⟨(), trivial, _, rfl, (), rfl, (), trivial, _, rfl, _, rfl, nonce,
    toByteArr_toList nonce, _, hc.open_seal hct, utf8Decode_utf8 mnemonic⟩

/-- And by the passphrase that the key was derived from. -/
theorem decrypt_reencrypt_of_passphrase (hc : c.Lawful) {mnemonic passphrase : String}
    {ctx : UnlockContext} {nonce : ByteArr 24} {blob : EncryptedMnemonic}
    (hkey : c.deriveKey ctx.kdfParams (utf8 passphrase) ctx.salt = .ok ctx.key)
    (h : reencrypt c mnemonic ctx nonce = .ok blob) :
    decrypt c blob passphrase = .ok (mnemonic, ctx) := by
  simp only [reencrypt, encryptWithKey, bind_ok_iff, okOr_ok_iff, pure_ok_iff] at h
  obtain ⟨_, ⟨ct, hct, rfl⟩, rfl⟩ := h
  simp only [decrypt, decryptWithKey, bind_ok_iff, ensure_ok_iff, okOr_ok_iff,
    mapErr_ok_iff, hc.base64]
  exact ⟨(), trivial, _, rfl, ctx.salt, toByteArr_toList ctx.salt, _, rfl, _, rfl, ctx.key,
    hkey, mnemonic,
    ⟨nonce, toByteArr_toList nonce, _, hc.open_seal hct, utf8Decode_utf8 mnemonic⟩, rfl⟩

/-- A passphrase that opens a blob gives a context that opens it. -/
theorem decrypt_of_passphrase {blob : EncryptedMnemonic} {passphrase mnemonic : String}
    {ctx : UnlockContext} (h : decrypt c blob passphrase = .ok (mnemonic, ctx)) :
    ctx.decrypt c blob = .ok mnemonic := by
  simp only [decrypt, bind_ok_iff, ensure_ok_iff, okOr_ok_iff, mapErr_ok_iff, pure_ok_iff,
    Prod.mk.injEq, toByteArr_eq_some] at h
  obtain ⟨_, hkdf, saltBytes, hsalt, salt, rfl, nonceBytes, hnonce, ct, hct, key, -, m, hm,
    rfl, rfl⟩ := h
  simp only [UnlockContext.decrypt, bind_ok_iff, ensure_ok_iff, okOr_ok_iff]
  exact ⟨(), hkdf, _, hsalt, (), rfl, (), trivial, _, hnonce, _, hct, hm⟩

/-- One blob opens under one context, to one mnemonic. -/
theorem UnlockContext.decrypt_unique (hone : c.OneKey) {blob : EncryptedMnemonic}
    {ctx ctx' : UnlockContext} {m m' : String} (h : ctx.decrypt c blob = .ok m)
    (h' : ctx'.decrypt c blob = .ok m') : ctx = ctx' ∧ m = m' := by
  simp only [UnlockContext.decrypt, decryptWithKey, bind_ok_iff, ensure_ok_iff, okOr_ok_iff] at h h'
  obtain ⟨_, -, salt, hsalt, _, hsaltEq, _, hparams, nonceB, hnonceB, ct, hct, nonce,
    hnonce, pt, hpt, hm⟩ := h
  obtain ⟨_, -, salt', hsalt', _, hsaltEq', _, hparams', nonceB', hnonceB', ct', hct',
    nonce', hnonce', pt', hpt', hm'⟩ := h'
  obtain rfl := Option.some.inj (hsalt.symm.trans hsalt')
  obtain rfl := Option.some.inj (hnonceB.symm.trans hnonceB')
  obtain rfl := Option.some.inj (hct.symm.trans hct')
  obtain rfl := Option.some.inj (hnonce.symm.trans hnonce')
  have hkey := hone hpt hpt'
  have hsaltCtx : ctx.salt = ctx'.salt := Vector.toList_inj.mp (hsaltEq.symm.trans hsaltEq')
  have hparamsCtx : ctx.kdfParams = ctx'.kdfParams := hparams.symm.trans hparams'
  obtain ⟨key, saltArr, params⟩ := ctx
  obtain ⟨key', saltArr', params'⟩ := ctx'
  subst hkey hsaltCtx hparamsCtx
  obtain rfl := Option.some.inj (hpt.symm.trans hpt')
  exact ⟨rfl, Option.some.inj (hm.symm.trans hm')⟩

/-- An instance to evaluate on: a ciphertext is the key, the nonce and the text. -/
def Cipher.sample : Cipher where
  deriveKey _ passphrase salt :=
    .ok (ByteArr.ofNat 32 (beValue passphrase * 2 ^ 128 + beValue salt.toList))
  encrypt key nonce m := some (key.toList ++ (nonce.toList ++ m))
  decrypt key nonce ct :=
    if ct.take 32 = key.toList ∧ (ct.drop 32).take 24 = nonce.toList
    then some (ct.drop 56) else none
  base64Encode := hexEncode
  base64Decode := hexDecode

theorem Cipher.sample_lawful : Cipher.sample.Lawful where
  base64 := hexDecode_hexEncode
  open_seal := by
    intro key nonce m ct h
    obtain rfl := Option.some.inj h
    simp [Cipher.sample, List.drop_append]

theorem Cipher.sample_oneKey : Cipher.sample.OneKey := by
  intro key key' nonce ct m m' h h'
  simp only [Cipher.sample, Option.ite_none_right_eq_some] at h h'
  exact Vector.toList_inj.mp (h.1.1.symm.trans h'.1.1)

end Hodlchain.Wallet
