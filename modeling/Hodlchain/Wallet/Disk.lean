/-
A wallet file as it stands on disk.

There are two shapes to save, one for a plain and one for an encrypted wallet, and one to
load, each with a field list of its own.  A document that was saved is read as the wallet
it was saved from: no field list has forgotten a field, or calls it by another name.
-/
import Hodlchain.Wallet.Document

namespace Hodlchain.Wallet

open Bytes Json

/-- The fields of a `DiskSaveV1`. -/
def WalletFile.fieldsV1 (wf : WalletFile) : List (String × Option Json) :=
  [("network", some wf.network.serialize), ("mnemonic", some (.str wf.mnemonic)),
    ("sequencer_url", some (.str wf.sequencerUrl)), ("node_url", wf.nodeUrl.map .str),
    ("esplora_url", some (.str wf.esploraUrl)), ("next_mint_index", some (u32 wf.nextMintIndex)),
    ("mints", some (list MintRecord.serialize wf.mints)),
    ("verified_head", wf.verifiedHead.map VerifiedHead.serialize),
    ("transactions", some (list TxRecord.serialize wf.transactions))]

/-- The fields of a `DiskSaveV2`. -/
def WalletFile.fieldsV2 (wf : WalletFile) (blob : EncryptedMnemonic) :
    List (String × Option Json) :=
  [("version", some (u32 2)), ("network", some wf.network.serialize),
    ("encrypted_mnemonic", some blob.serialize), ("sequencer_url", some (.str wf.sequencerUrl)),
    ("node_url", wf.nodeUrl.map .str), ("esplora_url", some (.str wf.esploraUrl)),
    ("next_mint_index", some (u32 wf.nextMintIndex)),
    ("mints", some (list MintRecord.serialize wf.mints)),
    ("verified_head", wf.verifiedHead.map VerifiedHead.serialize),
    ("transactions", some (list TxRecord.serialize wf.transactions))]

def DiskLoad.deserialize (isKey : ByteArr 32 → Bool) : Json → Option DiskLoad :=
  struct? ["version", "network", "mnemonic", "encrypted_mnemonic", "sequencer_url", "node_url",
      "esplora_url", "next_mint_index", "mints", "verified_head", "transactions"] fun entries => do
    let version ← defaulted? none (option? u32?) entries "version"
    let network ← required? NetworkName.deserialize entries "network"
    let mnemonic ← defaulted? none (option? str?) entries "mnemonic"
    let encryptedMnemonic ←
      defaulted? none (option? EncryptedMnemonic.deserialize) entries "encrypted_mnemonic"
    let sequencerUrl ← required? str? entries "sequencer_url"
    let nodeUrl ← defaulted? none (option? str?) entries "node_url"
    let esploraUrl ← required? str? entries "esplora_url"
    let nextMintIndex ← defaulted? 0 u32? entries "next_mint_index"
    let mints ← defaulted? [] (list? MintRecord.deserialize) entries "mints"
    let verifiedHead ← defaulted? none (option? (VerifiedHead.deserialize isKey)) entries
      "verified_head"
    let transactions ← defaulted? [] (list? TxRecord.deserialize) entries "transactions"
    pure ⟨version, network, mnemonic, encryptedMnemonic, sequencerUrl, nodeUrl, esploraUrl,
      nextMintIndex, mints, verifiedHead, transactions⟩

/-- The serde_json crate, between a document and its text. -/
structure SerdeJson where
  toVecPretty : Json → Bytes
  /-- Also that the text is UTF-8. -/
  fromStr : Bytes → Option Json

/-- The document that `save` writes, with the nonce it draws. -/
def WalletFile.document (c : Cipher) (wf : WalletFile) (nonce : ByteArr 24) :
    Except EncryptError Json :=
  match wf.encryptionCtx with
  | some ctx => do
      let blob ← reencrypt c wf.mnemonic ctx nonce
      pure (struct (wf.fieldsV2 blob))
  | none => pure (struct wf.fieldsV1)

/-- `save`: what it puts at the path. -/
def WalletFile.save (c : Cipher) (serde : SerdeJson) (wf : WalletFile) (nonce : ByteArr 24) :
    Except EncryptError Bytes := do
  let document ← wf.document c nonce
  pure (serde.toVecPretty document)

/-- What a text is read as. -/
def fileOf (isKey : ByteArr 32 → Bool) (serde : SerdeJson) (data : Bytes) : File :=
  match (serde.fromStr data).bind (DiskLoad.deserialize isKey) with
  | some disk => .wallet disk
  | none => .malformed

/-- The keys in a wallet are keys. -/
def WalletFile.KeysValid (isKey : ByteArr 32 → Bool) (wf : WalletFile) : Prop :=
  ∀ head, wf.verifiedHead = some head → head.KeysValid isKey

section

variable {c : Cipher} {isKey : ByteArr 32 → Bool} {serde : SerdeJson} {wf : WalletFile}
  {nonce : ByteArr 24}

/-- `DiskLoad` has every field of `DiskSaveV1`. -/
theorem WalletFile.deserialize_fieldsV1 (hkeys : wf.KeysValid isKey) :
    DiskLoad.deserialize isKey (struct wf.fieldsV1) = some wf.diskSaveV1 := by
  have hnames : (wf.fieldsV1.map Prod.fst).Nodup :=
    show ["network", "mnemonic", "sequencer_url", "node_url", "esplora_url", "next_mint_index",
      "mints", "verified_head", "transactions"].Nodup by decide
  rw [DiskLoad.deserialize, struct?_struct,
    defaulted?_absent none (option? u32?) (by simp [fieldsV1]),
    required?_present NetworkName.deserialize hnames 0 rfl (NetworkName.deserialize_serialize _),
    defaulted?_present none (option? str?) hnames 1 rfl rfl,
    defaulted?_absent none (option? EncryptedMnemonic.deserialize) (by simp [fieldsV1]),
    required?_present str? hnames 2 rfl rfl,
    defaulted?_skipped str? .str hnames 3 rfl nofun fun _ _ => rfl,
    required?_present str? hnames 4 rfl rfl,
    defaulted?_present 0 u32? hnames 5 rfl (u32?_u32 _),
    defaulted?_present [] (list? MintRecord.deserialize) hnames 6 rfl
      (list?_list fun r _ => r.deserialize_serialize),
    defaulted?_skipped (VerifiedHead.deserialize isKey) VerifiedHead.serialize hnames 7 rfl nofun
      fun head hhead => VerifiedHead.deserialize_serialize (hkeys head hhead),
    defaulted?_present [] (list? TxRecord.deserialize) hnames 8 rfl
      (list?_list fun t _ => t.deserialize_serialize)]
  rfl

/-- And of `DiskSaveV2`. -/
theorem WalletFile.deserialize_fieldsV2 (hkeys : wf.KeysValid isKey) (blob : EncryptedMnemonic) :
    DiskLoad.deserialize isKey (struct (wf.fieldsV2 blob)) = some (wf.diskSaveV2 blob) := by
  have hnames : ((wf.fieldsV2 blob).map Prod.fst).Nodup := show ["version", "network",
    "encrypted_mnemonic", "sequencer_url", "node_url", "esplora_url", "next_mint_index", "mints",
    "verified_head", "transactions"].Nodup by decide
  have hblob : option? EncryptedMnemonic.deserialize blob.serialize = some (some blob) :=
    option?_of_read nofun blob.deserialize_serialize
  rw [DiskLoad.deserialize, struct?_struct,
    defaulted?_present none (option? u32?) hnames 0 rfl rfl,
    required?_present NetworkName.deserialize hnames 1 rfl (NetworkName.deserialize_serialize _),
    defaulted?_absent none (option? str?) (by simp [fieldsV2]),
    defaulted?_present none (option? EncryptedMnemonic.deserialize) hnames 2 rfl hblob,
    required?_present str? hnames 3 rfl rfl,
    defaulted?_skipped str? .str hnames 4 rfl nofun fun _ _ => rfl,
    required?_present str? hnames 5 rfl rfl,
    defaulted?_present 0 u32? hnames 6 rfl (u32?_u32 _),
    defaulted?_present [] (list? MintRecord.deserialize) hnames 7 rfl
      (list?_list fun r _ => r.deserialize_serialize),
    defaulted?_skipped (VerifiedHead.deserialize isKey) VerifiedHead.serialize hnames 8 rfl nofun
      fun head hhead => VerifiedHead.deserialize_serialize (hkeys head hhead),
    defaulted?_present [] (list? TxRecord.deserialize) hnames 9 rfl
      (list?_list fun t _ => t.deserialize_serialize)]
  rfl

/-- The document that is saved is read as the file that the wallet makes. -/
theorem WalletFile.deserialize_document (hkeys : wf.KeysValid isKey) {document : Json}
    (h : wf.document c nonce = .ok document) :
    ∃ disk, wf.toDisk c nonce = .ok disk ∧ DiskLoad.deserialize isKey document = some disk := by
  unfold WalletFile.document at h
  unfold WalletFile.toDisk
  cases hctx : wf.encryptionCtx with
  | none =>
      simp only [hctx, pure_ok_iff] at h
      subst h
      exact ⟨_, rfl, WalletFile.deserialize_fieldsV1 hkeys⟩
  | some ctx =>
      simp only [hctx, bind_ok_iff, pure_ok_iff] at h
      obtain ⟨blob, hblob, rfl⟩ := h
      exact ⟨wf.diskSaveV2 blob, bind_ok_iff.mpr ⟨blob, hblob, rfl⟩,
        WalletFile.deserialize_fieldsV2 hkeys blob⟩

/-! ### Saving and loading -/

/-- The wallet that one of the loaders makes of a file. -/
inductive WalletFile.Loads (c : Cipher) (file : Option File) (wf : WalletFile) : Prop
  | load (h : WalletFile.load c file = .ok wf)
  | loadUnlocked (passphrase : Option String)
    (h : WalletFile.loadUnlocked c file passphrase = .ok wf)
  | loadWithContext (ctx : UnlockContext) (h : WalletFile.loadWithContext c file ctx = .ok wf)

/-- The same entries, with the mnemonic encrypted anew. -/
def SameShape (document document' : Json) : Prop :=
  ∃ entries entries', document = .obj entries ∧ document' = .obj entries' ∧
    List.Forall₂ (fun e e' => e.1 = e'.1 ∧ (e.1 ≠ "encrypted_mnemonic" → e.2 = e'.2))
      entries entries'

theorem WalletFile.loaded_of_toDisk (hc : c.Lawful) {disk : DiskLoad}
    (h : wf.toDisk c nonce = .ok disk) :
    WalletFile.Loaded c disk wf := by
  refine ⟨WalletFile.reads_of_toDisk hc h, ?_⟩
  unfold WalletFile.toDisk at h
  split at h
  · simp only [bind_ok_iff, pure_ok_iff] at h
    obtain ⟨blob, -, rfl⟩ := h
    rfl
  · rw [pure_ok_iff] at h
    rw [← h]
    rfl

theorem WalletFile.Loads.loaded {disk : DiskLoad} {wf' : WalletFile}
    (h : WalletFile.Loads c (some (.wallet disk)) wf') : WalletFile.Loaded c disk wf' := by
  cases h with
  | load h => exact loaded_of_fromDisk h
  | loadUnlocked passphrase h => exact loaded_of_fromDisk h
  | loadWithContext ctx h =>
      obtain ⟨disk', hdisk, hloaded⟩ := loaded_of_loadWithContext h
      rwa [File.wallet.inj (Option.some.inj hdisk)]

theorem WalletFile.load_toDisk (hctx : wf.encryptionCtx = none) {disk : DiskLoad}
    (h : wf.toDisk c nonce = .ok disk) : WalletFile.load c (some (.wallet disk)) = .ok wf := by
  unfold WalletFile.toDisk at h
  simp only [hctx, pure_ok_iff] at h
  subst h
  obtain ⟨network, mnemonic, sequencerUrl, nodeUrl, esploraUrl, nextMintIndex, mints, verifiedHead,
    transactions, encryptionCtx⟩ := wf
  subst hctx
  rfl

section

variable {ctx : UnlockContext} {disk : DiskLoad}

theorem WalletFile.toDisk_encrypted (hctx : wf.encryptionCtx = some ctx)
    (h : wf.toDisk c nonce = .ok disk) :
    ∃ blob, reencrypt c wf.mnemonic ctx nonce = .ok blob ∧ disk = wf.diskSaveV2 blob ∧
      disk.wallet wf.mnemonic (some ctx) = wf := by
  unfold WalletFile.toDisk at h
  simp only [hctx, bind_ok_iff, pure_ok_iff] at h
  obtain ⟨blob, hblob, rfl⟩ := h
  refine ⟨blob, hblob, rfl, ?_⟩
  rw [← hctx]
  rfl

theorem WalletFile.loadWithContext_toDisk (hc : c.Lawful) (hctx : wf.encryptionCtx = some ctx)
    (h : wf.toDisk c nonce = .ok disk) :
    WalletFile.loadWithContext c (some (.wallet disk)) ctx = .ok wf := by
  obtain ⟨blob, hblob, hdisk, hwallet⟩ := WalletFile.toDisk_encrypted hctx h
  simp only [WalletFile.loadWithContext, bind_ok_iff, okOr_ok_iff, mapErr_ok_iff, pure_ok_iff]
  exact ⟨disk, rfl, blob, by rw [hdisk]; rfl, wf.mnemonic, decrypt_reencrypt hc hblob, hwallet⟩

theorem WalletFile.loadUnlocked_toDisk (hc : c.Lawful) (hctx : wf.encryptionCtx = some ctx)
    {passphrase : String}
    (hkey : c.deriveKey ctx.kdfParams (utf8 passphrase) ctx.salt = .ok ctx.key)
    (h : wf.toDisk c nonce = .ok disk) :
    WalletFile.loadUnlocked c (some (.wallet disk)) (some passphrase) = .ok wf := by
  obtain ⟨blob, hblob, rfl, hwallet⟩ := WalletFile.toDisk_encrypted hctx h
  have hopen := decrypt_reencrypt_of_passphrase hc hkey hblob
  show WalletFile.fromDisk c (wf.diskSaveV2 blob) (some passphrase) = .ok wf
  unfold WalletFile.fromDisk
  simp only [WalletFile.diskSaveV2, bind_ok_iff, ensure_ok_iff, okOr_ok_iff,
    mapErr_ok_iff, pure_ok_iff]
  exact ⟨(), trivial, passphrase, rfl, (wf.mnemonic, ctx), hopen, hwallet⟩

end

/-- A file is one wallet, whichever way it is opened. -/
theorem WalletFile.Loaded.unique (hone : c.OneKey) {disk : DiskLoad} {wf' : WalletFile}
    (h : WalletFile.Loaded c disk wf) (h' : WalletFile.Loaded c disk wf') : wf' = wf := by
  obtain ⟨hctx, hmnemonic⟩ := DiskLoad.Reads.unique hone h'.reads h.reads
  rw [h'.wallet, h.wallet, hctx, hmnemonic]

theorem fileOf_save (hkeys : wf.KeysValid isKey) {data : Bytes}
    (hsave : wf.save c serde nonce = .ok data)
    (hserde : ∀ document, wf.document c nonce = .ok document →
      serde.fromStr (serde.toVecPretty document) = some document) :
    ∃ disk, wf.toDisk c nonce = .ok disk ∧ fileOf isKey serde data = .wallet disk := by
  unfold WalletFile.save at hsave
  simp only [bind_ok_iff, pure_ok_iff] at hsave
  obtain ⟨document, hdocument, rfl⟩ := hsave
  obtain ⟨disk, hdisk, hread⟩ := WalletFile.deserialize_document hkeys hdocument
  refine ⟨disk, hdisk, ?_⟩
  unfold fileOf
  rw [hserde document hdocument, Option.bind_some, hread]

theorem sameShape_document {nonce' : ByteArr 24} {document document' : Json}
    (h : wf.document c nonce = .ok document) (h' : wf.document c nonce' = .ok document') :
    SameShape document document' := by
  unfold WalletFile.document at h h'
  cases hctx : wf.encryptionCtx with
  | none =>
      simp only [hctx, pure_ok_iff] at h h'
      obtain rfl := h.symm.trans h'
      subst h
      exact ⟨_, _, rfl, rfl, List.forall₂_same.mpr fun e _ => ⟨rfl, fun _ => rfl⟩⟩
  | some ctx =>
      simp only [hctx, bind_ok_iff, pure_ok_iff] at h h'
      obtain ⟨blob, -, rfl⟩ := h
      obtain ⟨blob', -, rfl⟩ := h'
      refine ⟨_, _, rfl, rfl, ?_⟩
      refine .cons ⟨rfl, fun _ => rfl⟩
        (.cons ⟨rfl, fun _ => rfl⟩ (.cons ⟨rfl, fun hname => absurd rfl hname⟩ ?_))
      exact List.forall₂_same.mpr fun e _ => ⟨rfl, fun _ => rfl⟩

/-- **A wallet file that is saved is loaded as it was**, plain or encrypted and whatever is in it:
in every field, and with the context it had; and loaded whichever way and saved again it has the
same shape and the same fields. -/
theorem WalletFile.load_save (hc : c.Lawful) (hone : c.OneKey) (hkeys : wf.KeysValid isKey)
    {data : Bytes} (hsave : wf.save c serde nonce = .ok data)
    (hserde : ∀ document, wf.document c nonce = .ok document →
      serde.fromStr (serde.toVecPretty document) = some document) :
    let file := some (fileOf isKey serde data)
    (wf.encryptionCtx = none → WalletFile.load c file = .ok wf) ∧
    (∀ ctx, wf.encryptionCtx = some ctx →
      WalletFile.loadWithContext c file ctx = .ok wf ∧
        ∀ passphrase, c.deriveKey ctx.kdfParams (utf8 passphrase) ctx.salt = .ok ctx.key →
          WalletFile.loadUnlocked c file (some passphrase) = .ok wf) ∧
    ∀ wf', WalletFile.Loads c file wf' → wf' = wf ∧ ∀ nonce' document document',
      wf.document c nonce = .ok document → wf'.document c nonce' = .ok document' →
        SameShape document document' := by
  intro file
  obtain ⟨disk, hdisk, hfile⟩ := @fileOf_save c isKey serde wf nonce hkeys data hsave hserde
  rw [show file = some (.wallet disk) from congrArg some hfile]
  refine ⟨fun hctx => ?_, fun ctx hctx => ⟨?_, fun passphrase hkey => ?_⟩, fun wf' hload => ?_⟩
  · exact WalletFile.load_toDisk hctx hdisk
  · exact WalletFile.loadWithContext_toDisk hc hctx hdisk
  · exact WalletFile.loadUnlocked_toDisk hc hctx hkey hdisk
  · obtain rfl := WalletFile.Loaded.unique hone (WalletFile.loaded_of_toDisk hc hdisk) hload.loaded
    exact ⟨rfl, fun nonce' document document' => sameShape_document⟩

end

/-! ### A wallet under a passphrase -/

/-- A character in a JSON string. -/
def escaped (ch : Char) : String :=
  match ch.toNat with
  | 8 => "\\b"
  | 9 => "\\t"
  | 10 => "\\n"
  | 12 => "\\f"
  | 13 => "\\r"
  | 34 => "\\\""
  | 92 => "\\\\"
  | n => if n < 32 then "\\u00" ++ hexEncode [UInt8.ofNat n] else ch.toString

def quoted (s : String) : String := "\"" ++ String.join (s.toList.map escaped) ++ "\""

/-- A new line, indented by two blanks for each level. -/
def lineAt (depth : Nat) : String := "\n" ++ String.ofList (List.replicate (2 * depth) ' ')

mutual

/-- The text that `serde_json` writes for a document. -/
def pretty (depth : Nat) : Json → String
  | .null => "null"
  | .bool b => if b then "true" else "false"
  | .num n => toString n.toNat
  | .str s => quoted s
  | .arr [] => "[]"
  | .arr (e :: elements) => "[" ++ lineAt (depth + 1) ++ pretty (depth + 1) e
      ++ prettyElements (depth + 1) elements ++ lineAt depth ++ "]"
  | .obj [] => "\x7b\x7d"
  | .obj ((name, e) :: entries) => "\x7b" ++ lineAt (depth + 1) ++ quoted name ++ ": "
      ++ pretty (depth + 1) e ++ prettyEntries (depth + 1) entries ++ lineAt depth ++ "\x7d"

def prettyElements (depth : Nat) : List Json → String
  | [] => ""
  | e :: elements => "," ++ lineAt depth ++ pretty depth e ++ prettyElements depth elements

def prettyEntries (depth : Nat) : List (String × Json) → String
  | [] => ""
  | (name, e) :: entries =>
      "," ++ lineAt depth ++ quoted name ++ ": " ++ pretty depth e ++ prettyEntries depth entries

end

example : pretty 0 (.obj [("minted", .bool false), ("mints", .arr [.num 7, .str "a\"b"])])
    = "\x7b\n  \"minted\": false,\n  \"mints\": [\n    7,\n    \"a\\\"b\"\n  ]\n\x7d" := by
  decide +kernel

/-- An instance for one document: of the texts, it reads the one that is written. -/
def SerdeJson.sample (document : Json) : SerdeJson where
  toVecPretty d := utf8 (pretty 0 d)
  fromStr data := if data = utf8 (pretty 0 document) then some document else none

theorem SerdeJson.sample_read (document : Json) : (SerdeJson.sample document).fromStr
    ((SerdeJson.sample document).toVecPretty document) = some document := if_pos rfl

/-- What the passphrase `abandon` gives. -/
def sampleContext : UnlockContext where
  key := ByteArr.ofNat 32 (beValue (utf8 "abandon") * 2 ^ 128 + 5)
  salt := ByteArr.ofNat 16 5
  kdfParams := .default

/-- A wallet with a head, a mint on L2 and one that is not funded yet, and a history. -/
def encryptedWallet : WalletFile where
  network := .regtest
  mnemonic := "legal winner thank year"
  sequencerUrl := "http://s"
  nodeUrl := some "http://n"
  esploraUrl := "http://e"
  nextMintIndex := 2
  mints :=
    [⟨"bcrt1p", 144, 0, some "00:1", some 100000, some 5, true, false⟩,
      ⟨"bcrt1q", 288, 1, none, none, none, false, false⟩]
  verifiedHead := some
    { stateRoot := H256.zero
      accountsRoot := H256.zero
      l2Height := 3
      blockHash := H256.zero
      l1Height := 8
      anchorOutpoint := ⟨⟨ByteArr.ofNat 32 9⟩, 1⟩
      ownAddress := ⟨ByteArr.ofNat 32 2⟩
      ownLeaf := .account 500 1
      ownPath := List.replicate 256 H256.zero
      consumedNullifiers := Std.ExtTreeSet.ofList ["0a", "0b"]
      totalMintedAtoms := 700
      sequencerFeeAddress := some ⟨ByteArr.ofNat 32 7⟩ }
  transactions :=
    [⟨"01", .l2MintApply, 10, 700, none, none, none, .finalized 1 5, none, some "0a", some 0, none⟩,
      ⟨"02", .l2TransferSent, 20, 60, some 100, none, some "07", .soft 20, none, some "0c", none,
        some "rent"⟩]
  encryptionCtx := some sampleContext

/-- It is saved under its context, and opened by it and by the passphrase. -/
theorem WalletFile.load_save_encrypted : ∃ document data,
    encryptedWallet.document .sample (ByteArr.ofNat 24 6) = .ok document ∧
    encryptedWallet.save .sample (.sample document) (ByteArr.ofNat 24 6) = .ok data ∧
    let file := some (fileOf (fun _ => true) (.sample document) data)
    WalletFile.loadWithContext .sample file sampleContext = .ok encryptedWallet ∧
    WalletFile.loadUnlocked .sample file (some "abandon") = .ok encryptedWallet := by
  obtain ⟨document, hdocument⟩ : ∃ document,
      encryptedWallet.document .sample (ByteArr.ofNat 24 6) = .ok document := ⟨_, rfl⟩
  have hsave : encryptedWallet.save .sample (.sample document) (ByteArr.ofNat 24 6)
      = .ok ((SerdeJson.sample document).toVecPretty document) :=
    bind_ok_iff.mpr ⟨_, hdocument, rfl⟩
  have hkeys : encryptedWallet.KeysValid fun _ => true := fun _ _ => ⟨rfl, fun _ _ => rfl⟩
  have hserde : ∀ d, encryptedWallet.document .sample (ByteArr.ofNat 24 6) = .ok d →
      (SerdeJson.sample document).fromStr ((SerdeJson.sample document).toVecPretty d) = some d := by
    intro d h
    rw [← Except.ok.inj (hdocument.symm.trans h)]
    exact SerdeJson.sample_read document
  obtain ⟨hcontext, hpassphrase⟩ := (WalletFile.load_save Cipher.sample_lawful Cipher.sample_oneKey
    hkeys hsave hserde).2.1 sampleContext rfl
  have hkey : Cipher.sample.deriveKey sampleContext.kdfParams (utf8 "abandon") sampleContext.salt
      = .ok sampleContext.key := by
    decide +kernel
  exact ⟨document, _, hdocument, hsave, hcontext, hpassphrase _ hkey⟩

end Hodlchain.Wallet
