/-
The parts of a wallet file as documents.

Hashes, keys and outpoints are texts, an enumeration is the name of its variant or carries
it as its `kind`, and a record is a structure that leaves out the options it has not got.
Each is read as it was written.
-/
import Hodlchain.Lib.Json
import Hodlchain.Wallet.WalletFile

namespace Hodlchain

open Bytes Json Wallet

/-! ### Texts -/

/-- `H256::from_hex`. -/
def H256.fromHex (s : String) : Option H256 := do
  let v ← hexDecode s
  let out ← toByteArr 32 v
  pure ⟨out⟩

/-- `OutPoint::from_str`. -/
def OutPoint.fromStr (s : String) : Option OutPoint :=
  if (utf8 s).length > 75 then none
  else do
    let (txid, vout) ← splitOnce ':' s.toList
    if ':' ∈ vout ∨ txid = [] ∨ vout = [] then none
    else do
      let txid ← Txid.fromStr (String.ofList txid)
      -- a number in its canonical form
      if vout.length > 1 ∧ (vout.head? = some '0' ∨ vout.head? = some '+') then none
      else do
        let vout ← parseU32 vout
        pure ⟨txid, vout⟩

theorem H256.fromHex_hexEncode (h : H256) : H256.fromHex (hexEncode h.raw) = some h := by
  rw [H256.fromHex, hexDecode_hexEncode]
  show (toByteArr 32 h.bytes.toList).bind _ = _
  rw [toByteArr_toList]
  rfl

theorem decimalValue_toDigits (n : ℕ) : decimalValue (Nat.toDigits 10 n) = some n := by
  have hfold : ∀ (digits : List Char) (init : ℕ), (∀ d ∈ digits, d.isDigit = true) →
      digits.foldl (fun acc d => acc.bind fun n =>
        if d.isDigit then some (n * 10 + (d.toNat - '0'.toNat)) else none) (some init)
      = some (Nat.ofDigitChars 10 digits init) := by
    intro digits
    induction digits with
    | nil => exact fun _ _ => rfl
    | cons d digits ih =>
        intro init hdigits
        obtain ⟨hd, hrest⟩ := List.forall_mem_cons.mp hdigits
        rw [List.foldl_cons, Option.bind_some, if_pos hd, ih _ hrest, Nat.ofDigitChars_cons,
          Nat.mul_comm]
  have hdigits : ∀ d ∈ Nat.toDigits 10 n, d.isDigit = true :=
    fun d hd => Nat.isDigit_of_mem_toDigits (by decide) (by decide) hd
  rw [decimalValue, hfold _ 0 hdigits, Nat.ofDigitChars_ten_toDigits]

/-- Only zero starts with a zero. -/
theorem head?_toDigits_ne (n : ℕ) (h : 10 ≤ n) : (Nat.toDigits 10 n).head? ≠ some '0' := by
  induction n using Nat.strongRecOn with
  | ind n ih =>
      rw [Nat.toDigits_of_base_le (by decide) h, List.head?_append_of_ne_nil _ Nat.toDigits_ne_nil]
      by_cases hlast : 10 ≤ n / 10
      · exact ih (n / 10) (by omega) hlast
      · rw [Nat.toDigits_of_lt_base (by omega), List.head?_cons]
        have hdigit : ∀ k < 10, 0 < k → Nat.digitChar k ≠ '0' := by decide
        exact fun hzero => hdigit (n / 10) (by omega) (by omega) (Option.some.inj hzero)

theorem parseU32_toDigits (n : UInt32) : parseU32 (Nat.toDigits 10 n.toNat) = some n := by
  have hplus : (Nat.toDigits 10 n.toNat).head? ≠ some '+' := by
    intro hhead
    have hdigit : '+'.isDigit = true :=
      Nat.isDigit_of_mem_toDigits (by decide) (by decide) (List.mem_of_head? hhead)
    exact absurd hdigit (by decide)
  have hlt := n.toNat_lt
  unfold parseU32
  rw [if_neg hplus, if_neg Nat.toDigits_ne_nil, decimalValue_toDigits, Option.bind_some, if_pos hlt,
    UInt32.ofNat_toNat]

theorem splitOnce_append {a : List Char} (sep : Char) (b : List Char) (h : sep ∉ a) :
    splitOnce sep (a ++ sep :: b) = some (a, b) := by
  induction a with
  | nil => rw [List.nil_append, splitOnce, if_pos rfl]
  | cons x a ih =>
      have hx : x ≠ sep := by
        rintro rfl
        exact h List.mem_cons_self
      rw [List.cons_append, splitOnce, if_neg hx, ih fun ha => h (List.mem_cons_of_mem x ha)]
      rfl

theorem length_utf8_ofList {l : List Char} (h : ∀ c ∈ l, c.utf8Size = 1) :
    (utf8 (String.ofList l)).length = l.length := by
  have hutf8 : utf8 (String.ofList l) = l.flatMap String.utf8EncodeChar := by
    simp [utf8, String.toByteArray_ofList, List.utf8Encode]
  rw [hutf8]
  clear hutf8
  induction l with
  | nil => rfl
  | cons c l ih =>
      rw [List.flatMap_cons, List.length_append, String.length_utf8EncodeChar, h c (by simp),
        ih fun c' hc' => h c' (List.mem_cons_of_mem c hc'), List.length_cons, Nat.add_comm]

/-- An outpoint is read as it was printed. -/
theorem OutPoint.fromStr_showOutpoint (op : OutPoint) :
    OutPoint.fromStr (showOutpoint op.txid op.vout) = some op := by
  have hshow : showOutpoint op.txid op.vout
      = String.ofList (op.txid.toStr.toList ++ ':' :: Nat.toDigits 10 op.vout.toNat) := by
    have hvout : toString op.vout = String.ofList (Nat.toDigits 10 op.vout.toNat) := rfl
    rw [← String.toList_inj, showOutpoint, hvout]
    simp
  have hhex : ∀ c ∈ op.txid.toStr.toList, c.utf8Size = 1 ∧ c ≠ ':' := by
    intro c hc
    obtain ⟨n, rfl⟩ := exists_hexDigit hc
    clear hc
    revert n
    decide
  have hdecimal : ∀ c ∈ Nat.toDigits 10 op.vout.toNat, c.utf8Size = 1 ∧ c ≠ ':' := by
    intro c hc
    have hdigit : c.isDigit = true := Nat.isDigit_of_mem_toDigits (by decide) (by decide) hc
    obtain ⟨hlow, hhigh⟩ := Char.isDigit_iff_toNat.mp hdigit
    have hall : ∀ k : Fin 58, 48 ≤ k.val →
        (Char.ofNat k).utf8Size = 1 ∧ Char.ofNat k ≠ ':' := by decide
    rw [← Char.ofNat_toNat c]
    exact hall ⟨c.toNat, Nat.lt_succ_of_le hhigh⟩ hlow
  have hlength : op.txid.toStr.toList.length = 64 := by
    rw [Txid.toStr, length_hexEncode]
    simp
  have hsize : ¬ (utf8 (showOutpoint op.txid op.vout)).length > 75 := by
    have hdigits : (Nat.toDigits 10 op.vout.toNat).length ≤ 10 :=
      (Nat.length_toDigits_le_iff (by decide) (by decide)).mpr (by have := op.vout.toNat_lt; omega)
    rw [hshow, length_utf8_ofList, List.length_append, hlength, List.length_cons]
    · omega
    · intro c hc
      rcases List.mem_append.mp hc with hc | hc
      · exact (hhex c hc).1
      · rcases List.mem_cons.mp hc with rfl | hc
        · decide
        · exact (hdecimal c hc).1
  have hcanonical : ¬ ((Nat.toDigits 10 op.vout.toNat).length > 1 ∧
      ((Nat.toDigits 10 op.vout.toNat).head? = some '0' ∨
        (Nat.toDigits 10 op.vout.toNat).head? = some '+')) := by
    rintro ⟨hlong, hhead | hhead⟩
    · refine head?_toDigits_ne _ ?_ hhead
      by_contra hsmall
      rw [Nat.toDigits_of_lt_base (by omega)] at hlong
      exact absurd hlong (Nat.lt_irrefl 1)
    · have hdigit : '+'.isDigit = true :=
        Nat.isDigit_of_mem_toDigits (by decide) (by decide) (List.mem_of_head? hhead)
      exact absurd hdigit (by decide)
  have hparts : ¬ (':' ∈ Nat.toDigits 10 op.vout.toNat ∨ op.txid.toStr.toList = [] ∨
      Nat.toDigits 10 op.vout.toNat = []) := by
    rintro (hmem | hempty | hempty)
    · exact (hdecimal _ hmem).2 rfl
    · rw [hempty] at hlength
      cases hlength
    · exact Nat.toDigits_ne_nil hempty
  unfold OutPoint.fromStr
  rw [if_neg hsize, hshow, String.toList_ofList, splitOnce_append ':' _ fun hmem =>
    (hhex _ hmem).2 rfl]
  show (if _ then _ else _) = _
  rw [if_neg hparts, String.ofList_toList, Txid.fromStr_toStr]
  show (if _ then _ else _) = _
  rw [if_neg hcanonical, parseU32_toDigits]
  rfl

/-! ### Values -/

def H256.serialize (h : H256) : Json := .str (hexEncode h.raw)

def H256.deserialize (j : Json) : Option H256 := (str? j).bind H256.fromHex

def OutPoint.serialize (op : OutPoint) : Json := .str (showOutpoint op.txid op.vout)

def OutPoint.deserialize (j : Json) : Option OutPoint := (str? j).bind OutPoint.fromStr

def XOnlyPublicKey.toJson (k : XOnlyPublicKey) : Json := .str (hexEncode k.serialize)

/-- `isKey` tells the bytes that are a point's; a key in memory always is one. -/
def XOnlyPublicKey.deserialize (isKey : ByteArr 32 → Bool) (j : Json) : Option XOnlyPublicKey := do
  let data ← hexDecode (← str? j)
  let bytes ← toByteArr 32 data
  if isKey bytes then pure ⟨bytes⟩ else none

def NetworkName.serialize : NetworkName → Json
  | .bitcoin => .str "bitcoin"
  | .testnet => .str "testnet"
  | .signet => .str "signet"
  | .regtest => .str "regtest"

def NetworkName.ofVariant : String → Option NetworkName
  | "bitcoin" => some .bitcoin
  | "testnet" => some .testnet
  | "signet" => some .signet
  | "regtest" => some .regtest
  | _ => none

def NetworkName.deserialize (j : Json) : Option NetworkName :=
  (variant? j).bind NetworkName.ofVariant

def LeafKind.serialize : LeafKind → Json
  | .account balance nonce =>
      struct [("kind", some (.str "account")), ("balance", some (.num balance)),
        ("nonce", some (.num nonce))]
  | .empty => struct [("kind", some (.str "empty"))]

def LeafKind.ofContent : String → Json → Option LeafKind
  | "account", content =>
      struct? ["balance", "nonce"] (fun entries => do
        let balance ← required? u64? entries "balance"
        let nonce ← required? u64? entries "nonce"
        pure (.account balance nonce)) content
  | "empty", .obj _ => pure .empty
  | "empty", .arr [] => pure .empty
  | _, _ => none

def LeafKind.deserialize : Json → Option LeafKind := tagged? "kind" LeafKind.ofContent

theorem H256.deserialize_serialize (h : H256) : H256.deserialize h.serialize = some h :=
  h.fromHex_hexEncode

theorem OutPoint.deserialize_serialize (op : OutPoint) :
    OutPoint.deserialize op.serialize = some op :=
  op.fromStr_showOutpoint

theorem XOnlyPublicKey.deserialize_toJson {isKey : ByteArr 32 → Bool} {k : XOnlyPublicKey}
    (hk : isKey k.bytes = true) : XOnlyPublicKey.deserialize isKey k.toJson = some k := by
  unfold XOnlyPublicKey.deserialize XOnlyPublicKey.toJson
  show (hexDecode (hexEncode k.serialize)).bind _ = _
  rw [hexDecode_hexEncode]
  show (toByteArr 32 k.bytes.toList).bind _ = _
  rw [toByteArr_toList]
  exact if_pos hk

theorem NetworkName.deserialize_serialize (n : NetworkName) :
    NetworkName.deserialize n.serialize = some n := by
  cases n <;> rfl

theorem LeafKind.deserialize_serialize (l : LeafKind) :
    LeafKind.deserialize l.serialize = some l := by
  cases l with
  | account balance nonce => rfl
  | empty => rfl

/-! ### The head -/

def VerifiedHead.fields (head : VerifiedHead) : List (String × Option Json) :=
  [("state_root", some head.stateRoot.serialize),
    ("accounts_root", some head.accountsRoot.serialize),
    ("l2_height", some (u32 head.l2Height)), ("block_hash", some head.blockHash.serialize),
    ("l1_height", some (u32 head.l1Height)),
    ("anchor_outpoint", some head.anchorOutpoint.serialize),
    ("own_address", some head.ownAddress.toJson), ("own_leaf", some head.ownLeaf.serialize),
    ("own_path", some (list H256.serialize head.ownPath)),
    ("consumed_nullifiers", some (list .str head.consumedNullifiers.toList)),
    ("total_minted_atoms", some (.num head.totalMintedAtoms)),
    ("sequencer_fee_address", some (option XOnlyPublicKey.toJson head.sequencerFeeAddress))]

def VerifiedHead.serialize (head : VerifiedHead) : Json := struct head.fields

/-- The elements of a `BTreeSet`. -/
def stringSet? (j : Json) : Option NullifierSet :=
  (list? str? j).map fun items => Std.ExtTreeSet.ofList items

def VerifiedHead.deserialize (isKey : ByteArr 32 → Bool) : Json → Option VerifiedHead :=
  struct? ["state_root", "accounts_root", "l2_height", "block_hash", "l1_height", "anchor_outpoint",
      "own_address", "own_leaf", "own_path", "consumed_nullifiers", "total_minted_atoms",
      "sequencer_fee_address"] fun entries => do
    let stateRoot ← required? H256.deserialize entries "state_root"
    let accountsRoot ← required? H256.deserialize entries "accounts_root"
    let l2Height ← required? u32? entries "l2_height"
    let blockHash ← required? H256.deserialize entries "block_hash"
    let l1Height ← required? u32? entries "l1_height"
    let anchorOutpoint ← required? OutPoint.deserialize entries "anchor_outpoint"
    let ownAddress ← required? (XOnlyPublicKey.deserialize isKey) entries "own_address"
    let ownLeaf ← required? LeafKind.deserialize entries "own_leaf"
    let ownPath ← required? (list? H256.deserialize) entries "own_path"
    let consumedNullifiers ← required? stringSet? entries "consumed_nullifiers"
    let totalMintedAtoms ← defaulted? 0 u64? entries "total_minted_atoms"
    let sequencerFeeAddress ←
      defaulted? none (option? (XOnlyPublicKey.deserialize isKey)) entries "sequencer_fee_address"
    pure ⟨stateRoot, accountsRoot, l2Height, blockHash, l1Height, anchorOutpoint,
      ownAddress, ownLeaf, ownPath, consumedNullifiers, totalMintedAtoms, sequencerFeeAddress⟩

/-- Its keys are keys. -/
structure VerifiedHead.KeysValid (isKey : ByteArr 32 → Bool) (head : VerifiedHead) : Prop where
  ownAddress : isKey head.ownAddress.bytes = true
  sequencerFeeAddress : ∀ fee, head.sequencerFeeAddress = some fee → isKey fee.bytes = true

theorem stringSet?_list (set : NullifierSet) : stringSet? (list .str set.toList) = some set := by
  have hread : list? str? (list .str set.toList) = some set.toList := list?_list fun _ _ => rfl
  rw [stringSet?, hread]
  refine congrArg some (Std.ExtTreeSet.ext_mem fun s => ?_)
  rw [Std.ExtTreeSet.mem_ofList, List.contains_iff_mem, Std.ExtTreeSet.mem_toList]

theorem VerifiedHead.deserialize_serialize {isKey : ByteArr 32 → Bool} {head : VerifiedHead}
    (hkeys : head.KeysValid isKey) :
    VerifiedHead.deserialize isKey head.serialize = some head := by
  have hnames : (head.fields.map Prod.fst).Nodup :=
    show ["state_root", "accounts_root", "l2_height", "block_hash", "l1_height", "anchor_outpoint",
      "own_address", "own_leaf", "own_path", "consumed_nullifiers", "total_minted_atoms",
      "sequencer_fee_address"].Nodup by decide
  have hfee : option? (XOnlyPublicKey.deserialize isKey)
      (option XOnlyPublicKey.toJson head.sequencerFeeAddress) = some head.sequencerFeeAddress :=
    option?_option nofun fun fee hfee => XOnlyPublicKey.deserialize_toJson
      (hkeys.sequencerFeeAddress fee hfee)
  rw [VerifiedHead.deserialize, VerifiedHead.serialize, struct?_struct,
    required?_present H256.deserialize hnames 0 rfl (H256.deserialize_serialize _),
    required?_present H256.deserialize hnames 1 rfl (H256.deserialize_serialize _),
    required?_present u32? hnames 2 rfl (u32?_u32 _),
    required?_present H256.deserialize hnames 3 rfl (H256.deserialize_serialize _),
    required?_present u32? hnames 4 rfl (u32?_u32 _),
    required?_present OutPoint.deserialize hnames 5 rfl (OutPoint.deserialize_serialize _),
    required?_present (XOnlyPublicKey.deserialize isKey) hnames 6 rfl
      (XOnlyPublicKey.deserialize_toJson hkeys.ownAddress),
    required?_present LeafKind.deserialize hnames 7 rfl (LeafKind.deserialize_serialize _),
    required?_present (list? H256.deserialize) hnames 8 rfl
      (list?_list fun h _ => H256.deserialize_serialize h),
    required?_present stringSet? hnames 9 rfl (stringSet?_list _),
    defaulted?_present 0 u64? hnames 10 rfl rfl,
    defaulted?_present none (option? (XOnlyPublicKey.deserialize isKey)) hnames 11 rfl hfee]
  rfl

namespace Wallet

def TxKind.serialize : TxKind → Json
  | .l1Deposit => .str "l1_deposit"
  | .l1Reclaim => .str "l1_reclaim"
  | .l2MintApply => .str "l2_mint_apply"
  | .l2TransferSent => .str "l2_transfer_sent"
  | .l2TransferReceived => .str "l2_transfer_received"

def TxKind.ofVariant : String → Option TxKind
  | "l1_deposit" => some .l1Deposit
  | "l1_reclaim" => some .l1Reclaim
  | "l2_mint_apply" => some .l2MintApply
  | "l2_transfer_sent" => some .l2TransferSent
  | "l2_transfer_received" => some .l2TransferReceived
  | _ => none

def TxKind.deserialize (j : Json) : Option TxKind := (variant? j).bind TxKind.ofVariant

def TxStatus.serialize : TxStatus → Json
  | .soft sinceTs => struct [("kind", some (.str "soft")), ("since_ts", some (.num sinceTs))]
  | .l1Mempool sinceTs => struct [("kind", some (.str "l1_mempool")),
    ("since_ts", some (.num sinceTs))]
  | .inBlock l2Height l1Height includedTs =>
      struct [("kind", some (.str "in_block")), ("l2_height", some (u32 l2Height)),
        ("l1_height", some (u32 l1Height)), ("included_ts", some (.num includedTs))]
  | .finalized l2Height l1Height =>
      struct [("kind", some (.str "finalized")), ("l2_height", some (u32 l2Height)),
        ("l1_height", some (u32 l1Height))]
  | .failed reason ts =>
      struct [("kind", some (.str "failed")), ("reason", some (.str reason)),
        ("ts", some (.num ts))]

def TxStatus.ofContent : String → Json → Option TxStatus
  | "soft", content =>
      struct? ["since_ts"] (fun entries => do
        let sinceTs ← required? u64? entries "since_ts"
        pure (.soft sinceTs)) content
  | "l1_mempool", content =>
      struct? ["since_ts"] (fun entries => do
        let sinceTs ← required? u64? entries "since_ts"
        pure (.l1Mempool sinceTs)) content
  | "in_block", content =>
      struct? ["l2_height", "l1_height", "included_ts"] (fun entries => do
        let l2Height ← required? u32? entries "l2_height"
        let l1Height ← required? u32? entries "l1_height"
        let includedTs ← required? u64? entries "included_ts"
        pure (.inBlock l2Height l1Height includedTs)) content
  | "finalized", content =>
      struct? ["l2_height", "l1_height"] (fun entries => do
        let l2Height ← required? u32? entries "l2_height"
        let l1Height ← required? u32? entries "l1_height"
        pure (.finalized l2Height l1Height)) content
  | "failed", content =>
      struct? ["reason", "ts"] (fun entries => do
        let reason ← required? str? entries "reason"
        let ts ← required? u64? entries "ts"
        pure (.failed reason ts)) content
  | _, _ => none

def TxStatus.deserialize : Json → Option TxStatus := tagged? "kind" TxStatus.ofContent

theorem TxKind.deserialize_serialize (k : TxKind) : TxKind.deserialize k.serialize = some k := by
  cases k <;> rfl

theorem TxStatus.deserialize_serialize (status : TxStatus) :
    TxStatus.deserialize status.serialize = some status := by
  cases status with
  | soft sinceTs => rfl
  | l1Mempool sinceTs => rfl
  | inBlock l2Height l1Height includedTs =>
      show ((u32? (u32 l2Height)).bind fun l2Height => (u32? (u32 l1Height)).bind fun l1Height =>
        some (TxStatus.inBlock l2Height l1Height includedTs)) = _
      rw [u32?_u32, Option.bind_some, u32?_u32, Option.bind_some]
  | finalized l2Height l1Height =>
      show ((u32? (u32 l2Height)).bind fun l2Height => (u32? (u32 l1Height)).bind fun l1Height =>
        some (TxStatus.finalized l2Height l1Height)) = _
      rw [u32?_u32, Option.bind_some, u32?_u32, Option.bind_some]
  | failed reason ts => rfl

/-! ### Records -/

def KdfParams.serialize (p : KdfParams) : Json :=
  struct [("m_cost", some (u32 p.mCost)), ("t_cost", some (u32 p.tCost)),
    ("p_cost", some (u32 p.pCost))]

def KdfParams.deserialize : Json → Option KdfParams :=
  struct? ["m_cost", "t_cost", "p_cost"] fun entries => do
    let mCost ← required? u32? entries "m_cost"
    let tCost ← required? u32? entries "t_cost"
    let pCost ← required? u32? entries "p_cost"
    pure ⟨mCost, tCost, pCost⟩

def EncryptedMnemonic.serialize (blob : EncryptedMnemonic) : Json :=
  struct [("kdf", some (.str blob.kdf)), ("kdf_params", some blob.kdfParams.serialize),
    ("salt_b64", some (.str blob.saltB64)), ("nonce_b64", some (.str blob.nonceB64)),
    ("ciphertext_b64", some (.str blob.ciphertextB64))]

def EncryptedMnemonic.deserialize : Json → Option EncryptedMnemonic :=
  struct? ["kdf", "kdf_params", "salt_b64", "nonce_b64", "ciphertext_b64"] fun entries => do
    let kdf ← required? str? entries "kdf"
    let kdfParams ← required? KdfParams.deserialize entries "kdf_params"
    let saltB64 ← required? str? entries "salt_b64"
    let nonceB64 ← required? str? entries "nonce_b64"
    let ciphertextB64 ← required? str? entries "ciphertext_b64"
    pure ⟨kdf, kdfParams, saltB64, nonceB64, ciphertextB64⟩

def MintRecord.fields (r : MintRecord) : List (String × Option Json) :=
  [("mint_address", some (.str r.mintAddress)), ("lock_blocks", some (u32 r.lockBlocks)),
    ("bip32_index", some (u32 r.bip32Index)), ("outpoint", r.outpoint.map .str),
    ("value_sat", r.valueSat.map .num), ("funded_at_height", r.fundedAtHeight.map u32),
    ("minted", some (.bool r.minted)), ("reclaimed", some (.bool r.reclaimed))]

def MintRecord.serialize (r : MintRecord) : Json := struct r.fields

def MintRecord.deserialize : Json → Option MintRecord :=
  struct? ["mint_address", "lock_blocks", "bip32_index", "outpoint", "value_sat",
      "funded_at_height", "minted", "reclaimed"] fun entries => do
    let mintAddress ← required? str? entries "mint_address"
    let lockBlocks ← required? u32? entries "lock_blocks"
    let bip32Index ← required? u32? entries "bip32_index"
    let outpoint ← defaulted? none (option? str?) entries "outpoint"
    let valueSat ← defaulted? none (option? u64?) entries "value_sat"
    let fundedAtHeight ← defaulted? none (option? u32?) entries "funded_at_height"
    let minted ← defaulted? false bool? entries "minted"
    let reclaimed ← defaulted? false bool? entries "reclaimed"
    pure ⟨mintAddress, lockBlocks, bip32Index, outpoint, valueSat, fundedAtHeight,
      minted, reclaimed⟩

def TxRecord.fields (t : TxRecord) : List (String × Option Json) :=
  [("id", some (.str t.id)), ("kind", some t.kind.serialize),
    ("created_ts", some (.num t.createdTs)), ("amount", some (.num t.amount)),
    ("fee_atoms", t.feeAtoms.map .num), ("fee_sat", t.feeSat.map .num),
    ("counterparty", t.counterparty.map .str), ("status", some t.status.serialize),
    ("l1_txid", t.l1Txid.map .str), ("l2_sighash", t.l2Sighash.map .str),
    ("bip32_index", t.bip32Index.map u32), ("note", t.note.map .str)]

def TxRecord.serialize (t : TxRecord) : Json := struct t.fields

def TxRecord.deserialize : Json → Option TxRecord :=
  struct? ["id", "kind", "created_ts", "amount", "fee_atoms", "fee_sat", "counterparty", "status",
      "l1_txid", "l2_sighash", "bip32_index", "note"] fun entries => do
    let id ← required? str? entries "id"
    let kind ← required? TxKind.deserialize entries "kind"
    let createdTs ← required? u64? entries "created_ts"
    let amount ← required? u64? entries "amount"
    let feeAtoms ← defaulted? none (option? u64?) entries "fee_atoms"
    let feeSat ← defaulted? none (option? u64?) entries "fee_sat"
    let counterparty ← defaulted? none (option? str?) entries "counterparty"
    let status ← required? TxStatus.deserialize entries "status"
    let l1Txid ← defaulted? none (option? str?) entries "l1_txid"
    let l2Sighash ← defaulted? none (option? str?) entries "l2_sighash"
    let bip32Index ← defaulted? none (option? u32?) entries "bip32_index"
    let note ← defaulted? none (option? str?) entries "note"
    pure ⟨id, kind, createdTs, amount, feeAtoms, feeSat, counterparty, status, l1Txid, l2Sighash,
      bip32Index, note⟩

theorem KdfParams.deserialize_serialize (p : KdfParams) :
    KdfParams.deserialize p.serialize = some p := by
  show ((u32? (u32 p.mCost)).bind fun mCost => (u32? (u32 p.tCost)).bind fun tCost =>
    (u32? (u32 p.pCost)).bind fun pCost => some (KdfParams.mk mCost tCost pCost)) = _
  rw [u32?_u32, Option.bind_some, u32?_u32, Option.bind_some, u32?_u32, Option.bind_some]

theorem EncryptedMnemonic.deserialize_serialize (blob : EncryptedMnemonic) :
    EncryptedMnemonic.deserialize blob.serialize = some blob := by
  show ((KdfParams.deserialize blob.kdfParams.serialize).bind fun kdfParams =>
    some (EncryptedMnemonic.mk blob.kdf kdfParams blob.saltB64 blob.nonceB64
      blob.ciphertextB64)) = _
  rw [KdfParams.deserialize_serialize, Option.bind_some]

theorem MintRecord.deserialize_serialize (r : MintRecord) :
    MintRecord.deserialize r.serialize = some r := by
  have hnames : (r.fields.map Prod.fst).Nodup := show ["mint_address", "lock_blocks", "bip32_index",
    "outpoint", "value_sat", "funded_at_height", "minted", "reclaimed"].Nodup by decide
  rw [MintRecord.deserialize, MintRecord.serialize, struct?_struct,
    required?_present str? hnames 0 rfl rfl,
    required?_present u32? hnames 1 rfl (u32?_u32 _),
    required?_present u32? hnames 2 rfl (u32?_u32 _),
    defaulted?_skipped str? .str hnames 3 rfl nofun fun _ _ => rfl,
    defaulted?_skipped u64? .num hnames 4 rfl nofun fun _ _ => rfl,
    defaulted?_skipped u32? u32 hnames 5 rfl nofun fun _ _ => u32?_u32 _,
    defaulted?_present false bool? hnames 6 rfl rfl,
    defaulted?_present false bool? hnames 7 rfl rfl]
  rfl

theorem TxRecord.deserialize_serialize (t : TxRecord) :
    TxRecord.deserialize t.serialize = some t := by
  have hnames : (t.fields.map Prod.fst).Nodup :=
    show ["id", "kind", "created_ts", "amount", "fee_atoms", "fee_sat", "counterparty", "status",
      "l1_txid", "l2_sighash", "bip32_index", "note"].Nodup by decide
  rw [TxRecord.deserialize, TxRecord.serialize, struct?_struct,
    required?_present str? hnames 0 rfl rfl,
    required?_present TxKind.deserialize hnames 1 rfl (TxKind.deserialize_serialize _),
    required?_present u64? hnames 2 rfl rfl,
    required?_present u64? hnames 3 rfl rfl,
    defaulted?_skipped u64? .num hnames 4 rfl nofun fun _ _ => rfl,
    defaulted?_skipped u64? .num hnames 5 rfl nofun fun _ _ => rfl,
    defaulted?_skipped str? .str hnames 6 rfl nofun fun _ _ => rfl,
    required?_present TxStatus.deserialize hnames 7 rfl (TxStatus.deserialize_serialize _),
    defaulted?_skipped str? .str hnames 8 rfl nofun fun _ _ => rfl,
    defaulted?_skipped str? .str hnames 9 rfl nofun fun _ _ => rfl,
    defaulted?_skipped u32? u32 hnames 10 rfl nofun fun _ _ => u32?_u32 _,
    defaulted?_skipped str? .str hnames 11 rfl nofun fun _ _ => rfl]
  rfl

end Wallet

end Hodlchain
