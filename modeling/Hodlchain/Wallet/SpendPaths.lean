/-
The ways of spending a mint output.

The output has no key that signs for it, and two leaves.  The data leaf accepts nothing.
The other accepts one signature by the locker's key, on an input that asks for the lock;
with the rule for relative locks, nothing spends the output before the lock has run, and
the reclaim transaction of the wallet spends it from then on.
-/
import Hodlchain.Bitcoin.Tapscript
import Hodlchain.Node.Backing
import Hodlchain.Wallet.Maturity

namespace Hodlchain.Wallet

open Bytes Tapscript

/-! ### The leaves as scripts -/

section

variable {prim : Primitives} {lock : UInt32} {pk : XOnlyPublicKey} {lSpend : ScriptBuf}
  {stack : List Bytes}

/-- The lock of a leaf is read as a push. -/
theorem readInstr_pushInt (hpos : lock ≠ 0) (hmax : lock ≤ maxLockBlocks) (rest : Bytes) :
    ∃ operand, readInstr (pushInt lock ++ rest) = some (.push operand, rest) ∧
      operand.length ≤ 5 ∧ scriptNum operand = (lock.toNat : ℤ) := by
  obtain ⟨operand, hread, hlength, hvalue⟩ := readPush_pushInt hpos hmax rest
  refine ⟨operand, readInstr_of_readPush hread fun code tail hb hcode => ?_, hlength, hvalue⟩
  rw [pushInt, if_neg hpos] at hb
  have hmaxNat : lock.toNat ≤ 65535 := UInt32.le_iff_toNat_le.mp hmax
  by_cases hsmall : lock ≤ 16
  · -- the opcode of a small number is no direct push
    rw [if_pos hsmall, List.singleton_append] at hb
    obtain ⟨rfl, -⟩ := List.cons.inj hb
    have hle := UInt8.le_iff_toNat_le.mp hcode
    have hlow : lock.toNat ≤ 16 := UInt32.le_iff_toNat_le.mp hsmall
    rw [UInt8.toNat_add, UInt32.toNat_toUInt8] at hle
    change (80 + lock.toNat % 256) % 256 ≤ 75 at hle
    omega
  · rw [if_neg hsmall, pushSlice, List.cons_append] at hb
    obtain ⟨rfl, rfl⟩ := List.cons.inj hb
    have hshort := @length_scriptNumBytes_le 5 lock.toNat 2 (by omega)
    rw [UInt8.toNat_ofNat', List.length_append]
    omega

/-- The spending leaf is a lock in front of a signature. -/
theorem scan_csvTapleafScript (h : csvTapleafScript lock pk = .ok lSpend) : ∃ operand,
    scan lSpend = .instructions (lockInstrs operand pk.serialize) ∧ operand.length ≤ 5 ∧
      scriptNum operand = (lock.toNat : ℤ) := by
  rw [csvTapleafScript] at h
  cases hvalid : validateLockBlocks lock with
  | error e =>
      rw [hvalid] at h
      cases h
  | ok u =>
      obtain ⟨hpos, hmax⟩ := validateLockBlocks_ok_iff.mp hvalid
      rw [hvalid] at h
      obtain rfl := Except.ok.inj h
      have hkey : ∀ rest, readInstr (pushSlice pk.serialize ++ rest)
          = some (.push pk.serialize, rest) := by
        intro rest
        exact readInstr_push (by rw [XOnlyPublicKey.length_serialize]; omega)
      obtain ⟨operand, hlock, hlength, hvalue⟩ :=
        readInstr_pushInt hpos hmax (0xb2 :: 0x75 :: (pushSlice pk.serialize ++ [0xac]))
      refine ⟨operand, ?_, hlength, hvalue⟩
      have hshape : pushInt lock ++ [0xb2, 0x75] ++ pushSlice pk.serialize ++ [0xac]
          = pushInt lock ++ (0xb2 :: 0x75 :: (pushSlice pk.serialize ++ [0xac])) := by simp
      obtain ⟨n, hn⟩ : ∃ n,
          (pushInt lock ++ (0xb2 :: 0x75 :: (pushSlice pk.serialize ++ [0xac]))).length
            = n + 5 := by
        refine ⟨(pushInt lock).length + (pk.serialize.length - 1), ?_⟩
        simp [pushSlice]
      rw [hshape, scan, hn, scanFrom_push hlock, scanFrom_op (by decide) rfl,
        scanFrom_op (by decide) rfl, scanFrom_push (hkey _), scanFrom_op (by decide) rfl,
          scanFrom_nil]
      rfl

/-- The data leaf starts with `OP_RETURN`. -/
theorem scan_dataTapleafScript :
    ∃ l, scan (dataTapleafScript prim pk) = .instructions (.op 0x6a :: l) := by
  have hpush := @readInstr_push [] (dataLeafCommitment prim pk).raw (by rw [H256.length_raw]; omega)
  have hlength : (dataTapleafScript prim pk).length = 32 + 2 := by
    simp [dataTapleafScript, pushSlice]
  rw [scan, hlength]
  unfold dataTapleafScript
  rw [List.singleton_append, scanFrom_op (by decide) rfl, pushSlice]
  rw [List.append_nil] at hpush
  rw [scanFrom_push hpush, scanFrom_nil]
  exact ⟨_, rfl⟩

/-- A lock of a leaf is between 1 and the largest. -/
theorem csvTapleafScript_lock (h : csvTapleafScript lock pk = .ok lSpend) :
    lock ≠ 0 ∧ lock.toNat < 65536 := by
  rw [csvTapleafScript] at h
  cases hvalid : validateLockBlocks lock with
  | error e =>
      rw [hvalid] at h
      cases h
  | ok u =>
      obtain ⟨hpos, hmax⟩ := validateLockBlocks_ok_iff.mp hvalid
      have hle : lock.toNat ≤ 65535 := UInt32.le_iff_toNat_le.mp hmax
      exact ⟨hpos, by omega⟩

/-- **The spending leaf** accepts one signature by the key, on an input that asks for the lock in
blocks. -/
theorem unlocks_csvTapleafScript_iff {ctx : Context} (h : csvTapleafScript lock pk = .ok lSpend) :
    Unlocks ctx lSpend stack ↔
      (2 ≤ ctx.version ∧ ctx.sequence.toNat.testBit 31 = false ∧
        ctx.sequence.toNat.testBit 22 = false ∧ lock.toNat ≤ ctx.sequence.toNat % 65536) ∧
        ∃ sig, stack = [sig] ∧ sig ≠ [] ∧ sig.length ≤ 520 ∧
          ctx.checkSig pk.serialize sig = true := by
  obtain ⟨operand, hscan, hlength, hvalue⟩ := scan_csvTapleafScript h
  have hmax : lock.toNat < 2 ^ 16 := (csvTapleafScript_lock h).2
  have hclear : ∀ i, 16 ≤ i → lock.toNat.testBit i = false := fun i hi =>
    Nat.testBit_eq_false_of_lt (hmax.trans_le (Nat.pow_le_pow_right (by norm_num) hi))
  have hmod : lock.toNat % 65536 = lock.toNat := Nat.mod_eq_of_lt hmax
  rw [unlocks_lock_iff hscan (by omega) (by simp), CheckSequenceVerify, hvalue, Int.toNat_natCast,
    hclear 31 (by norm_num), hclear 22 (by norm_num), hmod]
  simp only [hlength, Int.natCast_nonneg, Bool.false_eq_true, false_or, true_and, eq_comm]

/-- **The data leaf** accepts nothing. -/
theorem not_unlocks_dataTapleafScript {ctx : Context} :
    ¬ Unlocks ctx (dataTapleafScript prim pk) stack := by
  obtain ⟨l, hscan⟩ := @scan_dataTapleafScript prim pk
  exact not_unlocks_return hscan

end

/-! ### Spending the output -/

section

variable {ι : Type} {prim : Primitives} {rules : SpendRules ι} {lock : UInt32} {pk : XOnlyPublicKey}
  {spk lSpend : ScriptBuf} {confirmed b : ℕ} {i : ι}

/-- What is relied on: the internal key is a point nobody knows the discrete logarithm of, so that
no signature by the key of a mint output exists, and the output commits to its two leaves alone. -/
structure MintOutputs (prim : Primitives) (rules : SpendRules ι) : Prop where
  noKeyPath : ∀ lock pk spk, expectedP2trSpk prim lock pk = .ok spk → ∀ i sig,
    ¬ rules.keyPath i spk sig
  leaves : ∀ lock pk spk lSpend, expectedP2trSpk prim lock pk = .ok spk →
    csvTapleafScript lock pk = .ok lSpend → ∀ control script, rules.commits spk control script →
      leafVersion control = some 0xc0 ∧ (script = lSpend ∨ script = dataTapleafScript prim pk)

/-- A sequence that asks for blocks. -/
theorem relativeLock_blocks_iff {version sequence : UInt32} {n : ℕ} :
    relativeLock version sequence = .blocks n ↔ 2 ≤ version ∧ sequence.toNat.testBit 31 = false ∧
      sequence.toNat.testBit 22 = false ∧ sequence.toNat % 65536 = n := by
  unfold relativeLock
  by_cases hversion : version < 2
  · simp [hversion, UInt32.not_le.mpr hversion]
  · have hversion' := UInt32.not_lt.mp hversion
    cases hdisabled : sequence.toNat.testBit 31
    · cases htime : sequence.toNat.testBit 22
      · simp [hversion, hversion']
      · simp [hversion]
    · simp

/-- **What spends a mint output.**  A witness of one signature by the locker's key, the spending
leaf and a control block, on an input that asks for the lock in blocks, in a block above the
lock. -/
theorem validSpend_mint_iff (hrules : MintOutputs prim rules)
    (hspk : expectedP2trSpk prim lock pk = .ok spk)
    (hspend : csvTapleafScript lock pk = .ok lSpend) :
    rules.ValidSpend spk confirmed b i ↔
      (∃ sig control, dropAnnex (rules.witness i) = [sig, lSpend, control] ∧ ControlSize control ∧
        rules.commits spk control lSpend ∧ sig ≠ [] ∧ sig.length ≤ 520 ∧
        rules.checkSig i lSpend pk.serialize sig = true) ∧
      ∃ n, relativeLock (rules.version i) (rules.sequence i) = .blocks n ∧ lock.toNat ≤ n ∧
        confirmed + n ≤ b := by
  constructor
  · rintro ⟨⟨sig, -, hkey⟩ | ⟨elements, script, control, hwitness, hsize, hcommits, hunlocks⟩, hmet⟩
    · exact absurd hkey (hrules.noKeyPath lock pk spk hspk i sig)
    · obtain ⟨hversion, rfl | rfl⟩ := hrules.leaves lock pk spk lSpend hspk hspend control
        script hcommits
      · obtain ⟨⟨hv, hd, ht, hlock⟩, sig, hstack, hne, hlen, hsig⟩ :=
          (unlocks_csvTapleafScript_iff hspend).mp (hunlocks hversion)
        have hone : elements = [sig] := by
          rw [← List.reverse_reverse elements, hstack]
          rfl
        have hblocks := relativeLock_blocks_iff.mpr ⟨hv, hd, ht, rfl⟩
        change relativeLock (rules.version i) (rules.sequence i) = _ at hblocks
        rw [hblocks] at hmet
        refine ⟨⟨sig, control, ?_, hsize, hcommits, hne, hlen, hsig⟩, _, hblocks, hlock, hmet⟩
        rw [hwitness, hone]
        rfl
      · exact absurd (hunlocks hversion) not_unlocks_dataTapleafScript
  · rintro ⟨⟨sig, control, hwitness, hsize, hcommits, hne, hlen, hsig⟩, n, hblocks, hlock, hle⟩
    refine ⟨.inr ⟨[sig], lSpend, control, hwitness, hsize, hcommits, fun _ => ?_⟩, ?_⟩
    · obtain ⟨hv, hd, ht, rfl⟩ := relativeLock_blocks_iff.mp hblocks
      exact (unlocks_csvTapleafScript_iff hspend).mpr ⟨⟨hv, hd, ht, hlock⟩, sig, rfl,
        hne, hlen, hsig⟩
    · rw [hblocks]
      exact hle

/-- Nothing spends it before the lock has run. -/
theorem validSpend_mint_mature (hrules : MintOutputs prim rules)
    (hspk : expectedP2trSpk prim lock pk = .ok spk) (h : rules.ValidSpend spk confirmed b i) :
    confirmed + lock.toNat ≤ b := by
  cases hspend : csvTapleafScript lock pk with
  | error e =>
      rw [expectedP2trSpk, hspend] at hspk
      cases hspk
  | ok lSpend =>
      obtain ⟨-, n, -, hlock, hle⟩ := (validSpend_mint_iff hrules hspk hspend).mp h
      omega

end

/-! ### The reclaim -/

section

variable {prim : Primitives} {btc : BitcoinCrate} {rules : SpendRules Transaction} {lock : UInt32}
  {kp : Keypair} {op : OutPoint} {value fee : UInt64} {dest : L1Address} {tx : Transaction}
  {spk : ScriptBuf} {confirmed b : ℕ}

/-- The rules of Bitcoin for a transaction with one input, which spends `prevout`, and what
rust-bitcoin computes by the same rules: the digest that is signed leaves out the witness. -/
structure TransactionRules (prim : Primitives) (btc : BitcoinCrate) (rules : SpendRules Transaction)
    (prevout : TxOut) : Prop where
  version : ∀ tx, rules.version tx = tx.version
  sequence : ∀ tx i, tx.input = [i] → rules.sequence tx = i.sequence
  witness : ∀ tx i, tx.input = [i] → rules.witness tx = i.witness
  commits : ∀ spk control leaf, btc.verifyCommitment spk control leaf = true →
    rules.commits spk control leaf
  control : ∀ spend data control, btc.controlBlock spend data = some control → ControlSize control
  checkSig : ∀ tx i leaf digest key sig, tx.input = [i] →
    btc.scriptSpendSighash { tx with input := [{ i with witness := [] }] } prevout leaf =
      some digest →
    prim.verifySchnorr sig digest key = true →
    rules.checkSig tx leaf key.serialize sig.serialize = true

/-- A control block is no annex. -/
theorem dropAnnex_spend {sig leaf control : Bytes} (h : leafVersion control = some 0xc0) :
    dropAnnex [sig, leaf, control] = [sig, leaf, control] := by
  unfold dropAnnex
  rw [if_neg]
  rintro ⟨-, hannex⟩
  change control.head? = some 0x50 at hannex
  rw [leafVersion, hannex] at h
  exact absurd h (by decide)

/-- What the reclaim transaction carries is signed, and committed to. -/
theorem buildSignedReclaimTx_signed
    (hok : buildSignedReclaimTx prim btc kp op value lock dest fee = .ok tx) :
    ∃ leaf control digest, csvTapleafScript lock kp.xOnlyPublicKey = .ok leaf ∧
      btc.controlBlock leaf (dataTapleafScript prim kp.xOnlyPublicKey) = some control ∧
      tx.version = 2 ∧ tx.input = [⟨op, sequenceFromHeight lock.toUInt16,
        [(kp.signSchnorrNoAuxRand digest).serialize, leaf, control]⟩] ∧
      ∀ spk, expectedP2trSpk prim lock kp.xOnlyPublicKey = .ok spk →
        btc.scriptSpendSighash { tx with input := [⟨op, sequenceFromHeight lock.toUInt16, []⟩] }
          ⟨value, spk⟩ leaf = some digest ∧
        btc.verifyCommitment spk control leaf = true := by
  simp only [buildSignedReclaimTx, bind_ok_iff, ensure_ok_iff, mapErr_ok_iff, okOr_ok_iff,
    pure_ok_iff] at hok
  obtain ⟨_, -, _, -, spk, hspk, leaf, hleaf, control, hcontrol, digest, hdigest, _,
    hcommits, rfl⟩ := hok
  refine ⟨leaf, control, digest, hleaf, hcontrol, rfl, rfl, fun spk' hspk' => ?_⟩
  obtain rfl := Except.ok.inj (hspk.symm.trans hspk')
  exact ⟨hdigest, hcommits⟩

/-- **The reclaim spends the output as soon as anything can.**  The spending leaf of the output
accepts one signature by the locker's key, on an input that asks for the lock in blocks, and the
data leaf nothing.  The transaction the wallet builds is a valid spend in block `b` exactly when the
lock has run, and before that no transaction at all is one; whatever spends the output carries a
signature by the locker's key. -/
theorem reclaim_earliest {prim : Primitives} {btc : BitcoinCrate} {rules : SpendRules Transaction}
    {kp : Keypair} {op : OutPoint} {value fee : UInt64} {lock : UInt32} {dest : L1Address}
    {tx : Transaction} {spk : ScriptBuf}
    (hok : buildSignedReclaimTx prim btc kp op value lock dest fee = .ok tx)
    (hspk : expectedP2trSpk prim lock kp.xOnlyPublicKey = .ok spk) (hrules : MintOutputs prim rules)
    (htx : TransactionRules prim btc rules ⟨value, spk⟩)
    (hkey : ∀ digest, prim.verifySchnorr (kp.signSchnorrNoAuxRand digest) digest kp.xOnlyPublicKey
      = true) (confirmed b : ℕ) :
    (∃ leaf, csvTapleafScript lock kp.xOnlyPublicKey = .ok leaf ∧ ∀ (ctx : Context) stack,
      (Unlocks ctx leaf stack ↔ (2 ≤ ctx.version ∧ ctx.sequence.toNat.testBit 31 = false ∧
        ctx.sequence.toNat.testBit 22 = false ∧ lock.toNat ≤ ctx.sequence.toNat % 65536) ∧
        ∃ sig, stack = [sig] ∧ sig ≠ [] ∧ sig.length ≤ 520 ∧
          ctx.checkSig kp.xOnlyPublicKey.serialize sig = true) ∧
      ¬ Unlocks ctx (dataTapleafScript prim kp.xOnlyPublicKey) stack) ∧
    (rules.ValidSpend spk confirmed b tx ↔ confirmed + lock.toNat ≤ b) ∧
    ∀ other, rules.ValidSpend spk confirmed b other → rules.ValidSpend spk confirmed b tx ∧
      ∃ leaf sig, csvTapleafScript lock kp.xOnlyPublicKey = .ok leaf ∧
        rules.checkSig other leaf kp.xOnlyPublicKey.serialize sig = true := by
  obtain ⟨leaf, control, digest, hleaf, hcontrol, hversion, hinput, hchecked⟩ :=
    buildSignedReclaimTx_signed hok
  obtain ⟨hdigest, hcommits⟩ := hchecked spk hspk
  have hcommitted := htx.commits _ _ _ hcommits
  obtain ⟨hleafVersion, -⟩ := hrules.leaves _ _ _ _ hspk hleaf _ _ hcommitted
  have hlock := (csvTapleafScript_lock hleaf).2
  have hsequence : (sequenceFromHeight lock.toUInt16).toNat = lock.toNat := by
    show lock.toNat % 65536 = _
    omega
  have hblocks : relativeLock (rules.version tx) (rules.sequence tx) = .blocks lock.toNat := by
    rw [htx.version, htx.sequence tx _ hinput, hversion,
      relativeLock_of_lt (UInt32.le_refl 2) (by rw [hsequence]; exact hlock), hsequence]
  have hwitness : dropAnnex (rules.witness tx)
      = [(kp.signSchnorrNoAuxRand digest).serialize, leaf, control] := by
    rw [htx.witness tx _ hinput]
    exact dropAnnex_spend hleafVersion
  have hsigned := htx.checkSig tx _ leaf digest _ _ hinput hdigest (hkey digest)
  have hiff : rules.ValidSpend spk confirmed b tx ↔ confirmed + lock.toNat ≤ b := by
    refine ⟨validSpend_mint_mature hrules hspk, fun hle => ?_⟩
    refine (validSpend_mint_iff hrules hspk hleaf).mpr ⟨⟨_, control, hwitness,
      htx.control _ _ _ hcontrol, hcommitted, ?_, ?_, hsigned⟩, _, hblocks, le_rfl, hle⟩
    · intro hnil
      have hlength := Signature.length_serialize (kp.signSchnorrNoAuxRand digest)
      rw [hnil] at hlength
      cases hlength
    · rw [Signature.length_serialize]
      omega
  refine ⟨⟨leaf, hleaf, fun ctx stack => ?_⟩, hiff,
    fun other hother => ⟨hiff.mpr (validSpend_mint_mature hrules hspk hother), ?_⟩⟩
  · exact ⟨unlocks_csvTapleafScript_iff hleaf, not_unlocks_dataTapleafScript⟩
  obtain ⟨⟨sig, -, -, -, -, -, -, hsig⟩, -⟩ := (validSpend_mint_iff hrules hspk hleaf).mp hother
  exact ⟨leaf, sig, hleaf, hsig⟩

end

/-! ### A lock of twenty blocks -/

/-- A keypair whose signatures spell out what they sign. -/
def spellingKeypair : Keypair :=
  let key : XOnlyPublicKey := ⟨ByteArr.ofNat 32 7⟩
  let sign (digest : H256) : Signature :=
    ⟨(digest.bytes ++ key.bytes).cast Primitives.digest_and_key⟩
  ⟨key, fun _ digest => sign digest, sign⟩

/-- The output and the leaf of that key, over twenty blocks. -/
def twentySpk : ScriptBuf :=
  ((expectedP2trSpk Primitives.openTaproot 20 spellingKeypair.xOnlyPublicKey).toOption).getD []

def twentyLeaf : ScriptBuf :=
  ((csvTapleafScript 20 spellingKeypair.xOnlyPublicKey).toOption).getD []

/-- It knows that output alone. -/
def twentyCrate : BitcoinCrate :=
  { Libraries.sample.btc with
    controlBlock := fun _ _ => some (0xc0 :: List.replicate 64 0)
    verifyCommitment := fun spk control leaf =>
      decide (spk = twentySpk ∧ control.head? = some 0xc0 ∧ leaf = twentyLeaf) }

/-- Its rules, in which a signature is right when it spells out the digest and the key. -/
def twentyRules : SpendRules Transaction where
  version tx := tx.version
  sequence tx := (tx.input.head?.map (·.sequence)).getD 0
  witness tx := (tx.input.head?.map (·.witness)).getD []
  witnessSize _ := 0
  keyPath _ _ _ := False
  commits spk control leaf := twentyCrate.verifyCommitment spk control leaf = true
  checkSig _ _ pk sig := sig == H256.zero.raw ++ pk
  other _ _ := none
  mtp _ := 0

theorem twentyRules_mintOutputs : MintOutputs Primitives.openTaproot twentyRules where
  noKeyPath := fun _ _ _ _ _ _ h => h
  leaves := by
    intro lock pk spk lSpend hspk hspend control script hcommits
    obtain ⟨rfl, hversion, rfl⟩ := of_decide_eq_true hcommits
    have hown : expectedP2trSpk Primitives.openTaproot 20 spellingKeypair.xOnlyPublicKey
        = .ok twentySpk := rfl
    have hleaf : csvTapleafScript 20 spellingKeypair.xOnlyPublicKey = .ok twentyLeaf := rfl
    obtain ⟨rfl, rfl⟩ := openTaproot_commits _ _ _ _ _ hspk hown
    obtain rfl := Except.ok.inj (hspend.symm.trans hleaf)
    refine ⟨?_, .inl rfl⟩
    rw [leafVersion, hversion]
    rfl

theorem twentyRules_transaction :
    TransactionRules Primitives.openTaproot twentyCrate twentyRules ⟨1000000, twentySpk⟩ where
  version := fun _ => rfl
  sequence := by
    intro tx i h
    show (tx.input.head?.map (·.sequence)).getD 0 = _
    rw [h]
    rfl
  witness := by
    intro tx i h
    show (tx.input.head?.map (·.witness)).getD [] = _
    rw [h]
    rfl
  commits := fun _ _ _ h => h
  control := by
    intro spend data control h
    obtain rfl := Option.some.inj h
    exact ⟨1, by decide, rfl⟩
  checkSig := by
    intro tx i leaf digest key sig _ hdigest hsig
    obtain rfl : H256.zero = digest := Option.some.inj hdigest
    exact hsig

theorem spellingKeypair_signs (digest : H256) : Primitives.openTaproot.verifySchnorr
    (spellingKeypair.signSchnorrNoAuxRand digest) digest spellingKeypair.xOnlyPublicKey = true := by
  show ((spellingKeypair.signSchnorrNoAuxRand digest).serialize
    == digest.raw ++ spellingKeypair.xOnlyPublicKey.serialize) = true
  rw [beq_iff_eq]
  have hbytes : (spellingKeypair.signSchnorrNoAuxRand digest).bytes
      = (digest.bytes ++ spellingKeypair.xOnlyPublicKey.bytes).cast Primitives.digest_and_key := rfl
  rw [Signature.serialize, hbytes, Vector.toList_cast, Vector.toList_append]
  rfl

/-- Confirmed in block 100, the output can be spent in block 120, and by nothing in block 119. -/
theorem reclaim_earliest_twenty : ∃ tx,
    buildSignedReclaimTx Primitives.openTaproot twentyCrate spellingKeypair
      ⟨⟨ByteArr.ofNat 32 7⟩, 0⟩ 1000000 20 ⟨"", []⟩ 1000 = .ok tx ∧
    twentyRules.ValidSpend twentySpk 100 120 tx ∧
    ∀ other, ¬ twentyRules.ValidSpend twentySpk 100 119 other := by
  obtain ⟨tx, htx⟩ : ∃ tx, buildSignedReclaimTx Primitives.openTaproot twentyCrate spellingKeypair
      ⟨⟨ByteArr.ofNat 32 7⟩, 0⟩ 1000000 20 ⟨"", []⟩ 1000 = .ok tx := by
    have hsome : (buildSignedReclaimTx Primitives.openTaproot twentyCrate spellingKeypair
        ⟨⟨ByteArr.ofNat 32 7⟩, 0⟩ 1000000 20 ⟨"", []⟩ 1000).toOption.isSome = true := by
      decide +kernel
    obtain ⟨tx, htx⟩ := Option.isSome_iff_exists.mp hsome
    exact ⟨tx, toOption_eq_some_iff.mp htx⟩
  have hall := reclaim_earliest htx rfl twentyRules_mintOutputs twentyRules_transaction
    spellingKeypair_signs 100
  obtain ⟨-, hlate, -⟩ := hall 120
  obtain ⟨-, hearly, hothers⟩ := hall 119
  refine ⟨tx, htx, hlate.mpr (by decide), fun other hother => ?_⟩
  have hrun := hearly.mp (hothers other hother).1
  exact absurd hrun (by decide)

end Hodlchain.Wallet
