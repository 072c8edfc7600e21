/-
Consensus constants, the mint function, and the script a mint output must have.

The constants keep the source's values.  A mint output is a two-leaf Taproot
output under a fixed internal key: the leaf that spends it after the lock, and a
leaf that only stamps it with the chain's tag.  The Taproot output itself is a
primitive; the two leaf scripts are built here byte by byte.
-/
import Hodlchain.Core.Primitives

namespace Hodlchain

open Bytes

/-! ### Constants -/

/-- `DATA_LEAF_TAG`. -/
def dataLeafTag : String := "L2/hodlchain/v1"

/-- `MAGIC`. -/
def magic : Bytes := utf8 "HODL"

/-- `ATTESTATION_VERSION`. -/
def attestationVersion : UInt8 := 0

/-- `ATTESTATION_LEN`. -/
def attestationLen : Nat := 4 + 1 + 4 + 32 + 32

/-- `FEE_BPS`. -/
def feeBps : UInt64 := 1

/-- `MIN_FEE`. -/
def minFee : UInt64 := 100

/-- `MINT_CONFIRMATIONS`. -/
def mintConfirmations : UInt32 := 1

/-- `MAX_LOCK_BLOCKS`. -/
def maxLockBlocks : UInt32 := 0xFFFF

/-- `mint_fn`. -/
def mintFn (prim : Primitives) (valueSat : UInt64) (lockBlocks : UInt32) : UInt64 :=
  if lockBlocks = 0 ∨ valueSat = 0 then 0 else prim.mintCurve valueSat lockBlocks

/-- `data_leaf_commitment`: the BIP340 tagged hash of the key. -/
def dataLeafCommitment (prim : Primitives) (userPk : XOnlyPublicKey) : H256 :=
  let tagHash := prim.sha256 (utf8 dataLeafTag)
  prim.sha256 (tagHash.raw ++ tagHash.raw ++ userPk.serialize)

/-! ### The leaf scripts -/

inductive MintConstructionError where
  | lockBlocksTooSmall
  | lockBlocksTooLarge (got max : UInt32)
deriving DecidableEq, Repr

/-- `validate_lock_blocks`. -/
def validateLockBlocks (lockBlocks : UInt32) : Except MintConstructionError Unit :=
  if lockBlocks = 0 then .error .lockBlocksTooSmall
  else if lockBlocks > maxLockBlocks then .error (.lockBlocksTooLarge lockBlocks maxLockBlocks)
  else .ok ()

/-- The little-endian bytes of a script number that is not negative; a last byte
with its top bit set is followed by a zero, since that bit is the sign. -/
def scriptNumBytes : Nat → Nat → Bytes
  | 0, _ => []
  | fuel + 1, n =>
      if n = 0 then []
      else if n < 128 then [UInt8.ofNat n]
      else if n < 256 then [UInt8.ofNat n, 0]
      else UInt8.ofNat n :: scriptNumBytes fuel (n / 256)

/-- `Builder::push_slice`, for the lengths a single length byte covers. -/
def pushSlice (data : Bytes) : Bytes := UInt8.ofNat data.length :: data

/-- `Builder::push_int` on a `u32`. -/
def pushInt (n : UInt32) : Bytes :=
  if n = 0 then [0x00]
  else if n ≤ 16 then [0x50 + n.toUInt8]
  else pushSlice (scriptNumBytes 5 n.toNat)

/-- `csv_tapleaf_script`: `<T> OP_CSV OP_DROP <pk> OP_CHECKSIG`. -/
def csvTapleafScript (lockBlocks : UInt32) (userPk : XOnlyPublicKey) :
    Except MintConstructionError ScriptBuf :=
  match validateLockBlocks lockBlocks with
  | .error e => .error e
  | .ok () => .ok (pushInt lockBlocks ++ [0xb2, 0x75] ++ pushSlice userPk.serialize ++ [0xac])

/-- `data_tapleaf_script`: `OP_RETURN <D>`. -/
def dataTapleafScript (prim : Primitives) (userPk : XOnlyPublicKey) : ScriptBuf :=
  [0x6a] ++ pushSlice (dataLeafCommitment prim userPk).raw

/-- `expected_p2tr_spk`. -/
def expectedP2trSpk (prim : Primitives) (lockBlocks : UInt32) (userPk : XOnlyPublicKey) :
    Except MintConstructionError ScriptBuf :=
  match csvTapleafScript lockBlocks userPk with
  | .error e => .error e
  | .ok spend => .ok (prim.taprootSpk spend (dataTapleafScript prim userPk))

theorem validateLockBlocks_ok_iff {lockBlocks : UInt32} :
    validateLockBlocks lockBlocks = .ok () ↔ lockBlocks ≠ 0 ∧ lockBlocks ≤ maxLockBlocks := by
  simp only [validateLockBlocks]
  by_cases h0 : lockBlocks = 0
  · simp [h0]
  · by_cases hmax : lockBlocks > maxLockBlocks
    · simp [h0, hmax]
    · simp [h0, hmax, UInt32.not_lt.mp hmax]

/-! ### The lock script determines the lock and the key -/

/-- The number little-endian bytes spell. -/
private def leValue (b : Bytes) : ℕ := b.foldr (fun x acc => x.toNat + 256 * acc) 0

private theorem leValue_scriptNumBytes :
    ∀ {fuel n : ℕ}, n < 256 ^ fuel → leValue (scriptNumBytes fuel n) = n := by
  intro fuel
  induction fuel with
  | zero =>
      intro n h
      obtain rfl : n = 0 := by omega
      rfl
  | succ fuel ih =>
      intro n h
      rw [scriptNumBytes]
      split_ifs with h0 h128 h256
      · exact h0.symm
      · simp [leValue]
        omega
      · simp [leValue]
        omega
      · have hrest := @ih (n / 256) (Nat.div_lt_of_lt_mul (by rwa [pow_succ'] at h))
        have hcons : leValue (UInt8.ofNat n :: scriptNumBytes fuel (n / 256))
            = n % 256 + 256 * leValue (scriptNumBytes fuel (n / 256)) := by
          simp [leValue]
        rw [hcons, hrest]
        omega

private theorem pushInt_inj {m n : UInt32} (hm : m ≠ 0) (hn : n ≠ 0) (h : pushInt m = pushInt n) :
    m = n := by
  have hvalue : ∀ k : UInt32, leValue (scriptNumBytes 5 k.toNat) = k.toNat := fun k =>
    leValue_scriptNumBytes (k.toNat_lt.trans (by norm_num))
  have hnonempty : ∀ k : UInt32, k ≠ 0 → scriptNumBytes 5 k.toNat ≠ [] := fun k hk hnil => by
    have hzero := hvalue k
    rw [hnil] at hzero
    exact hk (UInt32.toNat_inj.mp hzero.symm)
  simp only [pushInt, if_neg hm, if_neg hn] at h
  split_ifs at h with hsmall hsmall' hsmall'
  · -- both are `OP_1` to `OP_16`
    have hle := UInt32.le_iff_toNat_le.mp hsmall
    have hle' := UInt32.le_iff_toNat_le.mp hsmall'
    have hbyte := congrArg UInt8.toNat (UInt8.add_right_inj _ |>.mp (List.cons.inj h).1)
    simp only [UInt32.toNat_toUInt8] at hbyte
    refine UInt32.toNat_inj.mp ?_
    have h16 : (16 : UInt32).toNat = 16 := rfl
    omega
  · exact absurd (List.cons.inj h).2.symm (hnonempty n hn)
  · exact absurd (List.cons.inj h).2 (hnonempty m hm)
  · rw [pushSlice, pushSlice, List.cons.injEq] at h
    exact UInt32.toNat_inj.mp ((hvalue m).symm.trans ((congrArg leValue h.2).trans (hvalue n)))

/-- **A lock script is the script of one lock and one key.** -/
theorem csvTapleafScript_inj {m n : UInt32} {pk pk' : XOnlyPublicKey} {spk : ScriptBuf}
    (h : csvTapleafScript m pk = .ok spk) (h' : csvTapleafScript n pk' = .ok spk) :
    m = n ∧ pk = pk' := by
  have hok : ∀ {k : UInt32} {key : XOnlyPublicKey}, csvTapleafScript k key = .ok spk →
      k ≠ 0 ∧ pushInt k ++ ([0xb2, 0x75] ++ (pushSlice key.serialize ++ [0xac])) = spk := by
    intro k key hk
    rw [csvTapleafScript] at hk
    cases hv : validateLockBlocks k with
    | error e => simp [hv] at hk
    | ok u =>
        rw [hv] at hk
        exact ⟨(validateLockBlocks_ok_iff.mp hv).1, by simpa using hk⟩
  obtain ⟨hm, hspk⟩ := hok h
  obtain ⟨hn, hspk'⟩ := hok h'
  have heq := hspk.trans hspk'.symm
  rw [append_split_right (by simp [pushSlice]), append_split rfl, append_split_right rfl] at heq
  obtain ⟨hlock, -, hpush, -⟩ := heq
  rw [pushSlice, pushSlice, List.cons.injEq] at hpush
  exact ⟨pushInt_inj hm hn hlock, XOnlyPublicKey.serialize_inj.mp hpush.2⟩

end Hodlchain
