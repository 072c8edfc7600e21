/-
The values the ledger is written over, and what it takes from outside.

Hashes, keys, signatures and outpoints are their byte arrays.  An x-only key is
kept as the 32 bytes it serialises to: the ledger only ever compares keys, orders
them and feeds their bytes to a hash, so nothing here depends on which of those
arrays are points of the curve.

`Primitives` collects the functions the repository calls but does not contain:
SHA-256, Schnorr verification, the Taproot output built from two leaf scripts,
and the floating-point part of the mint curve.  They stay parameters, and a
theorem that needs something of one of them says what.
-/
import Hodlchain.Lib.Bytes

namespace Hodlchain

open Bytes

/-- 32-byte hash. -/
structure H256 where
  bytes : ByteArr 32
deriving DecidableEq, Repr

namespace H256

/-- `H256::ZERO`. -/
def zero : H256 := ⟨Vector.replicate 32 0⟩

instance : Inhabited H256 := ⟨zero⟩

/-- The bytes as they enter a hash. -/
def raw (h : H256) : Bytes := h.bytes.toList

@[simp] theorem length_raw (h : H256) : h.raw.length = 32 := by simp [raw]

@[simp] theorem raw_inj {a b : H256} : a.raw = b.raw ↔ a = b := by
  cases a; cases b
  simp [raw, Vector.toList_inj]

end H256

/-- A BIP340 x-only public key, by its serialisation. -/
structure XOnlyPublicKey where
  bytes : ByteArr 32
deriving DecidableEq, Repr

namespace XOnlyPublicKey

instance : Inhabited XOnlyPublicKey := ⟨⟨Vector.replicate 32 0⟩⟩

/-- `XOnlyPublicKey::serialize`. -/
def serialize (k : XOnlyPublicKey) : Bytes := k.bytes.toList

@[simp] theorem length_serialize (k : XOnlyPublicKey) : k.serialize.length = 32 := by
  simp [serialize]

@[simp] theorem serialize_inj {a b : XOnlyPublicKey} : a.serialize = b.serialize ↔ a = b := by
  cases a; cases b
  simp [serialize, Vector.toList_inj]

/-- Keys are ordered by their bytes. -/
instance : Ord XOnlyPublicKey := ⟨compareOn serialize⟩

instance : Std.TransOrd XOnlyPublicKey := inferInstanceAs (Std.TransCmp (compareOn serialize))

instance : Std.LawfulEqOrd XOnlyPublicKey where
  eq_of_compare {_ _} h := serialize_inj.mp (Std.LawfulEqOrd.eq_of_compare (α := Bytes) h)

end XOnlyPublicKey

abbrev L2Address := XOnlyPublicKey
abbrev Amount := UInt64
abbrev ScriptBuf := Bytes

/-- An L1 transaction id, in internal byte order. -/
structure Txid where
  bytes : ByteArr 32
deriving DecidableEq, Repr

namespace Txid

def raw (t : Txid) : Bytes := t.bytes.toList

@[simp] theorem length_raw (t : Txid) : t.raw.length = 32 := by simp [raw]

@[simp] theorem raw_inj {a b : Txid} : a.raw = b.raw ↔ a = b := by
  cases a; cases b
  simp [raw, Vector.toList_inj]

end Txid

/-- A transaction output, by the transaction that creates it and its index there. -/
structure OutPoint where
  txid : Txid
  vout : UInt32
deriving DecidableEq, Repr

/-- A 64-byte Schnorr signature. -/
structure Signature where
  bytes : ByteArr 64
deriving DecidableEq, Repr

namespace Signature

def serialize (s : Signature) : Bytes := s.bytes.toList

@[simp] theorem length_serialize (s : Signature) : s.serialize.length = 64 := by
  simp [serialize]

@[simp] theorem serialize_inj {a b : Signature} : a.serialize = b.serialize ↔ a = b := by
  cases a; cases b
  simp [serialize, Vector.toList_inj]

end Signature

/-- What the ledger calls and this repository does not define. -/
structure Primitives where
  /-- SHA-256. -/
  sha256 : Bytes → H256
  /-- `secp.verify_schnorr(sig, msg, key).is_ok()`. -/
  verifySchnorr : Signature → H256 → XOnlyPublicKey → Bool
  /-- The P2TR script of the two-leaf tree `{spend, data}` under the NUMS key. -/
  taprootSpk : ScriptBuf → ScriptBuf → ScriptBuf
  /-- The `f64` part of `mint_fn`, for a non-zero value and lock. -/
  mintCurve : UInt64 → UInt32 → UInt64

namespace Primitives

/-- A polynomial hash, for evaluating the definitions on small inputs. -/
def polyHash (x : Bytes) : H256 :=
  ⟨ByteArr.ofNat 32 (x.foldl (fun acc b => acc * 257 + b.toNat + 1) 0)⟩

/-- A digest and a key are as long as a signature. -/
theorem digest_and_key : 32 + 32 = 64 := rfl

/-- An instance to evaluate on: a signature is accepted when it spells out the
digest it signs followed by the key. -/
def sample : Primitives where
  sha256 := polyHash
  verifySchnorr sig msg key := sig.serialize == msg.raw ++ key.serialize
  taprootSpk spend data := [0x51, 0x20] ++ (polyHash (spend ++ data)).raw
  mintCurve value lock := value * lock.toUInt64 / 131072

end Primitives

/-- `u64::saturating_add`. -/
def satAdd (a b : UInt64) : UInt64 :=
  if a.toNat + b.toNat < 2 ^ 64 then a + b else UInt64.ofNat (2 ^ 64 - 1)

/-- `u64::saturating_mul`. -/
def satMul (a b : UInt64) : UInt64 :=
  if a.toNat * b.toNat < 2 ^ 64 then a * b else UInt64.ofNat (2 ^ 64 - 1)

/-- `u32::saturating_add`. -/
def satAdd32 (a b : UInt32) : UInt32 :=
  if a.toNat + b.toNat < 2 ^ 32 then a + b else UInt32.ofNat (2 ^ 32 - 1)

/-- `u32::saturating_sub`. -/
def satSub32 (a b : UInt32) : UInt32 := if b ≤ a then a - b else 0

end Hodlchain
