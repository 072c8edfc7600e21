/-
The attestation the sequencer writes to an L1 `OP_RETURN` output, and how a
scriptPubKey is read as one.
-/
import Hodlchain.Core.Consensus

namespace Hodlchain

open Bytes

structure Attestation where
  version : UInt8
  height : UInt32
  l2BlockHash : H256
  stateRoot : H256
deriving DecidableEq, Repr

inductive AttestationError where
  | badLength (got : Nat)
  | badMagic
  | badVersion (version : UInt8)
  | notOpReturn
deriving DecidableEq, Repr

/-- The 32 bytes at an offset. -/
def h256At (b : Bytes) (i : Nat) : H256 := ⟨Vector.ofFn fun k : Fin 32 => b.getD (i + k) 0⟩

namespace Attestation

/-- `Attestation::new`. -/
def new (height : UInt32) (l2BlockHash stateRoot : H256) : Attestation :=
  ⟨attestationVersion, height, l2BlockHash, stateRoot⟩

/-- `Attestation::encode`. -/
def encode (a : Attestation) : Bytes :=
  magic ++ [a.version] ++ be32 a.height ++ a.l2BlockHash.raw ++ a.stateRoot.raw

/-- `Attestation::decode`. -/
def decode (bytes : Bytes) : Except AttestationError Attestation :=
  if bytes.length ≠ attestationLen then .error (.badLength bytes.length)
  else if bytes.take 4 ≠ magic then .error .badMagic
  else
    let version := bytes.getD 4 0
    if version ≠ attestationVersion then .error (.badVersion version)
    else
      .ok
        { version := version
          height := UInt32.ofNat (beValue ((bytes.drop 5).take 4))
          l2BlockHash := h256At bytes 9
          stateRoot := h256At bytes 41 }

end Attestation

/-! ### Scripts -/

/-- `OP_RETURN`. -/
def opReturn : UInt8 := 0x6a

/-- `Attestation::to_script`. -/
def Attestation.toScript (a : Attestation) : ScriptBuf := [opReturn] ++ pushSlice a.encode

/-- The data of a push of `n` bytes, when the script still has them. -/
def takePush (n : Nat) (rest : Bytes) : Option Bytes :=
  if n ≤ rest.length then some (rest.take n) else none

/-- A push whose length is itself `w` little-endian bytes of the script. -/
def pushDataLen (w : Nat) (rest : Bytes) : Option Bytes :=
  if w ≤ rest.length then takePush (beValue (rest.take w).reverse) (rest.drop w) else none

/-- The data the first instruction of a script pushes; nothing when it is no push,
is cut short, or there is none. -/
def firstPush : Bytes → Option Bytes
  | [] => none
  | op :: rest =>
      if op ≤ 75 then takePush op.toNat rest
      else if op = 76 then pushDataLen 1 rest
      else if op = 77 then pushDataLen 2 rest
      else if op = 78 then pushDataLen 4 rest
      else none

/-- `Attestation::try_from_script`. -/
def Attestation.tryFromScript (spk : ScriptBuf) : Except AttestationError (Option Attestation) :=
  match spk with
  | [] => .error .notOpReturn
  | op :: rest =>
      if op ≠ opReturn then .error .notOpReturn
      else
        match firstPush rest with
        | none => .ok none
        | some pushed =>
            match decode pushed with
            | .ok a => .ok (some a)
            | .error .badMagic => .ok none
            | .error (.badLength _) => .ok none
            | .error e => .error e

/-! ### Reading back -/

private theorem h256At_eq {b : Bytes} {i : Nat} {h : H256} (hb : (b.drop i).take 32 = h.raw) :
    h256At b i = h := by
  rw [← H256.raw_inj, ← hb]
  have hlen : ((b.drop i).take 32).length = 32 := by rw [hb, H256.length_raw]
  refine List.ext_getElem (by rw [hlen, H256.length_raw]) fun k hk hk' => ?_
  rw [hlen] at hk'
  rw [List.length_take, List.length_drop] at hlen
  simp [H256.raw, h256At, List.getD_eq_getElem?_getD,
    List.getElem?_eq_getElem (show i + k < b.length by omega)]

/-- Decoding undoes encoding. -/
theorem Attestation.decode_encode {a : Attestation} (h : a.version = attestationVersion) :
    decode a.encode = .ok a := by
  have hmagic : magic.length = 4 := by decide
  have hlen : a.encode.length = attestationLen := by simp [encode, hmagic, attestationLen]
  have htake : a.encode.take 4 = magic := by
    simp only [encode, List.append_assoc]
    exact List.take_left' hmagic
  have hsplit : a.encode
      = (magic ++ [a.version]) ++ (be32 a.height ++ (a.l2BlockHash.raw ++ a.stateRoot.raw)) := by
    simp [encode]
  have hversion : a.encode.getD 4 0 = a.version := by
    rw [hsplit, List.getD_eq_getElem?_getD, List.getElem?_append_left (by simp [hmagic]),
      List.getElem?_append_right hmagic.le, hmagic]
    rfl
  have hheight : (a.encode.drop 5).take 4 = be32 a.height := by
    rw [hsplit, List.drop_left' (by simp [hmagic])]
    exact List.take_left' (length_be32 _)
  have hhash : (a.encode.drop 9).take 32 = a.l2BlockHash.raw := by
    rw [hsplit, ← List.append_assoc, List.drop_left' (by simp [hmagic])]
    exact List.take_left' (H256.length_raw _)
  have hroot : (a.encode.drop 41).take 32 = a.stateRoot.raw := by
    rw [hsplit, ← List.append_assoc, ← List.append_assoc, List.drop_left' (by simp [hmagic])]
    exact List.take_of_length_le (H256.length_raw _).le
  have hvalue : UInt32.ofNat (beValue (be32 a.height)) = a.height := by
    rw [be32, beValue_beBytes, Nat.mod_eq_of_lt (by simpa using a.height.toNat_lt)]
    exact UInt32.ofNat_toNat
  rw [decode, if_neg (not_not.mpr hlen), if_neg (not_not.mpr htake)]
  simp only [hversion]
  rw [if_neg (not_not.mpr h), hheight, hvalue, h256At_eq hhash, h256At_eq hroot]

/-- A script made from an attestation is read as it. -/
theorem Attestation.tryFromScript_toScript {a : Attestation} (h : a.version = attestationVersion) :
    tryFromScript a.toScript = .ok (some a) := by
  have hlen : a.encode.length = 73 := by
    have hmagic : magic.length = 4 := by decide
    simp [encode, hmagic]
  have hpush : firstPush (pushSlice a.encode) = some a.encode := by
    rw [pushSlice, hlen]
    simp [firstPush, takePush, hlen, List.take_of_length_le]
  rw [toScript, List.singleton_append, tryFromScript]
  simp only [ne_eq, not_true_eq_false, if_false, hpush, decode_encode h]

end Hodlchain
