/-
Relative locks of Bitcoin.

BIP68 reads a lock off the sequence of an input: the block that includes the input must
be far enough above the one that confirmed the output.  BIP112 lets a script ask for such
a lock: the operand of `OP_CHECKSEQUENCEVERIFY`, a script number, is compared to the
sequence of the input that runs the script.
-/
import Mathlib.Data.Nat.Digits.Defs
import Mathlib.Data.Nat.Bitwise
import Mathlib.Tactic.Common
import Mathlib.Tactic.Ring
import Hodlchain.Lib.Bytes

namespace Hodlchain

/-! ### Sequences -/

/-- What a sequence asks for. -/
inductive RelativeLock where
  | none
  | blocks (n : ℕ)
  /-- In units of 512 seconds. -/
  | time (n : ℕ)
deriving DecidableEq, Repr

/-- BIP68: bit 31 disables the lock, bit 22 makes it one in time, and the low 16 bits are its value.
Transactions before version 2 have none. -/
def relativeLock (version sequence : UInt32) : RelativeLock :=
  if version < 2 ∨ sequence.toNat.testBit 31 then .none
  else if sequence.toNat.testBit 22 then .time (sequence.toNat % 65536)
  else .blocks (sequence.toNat % 65536)

/-- An output confirmed in block `confirmed` can be spent in block `b`; `mtp` is the median time
past of each block. -/
def RelativeLock.Met (mtp : ℕ → ℕ) (confirmed b : ℕ) : RelativeLock → Prop
  | .none => True
  | .blocks n => confirmed + n ≤ b
  | .time n => mtp (confirmed - 1) + 512 * n ≤ mtp (b - 1)

/-! ### Script numbers -/

/-- `CScriptNum`: little-endian, with the top bit of the last byte as its sign. -/
def scriptNum (b : Bytes) : ℤ :=
  let n : ℕ := Nat.ofDigits 256 (b.map UInt8.toNat)
  if 256 ^ b.length ≤ 2 * n then 256 ^ b.length / 2 - (n : ℤ) else n

/-- The element that the first instruction of a script pushes, and the instructions after it. -/
def readPush : Bytes → Option (Bytes × Bytes)
  | [] => none
  | op :: rest =>
      if op ≤ 75 then some (rest.take op.toNat, rest.drop op.toNat)
      else if 0x51 ≤ op ∧ op ≤ 0x60 then some ([op - 0x50], rest)
      else none

/-! ### `OP_CHECKSEQUENCEVERIFY` -/

/-- BIP112: the operand is a number of at most five bytes that is not negative; it is compared to
the sequence, unless bit 31 of it is set. -/
def CheckSequenceVerify (version sequence : UInt32) (operand : Bytes) : Prop :=
  operand.length ≤ 5 ∧ 0 ≤ scriptNum operand ∧
    ((scriptNum operand).toNat.testBit 31 = true ∨
      2 ≤ version ∧ sequence.toNat.testBit 31 = false ∧
        (scriptNum operand).toNat.testBit 22 = sequence.toNat.testBit 22 ∧
        (scriptNum operand).toNat % 65536 ≤ sequence.toNat % 65536)

/-- The script starts with a push and the opcode, and the opcode passes. -/
def CsvPasses (version sequence : UInt32) (script : Bytes) : Prop :=
  ∃ operand rest, readPush script = some (operand, 0xb2 :: rest) ∧
    CheckSequenceVerify version sequence operand

section

variable {mtp : ℕ → ℕ} {confirmed b n : ℕ} {version sequence : UInt32}

/-- A sequence below 2^16 is a lock in blocks. -/
theorem relativeLock_of_lt (hversion : 2 ≤ version) (h : sequence.toNat < 2 ^ 16) :
    relativeLock version sequence = .blocks sequence.toNat := by
  have hclear : ∀ i, 16 ≤ i → sequence.toNat.testBit i = false := fun i hi =>
    Nat.testBit_eq_false_of_lt (h.trans_le (Nat.pow_le_pow_right (by norm_num) hi))
  have hmod : sequence.toNat % 65536 = sequence.toNat := Nat.mod_eq_of_lt (by omega)
  unfold relativeLock
  rw [if_neg, if_neg, hmod]
  · simp [hclear 22 (by omega)]
  · simp [hclear 31 (by omega), UInt32.not_lt.mpr hversion]

theorem checkSequenceVerify_of_le {operand : Bytes} (hversion : 2 ≤ version)
    (hsequence : sequence.toNat < 2 ^ 16) (hlength : operand.length ≤ 5)
    (hn : scriptNum operand = n) (hle : n ≤ sequence.toNat) :
    CheckSequenceVerify version sequence operand := by
  have hclear : ∀ m < 2 ^ 16, ∀ i, 16 ≤ i → Nat.testBit m i = false := fun m hm i hi =>
    Nat.testBit_eq_false_of_lt (hm.trans_le (Nat.pow_le_pow_right (by norm_num) hi))
  have hsmall : n < 2 ^ 16 := by omega
  have hmod : ∀ m < 2 ^ 16, m % 65536 = m := fun m hm => Nat.mod_eq_of_lt (by omega)
  rw [CheckSequenceVerify, hn, Int.toNat_natCast]
  refine ⟨hlength, Int.natCast_nonneg n, .inr ⟨hversion, hclear _ hsequence 31 (by omega), ?_, ?_⟩⟩
  · rw [hclear _ hsmall 22 (by omega), hclear _ hsequence 22 (by omega)]
  · rwa [hmod _ hsmall, hmod _ hsequence]

/-- A number whose top bit is clear is not negative. -/
theorem scriptNum_of_lt {bytes : Bytes} (hn : Nat.ofDigits 256 (bytes.map UInt8.toNat) = n)
    (h : 2 * n < 256 ^ bytes.length) : scriptNum bytes = n := by
  unfold scriptNum
  rw [hn]
  exact if_neg (Nat.not_le.mpr h)

end

end Hodlchain
