/-
Byte strings: fixed-width integers, UTF-8, hexadecimal, and taking a
concatenation apart again.

Everything that is hashed or signed is a concatenation of fields.  What such a
concatenation commits to is a question about byte strings alone, so it is settled
here: an encoding of fixed width is injective and can be split off the front of a
longer string, and a variable-length field is recovered from the total length
when everything around it has a fixed width.
-/
import Mathlib.Tactic.Common
import Mathlib.Tactic.Linarith
import Mathlib.Data.List.Induction
import Mathlib.Data.Set.Function

namespace Hodlchain

abbrev Bytes := List UInt8

namespace Bytes

/-! ### Big-endian integers -/

/-- The `n` low bytes of `x`, most significant first. -/
def beBytes : Nat → Nat → Bytes
  | 0, _ => []
  | n + 1, x => beBytes n (x / 256) ++ [UInt8.ofNat x]

@[simp] theorem length_beBytes (n x : Nat) : (beBytes n x).length = n := by
  induction n generalizing x with
  | zero => rfl
  | succ n ih => simp [beBytes, ih]

theorem beBytes_inj {n x y : Nat} (hx : x < 256 ^ n) (hy : y < 256 ^ n)
    (h : beBytes n x = beBytes n y) : x = y := by
  induction n generalizing x y with
  | zero => simp at hx hy; omega
  | succ n ih =>
      have hlen : (beBytes n (x / 256)).length = (beBytes n (y / 256)).length := by simp
      obtain ⟨hhi, hlo⟩ := List.append_inj h hlen
      have hq : x / 256 = y / 256 :=
        ih (Nat.div_lt_of_lt_mul (by rw [Nat.pow_succ] at hx; omega))
          (Nat.div_lt_of_lt_mul (by rw [Nat.pow_succ] at hy; omega)) hhi
      have hr : x % 256 = y % 256 := by
        have := congrArg UInt8.toNat (List.head_eq_of_cons_eq hlo)
        simpa using this
      omega

/-- The number a byte string spells, most significant byte first. -/
def beValue (b : Bytes) : Nat := b.foldl (fun acc x => acc * 256 + x.toNat) 0

private theorem foldl_beValue (b : Bytes) (acc : Nat) :
    b.foldl (fun acc x => acc * 256 + x.toNat) acc = acc * 256 ^ b.length + beValue b := by
  induction b generalizing acc with
  | nil => simp [beValue]
  | cons x b ih =>
      have hfront : beValue (x :: b) = x.toNat * 256 ^ b.length + beValue b := by
        rw [beValue, List.foldl_cons, ih, Nat.zero_mul, Nat.zero_add]
      rw [List.foldl_cons, ih, hfront, List.length_cons, Nat.pow_succ, Nat.add_mul, Nat.mul_assoc,
        Nat.mul_comm 256]
      omega

theorem beValue_append (a b : Bytes) :
    beValue (a ++ b) = beValue a * 256 ^ b.length + beValue b := by
  rw [beValue, List.foldl_append, foldl_beValue]
  rfl

theorem beValue_beBytes (n x : Nat) : beValue (beBytes n x) = x % 256 ^ n := by
  induction n generalizing x with
  | zero => simp [beBytes, beValue, Nat.mod_one]
  | succ n ih =>
      have hlast : beValue [UInt8.ofNat x] = x % 256 := by simp [beValue]
      have hmod : x % 256 ^ (n + 1) = x % 256 + 256 * (x / 256 % 256 ^ n) := by
        rw [Nat.pow_succ, Nat.mul_comm (256 ^ n) 256, Nat.mod_mul]
      rw [beBytes, beValue_append, ih, hlast, hmod, List.length_singleton, Nat.pow_one]
      omega

theorem beValue_lt (b : Bytes) : beValue b < 256 ^ b.length := by
  induction b using List.reverseRecOn with
  | nil => simp [beValue]
  | append_singleton b x ih =>
      have hx := x.toNat_lt
      have hlast : beValue [x] = x.toNat := by simp [beValue]
      rw [beValue_append, hlast, List.length_append, List.length_singleton,
        Nat.pow_one, Nat.pow_succ]
      omega

/-- The bytes of the number that bytes spell. -/
theorem beBytes_beValue (b : Bytes) : beBytes b.length (beValue b) = b := by
  induction b using List.reverseRecOn with
  | nil => rfl
  | append_singleton b x ih =>
      have hx := x.toNat_lt
      have hlast : beValue [x] = x.toNat := by simp [beValue]
      have hquot : beValue (b ++ [x]) / 256 = beValue b := by
        rw [beValue_append, hlast, List.length_singleton, Nat.pow_one]
        omega
      have hbyte : UInt8.ofNat (beValue (b ++ [x])) = x := by
        refine UInt8.toNat_inj.mp ?_
        rw [beValue_append, hlast, List.length_singleton, Nat.pow_one, UInt8.toNat_ofNat']
        omega
      rw [List.length_append, List.length_singleton, beBytes, hquot, hbyte, ih]

/-- `u32::to_be_bytes`. -/
def be32 (x : UInt32) : Bytes := beBytes 4 x.toNat

/-- `u64::to_be_bytes`. -/
def be64 (x : UInt64) : Bytes := beBytes 8 x.toNat

/-- `u32::to_le_bytes`. -/
def le32 (x : UInt32) : Bytes := (be32 x).reverse

@[simp] theorem length_be32 (x : UInt32) : (be32 x).length = 4 := length_beBytes 4 _

@[simp] theorem length_be64 (x : UInt64) : (be64 x).length = 8 := length_beBytes 8 _

@[simp] theorem length_le32 (x : UInt32) : (le32 x).length = 4 := by simp [le32]

@[simp] theorem be32_inj {x y : UInt32} : be32 x = be32 y ↔ x = y := by
  refine ⟨fun h => UInt32.toNat_inj.mp (beBytes_inj ?_ ?_ h), fun h => h ▸ rfl⟩
  · exact x.toNat_lt
  · exact y.toNat_lt

@[simp] theorem be64_inj {x y : UInt64} : be64 x = be64 y ↔ x = y := by
  refine ⟨fun h => UInt64.toNat_inj.mp (beBytes_inj ?_ ?_ h), fun h => h ▸ rfl⟩
  · exact x.toNat_lt
  · exact y.toNat_lt

@[simp] theorem le32_inj {x y : UInt32} : le32 x = le32 y ↔ x = y := by
  simp [le32]

/-! ### Strings -/

/-- `str::as_bytes`. -/
def utf8 (s : String) : Bytes := s.toUTF8.data.toList

@[simp] theorem utf8_inj {s t : String} : utf8 s = utf8 t ↔ s = t := by
  refine ⟨fun h => String.toByteArray_inj.mp ?_, fun h => h ▸ rfl⟩
  exact ByteArray.ext (Array.toList_inj.mp h)

/-- `String::from_utf8`. -/
def utf8Decode (b : Bytes) : Option String := String.fromUTF8? ⟨b.toArray⟩

@[simp] theorem utf8Decode_utf8 (s : String) : utf8Decode (utf8 s) = some s := by
  have hvalid : s.toByteArray.IsValidUTF8 := s.isValidUTF8
  simp [utf8Decode, utf8, String.fromUTF8?, hvalid, String.fromUTF8]

/-! ### Hexadecimal -/

/-- The lowercase hex digit of a nibble. -/
def hexDigit (n : UInt8) : Char :=
  if n < 10 then Char.ofNat (48 + n.toNat) else Char.ofNat (87 + n.toNat)

/-- The two hex digits of a byte. -/
def hexPair (x : UInt8) : List Char := [hexDigit (x >>> 4), hexDigit (x &&& 15)]

/-- `hex::encode`. -/
def hexEncode (b : Bytes) : String := String.ofList (b.flatMap hexPair)

private theorem hexDigit_inj {m n : UInt8} (hm : m.toNat < 16) (hn : n.toNat < 16)
    (h : hexDigit m = hexDigit n) : m = n := by
  have key : ∀ m n : Fin 16, hexDigit (UInt8.ofNat m) = hexDigit (UInt8.ofNat n) → m = n := by
    decide
  have := key ⟨m.toNat, hm⟩ ⟨n.toNat, hn⟩ (by simpa using h)
  exact UInt8.toNat_inj.mp (Fin.mk.inj this)

private theorem toNat_highNibble (x : UInt8) : (x >>> 4).toNat = x.toNat / 16 := by
  simp [UInt8.toNat_shiftRight, Nat.shiftRight_eq_div_pow]

private theorem toNat_lowNibble (x : UInt8) : (x &&& 15).toNat = x.toNat % 16 := by
  rw [UInt8.toNat_and]
  exact Nat.and_two_pow_sub_one_eq_mod x.toNat 4

private theorem highNibble_lt (x : UInt8) : (x >>> 4).toNat < 16 := by
  have hx := x.toNat_lt
  rw [toNat_highNibble]
  omega

private theorem lowNibble_lt (x : UInt8) : (x &&& 15).toNat < 16 := by
  rw [toNat_lowNibble]
  omega

private theorem hexPair_inj {x y : UInt8} (h : hexPair x = hexPair y) : x = y := by
  simp only [hexPair, List.cons.injEq, and_true] at h
  have hhi := hexDigit_inj (highNibble_lt x) (highNibble_lt y) h.1
  have hlo := hexDigit_inj (lowNibble_lt x) (lowNibble_lt y) h.2
  have hdiv : x.toNat / 16 = y.toNat / 16 := by rw [← toNat_highNibble, ← toNat_highNibble, hhi]
  have hmod : x.toNat % 16 = y.toNat % 16 := by rw [← toNat_lowNibble, ← toNat_lowNibble, hlo]
  exact UInt8.toNat_inj.mp (by omega)

theorem hexEncode_inj {a b : Bytes} (h : hexEncode a = hexEncode b) : a = b := by
  have hl : a.flatMap hexPair = b.flatMap hexPair := String.ofList_inj.mp h
  clear h
  induction a generalizing b with
  | nil =>
      cases b with
      | nil => rfl
      | cons y b => simp [hexPair] at hl
  | cons x a ih =>
      cases b with
      | nil => simp [hexPair] at hl
      | cons y b =>
          rw [List.flatMap_cons, List.flatMap_cons] at hl
          obtain ⟨hhead, hrest⟩ := List.append_inj hl rfl
          rw [hexPair_inj hhead, ih hrest]

theorem toList_hexEncode (b : Bytes) : (hexEncode b).toList = b.flatMap hexPair :=
  String.toList_ofList

/-- What is printed in hex is hex digits. -/
theorem exists_hexDigit {c : Char} {b : Bytes} (h : c ∈ (hexEncode b).toList) :
    ∃ n : Fin 16, c = hexDigit (UInt8.ofNat n) := by
  have hdigit : ∀ {n : UInt8}, n.toNat < 16 → ∃ k : Fin 16, hexDigit n = hexDigit (UInt8.ofNat k) :=
    fun {n} hn => ⟨⟨n.toNat, hn⟩, congrArg hexDigit UInt8.ofNat_toNat.symm⟩
  rw [toList_hexEncode] at h
  obtain ⟨x, -, hx⟩ := List.mem_flatMap.mp h
  rcases (show c = _ ∨ c = _ by simpa [hexPair] using hx) with rfl | rfl
  · exact hdigit (highNibble_lt x)
  · exact hdigit (lowNibble_lt x)

theorem length_hexEncode (b : Bytes) : (hexEncode b).toList.length = 2 * b.length := by
  rw [toList_hexEncode]
  induction b with
  | nil => rfl
  | cons x b ih =>
      rw [List.flatMap_cons, List.length_append, ih, List.length_cons, Nat.mul_succ, Nat.add_comm]
      rfl

/-- The value of a hex digit, in either case. -/
def hexValue (c : UInt8) : Option UInt8 :=
  if 48 ≤ c ∧ c ≤ 57 then some (c - 48)
  else if 97 ≤ c ∧ c ≤ 102 then some (c - 87)
  else if 65 ≤ c ∧ c ≤ 70 then some (c - 55)
  else none

/-- Pairs of hex digits. -/
def hexPairs : Bytes → Option Bytes
  | [] => some []
  | [_] => none
  | hi :: lo :: rest => do
      let h ← hexValue hi
      let l ← hexValue lo
      let bytes ← hexPairs rest
      pure ((h * 16 + l) :: bytes)

/-- `hex::decode`. -/
def hexDecode (s : String) : Option Bytes := hexPairs (utf8 s)

private theorem utf8_hexDigit {n : UInt8} (hn : n.toNat < 16) :
    ∃ c, String.utf8EncodeChar (hexDigit n) = [c] ∧ hexValue c = some n := by
  have key : ∀ n : Fin 16, ∃ c, String.utf8EncodeChar (hexDigit (UInt8.ofNat n)) = [c]
      ∧ hexValue c = some (UInt8.ofNat n) := by
    intro n
    refine ⟨(String.utf8EncodeChar (hexDigit (UInt8.ofNat n))).headD 0, ?_⟩
    revert n
    decide
  simpa using key ⟨n.toNat, hn⟩

/-- Decoding undoes encoding. -/
theorem hexDecode_hexEncode (b : Bytes) : hexDecode (hexEncode b) = some b := by
  have hutf8 : utf8 (hexEncode b) = (b.flatMap hexPair).flatMap String.utf8EncodeChar := by
    simp [utf8, hexEncode, String.toByteArray_ofList, List.utf8Encode]
  rw [hexDecode, hutf8]
  clear hutf8
  induction b with
  | nil => rfl
  | cons x b ih =>
      have hx := x.toNat_lt
      obtain ⟨hi, hhi, hhival⟩ := utf8_hexDigit (highNibble_lt x)
      obtain ⟨lo, hlo, hloval⟩ := utf8_hexDigit (lowNibble_lt x)
      have hjoin : (x >>> 4) * 16 + (x &&& 15) = x := by
        refine UInt8.toNat_inj.mp ?_
        rw [UInt8.toNat_add, UInt8.toNat_mul, toNat_highNibble, toNat_lowNibble]
        show (x.toNat / 16 * 16 % 256 + x.toNat % 16) % 256 = x.toNat
        omega
      simp only [List.flatMap_cons, hexPair, List.cons_append, List.nil_append,
        hhi, hlo, hexPairs, hhival, hloval, ih, Option.bind_eq_bind, Option.bind_some,
        Option.pure_def, hjoin]

end Bytes

/-! ### Byte arrays -/

/-- `[u8; n]`. -/
abbrev ByteArr (n : Nat) := Vector UInt8 n

/-- The low `n` bytes of a number, as an array. -/
def ByteArr.ofNat (n x : Nat) : ByteArr n := ⟨(Bytes.beBytes n x).toArray, by simp⟩

theorem size_toArray_32 {b : Bytes} (h : b.length = 32) : b.toArray.size = 32 := by simpa using h

/-! ### Splitting a concatenation

`append_split` is `List.append_inj` in the shape the encodings need it: the two
heads have the same width because their encoding has a fixed one.
-/

theorem append_split {a b s t : Bytes} (hlen : a.length = b.length) :
    a ++ s = b ++ t ↔ a = b ∧ s = t := by
  refine ⟨fun h => List.append_inj h hlen, ?_⟩
  rintro ⟨rfl, rfl⟩
  rfl

/-- A field of free width is pinned by the total length. -/
theorem append_split_right {a b s t : Bytes} (hlen : s.length = t.length) :
    a ++ s = b ++ t ↔ a = b ∧ s = t := by
  refine ⟨fun h => List.append_inj' h hlen, ?_⟩
  rintro ⟨rfl, rfl⟩
  rfl

/-- A concatenation of fields of one width falls apart into those fields. -/
theorem flatMap_inj_of_width {α : Type} {f : α → Bytes} {w : Nat} (hw : 0 < w)
    (hf : ∀ x, (f x).length = w) {l l' : List α} (h : l.flatMap f = l'.flatMap f) :
    l.map f = l'.map f := by
  have hne : ∀ x, f x ≠ [] := by
    intro x hx
    have := hf x
    rw [hx] at this
    simp at this
    omega
  induction l generalizing l' with
  | nil =>
      cases l' with
      | nil => rfl
      | cons y l' => exact absurd (List.append_eq_nil_iff.mp h.symm).1 (hne y)
  | cons x l ih =>
      cases l' with
      | nil => exact absurd (List.append_eq_nil_iff.mp h).1 (hne x)
      | cons y l' =>
          rw [List.flatMap_cons, List.flatMap_cons, append_split ((hf x).trans (hf y).symm)] at h
          rw [List.map_cons, List.map_cons, h.1, ih h.2]

/-- Collision freedom on two finite lists of inputs, as a check on their members. -/
theorem injOn_of_forall_mem {α β : Type} {f : α → β} {l l' : List α}
    (h : ∀ x ∈ l ++ l', ∀ y ∈ l ++ l', f x = f y → x = y) :
    Set.InjOn f {x | x ∈ l ∨ x ∈ l'} :=
  fun x hx y hy => h x (List.mem_append.mpr hx) y (List.mem_append.mpr hy)

end Hodlchain
