/-
Strings in bech32 and bech32m.

A string is a prefix, a separator, words of five bits, and six words of checksum over all
of that; the two formats differ in one constant of the checksum.  A string may be in
capitals, but not in both cases.  What is proved is what a reader needs: that a string
spells one thing, and that the reader here reads exactly what is spelled.
-/
import Mathlib.Data.List.Basic
import Mathlib.Data.Nat.Bitwise
import Hodlchain.Lib.Regroup

namespace Hodlchain.Spelling

open Regroup

/-! ### Spelling -/

/-- The two formats. -/
inductive Checksum where
  | bech32
  | bech32m
deriving DecidableEq, Repr

/-- The constant of a format. -/
def Checksum.target : Checksum → Nat
  | .bech32 => 1
  | .bech32m => 0x2bc830a3

/-- The characters of the 32 words. -/
def charset : List Char := "qpzry9x8gf2tvdw0s3jn54khce6mua7l".toList

def wordChar (w : Word) : Char := charset.getD w ' '

def charWord (c : Char) : Option Word := (List.finRange 32).find? fun w => wordChar w = c

/-- One step of the checksum's polynomial division. -/
def polymodStep (acc v : Nat) : Nat :=
  let top := acc >>> 25
  let shifted := (acc % 2 ^ 25) <<< 5 ^^^ v
  [0x3b6a57b2, 0x26508e6d, 0x1ea119fa, 0x3d4233dd, 0x2a1462b3].zipIdx.foldl
    (fun acc g => if top.testBit g.2 then acc ^^^ g.1 else acc) shifted

def polymod (values : List Nat) : Nat := values.foldl polymodStep 1

/-- The prefix, as the checksum reads it. -/
def expandPrefix (hrp : List Char) : List Nat :=
  hrp.map (fun c => c.toNat >>> 5) ++ 0 :: hrp.map fun c => c.toNat % 32

/-- The six words that end a string. -/
def checksum (v : Checksum) (hrp : List Char) (ws : List Word) : List Word :=
  let rest := polymod (expandPrefix hrp ++ ws.map Fin.val ++ List.replicate 6 0)
  [25, 20, 15, 10, 5, 0].map fun k => word ((rest ^^^ v.target) >>> k)

/-- The string of a prefix and words. -/
def spell (v : Checksum) (hrp : List Char) (ws : List Word) : List Char :=
  hrp ++ '1' :: (ws ++ checksum v hrp ws).map wordChar

/-! ### Case -/

def Lower (s : List Char) : Prop := ∀ c ∈ s, c.toLower = c

def Upper (s : List Char) : Prop := ∀ c ∈ s, c.toUpper = c

/-- The characters a prefix may have. -/
def ValidPrefix (hrp : List Char) : Prop := hrp ≠ [] ∧ ∀ c ∈ hrp, 33 ≤ c.toNat ∧ c.toNat ≤ 126

/-- A string in one case that spells words; the prefix is kept in the case it has there. -/
structure Reads (s : List Char) (v : Checksum) (hrp : List Char) (ws : List Word) : Prop where
  oneCase : Lower s ∨ Upper s
  valid : ValidPrefix hrp
  front : hrp <+: s
  spelled : s.map Char.toLower = spell v (hrp.map Char.toLower) ws

instance (s : List Char) : Decidable (Lower s) := List.decidableBAll _ s

instance (s : List Char) : Decidable (Upper s) := List.decidableBAll _ s

instance (hrp : List Char) : Decidable (ValidPrefix hrp) :=
  @instDecidableAnd _ _ _ (List.decidableBAll _ hrp)

/-! ### A string spells one thing -/

theorem wordChar_inj {w w' : Word} (h : wordChar w = wordChar w') : w = w' := by
  have key : ∀ w w' : Word, wordChar w = wordChar w' → w = w' := by decide
  exact key w w' h

theorem wordChar_ne_separator (w : Word) : wordChar w ≠ '1' := by
  have key : ∀ w : Word, wordChar w ≠ '1' := by decide
  exact key w

@[simp] theorem charWord_wordChar (w : Word) : charWord (wordChar w) = some w := by
  have key : ∀ w : Word, charWord (wordChar w) = some w := by decide
  exact key w

@[simp] theorem length_checksum (v : Checksum) (hrp : List Char) (ws : List Word) :
    (checksum v hrp ws).length = 6 := rfl

/-- The two formats have no checksum in common. -/
theorem checksum_inj {v v' : Checksum} {hrp : List Char} {ws : List Word}
    (h : checksum v hrp ws = checksum v' hrp ws) : v = v' := by
  generalize hrest : polymod (expandPrefix hrp ++ ws.map Fin.val ++ List.replicate 6 0) = rest
  simp only [checksum, hrest, List.map_cons, List.map_nil, List.cons.injEq, word,
    Fin.ofNat, Fin.mk.injEq, Nat.shiftRight_eq_div_pow, and_true] at h
  obtain ⟨h5, h4, h3, h2, h1, h0⟩ := h
  have hlow : (rest ^^^ v.target) % 2 ^ 30 = (rest ^^^ v'.target) % 2 ^ 30 := by omega
  rw [Nat.xor_mod_two_pow, Nat.xor_mod_two_pow, Nat.xor_right_inj] at hlow
  cases v <;> cases v' <;> simp_all [Checksum.target]

theorem notMem_map_wordChar (ws : List Word) : '1' ∉ ws.map wordChar := by
  intro h
  obtain ⟨w, -, hw⟩ := List.mem_map.mp h
  exact wordChar_ne_separator w hw

/-- What stands before the last separator, and after it. -/
def splitLast (s : List Char) : List Char × List Char :=
  ((s.reverse.dropWhile (· ≠ '1')).tail.reverse, (s.reverse.takeWhile (· ≠ '1')).reverse)

theorem splitLast_append {hrp t : List Char} (ht : '1' ∉ t) :
    splitLast (hrp ++ '1' :: t) = (hrp, t) := by
  have hrev : (hrp ++ '1' :: t).reverse = t.reverse ++ '1' :: hrp.reverse := by simp
  have hwords : ∀ c ∈ t.reverse, decide (c ≠ '1') = true := fun c hc =>
    decide_eq_true fun h => ht (h ▸ List.mem_reverse.mp hc)
  rw [splitLast, hrev, List.dropWhile_append_of_pos hwords, List.takeWhile_append_of_pos hwords]
  simp

/-- **A string spells one thing.** -/
theorem spell_inj {v v' : Checksum} {hrp hrp' : List Char} {ws ws' : List Word}
    (h : spell v hrp ws = spell v' hrp' ws') : v = v' ∧ hrp = hrp' ∧ ws = ws' := by
  have hsplit := congrArg splitLast h
  rw [spell, spell, splitLast_append (notMem_map_wordChar _),
    splitLast_append (notMem_map_wordChar _), Prod.mk.injEq] at hsplit
  obtain ⟨rfl, hwords⟩ := hsplit
  have hlist := List.map_injective_iff.mpr (fun _ _ => wordChar_inj) hwords
  obtain ⟨rfl, hsum⟩ := List.append_inj' hlist (by simp)
  exact ⟨checksum_inj hsum, rfl, rfl⟩

/-! ### What a spelled string looks like -/

theorem lower_spell {v : Checksum} {hrp : List Char} (h : Lower hrp) (ws : List Word) :
    Lower (spell v hrp ws) := by
  have hword : ∀ w : Word, (wordChar w).toLower = wordChar w := by decide
  intro c hc
  rcases List.mem_append.mp hc with hc | hc
  · exact h c hc
  · rcases List.mem_cons.mp hc with rfl | hc
    · rfl
    · obtain ⟨w, -, rfl⟩ := List.mem_map.mp hc
      exact hword w

/-- Every character is printable. -/
theorem spell_printable {v : Checksum} {hrp : List Char} (h : ValidPrefix hrp)
    {ws : List Word} {c : Char} (hc : c ∈ spell v hrp ws) : 33 ≤ c.toNat ∧ c.toNat ≤ 126 := by
  have hword : ∀ w : Word, 33 ≤ (wordChar w).toNat ∧ (wordChar w).toNat ≤ 126 := by decide
  rcases List.mem_append.mp hc with hc | hc
  · exact h.2 c hc
  · rcases List.mem_cons.mp hc with rfl | hc
    · decide
    · obtain ⟨w, -, rfl⟩ := List.mem_map.mp hc
      exact hword w

theorem length_spell (v : Checksum) (hrp : List Char) (ws : List Word) :
    (spell v hrp ws).length = hrp.length + ws.length + 7 := by
  simp only [spell, List.length_append, List.length_cons, List.length_map, length_checksum]
  omega

theorem toList_toLower (s : String) : s.toLower.toList = s.toList.map Char.toLower :=
  String.toList_map

theorem toList_toUpper (s : String) : s.toUpper.toList = s.toList.map Char.toUpper :=
  String.toList_map

theorem map_toLower_of_lower {s : List Char} (h : Lower s) : s.map Char.toLower = s :=
  (List.map_congr_left h).trans s.map_id

/-- **Under a prefix with a small letter** a string is read when it is spelled so. -/
theorem reads_iff_of_lower {s hrp : List Char} {v : Checksum} {ws : List Word}
    (hvalid : ValidPrefix hrp)
    (hlow : Lower hrp) {c : Char} (hc : c ∈ hrp) (hsmall : c.toUpper ≠ c) :
    Reads s v hrp ws ↔ s = spell v hrp ws := by
  constructor
  · rintro ⟨hcase | hcase, -, hfront, hspell⟩
    · rwa [map_toLower_of_lower hcase, map_toLower_of_lower hlow] at hspell
    · exact absurd (hcase c (hfront.subset hc)) hsmall
  · rintro rfl
    refine ⟨.inl (lower_spell hlow ws), hvalid, List.prefix_append _ _, ?_⟩
    rw [map_toLower_of_lower (lower_spell hlow ws), map_toLower_of_lower hlow]

/-! ### Reading -/

/-- Read a string in lower case: of the words after the last separator, six are checksum. -/
def readLower (s : List Char) : Option (Checksum × List Char × List Word) :=
  let hrp := (splitLast s).1
  let words := (splitLast s).2.filterMap charWord
  let ws := words.take (words.length - 6)
  ([.bech32m, .bech32].find? fun v => spell v hrp ws = s).map fun v => (v, hrp, ws)

/-- Read a string. -/
def read (s : List Char) : Option (Checksum × List Char × List Word) :=
  if Lower s ∨ Upper s then
    (readLower (s.map Char.toLower)).bind fun (v, hrp, ws) =>
      if ValidPrefix (s.take hrp.length) then some (v, s.take hrp.length, ws) else none
  else none

theorem readLower_eq_some_iff {s : List Char} {v : Checksum} {hrp : List Char} {ws : List Word} :
    readLower s = some (v, hrp, ws) ↔ s = spell v hrp ws := by
  constructor
  · intro h
    obtain ⟨v', hv', heq⟩ := Option.map_eq_some_iff.mp h
    have hspell := List.find?_some hv'
    rw [decide_eq_true_eq] at hspell
    rw [Prod.mk.injEq, Prod.mk.injEq] at heq
    rw [← hspell, heq.1, heq.2.1, heq.2.2]
  · rintro rfl
    have hwords : ((ws ++ checksum v hrp ws).map wordChar).filterMap charWord = ws
        ++ checksum v hrp ws := by
      rw [List.filterMap_map]
      exact (List.filterMap_congr fun w _ => charWord_wordChar w).trans List.filterMap_some
    have hsplit : splitLast (spell v hrp ws) = (hrp, (ws ++ checksum v hrp ws).map wordChar) :=
      splitLast_append (notMem_map_wordChar _)
    have hws : (ws ++ checksum v hrp ws).take ((ws ++ checksum v hrp ws).length - 6) = ws := by
      simp
    have hfind : [Checksum.bech32m, .bech32].find?
        (fun v' => spell v' hrp ws = spell v hrp ws) = some v := by
      cases v with
      | bech32m => simp
      | bech32 =>
          have hne : spell .bech32m hrp ws ≠ spell .bech32 hrp ws := fun h =>
            nomatch (spell_inj h).1
          simp [hne]
    simp only [readLower, hsplit, hwords, hws, hfind]
    rfl

/-- **The reader reads what is spelled.** -/
theorem read_eq_some_iff {s : List Char} {v : Checksum} {hrp : List Char} {ws : List Word} :
    read s = some (v, hrp, ws) ↔ Reads s v hrp ws := by
  constructor
  · intro h
    rw [read] at h
    split_ifs at h with hcase
    obtain ⟨⟨v', low, ws'⟩, hlow, h⟩ := Option.bind_eq_some_iff.mp h
    have hspell := readLower_eq_some_iff.mp hlow
    have hfront : (s.take low.length).map Char.toLower = low := by
      rw [List.map_take, hspell, spell]
      exact List.take_left
    obtain ⟨hvalid, heq⟩ := Option.ite_none_right_eq_some.mp h
    obtain ⟨rfl, rfl, rfl⟩ : v' = v ∧ _ = hrp ∧ ws' = ws := by simpa using heq
    exact ⟨hcase, hvalid, List.take_prefix _ _, by rw [hspell, hfront]⟩
  · rintro ⟨hcase, hvalid, hfront, hspell⟩
    have htake : s.take (hrp.map Char.toLower).length = hrp := by
      rw [List.length_map]
      exact List.prefix_iff_eq_take.mp hfront |>.symm
    rw [read, if_pos hcase, readLower_eq_some_iff.mpr hspell, Option.bind_some]
    simp only [htake, if_pos hvalid]

end Hodlchain.Spelling
