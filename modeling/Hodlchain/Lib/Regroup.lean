/-
Bytes as groups of five bits, and back.

A string of bits is cut into groups of one width, and fewer bits than that are left over.
Bytes go to words with the last word filled up by zeros; words go to bytes with what is
left over dropped.  The first is undone by the second, and the second by the first for
words that end in such a filling.
-/
import Hodlchain.Lib.Bytes

namespace Hodlchain.Regroup

/-! ### Bits of a number -/

/-- The `n` low bits of `x`, most significant first. -/
def bits : Nat → Nat → List Bool
  | 0, _ => []
  | n + 1, x => bits n (x / 2) ++ [decide (x % 2 = 1)]

/-- The number that bits spell. -/
def value (l : List Bool) : Nat := l.foldl (fun acc b => 2 * acc + b.toNat) 0

@[simp] theorem length_bits (n x : Nat) : (bits n x).length = n := by
  induction n generalizing x with
  | zero => rfl
  | succ n ih => simp [bits, ih]

theorem value_append_singleton (l : List Bool) (b : Bool) :
    value (l ++ [b]) = 2 * value l + b.toNat := by
  rw [value, List.foldl_append]
  rfl

theorem value_bits (n x : Nat) : value (bits n x) = x % 2 ^ n := by
  induction n generalizing x with
  | zero => simp [bits, value, Nat.mod_one]
  | succ n ih =>
      have hlow : (decide (x % 2 = 1)).toNat = x % 2 := by
        rcases Nat.mod_two_eq_zero_or_one x with h | h <;> simp [h]
      rw [bits, value_append_singleton, ih, hlow, Nat.pow_succ, Nat.mul_comm (2 ^ n) 2, Nat.mod_mul]
      omega

theorem bits_value (l : List Bool) : bits l.length (value l) = l := by
  induction l using List.reverseRecOn with
  | nil => rfl
  | append_singleton l b ih =>
      have hb := Bool.toNat_le b
      have hquot : (2 * value l + b.toNat) / 2 = value l := by omega
      have hlow : decide ((2 * value l + b.toNat) % 2 = 1) = b := by
        cases b with
        | false => simp
        | true => simp [Nat.add_mod]
      rw [value_append_singleton, List.length_append, List.length_singleton, bits, hquot, ih, hlow]

theorem value_lt (l : List Bool) : value l < 2 ^ l.length := by
  have hmod := value_bits l.length (value l)
  rw [bits_value] at hmod
  rw [hmod]
  exact Nat.mod_lt _ (Nat.two_pow_pos _)

/-! ### Cutting into groups -/

/-- Groups of `n` bits, the first of which has `buf` already, and what is left over. -/
def cut (n : Nat) : List Bool → List Bool → List (List Bool) × List Bool
  | buf, [] => ([], buf)
  | buf, b :: l =>
      if buf.length + 1 = n then ((buf ++ [b]) :: (cut n [] l).1, (cut n [] l).2)
      else cut n (buf ++ [b]) l

section

variable {n : Nat}

theorem cut_nil (buf : List Bool) : cut n buf [] = ([], buf) := rfl

theorem cut_cons (buf : List Bool) (b : Bool) (l : List Bool) :
    cut n buf (b :: l) = if buf.length + 1 = n then ((buf ++ [b]) :: (cut n [] l).1, (cut n [] l).2)
      else cut n (buf ++ [b]) l := rfl

/-- Cutting loses nothing, and cuts to size. -/
theorem cut_spec (hn : 0 < n) (l : List Bool) : ∀ buf : List Bool, buf.length < n →
    (cut n buf l).1.flatten ++ (cut n buf l).2 = buf ++ l ∧ (∀ g ∈ (cut n buf l).1, g.length = n) ∧
      (cut n buf l).2.length < n := by
  induction l with
  | nil => exact fun buf hbuf => ⟨by simp [cut_nil], by simp [cut_nil], hbuf⟩
  | cons b l ih =>
      intro buf hbuf
      rw [cut_cons]
      by_cases hfull : buf.length + 1 = n
      · obtain ⟨hflat, hgroups, hrest⟩ := ih [] hn
        rw [if_pos hfull]
        refine ⟨?_, ?_, hrest⟩
        · rw [List.flatten_cons, List.append_assoc, hflat]
          simp
        · intro g hg
          rcases List.mem_cons.mp hg with rfl | hg
          · simpa using hfull
          · exact hgroups g hg
      · obtain ⟨hflat, hgroups, hrest⟩ := ih (buf ++ [b]) (by simp; omega)
        rw [if_neg hfull]
        exact ⟨by rw [hflat]; simp, hgroups, hrest⟩

theorem cut_group {g : List Bool} (hg : g ≠ []) : ∀ (buf l : List Bool), buf.length + g.length = n →
    cut n buf (g ++ l) = ((buf ++ g) :: (cut n [] l).1, (cut n [] l).2) := by
  induction g with
  | nil => exact absurd rfl hg
  | cons b g ih =>
      intro buf l hlen
      rw [List.cons_append, cut_cons]
      by_cases hlast : g = []
      · subst hlast
        exact if_pos hlen
      · have hpos := List.length_pos_iff.mpr hlast
        rw [List.length_cons] at hlen
        rw [if_neg (by omega), ih hlast (buf ++ [b]) l (by simp; omega)]
        simp

theorem cut_short (l : List Bool) : ∀ buf : List Bool, buf.length + l.length < n →
    cut n buf l = ([], buf ++ l) := by
  induction l with
  | nil => exact fun buf _ => by simp [cut_nil]
  | cons b l ih =>
      intro buf hlen
      rw [List.length_cons] at hlen
      rw [cut_cons, if_neg (by omega), ih (buf ++ [b]) (by simp; omega)]
      simp

/-- **Groups are read back**, and what is left over after them. -/
theorem cut_flatten (hn : 0 < n) {gs : List (List Bool)} (hgs : ∀ g ∈ gs, g.length = n)
    {r : List Bool} (hr : r.length < n) : cut n [] (gs.flatten ++ r) = (gs, r) := by
  induction gs with
  | nil => simpa using cut_short r [] (by simpa using hr)
  | cons g gs ih =>
      have hg := hgs g (by simp)
      have hne : g ≠ [] := List.ne_nil_of_length_pos (by omega)
      rw [List.flatten_cons, List.append_assoc, cut_group hne [] _ (by simpa using hg),
        ih fun g' hg' => hgs g' (List.mem_cons_of_mem g hg')]
      rfl

end

/-! ### Words and bytes -/

/-- Five bits. -/
abbrev Word := Fin 32

def wordBits (w : Word) : List Bool := bits 5 w

def byteBits (b : UInt8) : List Bool := bits 8 b.toNat

def word (n : Nat) : Word := Fin.ofNat 32 n

@[simp] theorem val_word (n : Nat) : (word n).val = n % 32 := rfl

def wordOf (g : List Bool) : Word := word (value g)

def byteOf (g : List Bool) : UInt8 := UInt8.ofNat (value g)

@[simp] theorem length_wordBits (w : Word) : (wordBits w).length = 5 := length_bits 5 _

@[simp] theorem length_byteBits (b : UInt8) : (byteBits b).length = 8 := length_bits 8 _

@[simp] theorem wordOf_wordBits (w : Word) : wordOf (wordBits w) = w := by
  rw [wordOf, wordBits, value_bits]
  exact Fin.ext (by simp [Nat.mod_eq_of_lt w.isLt])

@[simp] theorem byteOf_byteBits (b : UInt8) : byteOf (byteBits b) = b := by
  rw [byteOf, byteBits, value_bits, Nat.mod_eq_of_lt b.toNat_lt]
  exact UInt8.ofNat_toNat

theorem wordBits_wordOf {g : List Bool} (h : g.length = 5) : wordBits (wordOf g) = g := by
  have hlt := value_lt g
  have hbits := bits_value g
  rw [h] at hlt hbits
  rw [wordBits, wordOf, val_word, Nat.mod_eq_of_lt (show value g < 32 from hlt), hbits]

theorem byteBits_byteOf {g : List Bool} (h : g.length = 8) : byteBits (byteOf g) = g := by
  have hlt := value_lt g
  have hbits := bits_value g
  rw [h] at hlt hbits
  rw [byteBits, byteOf, UInt8.toNat_ofNat', Nat.mod_eq_of_lt hlt, hbits]

/-- The bytes in a list of words; bits that are no whole byte are dropped. -/
def fromWords (ws : List Word) : Bytes := (cut 8 [] (ws.flatMap wordBits)).1.map byteOf

/-- The bits that `fromWords` drops. -/
def padding (ws : List Word) : List Bool := (cut 8 [] (ws.flatMap wordBits)).2

/-- The words for a list of bytes, the last one filled up with zeros. -/
def toWords (b : Bytes) : List Word :=
  (cut 5 [] (b.flatMap byteBits ++ List.replicate 4 false)).1.map wordOf

/-- The words are filled up, with fewer bits than a word has and no others than zeros. -/
def Padded (ws : List Word) : Prop := (padding ws).length < 5 ∧ ∀ b ∈ padding ws, b = false

instance (ws : List Word) : Decidable (Padded ws) :=
  @instDecidableAnd _ _ _ (List.decidableBAll _ (padding ws))

theorem length_flatMap_wordBits (ws : List Word) :
    (ws.flatMap wordBits).length = 5 * ws.length := by
  induction ws with
  | nil => rfl
  | cons w ws ih =>
    rw [List.flatMap_cons, List.length_append, ih, length_wordBits, List.length_cons]
    omega

theorem flatMap_map_eq_flatten {α : Type} {f : α → List Bool} {g : List Bool → α}
    {gs : List (List Bool)} (h : ∀ x ∈ gs, f (g x) = x) : (gs.map g).flatMap f = gs.flatten := by
  induction gs with
  | nil => rfl
  | cons x gs ih =>
      rw [List.map_cons, List.flatMap_cons, List.flatten_cons, h x (by simp),
        ih fun y hy => h y (List.mem_cons_of_mem x hy)]

theorem map_map_eq_self {α : Type} {f : α → List Bool} {g : List Bool → α} (h : ∀ x, g (f x) = x)
    (l : List α) : (l.map f).map g = l := by
  rw [List.map_map]
  exact (List.map_congr_left fun x _ => h x).trans l.map_id

/-- The bytes and the padding of words are their bits. -/
theorem fromWords_append_padding (ws : List Word) :
    (fromWords ws).flatMap byteBits ++ padding ws = ws.flatMap wordBits := by
  obtain ⟨hflat, hgroups, -⟩ := cut_spec (n := 8) (by omega) (ws.flatMap wordBits) [] (by simp)
  rw [fromWords, padding, flatMap_map_eq_flatten fun g hg => byteBits_byteOf (hgroups g hg), hflat]
  rfl

/-- **Bits that are bytes and a little more** read as those bytes. -/
theorem fromWords_eq {ws : List Word} {b : Bytes} {r : List Bool}
    (h : ws.flatMap wordBits = b.flatMap byteBits ++ r) (hr : r.length < 8) :
    fromWords ws = b ∧ padding ws = r := by
  have hcut : cut 8 [] (ws.flatMap wordBits) = (b.map byteBits, r) := by
    rw [h, List.flatMap_def]
    exact cut_flatten (by omega) (by simp) hr
  rw [fromWords, padding, hcut]
  exact ⟨map_map_eq_self byteOf_byteBits b, rfl⟩

/-- The words of bytes are their bits and some zeros. -/
theorem exists_flatMap_toWords (b : Bytes) :
    ∃ k < 5, (toWords b).flatMap wordBits = b.flatMap byteBits ++ List.replicate k false := by
  obtain ⟨hflat, hgroups, hrest⟩ :=
    cut_spec (n := 5) (by omega) (b.flatMap byteBits ++ List.replicate 4 false) [] (by simp)
  rw [List.nil_append] at hflat
  have hsuffix : (cut 5 [] (b.flatMap byteBits ++ List.replicate 4 false)).2
      <:+ b.flatMap byteBits ++ List.replicate 4 false := ⟨_, hflat⟩
  refine ⟨4 - (cut 5 [] (b.flatMap byteBits ++ List.replicate 4 false)).2.length, by omega, ?_⟩
  rw [toWords, flatMap_map_eq_flatten fun g hg => wordBits_wordOf (hgroups g hg)]
  generalize cut 5 [] (b.flatMap byteBits ++ List.replicate 4 false) = c at *
  -- what is left over is among the zeros
  have hsplit : List.replicate 4 false
      = List.replicate (4 - c.2.length) false ++ List.replicate c.2.length false := by
    rw [List.replicate_append_replicate]
    congr 1
    omega
  rw [hsplit, ← List.append_assoc] at hflat
  exact (List.append_inj' hflat (by simp)).1

theorem toWords_inj_of_bits {ws ws' : List Word} (h : ws.flatMap wordBits = ws'.flatMap wordBits) :
    ws = ws' := by
  have hcut : ∀ l : List Word, (cut 5 [] (l.flatMap wordBits)).1.map wordOf = l := by
    intro l
    have hgroups : cut 5 [] ((l.map wordBits).flatten ++ []) = (l.map wordBits, []) :=
      cut_flatten (by omega) (by simp) (by simp)
    rw [List.append_nil, ← List.flatMap_def] at hgroups
    rw [hgroups]
    exact map_map_eq_self wordOf_wordBits l
  rw [← hcut ws, ← hcut ws', h]

/-- **Words of bytes give the bytes**, and end in zeros. -/
theorem fromWords_toWords (b : Bytes) : fromWords (toWords b) = b := by
  obtain ⟨k, hk, hbits⟩ := exists_flatMap_toWords b
  exact (fromWords_eq hbits (by simp; omega)).1

theorem padded_toWords (b : Bytes) : Padded (toWords b) := by
  obtain ⟨k, hk, hbits⟩ := exists_flatMap_toWords b
  rw [Padded, (fromWords_eq hbits (by simp; omega)).2]
  exact ⟨by simpa using hk, fun x hx => List.eq_of_mem_replicate hx⟩

/-- **Which words are words of bytes**: those that end in a filling. -/
theorem toWords_fromWords_iff {ws : List Word} : toWords (fromWords ws) = ws ↔ Padded ws := by
  refine ⟨fun h => h ▸ padded_toWords _, fun ⟨hlen, hzero⟩ => ?_⟩
  obtain ⟨k, hk, hbits⟩ := exists_flatMap_toWords (fromWords ws)
  have hpad : padding ws = List.replicate (padding ws).length false :=
    List.eq_replicate_iff.mpr ⟨rfl, hzero⟩
  have hws := fromWords_append_padding ws
  have hcount := congrArg List.length hbits
  have hcount' := congrArg List.length hws
  rw [List.length_append, length_flatMap_wordBits, List.length_replicate] at hcount
  rw [List.length_append, length_flatMap_wordBits] at hcount'
  obtain rfl : k = (padding ws).length := by omega
  exact toWords_inj_of_bits (by rw [hbits, ← hws, hpad, List.length_replicate])

/-- As many words as the bits need. -/
theorem length_of_fromWords (ws : List Word) :
    8 * (fromWords ws).length ≤ 5 * ws.length ∧ 5 * ws.length < 8 * (fromWords ws).length + 8 := by
  have hbytes : ∀ b : Bytes, (b.flatMap byteBits).length = 8 * b.length := by
    intro b
    induction b with
    | nil => rfl
    | cons x b ih =>
      rw [List.flatMap_cons, List.length_append, ih, length_byteBits, List.length_cons]
      omega
  have hrest : (padding ws).length < 8 := (cut_spec (by omega) _ [] (by simp)).2.2
  have hcount := congrArg List.length (fromWords_append_padding ws)
  rw [List.length_append, length_flatMap_wordBits, hbytes] at hcount
  omega

end Hodlchain.Regroup
