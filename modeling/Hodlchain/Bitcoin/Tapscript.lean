/-
Tapscript, and the two ways of spending a Taproot output.

A script is read as instructions, which run on a stack of byte strings.  The opcodes of
relative locks and single signatures, and the one that ends a script, have the meaning
that BIP342 gives them; what any other opcode does is a parameter, so that nothing is
said of scripts that use one.  An output of BIP341 is spent by a signature of its key, or
by a script that it commits to.
-/
import Hodlchain.Bitcoin.RelativeLock

namespace Hodlchain.Tapscript

/-! ### Instructions -/

inductive Instr where
  | push (data : Bytes)
  | op (code : UInt8)
deriving DecidableEq, Repr

/-- A push of the next `n` bytes. -/
def takeData (n : ℕ) (rest : Bytes) : Option (Instr × Bytes) :=
  if n ≤ rest.length then some (.push (rest.take n), rest.drop n) else none

/-- A push with a length of `w` bytes in front. -/
def takeSized (w : ℕ) (rest : Bytes) : Option (Instr × Bytes) :=
  if w ≤ rest.length then
    takeData (Nat.ofDigits 256 ((rest.take w).map UInt8.toNat)) (rest.drop w)
  else none

/-- The first instruction, and the bytes after it. -/
def readInstr : Bytes → Option (Instr × Bytes)
  | [] => none
  | code :: rest =>
      if code ≤ 0x4b then takeData code.toNat rest
      else if code = 0x4c then takeSized 1 rest
      else if code = 0x4d then takeSized 2 rest
      else if code = 0x4e then takeSized 4 rest
      else if code = 0x4f then some (.push [0x81], rest)
      else if 0x51 ≤ code ∧ code ≤ 0x60 then some (.push [code - 0x50], rest)
      else some (.op code, rest)

/-- `OP_SUCCESSx`: a script with such an opcode is accepted, whatever else is in it. -/
def opSuccess (code : UInt8) : Bool :=
  code = 80 || code = 98 || (126 ≤ code && code ≤ 129) || (131 ≤ code && code ≤ 134)
    || (137 ≤ code && code ≤ 138) || (141 ≤ code && code ≤ 142) || (149 ≤ code && code ≤ 153)
    || (187 ≤ code && code ≤ 254)

/-- What reading a script comes to. -/
inductive Scanned where
  | succeeds
  | malformed
  | instructions (l : List Instr)
deriving DecidableEq, Repr

/-- One more instruction in front. -/
def Scanned.cons (i : Instr) : Scanned → Scanned
  | succeeds => succeeds
  | malformed => malformed
  | instructions l => instructions (i :: l)

/-- Read `n` instructions at most. -/
def scanFrom : ℕ → Bytes → Scanned
  | _, [] => .instructions []
  | 0, _ :: _ => .malformed
  | n + 1, code :: rest =>
      match readInstr (code :: rest) with
      | none => .malformed
      | some (.push data, rest') => (scanFrom n rest').cons (.push data)
      | some (.op code', rest') =>
          if opSuccess code' then .succeeds else (scanFrom n rest').cons (.op code')

/-- No script has more instructions than bytes. -/
def scan (script : Bytes) : Scanned := scanFrom script.length script

/-! ### Running them -/

/-- The input that is checked, and what is not fixed here. -/
structure Context where
  version : UInt32
  sequence : UInt32
  /-- A signature by a key of 32 bytes, over this input and this script. -/
  checkSig : Bytes → Bytes → Bool
  witnessSize : ℕ
  /-- What an opcode that is not one of those below does. -/
  other : UInt8 → List Bytes → Option (List Bytes)

/-- The stack, top first, and what signatures may still cost. -/
structure State where
  stack : List Bytes
  budget : ℕ
deriving DecidableEq, Repr

/-- `CastToBool`: anything but a zero, which may have a sign. -/
def truthy (b : Bytes) : Bool :=
  b.any (· != 0) && !(b.dropLast.all (· == 0) && b.getLast? == some 0x80)

instance {version sequence : UInt32} {operand : Bytes} :
    Decidable (CheckSequenceVerify version sequence operand) :=
  inferInstanceAs (Decidable (operand.length ≤ 5 ∧ 0 ≤ scriptNum operand ∧ (_ ∨ _)))

/-- `OP_CHECKSIG`: an empty signature is false, and any other has to be right. -/
def checkSigOp (ctx : Context) (s : State) : Option State :=
  match s.stack with
  | pk :: sig :: stack =>
      if pk = [] then none
      else if sig = [] then some ⟨[] :: stack, s.budget⟩
      else if s.budget < 50 then none
      else if pk.length = 32 ∧ ctx.checkSig pk sig = false then none
      else some ⟨[1] :: stack, s.budget - 50⟩
  | _ => none

/-- What one instruction does. -/
def exec (ctx : Context) (s : State) : Instr → Option State
  | .push data => if data.length ≤ 520 then some { s with stack := data :: s.stack } else none
  | .op code =>
      if code = 0x6a then none
      else if code = 0x75 then
        match s.stack with
        | [] => none
        | _ :: stack => some { s with stack := stack }
      else if code = 0xac then checkSigOp ctx s
      else if code = 0xb2 then
        match s.stack with
        | [] => none
        | operand :: _ =>
            if CheckSequenceVerify ctx.version ctx.sequence operand then some s else none
      else (ctx.other code s.stack).map fun stack => { s with stack := stack }

/-- One instruction after the other, on at most a thousand elements. -/
def run (ctx : Context) : List Instr → State → Option State
  | [], s => some s
  | i :: is, s =>
      match exec ctx s i with
      | none => none
      | some s' => if s'.stack.length ≤ 1000 then run ctx is s' else none

/-- The script accepts the elements of a witness, top first. -/
def Unlocks (ctx : Context) (script : Bytes) (stack : List Bytes) : Prop :=
  match scan script with
  | .succeeds => True
  | .malformed => False
  | .instructions l => stack.length ≤ 1000 ∧ (∀ b ∈ stack, b.length ≤ 520) ∧
      ∃ top budget, run ctx l ⟨stack, 50 + ctx.witnessSize⟩ = some ⟨[top], budget⟩ ∧
        truthy top = true

/-! ### Reading a script -/

section

variable {rest : Bytes} {n : ℕ}

theorem readInstr_push {data : Bytes} (h : data.length ≤ 75) :
    readInstr (UInt8.ofNat data.length :: data ++ rest) = some (.push data, rest) := by
  have hcode : (UInt8.ofNat data.length).toNat = data.length := by
    rw [UInt8.toNat_ofNat']
    omega
  rw [List.cons_append, readInstr, if_pos (UInt8.le_iff_toNat_le.mpr (by rw [hcode]; exact h)),
    takeData, hcode, if_pos (by simp), List.take_left, List.drop_left]

theorem readInstr_small {code : UInt8} (hlow : 0x51 ≤ code) (hhigh : code ≤ 0x60) :
    readInstr (code :: rest) = some (.push [code - 0x50], rest) := by
  have hlow := UInt8.le_iff_toNat_le.mp hlow
  have hne : ∀ k : UInt8, k.toNat ≤ 0x50 → code ≠ k := by
    intro k hk hcode
    rw [hcode] at hlow
    exact absurd (hlow.trans hk) (by decide)
  have hpush : ¬ code ≤ 0x4b := fun hle =>
    absurd (hlow.trans (UInt8.le_iff_toNat_le.mp hle)) (by decide)
  rw [readInstr, if_neg hpush, if_neg (hne _ (by decide)), if_neg (hne _ (by decide)),
    if_neg (hne _ (by decide)), if_neg (hne _ (by decide)),
    if_pos ⟨UInt8.le_iff_toNat_le.mpr hlow, hhigh⟩]

theorem readInstr_op {code : UInt8} (h : 0x60 < code) :
    readInstr (code :: rest) = some (.op code, rest) := by
  have hlow := UInt8.lt_iff_toNat_lt.mp h
  have hne : ∀ k : UInt8, k.toNat ≤ 0x60 → code ≠ k := by
    intro k hk hcode
    rw [hcode] at hlow
    exact absurd (hlow.trans_le hk) (by decide)
  have hpush : ¬ code ≤ 0x4b := fun hle =>
    absurd (hlow.trans_le (UInt8.le_iff_toNat_le.mp hle)) (by decide)
  rw [readInstr, if_neg hpush, if_neg (hne _ (by decide)), if_neg (hne _ (by decide)),
    if_neg (hne _ (by decide)), if_neg (hne _ (by decide)), if_neg]
  rintro ⟨-, hle⟩
  exact absurd h (UInt8.not_lt.mpr hle)

/-- A push that is read off the start of a script is its first instruction, if it is all there. -/
theorem readInstr_of_readPush {b operand : Bytes} (h : readPush b = some (operand, rest))
    (hall : ∀ code tail, b = code :: tail → code ≤ 75 → code.toNat ≤ tail.length) :
    readInstr b = some (.push operand, rest) := by
  cases b with
  | nil => cases h
  | cons code tail =>
      rw [readPush] at h
      split_ifs at h with hdirect hsmall
      · obtain ⟨rfl, rfl⟩ := Prod.mk.inj (Option.some.inj h)
        rw [readInstr, if_pos hdirect, takeData, if_pos (hall code tail rfl hdirect)]
      · obtain ⟨rfl, rfl⟩ := Prod.mk.inj (Option.some.inj h)
        exact readInstr_small hsmall.1 hsmall.2

/-- Reading on behind a push. -/
theorem scanFrom_push {b data : Bytes} (h : readInstr b = some (.push data, rest)) :
    scanFrom (n + 1) b = (scanFrom n rest).cons (.push data) := by
  cases b with
  | nil => cases h
  | cons code b =>
      rw [scanFrom, h]

/-- Reading on behind an opcode. -/
theorem scanFrom_op {code : UInt8} (h : 0x60 < code) (hsuccess : opSuccess code = false) :
    scanFrom (n + 1) (code :: rest) = (scanFrom n rest).cons (.op code) := by
  rw [scanFrom, readInstr_op h]
  simp only [hsuccess]
  rfl

theorem scanFrom_nil : scanFrom n [] = .instructions [] := by
  cases n <;> rfl

end

/-! ### Two scripts -/

section

variable {ctx : Context} {script operand pk : Bytes} {stack : List Bytes} {l : List Instr}

/-- **A script that starts with `OP_RETURN` accepts nothing.** -/
theorem not_unlocks_return (h : scan script = .instructions (.op 0x6a :: l)) :
    ¬ Unlocks ctx script stack := by
  unfold Unlocks
  rw [h]
  rintro ⟨-, -, top, budget, hrun, -⟩
  cases hrun

/-- A lock in front of a signature, on the elements of a witness. -/
def lockInstrs (operand pk : Bytes) : List Instr :=
  [.push operand, .op 0xb2, .op 0x75, .push pk, .op 0xac]

/-- It leaves the stack below the key. -/
theorem run_lockInstrs (s : State) (hoperand : operand.length ≤ 520) (hpk : pk.length ≤ 520)
    (hroom : s.stack.length < 1000) : run ctx (lockInstrs operand pk) s
      = if CheckSequenceVerify ctx.version ctx.sequence operand then
          run ctx [.op 0xac] ⟨pk :: s.stack, s.budget⟩
        else none := by
  have hone : ∀ b : Bytes, (b :: s.stack).length ≤ 1000 := fun _ => hroom
  unfold lockInstrs
  rw [run, exec, if_pos hoperand]
  simp only [hone, if_true]
  rw [run, exec, if_neg (by decide), if_neg (by decide), if_neg (by decide), if_pos rfl]
  by_cases hlock : CheckSequenceVerify ctx.version ctx.sequence operand
  · simp only [hlock, hone, if_true]
    rw [run, exec, if_neg (by decide), if_pos rfl]
    simp only [hroom.le, if_true]
    rw [run, exec, if_pos hpk]
    simp only [hone, if_true]
  · simp only [hlock, if_false]

/-- What `OP_CHECKSIG` ends with: one element more than was below the signature. -/
theorem run_checkSig_iff {sig top : Bytes} {budget budget' : ℕ} (hpk : pk.length = 32)
    (hbudget : 50 ≤ budget) (htop : truthy top = true) :
    run ctx [.op 0xac] ⟨pk :: sig :: stack, budget⟩ = some ⟨[top], budget'⟩ ↔
      stack = [] ∧ sig ≠ [] ∧ ctx.checkSig pk sig = true ∧ top = [1] ∧ budget' = budget - 50 := by
  have hne : pk ≠ [] := by
    rintro rfl
    cases hpk
  rw [run, exec, if_neg (by decide), if_neg (by decide), if_pos rfl, checkSigOp]
  simp only [if_neg hne]
  by_cases hsig : sig = []
  · -- the empty signature leaves a zero
    subst hsig
    simp only [if_true]
    refine iff_of_false (fun hrun => ?_) (fun h => h.2.1 rfl)
    split_ifs at hrun
    obtain ⟨hstack, -⟩ := State.mk.inj (Option.some.inj hrun)
    obtain ⟨rfl, -⟩ := List.cons.inj hstack
    cases htop
  · simp only [if_neg hsig, if_neg (Nat.not_lt.mpr hbudget), hpk, true_and]
    by_cases hcheck : ctx.checkSig pk sig = true
    · simp only [hcheck, run]
      cases stack with
      | nil => simp [hsig, eq_comm]
      | cons b stack => simp
    · simp only [Bool.not_eq_true] at hcheck
      simp [hcheck]

/-- **Such a script accepts one element, a signature by the key, on an input with the lock.** -/
theorem unlocks_lock_iff (h : scan script = .instructions (lockInstrs operand pk))
    (hoperand : operand.length ≤ 520) (hpk : pk.length = 32) : Unlocks ctx script stack ↔
      CheckSequenceVerify ctx.version ctx.sequence operand ∧
        ∃ sig, stack = [sig] ∧ sig ≠ [] ∧ sig.length ≤ 520 ∧ ctx.checkSig pk sig = true := by
  unfold Unlocks
  rw [h]
  constructor
  · rintro ⟨-, hsize, top, budget, hrun, htop⟩
    have hroom : stack.length < 1000 := by
      by_contra hfull
      have hmore : ¬ (operand :: stack).length ≤ 1000 := by
        rw [List.length_cons]
        omega
      rw [lockInstrs, run, exec, if_pos hoperand] at hrun
      simp only [if_neg hmore] at hrun
      cases hrun
    rw [run_lockInstrs _ hoperand (by omega) hroom] at hrun
    split_ifs at hrun with hlock
    refine ⟨hlock, ?_⟩
    cases stack with
    | nil => cases hrun
    | cons sig stack =>
        obtain ⟨rfl, hsig, hcheck, -⟩ := (run_checkSig_iff hpk (Nat.le_add_right 50 _) htop).mp hrun
        exact ⟨sig, rfl, hsig, hsize sig (List.mem_singleton_self _), hcheck⟩
  · rintro ⟨hlock, sig, rfl, hsig, hsize, hcheck⟩
    refine ⟨by simp, fun b hb => ?_, [1], ctx.witnessSize, ?_, rfl⟩
    · rw [List.mem_singleton.mp hb]
      exact hsize
    · rw [run_lockInstrs _ hoperand (by omega) (by simp), if_pos hlock]
      exact (run_checkSig_iff hpk (Nat.le_add_right 50 _) rfl).mpr
        ⟨rfl, hsig, hcheck, rfl, by omega⟩

end

/-! ### Spending a Taproot output -/

/-- What is read off an input, what is checked with curve points and hashes, and the median times
past of the blocks. -/
structure SpendRules (ι : Type) where
  version : ι → UInt32
  sequence : ι → UInt32
  witness : ι → List Bytes
  witnessSize : ι → ℕ
  /-- A signature by the key of an output. -/
  keyPath : ι → Bytes → Bytes → Prop
  /-- An output commits to a script, by the path that a control block gives. -/
  commits : Bytes → Bytes → Bytes → Prop
  /-- A signature by a key of 32 bytes, in a script. -/
  checkSig : ι → Bytes → Bytes → Bytes → Bool
  other : UInt8 → List Bytes → Option (List Bytes)
  mtp : ℕ → ℕ

/-- The last element is an annex, if it says so and is not the only one. -/
def dropAnnex (witness : List Bytes) : List Bytes :=
  if 2 ≤ witness.length ∧ (witness.getLast?.bind List.head?) = some 0x50 then witness.dropLast
  else witness

/-- The version of a leaf, in the control block. -/
def leafVersion (control : Bytes) : Option UInt8 := control.head?.map (· &&& 0xfe)

/-- A leaf version and a key, and up to 128 hashes. -/
def ControlSize (control : Bytes) : Prop := ∃ m ≤ 128, control.length = 33 + 32 * m

namespace SpendRules

variable {ι : Type} (rules : SpendRules ι)

def context (i : ι) (script : Bytes) : Context where
  version := rules.version i
  sequence := rules.sequence i
  checkSig := rules.checkSig i script
  witnessSize := rules.witnessSize i
  other := rules.other

/-- BIP341: one element is a signature of the key; otherwise the last two are a script and its
control block, and the script runs on the others.  A leaf of another version is free to spend. -/
def SpendsTaproot (spk : Bytes) (i : ι) : Prop :=
  (∃ sig, dropAnnex (rules.witness i) = [sig] ∧ rules.keyPath i spk sig) ∨
  ∃ elements script control, dropAnnex (rules.witness i) = elements ++ [script, control] ∧
    ControlSize control ∧ rules.commits spk control script ∧
    (leafVersion control = some 0xc0 → Unlocks (rules.context i script) script elements.reverse)

/-- The input spends an output confirmed at a height, in the block at another. -/
def ValidSpend (spk : Bytes) (confirmed b : ℕ) (i : ι) : Prop :=
  rules.SpendsTaproot spk i ∧
    (relativeLock (rules.version i) (rules.sequence i)).Met rules.mtp confirmed b

end SpendRules

end Hodlchain.Tapscript
