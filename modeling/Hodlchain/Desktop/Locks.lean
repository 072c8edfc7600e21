/-
The two locks of the desktop application.

The selected name and the cached contexts stand behind a mutex each.  A load takes the
contexts and then the name, a deselection the name and then the contexts, and between two
looks at the name others may run.  Each acquisition and release is a step here; a file may
change at any time, so a step that reads one is given what it finds.
-/
import Hodlchain.Lib.System
import Hodlchain.Lib.WaitFor
import Hodlchain.Desktop.State
import Hodlchain.Wallet.Unlock

namespace Hodlchain.Desktop

open Wallet

/-! ### Commands, step by step -/

inductive Mutex where
  | currentWallet
  | unlocked
deriving DecidableEq, Repr

/-- What a command answers. -/
inductive Answer where
  | loaded (r : Except AppError WalletFile)
  | saved (r : Except AppError (String × DiskLoad))
  | selected (r : Except AppError Unit)
  | created (r : Except AppError KeygenOutput)
  | deselected

/-- Who has asked for the current path. -/
inductive Resolver where
  | load
  | save (io : SaveIo) (wf : WalletFile)

/-- Where a command is. -/
inductive Place where
  | idle
  /-- `resolve_current_path` waits for the name, and has it. -/
  | resolve (caller : Resolver)
  | resolving (caller : Resolver)
  /-- `load_current` looks at the file, and loads a plain one. -/
  | resolved (path : String)
  | loadPlain (path : String)
  /-- It waits for the contexts, and with them for the name. -/
  | lockUnlocked (path : String)
  | lockCurrent (path : String)
  | loading (path : String)
  /-- The name is given back, the contexts not yet. -/
  | leaving (r : Except AppError WalletFile)
  /-- `select` and `keygen` keep a context, and set the name. -/
  | cache (name : String) (ctx : UnlockContext) (answer : Answer)
  | caching (name : String) (ctx : UnlockContext) (answer : Answer)
  | choose (name : String) (answer : Answer)
  | choosing (name : String) (answer : Answer)
  /-- `deselect` waits for the name, has it, waits for the contexts with it, has both, and has given
  the contexts back. -/
  | clear
  | clearing
  | evict (name : String)
  | evicting (name : String)
  | evicted
  | answered (answer : Answer)
  | panicked

namespace Place

/-- The lock a command waits for. -/
def wants : Place → Option Mutex
  | resolve _ | lockCurrent _ | choose .. | clear => some .currentWallet
  | lockUnlocked _ | cache .. | evict _ => some .unlocked
  | _ => none

/-- The locks it has. -/
def holds : Place → Mutex → Bool
  | resolving _, .currentWallet | choosing .., .currentWallet => true
  | lockCurrent _, .unlocked | leaving _, .unlocked | caching .., .unlocked => true
  | loading _, _ => true
  | clearing, .currentWallet | evict _, .currentWallet | evicted, .currentWallet => true
  | evicting _, _ => true
  | _, _ => false

/-- A load of an encrypted wallet that is still to look at the name again. -/
def Rereads : Place → Prop
  | lockUnlocked _ | lockCurrent _ | loading _ => True
  | _ => False

/-- A command that is about to set the name. -/
def Chooses : Place → Prop
  | choosing .. => True
  | _ => False

/-- A deselection that has the name. -/
def Clears : Place → Prop
  | clearing | evict _ | evicting _ | evicted => True
  | _ => False

end Place

/-! ### The state behind the locks -/

structure Shared where
  currentWallet : Option String
  unlocked : String → Option UnlockContext
  /-- Who has a lock. -/
  owner : Mutex → Option Nat
  poisoned : Mutex → Bool
  thread : Nat → Place

namespace Shared

/-- A thread goes on to another place. -/
def goto (t : Nat) (p : Place) (s : Shared) : Shared :=
  { s with thread := Function.update s.thread t p }

/-- A panic: the guards are dropped on the way out, and leave their locks poisoned. -/
def unwind (t : Nat) (s : Shared) : Shared :=
  { s.goto t .panicked with
    owner := fun m => if s.owner m = some t then none else s.owner m
    poisoned := fun m => s.poisoned m || decide (s.owner m = some t) }

/-- `lock().unwrap()`: nothing while another has the lock, and a panic once it is poisoned. -/
def acquire (t : Nat) (m : Mutex) (p : Place) (s : Shared) : Option Shared :=
  if s.owner m = none then
    if s.poisoned m then some (s.unwind t)
    else some { s.goto t p with owner := Function.update s.owner m (some t) }
  else none

/-- A guard is dropped. -/
def release (t : Nat) (m : Mutex) (p : Place) (s : Shared) : Shared :=
  { s.goto t p with owner := Function.update s.owner m none }

/-- `resolve_current_path`, with the name locked. -/
def resolved (s : Shared) : Except AppError String := do
  let name ← okOr s.currentWallet .noWallet
  mapErr .name (walletPathFor name)

end Shared

section

variable (c : Cipher)

/-- Where a command goes with the path it asked for. -/
def Resolver.resume (r : Except AppError String) : Resolver → Place
  | .load =>
      match r with
      | .ok path => .resolved path
      | .error e => .answered (.loaded (.error e))
  | .save io wf => .answered (.saved do
      let path ← r
      let disk ← mapErr .encrypt (wf.toDisk c io.nonce)
      ensure (io.writes = true) .write
      pure (path, disk))

/-- The next step of a thread; `file` is what a step that reads the wallet's file finds. -/
def Shared.advance (file : Option File) (t : Nat) (s : Shared) : Option Shared :=
  match s.thread t with
  | .idle | .answered _ | .panicked => none
  | .resolve caller => s.acquire t .currentWallet (.resolving caller)
  | .resolving caller => some (s.release t .currentWallet (caller.resume c s.resolved))
  | .resolved path =>
      match WalletFile.isEncryptedAt file with
      | .error e => some (s.goto t (.answered (.loaded (.error (.load e)))))
      | .ok true => some (s.goto t (.lockUnlocked path))
      | .ok false => some (s.goto t (.loadPlain path))
  | .loadPlain _ => some (s.goto t (.answered (.loaded (mapErr .load (WalletFile.load c file)))))
  | .lockUnlocked path => s.acquire t .unlocked (.lockCurrent path)
  | .lockCurrent path => s.acquire t .currentWallet (.loading path)
  | .loading _ =>
      match s.currentWallet with
      | none => some (s.unwind t)
      | some name =>
          match s.unlocked name with
          | none => some (s.release t .currentWallet (.leaving (.error .locked)))
          | some ctx =>
              match WalletFile.loadWithContext c file ctx with
              | .error (.decrypt (.noncePanic _)) => some (s.unwind t)
              | r => some (s.release t .currentWallet (.leaving (mapErr .load r)))
  | .leaving r => some (s.release t .unlocked (.answered (.loaded r)))
  | .cache name ctx answer => s.acquire t .unlocked (.caching name ctx answer)
  | .caching name ctx answer =>
      some { s.release t .unlocked (.choose name answer) with
        unlocked := Function.update s.unlocked name (some ctx) }
  | .choose name answer => s.acquire t .currentWallet (.choosing name answer)
  | .choosing name answer =>
      some { s.release t .currentWallet (.answered answer) with currentWallet := some name }
  | .clear => s.acquire t .currentWallet .clearing
  | .clearing =>
      match s.currentWallet with
      | some name => some (s.goto t (.evict name))
      | none => some { s.release t .currentWallet (.answered .deselected) with
        currentWallet := none }
  | .evict name => s.acquire t .unlocked (.evicting name)
  | .evicting name =>
      some { s.release t .unlocked .evicted with unlocked := Function.update s.unlocked name none }
  | .evicted => some { s.release t .currentWallet (.answered .deselected) with
    currentWallet := none }

/-- What `select` does before it takes a lock; the file is looked for, looked at and loaded. -/
def selectPrepare (name : String) (passphrase : Option String)
    (found looked loaded : Option File) : Place :=
  let ready : Except AppError (Option String) := do
    let _ ← mapErr .name (walletPathFor name)
    ensure (found.isSome = true) (.noSuchWallet name)
    let encrypted ← mapErr .load (WalletFile.isEncryptedAt looked)
    if encrypted then do
      let pp ← okOr passphrase .passphraseRequired
      pure (some pp)
    else pure none
  match ready with
  | .error e => .answered (.selected (.error e))
  | .ok none => .choose name (.selected (.ok ()))
  | .ok (some pp) =>
      match WalletFile.loadUnlocked c loaded (some pp) with
      | .error (.decrypt (.noncePanic _)) => .panicked
      | .error e => .answered (.selected (.error (.load e)))
      | .ok wf =>
          match wf.takeEncryptionCtx.1 with
          | none => .panicked
          | some ctx => .cache name ctx (.selected (.ok ()))

end

/-- What `keygen` does before it takes a lock, up to the file it writes. -/
def keygenPrepare (libs : Libraries) (input : GuiKeygenInput) (io : KeygenIo)
    (found : Option File) : Place :=
  let written : Except AppError (KeygenOutput × Option UnlockContext) := do
    let _ ← mapErr .name (walletPathFor input.name)
    ensure (¬ (found.isSome = true ∧ input.force = false)) (.walletExists input.name)
    let (wf, out) ← mapErr .keygen (Wallet.keygen libs input.keygen io.generated)
    let wf ← match input.encryptionPassphrase.filter (· ≠ "") with
      | some pp => mapErr .encrypt (wf.encryptInPlace libs.cipher pp io.salt io.nonce)
      | none => pure wf
    let _ ← mapErr .encrypt (wf.toDisk libs.cipher io.save.nonce)
    ensure (io.save.writes = true) .write
    pure (out, wf.takeEncryptionCtx.1)
  match written with
  | .error e => .answered (.created (.error e))
  | .ok (out, none) => .choose input.name (.created (.ok out))
  | .ok (out, some ctx) => .cache input.name ctx (.created (.ok out))

/-! ### Interleavings -/

/-- A command, with what it finds before its first lock. -/
inductive Call where
  | loadCurrent
  | saveCurrent (io : SaveIo) (wf : WalletFile)
  | select (name : String) (passphrase : Option String) (found looked loaded : Option File)
  | deselect
  | keygen (input : GuiKeygenInput) (io : KeygenIo) (found : Option File)

def Call.start (libs : Libraries) : Call → Place
  | .loadCurrent => .resolve .load
  | .saveCurrent io wf => .resolve (.save io wf)
  | .select name passphrase found looked loaded => selectPrepare libs.cipher name passphrase
    found looked loaded
  | .deselect => .clear
  | .keygen input io found => keygenPrepare libs input io found

inductive Turn where
  /-- A thread that has done nothing yet takes a command. -/
  | begins (t : Nat) (call : Call)
  /-- A thread takes its next step. -/
  | advances (t : Nat) (file : Option File)

/-- One step of one thread. -/
def Shared.turn (libs : Libraries) (s : Shared) : Turn → Option Shared
  | .begins t call =>
      match s.thread t with
      | .idle => some (s.goto t (call.start libs))
      | _ => none
  | .advances t file => s.advance libs.cipher file t

/-- `AppState::init`, with no command running. -/
def Shared.start : Shared := ⟨none, fun _ => none, fun _ => none, fun _ => false, fun _ => .idle⟩

/-- Every interleaving of the steps that are allowed. -/
def lockSystem (libs : Libraries) (allowed : Turn → Shared → Prop) : System Shared :=
  ⟨fun s => s = .start, fun s s' => ∃ e, allowed e s ∧ s.turn libs e = some s'⟩

/-- A thread waits for the one that has the lock it wants. -/
def Shared.Waits (s : Shared) (t t' : Nat) : Prop :=
  ∃ m, (s.thread t).wants = some m ∧ s.owner m = some t'

/-- Whoever comes to the `expect` finds a name. -/
def Shared.ExpectHolds (s : Shared) : Prop :=
  ∀ t path, s.thread t = .loading path → s.currentWallet ≠ none

/-! ### What a step does -/

/-- A command that has just begun, or has answered. -/
structure Place.Outside (p : Place) : Prop where
  holds : ∀ m, p.holds m = false
  rereads : ¬ p.Rereads
  clears : ¬ p.Clears

theorem outside_answered (answer : Answer) : (Place.answered answer).Outside :=
  ⟨fun m => by cases m <;> rfl, id, id⟩

theorem outside_resume (c : Cipher) (caller : Resolver) (r : Except AppError String) :
    (caller.resume c r).Outside := by
  cases caller with
  | load =>
      cases r with
      | ok path => exact ⟨fun m => by cases m <;> rfl, id, id⟩
      | error e => exact outside_answered _
  | save io wf => exact outside_answered _

theorem outside_selectPrepare (c : Cipher) (name : String) (passphrase : Option String)
    (found looked loaded : Option File) :
    (selectPrepare c name passphrase found looked loaded).Outside := by
  rw [selectPrepare]
  split
  · exact outside_answered _
  · exact ⟨fun m => by cases m <;> rfl, id, id⟩
  · split
    · exact ⟨fun m => by cases m <;> rfl, id, id⟩
    · exact outside_answered _
    · split <;> exact ⟨fun m => by cases m <;> rfl, id, id⟩

theorem outside_keygenPrepare (libs : Libraries) (input : GuiKeygenInput) (io : KeygenIo)
    (found : Option File) : (keygenPrepare libs input io found).Outside := by
  rw [keygenPrepare]
  split <;> exact ⟨fun m => by cases m <;> rfl, id, id⟩

theorem outside_start (libs : Libraries) (call : Call) : (call.start libs).Outside := by
  cases call with
  | loadCurrent => exact ⟨fun m => by cases m <;> rfl, id, id⟩
  | saveCurrent io wf => exact ⟨fun m => by cases m <;> rfl, id, id⟩
  | select name passphrase found looked loaded => exact outside_selectPrepare ..
  | deselect => exact ⟨fun m => by cases m <;> rfl, id, id⟩
  | keygen input io found => exact outside_keygenPrepare ..

/-- The ways a turn of thread `t`, at the place `p₀`, can go. -/
inductive Moved (c : Cipher) (s : Shared) (e : Turn) (t : Nat) (p₀ : Place) : Shared → Prop
  /-- It goes on with the locks it has. -/
  | stays (p : Place) (hholds : ∀ m, p.holds m = p₀.holds m)
      (hrereads : p.Rereads → ∃ file path, e = .advances t file ∧ p₀ = .resolved path ∧
        WalletFile.isEncryptedAt file = .ok true)
      (hclears : p.Clears → p₀.Clears) (hchooses : ¬ p₀.Chooses) : Moved c s e t p₀ (s.goto t p)
  /-- It takes the lock it waits for. -/
  | takes (m : Mutex) (p : Place) (hfree : s.owner m = none)
      (hholds : ∀ m', p.holds m' = (p₀.holds m' || decide (m' = m)))
      (hrereads : p.Rereads → p₀.Rereads)
      (hclears : p.Clears → p₀.Clears ∨ m = .currentWallet ∧ p₀ = .clear ∧
        ∃ file, e = .advances t file)
      (hchooses : ¬ p₀.Chooses) :
      Moved c s e t p₀ { s.goto t p with owner := Function.update s.owner m (some t) }
  /-- The lock it waits for is poisoned. -/
  | fails (m : Mutex) (hpoisoned : s.poisoned m = true) (hchooses : ¬ p₀.Chooses) :
      Moved c s e t p₀ (s.unwind t)
  /-- It gives a lock back, and leaves something behind it. -/
  | gives (m : Mutex) (p : Place) (name : Option String) (unlocked : String → Option UnlockContext)
      (hholds : ∀ m', p.holds m' = (p₀.holds m' && decide (m' ≠ m))) (hhas : p₀.holds m = true)
      (hrereads : ¬ p.Rereads) (hclears : p.Clears → p₀.Clears)
      (hname : name = none → p₀.Clears ∨ s.currentWallet = none ∧ ¬ p₀.Chooses) :
      Moved c s e t p₀ { s.release t m p with currentWallet := name, unlocked := unlocked }
  /-- It panics in the load, at the `expect` or over the nonce of the file. -/
  | breaks (path : String) (file : Option File) (hturn : e = .advances t file)
    (hplace : p₀ = .loading path)
      (hwhy : s.currentWallet = none ∨ ∃ name ctx n, s.currentWallet = some name ∧
        s.unlocked name = some ctx ∧
        WalletFile.loadWithContext c file ctx = .error (.decrypt (.noncePanic n))) :
      Moved c s e t p₀ (s.unwind t)

section

variable {c : Cipher} {libs : Libraries} {s s' : Shared} {e : Turn} {t : Nat}

theorem moved_of_acquire {m : Mutex} {p₀ p : Place} (h : s.acquire t m p = some s')
    (hholds : ∀ m', p.holds m' = (p₀.holds m' || decide (m' = m)))
    (hrereads : p.Rereads → p₀.Rereads)
    (hclears : p.Clears → p₀.Clears ∨ m = .currentWallet ∧ p₀ = .clear ∧
      ∃ file, e = .advances t file)
    (hchooses : ¬ p₀.Chooses) : Moved c s e t p₀ s' := by
  rw [Shared.acquire] at h
  split_ifs at h with hfree hpoisoned
  · obtain rfl := Option.some.inj h
    exact .fails m hpoisoned hchooses
  · obtain rfl := Option.some.inj h
    exact .takes m p hfree hholds hrereads hclears hchooses

/-- A step that gives back a lock and leaves the rest. -/
theorem moved_of_release {m : Mutex} {p₀ p : Place}
    (hholds : ∀ m', p.holds m' = (p₀.holds m' && decide (m' ≠ m)))
    (hhas : p₀.holds m = true) (hrereads : ¬ p.Rereads) (hclears : p.Clears → p₀.Clears)
    (hchooses : ¬ p₀.Chooses) : Moved c s e t p₀ (s.release t m p) :=
  .gives m p s.currentWallet s.unlocked hholds hhas hrereads hclears fun h => .inr ⟨h, hchooses⟩

theorem moved_of_loading {file : Option File} {path : String}
    (h : s.advance c file t = some s') (hp : s.thread t = .loading path) :
    Moved c s (.advances t file) t (.loading path) s' := by
  simp only [Shared.advance, hp] at h
  split at h
  · obtain rfl := Option.some.inj h
    exact .breaks path file rfl rfl (.inl ‹_›)
  · rename_i name hname
    split at h
    · obtain rfl := Option.some.inj h
      exact moved_of_release (fun m => by cases m <;> rfl) rfl id False.elim id
    · rename_i ctx hctx
      split at h
      · rename_i n hload
        obtain rfl := Option.some.inj h
        exact .breaks path file rfl rfl (.inr ⟨name, ctx, n, hname, hctx, hload⟩)
      · obtain rfl := Option.some.inj h
        exact moved_of_release (fun m => by cases m <;> rfl) rfl id False.elim id

/-- **What one step of a thread does.** -/
theorem moved_of_advance {file : Option File} (h : s.advance c file t = some s') :
    Moved c s (.advances t file) t (s.thread t) s' := by
  cases hp : s.thread t with
  | loading path => exact moved_of_loading h hp
  | idle => simp [Shared.advance, hp] at h
  | answered answer => simp [Shared.advance, hp] at h
  | panicked => simp [Shared.advance, hp] at h
  | resolve caller =>
      simp only [Shared.advance, hp] at h
      exact moved_of_acquire h (fun m => by cases m <;> rfl) False.elim False.elim id
  | resolving caller =>
      simp only [Shared.advance, hp] at h
      obtain rfl := Option.some.inj h
      have hout := outside_resume c caller s.resolved
      exact moved_of_release (fun m => by rw [hout.holds]; cases m <;> rfl) rfl hout.rereads
        (fun h => absurd h hout.clears) id
  | resolved path =>
      simp only [Shared.advance, hp] at h
      split at h
      · obtain rfl := Option.some.inj h
        exact .stays _ (fun m => by cases m <;> rfl) False.elim False.elim id
      · obtain rfl := Option.some.inj h
        exact .stays _ (fun m => by cases m <;> rfl) (fun _ => ⟨file, path, rfl, rfl, ‹_›⟩)
          False.elim id
      · obtain rfl := Option.some.inj h
        exact .stays _ (fun m => by cases m <;> rfl) False.elim False.elim id
  | loadPlain path =>
      simp only [Shared.advance, hp] at h
      obtain rfl := Option.some.inj h
      exact .stays _ (fun m => by cases m <;> rfl) False.elim False.elim id
  | lockUnlocked path =>
      simp only [Shared.advance, hp] at h
      exact moved_of_acquire h (fun m => by cases m <;> rfl) id False.elim id
  | lockCurrent path =>
      simp only [Shared.advance, hp] at h
      exact moved_of_acquire h (fun m => by cases m <;> rfl) id False.elim id
  | leaving r =>
      simp only [Shared.advance, hp] at h
      obtain rfl := Option.some.inj h
      exact moved_of_release (fun m => by cases m <;> rfl) rfl id False.elim id
  | cache name ctx answer =>
      simp only [Shared.advance, hp] at h
      exact moved_of_acquire h (fun m => by cases m <;> rfl) False.elim False.elim id
  | caching name ctx answer =>
      simp only [Shared.advance, hp] at h
      obtain rfl := Option.some.inj h
      exact .gives .unlocked _ s.currentWallet _ (fun m => by cases m <;> rfl) rfl id False.elim
        fun h => .inr ⟨h, id⟩
  | choose name answer =>
      simp only [Shared.advance, hp] at h
      exact moved_of_acquire h (fun m => by cases m <;> rfl) False.elim False.elim id
  | choosing name answer =>
      simp only [Shared.advance, hp] at h
      obtain rfl := Option.some.inj h
      exact .gives .currentWallet _ (some name) s.unlocked (fun m => by
        cases m <;> rfl) rfl id False.elim nofun
  | clear =>
      simp only [Shared.advance, hp] at h
      exact moved_of_acquire h (fun m => by cases m <;> rfl) False.elim (fun _ =>
        .inr ⟨rfl, rfl, file, rfl⟩) id
  | clearing =>
      simp only [Shared.advance, hp] at h
      split at h
      · obtain rfl := Option.some.inj h
        exact .stays _ (fun m => by cases m <;> rfl) False.elim (fun _ => trivial) id
      · obtain rfl := Option.some.inj h
        exact .gives .currentWallet _ none s.unlocked (fun m => by
          cases m <;> rfl) rfl id False.elim
          fun _ => .inl trivial
  | evict name =>
      simp only [Shared.advance, hp] at h
      exact moved_of_acquire h (fun m => by cases m <;> rfl) False.elim (fun _ => .inl trivial) id
  | evicting name =>
      simp only [Shared.advance, hp] at h
      obtain rfl := Option.some.inj h
      exact .gives .unlocked _ s.currentWallet _ (fun m => by
        cases m <;> rfl) rfl id (fun _ => trivial)
        fun h => .inr ⟨h, id⟩
  | evicted =>
      simp only [Shared.advance, hp] at h
      obtain rfl := Option.some.inj h
      exact .gives .currentWallet _ none s.unlocked (fun m => by cases m <;> rfl) rfl id False.elim
        fun _ => .inl trivial

/-- **What one turn does.** -/
theorem moved_of_turn (h : s.turn libs e = some s') :
    ∃ t, Moved libs.cipher s e t (s.thread t) s' := by
  cases e with
  | begins t call =>
      refine ⟨t, ?_⟩
      simp only [Shared.turn] at h
      split at h
      · rename_i hidle
        obtain rfl := Option.some.inj h
        have hout := outside_start libs call
        rw [hidle]
        exact .stays _ (fun m => by rw [hout.holds]; cases m <;> rfl) (fun h =>
          absurd h hout.rereads)
          (fun h => absurd h hout.clears) id
      · cases h
  | advances t file => exact ⟨t, moved_of_advance h⟩

end

/-! ### Who has the locks -/

/-- A lock belongs to the thread that has it. -/
def Shared.Owned (s : Shared) : Prop := ∀ t m, s.owner m = some t ↔ (s.thread t).holds m = true

section

variable {c : Cipher} {libs : Libraries} {s s' : Shared} {e : Turn} {t : Nat}

@[simp] theorem goto_thread_self (p : Place) : (s.goto t p).thread t = p := Function.update_self ..

theorem goto_thread_of_ne (p : Place) {u : Nat} (hu : u ≠ t) : (s.goto t p).thread u = s.thread u :=
  Function.update_of_ne hu ..

@[simp] theorem unwind_thread_self : (s.unwind t).thread t = .panicked := Function.update_self ..

theorem unwind_thread_of_ne {u : Nat} (hu : u ≠ t) : (s.unwind t).thread u = s.thread u :=
  Function.update_of_ne hu ..

theorem unwind_owner_eq_some {m : Mutex} {u : Nat} :
    (s.unwind t).owner m = some u ↔ s.owner m = some u ∧ u ≠ t := by
  show (if s.owner m = some t then none else s.owner m) = some u ↔ _
  by_cases ht : s.owner m = some t
  · rw [if_pos ht, ht]
    exact ⟨nofun, fun ⟨h, hne⟩ => absurd (Option.some.inj h).symm hne⟩
  · rw [if_neg ht]
    exact ⟨fun h => ⟨h, fun hu => ht (hu ▸ h)⟩, And.left⟩

theorem Shared.Owned.unwind (h : s.Owned) : (s.unwind t).Owned := by
  intro u m
  rw [unwind_owner_eq_some]
  by_cases hu : u = t
  · subst hu
    rw [unwind_thread_self]
    exact ⟨fun h => absurd rfl h.2, fun h => by cases m <;> cases h⟩
  · rw [unwind_thread_of_ne hu, h u m]
    exact ⟨And.left, fun h => ⟨h, hu⟩⟩

/-- Every turn keeps the books. -/
theorem Shared.Owned.moved (hown : s.Owned) (h : Moved c s e t (s.thread t) s') : s'.Owned := by
  cases h with
  | stays p hholds =>
      intro u m
      by_cases hu : u = t
      · subst hu
        rw [goto_thread_self, hholds]
        exact hown u m
      · rw [goto_thread_of_ne p hu]
        exact hown u m
  | takes m p hfree hholds =>
      intro u m'
      show Function.update s.owner m (some t) m' = some u ↔ ((s.goto t p).thread u).holds m' = true
      by_cases hu : u = t
      · subst hu
        rw [goto_thread_self, hholds]
        by_cases hm : m' = m
        · subst hm
          simp
        · rw [Function.update_of_ne hm, hown u m']
          simp [hm]
      · rw [goto_thread_of_ne p hu]
        by_cases hm : m' = m
        · subst hm
          rw [Function.update_self, ← hown u m', hfree]
          exact ⟨fun h => absurd (Option.some.inj h).symm hu, nofun⟩
        · rw [Function.update_of_ne hm]
          exact hown u m'
  | fails => exact hown.unwind
  | breaks => exact hown.unwind
  | gives m p name unlocked hholds hhas =>
      have howner := (hown t m).mpr hhas
      intro u m'
      show Function.update s.owner m none m' = some u ↔ ((s.goto t p).thread u).holds m' = true
      by_cases hm : m' = m
      · subst hm
        rw [Function.update_self]
        refine ⟨nofun, fun h => ?_⟩
        by_cases hu : u = t
        · subst hu
          rw [goto_thread_self, hholds] at h
          simp at h
        · rw [goto_thread_of_ne p hu, ← hown u m', howner] at h
          exact absurd (Option.some.inj h).symm hu
      · rw [Function.update_of_ne hm]
        by_cases hu : u = t
        · subst hu
          rw [goto_thread_self, hholds, hown u m']
          simp [hm]
        · rw [goto_thread_of_ne p hu]
          exact hown u m'

theorem owned_start : Shared.start.Owned := fun _ m => by cases m <;> exact ⟨nofun, nofun⟩

end

/-! ### Loads and deselections kept apart -/

/-- The name is set, or a command that has its lock is about to set it. -/
def Shared.Chosen (s : Shared) : Prop := s.currentWallet ≠ none ∨ ∃ t, (s.thread t).Chooses

/-- The turns that keep loads and deselections apart, and files with a nonce of its length. -/
structure Orderly (c : Cipher) (e : Turn) (s : Shared) : Prop where
  /-- A deselection takes a name that is set while no load is between its two looks at it. -/
  clear : ∀ {t file}, e = .advances t file → s.thread t = .clear → s.currentWallet ≠ none →
    ∀ t', ¬ (s.thread t').Rereads
  /-- A load that finds its wallet encrypted does so with the name set, and no deselection at it. -/
  reread : ∀ {t file path}, e = .advances t file → s.thread t = .resolved path →
    WalletFile.isEncryptedAt file = .ok true → s.Chosen ∧ ∀ t', ¬ (s.thread t').Clears
  /-- A file that is opened under a kept context has a nonce the cipher takes. -/
  nonce : ∀ {t disk blob path name ctx}, e = .advances t (some (.wallet disk)) →
    s.thread t = .loading path →
    s.currentWallet = some name → s.unlocked name = some ctx → disk.encryptedMnemonic = some blob →
    ¬ (blob.BadNonce c ∧ blob.WellTagged c ∧ blob.SaltedAs c ctx)

/-- While a load is between its two looks, the name stays. -/
def Shared.Settled (s : Shared) : Prop :=
  ∀ t, (s.thread t).Rereads → s.Chosen ∧ ∀ t', ¬ (s.thread t').Clears

/-- What holds as long as every turn is orderly. -/
structure Shared.Calm (s : Shared) : Prop where
  owned : s.Owned
  clean : ∀ m, s.poisoned m = false
  settled : s.Settled

section

variable {c : Cipher} {libs : Libraries} {s s' : Shared} {e : Turn} {t : Nat}

theorem Shared.Owned.not_chooses (hown : s.Owned) (h : s.owner .currentWallet = none) (t : Nat) :
    ¬ (s.thread t).Chooses := by
  intro hchooses
  have hholds : (s.thread t).holds .currentWallet = true := by
    cases hp : s.thread t with
    | choosing name answer => rfl
    | _ => rw [hp] at hchooses; exact hchooses.elim
  cases h.symm.trans ((hown t .currentWallet).mpr hholds)

theorem Shared.Owned.chosen_of_loading (hown : s.Owned) {path : String}
    (hp : s.thread t = .loading path) (h : s.Chosen) : s.currentWallet ≠ none := by
  rcases h with h | ⟨u, hu⟩
  · exact h
  · -- the lock of the name has one owner
    have hholds : (s.thread u).holds .currentWallet = true := by
      cases hq : s.thread u with
      | choosing name answer => rfl
      | _ => rw [hq] at hu; exact hu.elim
    have howner := (hown u .currentWallet).mpr hholds
    have howner' := (hown t .currentWallet).mpr (by rw [hp]; rfl)
    obtain rfl := Option.some.inj (howner.symm.trans howner')
    rw [hp] at hu
    exact hu.elim

/-- A name that is set stays so, unless a deselection has it. -/
theorem Shared.Chosen.moved (h : s.Chosen) (hmoved : Moved c s e t (s.thread t) s')
    (hclears : ¬ (s.thread t).Clears) : s'.Chosen := by
  have hother : ¬ (s.thread t).Chooses → ∀ {u}, (s.thread u).Chooses → u ≠ t := by
    rintro hne u hu rfl
    exact hne hu
  have hunwind : ¬ (s.thread t).Chooses → (s.unwind t).Chosen := fun hne =>
    h.imp id fun ⟨u, hu⟩ => ⟨u, by rwa [unwind_thread_of_ne (hother hne hu)]⟩
  cases hmoved with
  | fails m _ hchooses => exact hunwind hchooses
  | breaks path file _ hplace => exact hunwind (by rw [hplace]; exact id)
  | stays p _ _ _ hchooses =>
      refine h.imp id fun ⟨u, hu⟩ => ⟨u, ?_⟩
      rwa [goto_thread_of_ne p (hother hchooses hu)]
  | takes m p _ _ _ _ hchooses =>
      refine h.imp id fun ⟨u, hu⟩ => ⟨u, ?_⟩
      show ((s.goto t p).thread u).Chooses
      rwa [goto_thread_of_ne p (hother hchooses hu)]
  | gives m p name unlocked _ _ _ _ hname =>
      by_cases hnone : name = none
      · obtain ⟨hcurrent, hchooses⟩ := (hname hnone).resolve_left hclears
        obtain ⟨u, hu⟩ := h.resolve_left fun h => h hcurrent
        refine .inr ⟨u, ?_⟩
        show ((s.goto t p).thread u).Chooses
        rwa [goto_thread_of_ne p (hother hchooses hu)]
      · exact .inl hnone

/-- A load that has both locks panics neither at the `expect` nor over a nonce. -/
theorem Shared.Calm.not_breaks (h : s.Calm) (horder : Orderly c e s) {path : String}
    {file : Option File} (hturn : e = .advances t file) (hplace : s.thread t = .loading path) :
    ¬ (s.currentWallet = none ∨ ∃ name ctx n, s.currentWallet = some name ∧
      s.unlocked name = some ctx ∧
      WalletFile.loadWithContext c file ctx = .error (.decrypt (.noncePanic n))) := by
  have hrereads : (s.thread t).Rereads := by rw [hplace]; exact trivial
  have hchosen := h.owned.chosen_of_loading hplace (h.settled t hrereads).1
  rintro (hnone | ⟨name, ctx, n, hname, hctx, hload⟩)
  · exact hchosen hnone
  · -- the load got as far as the nonce
    obtain ⟨disk, blob, rfl, hblob, hdec⟩ := loadWithContext_noncePanic_iff.mp hload
    exact horder.nonce hturn hplace hname hctx hblob (UnlockContext.decrypt_panics_iff.mp ⟨n, hdec⟩)

theorem Moved.thread_of_ne (h : Moved c s e t (s.thread t) s') {u : Nat} (hu : u ≠ t) :
    s'.thread u = s.thread u := by
  cases h with
  | stays p => exact goto_thread_of_ne p hu
  | takes m p => exact goto_thread_of_ne p hu
  | gives m p => exact goto_thread_of_ne p hu
  | fails => exact unwind_thread_of_ne hu
  | breaks => exact unwind_thread_of_ne hu

/-- A thread that is between two looks was so before, or has just found its wallet encrypted. -/
theorem Moved.rereads (h : Moved c s e t (s.thread t) s') (hrereads : (s'.thread t).Rereads) :
    (s.thread t).Rereads ∨ ∃ file path, e = .advances t file ∧ s.thread t = .resolved path ∧
      WalletFile.isEncryptedAt file = .ok true := by
  cases h with
  | stays p _ hnew =>
      rw [goto_thread_self] at hrereads
      exact .inr (hnew hrereads)
  | takes m p _ _ hnew =>
      replace hrereads : ((s.goto t p).thread t).Rereads := hrereads
      rw [goto_thread_self] at hrereads
      exact .inl (hnew hrereads)
  | gives m p _ _ _ _ hnew =>
      replace hrereads : ((s.goto t p).thread t).Rereads := hrereads
      rw [goto_thread_self] at hrereads
      exact absurd hrereads hnew
  | fails => rw [unwind_thread_self] at hrereads; exact hrereads.elim
  | breaks => rw [unwind_thread_self] at hrereads; exact hrereads.elim

/-- A deselection that has the name had it before, or has just taken it. -/
theorem Moved.clears (h : Moved c s e t (s.thread t) s') (hclears : (s'.thread t).Clears) :
    (s.thread t).Clears ∨ ∃ file, e = .advances t file ∧ s.thread t = .clear ∧
      s.owner .currentWallet = none ∧
      ¬ (s'.thread t).Rereads := by
  cases h with
  | stays p _ _ hnew =>
      rw [goto_thread_self] at hclears
      exact .inl (hnew hclears)
  | takes m p hfree _ hrereads hnew =>
      replace hclears : ((s.goto t p).thread t).Clears := hclears
      rw [goto_thread_self] at hclears
      rcases hnew hclears with hsame | ⟨rfl, hplace, file, hturn⟩
      · exact .inl hsame
      · refine .inr ⟨file, hturn, hplace, hfree, ?_⟩
        show ¬ ((s.goto t p).thread t).Rereads
        rw [goto_thread_self]
        intro hr
        simpa [hplace, Place.Rereads] using hrereads hr
  | gives m p _ _ _ _ _ hnew =>
      replace hclears : ((s.goto t p).thread t).Clears := hclears
      rw [goto_thread_self] at hclears
      exact .inl (hnew hclears)
  | fails => rw [unwind_thread_self] at hclears; exact hclears.elim
  | breaks => rw [unwind_thread_self] at hclears; exact hclears.elim

/-- **An orderly turn keeps the calm.** -/
theorem Shared.Calm.moved (h : s.Calm) (horder : Orderly c e s)
    (hmoved : Moved c s e t (s.thread t) s') : s'.Calm := by
  refine ⟨h.owned.moved hmoved, ?_, ?_⟩
  · cases hmoved with
    | stays => exact h.clean
    | takes => exact h.clean
    | gives => exact h.clean
    | fails m hpoisoned => exact absurd hpoisoned (by rw [h.clean m]; exact nofun)
    | breaks path file hturn hplace hwhy => exact absurd hwhy (h.not_breaks horder hturn hplace)
  · intro u hu
    -- who is between two looks now, was so before, or has just found its wallet encrypted
    have hbefore : s.Chosen ∧ ∀ t', ¬ (s.thread t').Clears := by
      by_cases hut : u = t
      · subst hut
        rcases hmoved.rereads hu with hsame | ⟨file, path, hturn, hplace, henc⟩
        · exact h.settled u hsame
        · exact horder.reread hturn hplace henc
      · exact h.settled u (by rwa [hmoved.thread_of_ne hut] at hu)
    refine ⟨hbefore.1.moved hmoved (hbefore.2 t), fun t' hclears => ?_⟩
    by_cases ht : t' = t
    · subst ht
      rcases hmoved.clears hclears with hsame | ⟨file, hturn, hplace, hfree, hother⟩
      · exact hbefore.2 t' hsame
      · -- the name is free, so it is set, and a deselection of it waits
        have hset : s.currentWallet ≠ none := hbefore.1.resolve_right fun ⟨v, hv⟩ =>
          h.owned.not_chooses hfree v hv
        have hut : u ≠ t' := by
          rintro rfl
          exact hother hu
        exact horder.clear hturn hplace hset u (by rwa [hmoved.thread_of_ne hut] at hu)
    · exact hbefore.2 t' (by rwa [hmoved.thread_of_ne ht] at hclears)

theorem calm_start : Shared.start.Calm := ⟨owned_start, fun _ => rfl, fun _ => False.elim⟩

/-- **In every orderly interleaving** the calm is kept. -/
theorem calm_of_reachable (h : (lockSystem libs (Orderly libs.cipher)).Reachable s) : s.Calm := by
  refine h.invariant (I := Shared.Calm) ?_ fun s s' _ hcalm hstep => ?_
  · rintro s rfl
    exact calm_start
  · obtain ⟨e, horder, hturn⟩ := hstep
    obtain ⟨t, hmoved⟩ := moved_of_turn hturn
    exact hcalm.moved horder hmoved

/-! ### Who waits for whom -/

/-- How far a place is from the end of a chain of waits. -/
def Place.rank (p : Place) : Nat :=
  if p.wants = none then 0 else if p.holds .currentWallet || p.holds .unlocked then 1 else 2

/-- Two places wait with a lock in hand, and in opposite orders. -/
theorem Place.wants_and_holds {p : Place} {m m' : Mutex} (hwants : p.wants = some m)
    (hholds : p.holds m' = true) :
    m = .currentWallet ∧ m' = .unlocked ∧ p.Rereads ∨
      m = .unlocked ∧ m' = .currentWallet ∧ p.Clears := by
  cases p with
  | lockCurrent path =>
      obtain rfl := Option.some.inj hwants
      cases m' with
      | currentWallet => cases hholds
      | unlocked => exact .inl ⟨rfl, rfl, trivial⟩
  | evict name =>
      obtain rfl := Option.some.inj hwants
      cases m' with
      | currentWallet => exact .inr ⟨rfl, rfl, trivial⟩
      | unlocked => cases hholds
  | _ =>
      -- the others wait with nothing in hand, or do not wait
      first
      | cases hwants; done
      | cases m' <;> cases hholds

theorem Place.rank_of_holds {p : Place} {m : Mutex} (h : p.holds m = true) : p.rank ≤ 1 := by
  have hsome : (p.holds .currentWallet || p.holds .unlocked) = true := by
    cases m with
    | currentWallet => rw [h, Bool.true_or]
    | unlocked => rw [h, Bool.or_true]
  rw [rank, hsome]
  split <;> simp

theorem Place.rank_of_wants {p : Place} {m : Mutex} (h : p.wants = some m)
    (hnone : ∀ m', p.holds m' = false) :
    p.rank = 2 := by
  simp [rank, h, hnone]

theorem Shared.Calm.rank_lt (h : s.Calm) {t t' : Nat} (hwait : s.Waits t t') :
    (s.thread t').rank < (s.thread t).rank := by
  obtain ⟨m, hwants, howner⟩ := hwait
  have hholds := (h.owned t' m).mp howner
  by_cases hboth : ∃ m', (s.thread t).holds m' = true
  · obtain ⟨m', hm'⟩ := hboth
    -- the one that is waited for has no lock to wait for
    have hnone : (s.thread t').wants = none := by
      rw [Option.eq_none_iff_forall_ne_some]
      intro n hn
      rcases Place.wants_and_holds hwants hm' with ⟨rfl, -, hrereads⟩ | ⟨rfl, -, hclears⟩
      · rcases Place.wants_and_holds hn hholds with ⟨-, hm, -⟩ | ⟨-, -, hclears⟩
        · cases hm
        · exact (h.settled t hrereads).2 t' hclears
      · rcases Place.wants_and_holds hn hholds with ⟨-, -, hrereads⟩ | ⟨-, hm, -⟩
        · exact (h.settled t' hrereads).2 t hclears
        · cases hm
    rw [Place.rank, if_pos hnone, Place.rank, if_neg (by rw [hwants]; exact nofun)]
    split <;> simp
  · have hnone : ∀ m', (s.thread t).holds m' = false := fun m' =>
      Bool.eq_false_iff.mpr fun hm' => hboth ⟨m', hm'⟩
    rw [Place.rank_of_wants hwants hnone]
    exact Nat.lt_succ_of_le (Place.rank_of_holds hholds)

/-- **In every orderly interleaving** no threads wait for each other, a load that comes to look at
the name again finds it set, and no lock is poisoned. -/
theorem locking_safe (h : (lockSystem libs (Orderly libs.cipher)).Reachable s) :
    ¬ Deadlocked s.Waits ∧ s.ExpectHolds ∧ ∀ m, s.poisoned m = false := by
  have hcalm := calm_of_reachable h
  refine ⟨not_deadlocked_of_rank (fun t => (s.thread t).rank) hcalm.rank_lt,
    fun t path hplace => ?_, hcalm.clean⟩
  have hrereads : (s.thread t).Rereads := by rw [hplace]; exact trivial
  exact hcalm.owned.chosen_of_loading hplace (hcalm.settled t hrereads).1

/-! ### Runs of given turns -/

/-- Turns one after another, each of which passes a check. -/
def Shared.run (libs : Libraries) (ok : Turn → Shared → Bool) (s : Shared) :
    List Turn → Option Shared
  | [] => some s
  | e :: es => if ok e s then (s.turn libs e).bind fun s => s.run libs ok es else none

theorem reachable_run {allowed : Turn → Shared → Prop} {ok : Turn → Shared → Bool}
    (hok : ∀ e s, ok e s = true → allowed e s) (h : (lockSystem libs allowed).Reachable s)
    {es : List Turn}
    (hrun : s.run libs ok es = some s') : (lockSystem libs allowed).Reachable s' := by
  induction es generalizing s with
  | nil =>
      obtain rfl := Option.some.inj hrun
      exact h
  | cons e es ih =>
      rw [Shared.run] at hrun
      split_ifs at hrun with hcheck
      obtain ⟨s₁, hturn, hrest⟩ := Option.bind_eq_some_iff.mp hrun
      exact ih (h.step ⟨e, hok e s hcheck, hturn⟩) hrest

/-- A turn that no condition is about. -/
def unwatched (e : Turn) (s : Shared) : Bool :=
  match e with
  | .begins .. => true
  | .advances t _ =>
      match s.thread t with
      | .clear | .resolved _ | .loading _ => false
      | _ => true

theorem orderly_of_unwatched (h : unwatched e s = true) : Orderly c e s where
  clear := by
    rintro t file rfl hplace
    simp [unwatched, hplace] at h
  reread := by
    rintro t file path rfl hplace
    simp [unwatched, hplace] at h
  nonce := by
    rintro t disk blob path name ctx rfl hplace
    simp [unwatched, hplace] at h

/-- A wallet that opens is cached under its context. -/
theorem selectPrepare_eq_cache {name path pp : String} {found looked loaded : Option File}
    {wf : WalletFile}
    {ctx : UnlockContext} (hname : walletPathFor name = .ok path) (hfound : found.isSome = true)
    (hencrypted : WalletFile.isEncryptedAt looked = .ok true)
    (hload : WalletFile.loadUnlocked c loaded (some pp) = .ok wf)
    (hctx : wf.takeEncryptionCtx.1 = some ctx) :
    selectPrepare c name (some pp) found looked loaded = .cache name ctx (.selected (.ok ())) := by
  have hready : (do
      let _ ← mapErr .name (walletPathFor name)
      ensure (found.isSome = true) (.noSuchWallet name)
      let encrypted ← mapErr .load (WalletFile.isEncryptedAt looked)
      if encrypted then do
        let pp ← okOr (some pp) .passphraseRequired
        pure (some pp)
      else pure none : Except AppError (Option String)) = .ok (some pp) := by
    rw [hname, hencrypted, ensure, if_pos hfound]
    rfl
  rw [selectPrepare, hready]
  simp only [hload, hctx]

/-- Libraries whose keys are those of `sesame`. -/
def saltedLibraries : Libraries := { Libraries.sample with cipher := Cipher.salted }

/-- The file `alice.json` as it is kept under `sesame`. -/
def aliceJson : Option File := some (.wallet (sesameFile 2))

/-- The wallet `alice` is opened with its passphrase, and waits for the contexts. -/
def selectingAlice : Shared := Shared.start.goto 0 (.cache "alice" sesame (.selected (.ok ())))

theorem selectingAlice_reachable {allowed : Turn → Shared → Prop}
    (h : ∀ t call s, allowed (.begins t call) s) :
    (lockSystem saltedLibraries allowed).Reachable selectingAlice := by
  have hload : WalletFile.loadUnlocked Cipher.salted aliceJson (some "open sesame")
      = .ok ((sesameFile 2).wallet "alice" (some sesame)) :=
    (loadUnlocked_ok_iff rfl).mpr ⟨rfl, sesame, "alice", sesame_unlockedBy, sesameBlob_holds, rfl⟩
  have hprepare :
      selectPrepare Cipher.salted "alice" (some "open sesame") aliceJson aliceJson aliceJson
      = .cache "alice" sesame (.selected (.ok ())) :=
    selectPrepare_eq_cache rfl rfl rfl hload rfl
  refine .step (.init rfl) ⟨.begins 0 (.select "alice" (some "open sesame") aliceJson aliceJson
    aliceJson), h .., ?_⟩
  exact congrArg (fun p => some (Shared.start.goto 0 p)) hprepare

/-- The selection goes on to its end, and a load asks for the path. -/
def askingForAlice : List Turn :=
  [.advances 0 none, .advances 0 none, .advances 0 none, .advances 0 none, .begins 1 .loadCurrent,
    .advances 1 none, .advances 1 none]

/-- A load that nobody crosses comes to its second look. -/
theorem locking_safe_alice : ∃ (s : Shared) (path : String), s.thread 1 = .loading path ∧
    ¬ Deadlocked s.Waits ∧ s.ExpectHolds ∧ ∀ m, s.poisoned m = false := by
  have hselecting : (lockSystem saltedLibraries (Orderly saltedLibraries.cipher)).Reachable
      selectingAlice :=
    selectingAlice_reachable fun _ _ _ => orderly_of_unwatched rfl
  obtain ⟨asked, looked, loading, path, hasking, hresolved, hname, hclears, hlook,
    hloading, hplace⟩ :
      ∃ s s₁ s₂ path, selectingAlice.run saltedLibraries unwatched askingForAlice = some s ∧
        s.thread 1 = .resolved path ∧ s.currentWallet ≠ none ∧ (∀ u, ¬ (s.thread u).Clears) ∧
        s.turn saltedLibraries (.advances 1 aliceJson) = some s₁ ∧
        s₁.run saltedLibraries unwatched [.advances 1 none, .advances 1 none] = some s₂ ∧
        s₂.thread 1 = .loading path := by
    refine ⟨_, _, _, _, rfl, rfl, nofun, fun u => ?_, rfl, rfl, rfl⟩
    rcases u with _ | _ | _ <;> exact id
  have hasked := reachable_run (fun _ _ => orderly_of_unwatched) hselecting hasking
  have horder : Orderly saltedLibraries.cipher (.advances 1 aliceJson) asked := by
    refine ⟨?_, fun _ _ _ => ⟨.inl hname, hclears⟩, ?_⟩
    · rintro t file ⟨⟩ hplace
      cases hresolved.symm.trans hplace
    · rintro t disk blob path name ctx ⟨⟩ hplace
      cases hresolved.symm.trans hplace
  have hlooked := hasked.step ⟨.advances 1 aliceJson, horder, hlook⟩
  exact ⟨loading, path, hplace,
    locking_safe (reachable_run (fun _ _ => orderly_of_unwatched) hlooked hloading)⟩

/-- It has looked at the file, and waits for the contexts. -/
def loadingAlice : List Turn := askingForAlice ++ [.advances 1 aliceJson]

/-- The same file with its nonce cut off. -/
def cutJson : Option File := some (.wallet { sesameFile 2 with encryptedMnemonic := some cutBlob })

theorem loadWithContext_cutJson :
    ∃ n, WalletFile.loadWithContext Cipher.salted cutJson sesame =
      .error (.decrypt (.noncePanic n)) := by
  obtain ⟨n, hn⟩ := UnlockContext.decrypt_panics_iff.mpr ⟨cutBlob_badNonce, cutBlob_wellTagged,
    cutBlob_saltedAs⟩
  exact ⟨n, loadWithContext_noncePanic_iff.mpr ⟨_, cutBlob, rfl, rfl, hn⟩⟩

/-- A panic with both locks in hand poisons both. -/
theorem poisoned_unwind (h : ∀ m, s.owner m = some t) (m : Mutex) :
    (s.unwind t).poisoned m = true := by
  simp [Shared.unwind, h]

/-- Every interleaving of commands over those libraries. -/
def saltedSystem : System Shared := lockSystem saltedLibraries fun _ _ => True

theorem saltedSystem_run {es : List Turn}
    (h : selectingAlice.run saltedLibraries (fun _ _ => true) es = some s) :
    saltedSystem.Reachable s :=
  reachable_run (fun _ _ _ => trivial) (selectingAlice_reachable fun _ _ _ => trivial) h

/-- A deselection takes the name after the load has the contexts. -/
def crossing : List Turn :=
  loadingAlice ++ [.begins 2 .deselect, .advances 1 none, .advances 2 none, .advances 2 none]

/-- A deselection comes and goes before the load looks at the name again. -/
def overtaking : List Turn :=
  loadingAlice ++ [.begins 2 .deselect, .advances 2 none, .advances 2 none, .advances 2 none,
    .advances 2 none, .advances 2 none, .advances 1 none, .advances 1 none]

/-- The load waits for the deselection, and the deselection for the load. -/
theorem crossing_deadlocks : ∃ s, saltedSystem.Reachable s ∧ Deadlocked s.Waits := by
  obtain ⟨s, hrun, hload, hdeselect, hunlocked, hcurrent⟩ :
      ∃ s, selectingAlice.run saltedLibraries (fun _ _ => true) crossing = some s ∧
        (s.thread 1).wants = some .currentWallet ∧ (s.thread 2).wants = some .unlocked ∧
        s.owner .unlocked = some 1 ∧ s.owner .currentWallet = some 2 :=
    ⟨_, rfl, rfl, rfl, rfl, rfl⟩
  have hwaits : s.Waits 1 2 := ⟨.currentWallet, hload, hcurrent⟩
  exact ⟨s, saltedSystem_run hrun, .of_pair hwaits ⟨.unlocked, hdeselect, hunlocked⟩⟩

/-- The load comes to its second look with both locks, and finds no name. -/
theorem overtaking_runs : ∃ s path, saltedSystem.Reachable s ∧ s.thread 1 = .loading path ∧
    s.currentWallet = none ∧ ∀ m, s.owner m = some 1 := by
  obtain ⟨s, path, hrun, hplace, hname, howner⟩ :
      ∃ s path, selectingAlice.run saltedLibraries (fun _ _ => true) overtaking = some s ∧
        s.thread 1 = .loading path ∧ s.currentWallet = none ∧ ∀ m, s.owner m = some 1 :=
    ⟨_, _, rfl, rfl, rfl, fun m => by cases m <;> rfl⟩
  exact ⟨s, path, saltedSystem_run hrun, hplace, hname, howner⟩

/-- The load comes to its second look and finds the name, and a nonce that was cut off. -/
theorem cut_panics : ∃ s, saltedSystem.Reachable s ∧ s.currentWallet = some "alice" ∧
    ∀ m, s.poisoned m = true := by
  obtain ⟨s, path, hrun, hplace, hname, hctx, howner⟩ :
      ∃ s path, selectingAlice.run saltedLibraries (fun _ _ => true)
          (loadingAlice ++ [.advances 1 none, .advances 1 none]) = some s ∧
        s.thread 1 = .loading path ∧ s.currentWallet = some "alice" ∧
        s.unlocked "alice" = some sesame ∧ ∀ m, s.owner m = some 1 :=
    ⟨_, _, rfl, rfl, rfl, rfl, fun m => by cases m <;> rfl⟩
  obtain ⟨n, hcut⟩ := loadWithContext_cutJson
  have hunwind : s.turn saltedLibraries (.advances 1 cutJson) = some (s.unwind 1) := by
    have hcut' : WalletFile.loadWithContext saltedLibraries.cipher cutJson sesame = _ := hcut
    simp only [Shared.turn, Shared.advance, hplace, hname, hctx, hcut']
  exact ⟨s.unwind 1, (saltedSystem_run hrun).step ⟨_, trivial, hunwind⟩, hname,
    poisoned_unwind howner⟩

/-- **A load and a deselection collide.**  They wait for each other, or the load finds no name at
its second look and leaves both locks poisoned.  A cut nonce poisons them with the name in its
place. -/
theorem load_and_deselect_collide :
    (∃ s, saltedSystem.Reachable s ∧ Deadlocked s.Waits) ∧
      (∃ s, saltedSystem.Reachable s ∧ ¬ s.ExpectHolds) ∧
    (∃ s, saltedSystem.Reachable s ∧ s.currentWallet = none ∧ ∀ m, s.poisoned m = true) ∧
    ∃ s, saltedSystem.Reachable s ∧ s.currentWallet = some "alice" ∧ ∀ m, s.poisoned m = true := by
  obtain ⟨s, path, hreach, hplace, hname, howner⟩ := overtaking_runs
  have hunwind : s.turn saltedLibraries (.advances 1 none) = some (s.unwind 1) := by
    simp only [Shared.turn, Shared.advance, hplace, hname]
  exact ⟨crossing_deadlocks, ⟨s, hreach, fun h => h 1 path hplace hname⟩,
    ⟨s.unwind 1, hreach.step ⟨_, trivial, hunwind⟩, hname, poisoned_unwind howner⟩, cut_panics⟩

end

end Hodlchain.Desktop
