/-
The desktop application's state.

Wallets are files of one directory, and the application holds the name of the one that
is selected.  A load and a save each look that name up; a file is written whole.
-/
import Mathlib.Logic.Function.Basic
import Hodlchain.Wallet.Growth

namespace Hodlchain.Desktop

open Wallet

/-! ### Names -/

/-- `MAX_NAME_LEN`. -/
def maxNameLen : Nat := 32

inductive NameError where
  | empty
  | tooLong (length max : Nat)
  | disallowed (c : Char)
deriving DecidableEq, Repr

/-- `validate_name`. -/
def validateName (name : String) : Except NameError String :=
  if name = "" then .error .empty
  else if name.utf8ByteSize > maxNameLen then .error (.tooLong name.utf8ByteSize maxNameLen)
  else
    match name.toList.find? fun c => !(c.isAlphanum || c == '-' || c == '_') with
    | some c => .error (.disallowed c)
    | none => .ok name

/-- `wallet_path_for`: `<name>.json` in the directory, which the name stands for. -/
def walletPathFor (name : String) : Except NameError String := validateName name

/-! ### The state -/

structure AppState where
  /-- The files `<name>.json`, by their names. -/
  wallets : String → Option File
  currentWallet : Option String
  unlocked : String → Option UnlockContext

inductive AppError where
  | noWallet
  | name (cause : NameError)
  | load (cause : LoadError)
  | locked
  | noSuchWallet (name : String)
  | passphraseRequired
  | walletExists (name : String)
  | keygen (cause : KeygenError)
  | encrypt (cause : EncryptError)
  | write
deriving DecidableEq, Repr

/-- What a save meets: the nonce it draws, and whether the file can be written. -/
structure SaveIo where
  nonce : ByteArr 24
  writes : Bool

namespace AppState

/-- `resolve_current_path`. -/
def resolveCurrentPath (app : AppState) : Except AppError String := do
  let name ← okOr app.currentWallet .noWallet
  mapErr .name (walletPathFor name)

section

variable (c : Cipher)

/-- `load_current`. -/
def loadCurrent (app : AppState) : Except AppError WalletFile := do
  let path ← app.resolveCurrentPath
  let encrypted ← mapErr .load (WalletFile.isEncryptedAt (app.wallets path))
  if encrypted then do
    let name ← okOr app.currentWallet .noWallet
    let ctx ← okOr (app.unlocked name) .locked
    mapErr .load (WalletFile.loadWithContext c (app.wallets path) ctx)
  else mapErr .load (WalletFile.load c (app.wallets path))

/-- `WalletFile::save`: a temporary file, renamed over the one at `path`. -/
def save (io : SaveIo) (wf : WalletFile) (path : String) (app : AppState) :
    Except AppError AppState := do
  let disk ← mapErr .encrypt (wf.toDisk c io.nonce)
  ensure (io.writes = true) .write
  pure { app with wallets := Function.update app.wallets path (some (.wallet disk)) }

/-- `save_current`. -/
def saveCurrent (io : SaveIo) (wf : WalletFile) (app : AppState) : Except AppError AppState := do
  let path ← app.resolveCurrentPath
  app.save c io wf path

/-- `select`. -/
def select (name : String) (passphrase : Option String) (app : AppState) :
    Except AppError AppState := do
  let path ← mapErr .name (walletPathFor name)
  ensure ((app.wallets path).isSome = true) (.noSuchWallet name)
  let encrypted ← mapErr .load (WalletFile.isEncryptedAt (app.wallets path))
  if encrypted then do
    let pp ← okOr passphrase .passphraseRequired
    let wf ← mapErr .load (WalletFile.loadUnlocked c (app.wallets path) (some pp))
    pure { app with
      currentWallet := some name
      unlocked := Function.update app.unlocked name wf.takeEncryptionCtx.1 }
  else pure { app with currentWallet := some name }

end

/-- `deselect`. -/
def deselect (app : AppState) : AppState :=
  { app with
    currentWallet := none
    unlocked :=
      match app.currentWallet with
      | some name => Function.update app.unlocked name none
      | none => app.unlocked }

end AppState

/-! ### `keygen` -/

structure GuiKeygenInput where
  name : String
  force : Bool
  encryptionPassphrase : Option String
  keygen : KeygenInput
deriving DecidableEq, Repr

/-- What `keygen` draws, and the save it makes. -/
structure KeygenIo where
  generated : Option String
  salt : ByteArr 16
  nonce : ByteArr 24
  save : SaveIo

/-- The `keygen` command. -/
def AppState.keygen (libs : Libraries) (input : GuiKeygenInput) (io : KeygenIo) (app : AppState) :
    Except AppError (KeygenOutput × AppState) := do
  let path ← mapErr .name (walletPathFor input.name)
  ensure (¬ ((app.wallets path).isSome = true ∧ input.force = false)) (.walletExists input.name)
  let (wf, out) ← mapErr .keygen (Wallet.keygen libs input.keygen io.generated)
  match input.encryptionPassphrase.filter (· ≠ "") with
  | some pp => do
      let wf ← mapErr .encrypt (wf.encryptInPlace libs.cipher pp io.salt io.nonce)
      let app ← app.save libs.cipher io.save wf path
      pure (out, { app with
        currentWallet := some input.name
        unlocked := Function.update app.unlocked input.name wf.takeEncryptionCtx.1 })
  | none => do
      let app ← app.save libs.cipher io.save wf path
      pure (out, { app with currentWallet := some input.name })

/-! ### Loading and saving -/

section

variable {c : Cipher} {app app' : AppState} {wf : WalletFile}

theorem walletPathFor_ok {name path : String} (h : walletPathFor name = .ok path) :
    path = name := by
  rw [walletPathFor, validateName] at h
  split_ifs at h
  split at h
  · cases h
  · exact (Except.ok.inj h).symm

theorem resolveCurrentPath_ok {path : String} (h : app.resolveCurrentPath = .ok path) :
    app.currentWallet = some path := by
  simp only [AppState.resolveCurrentPath, bind_ok_iff, okOr_ok_iff, mapErr_ok_iff] at h
  obtain ⟨name, hname, hpath⟩ := h
  rw [hname, walletPathFor_ok hpath]

/-- A loaded wallet is that of the selected file. -/
theorem loadCurrent_ok (h : app.loadCurrent c = .ok wf) :
    ∃ name disk, app.currentWallet = some name ∧ app.wallets name = some (.wallet disk) ∧
      WalletFile.Loaded c disk wf := by
  simp only [AppState.loadCurrent, bind_ok_iff, mapErr_ok_iff] at h
  obtain ⟨path, hpath, encrypted, -, h⟩ := h
  refine ⟨path, ?_⟩
  cases encrypted with
  | true =>
      simp only [if_true, bind_ok_iff, okOr_ok_iff, mapErr_ok_iff] at h
      obtain ⟨-, -, ctx, -, hload⟩ := h
      obtain ⟨disk, hdisk, hloaded⟩ := WalletFile.loaded_of_loadWithContext hload
      exact ⟨disk, resolveCurrentPath_ok hpath, hdisk, hloaded⟩
  | false =>
      simp only [Bool.false_eq_true, if_false, mapErr_ok_iff, WalletFile.load, bind_ok_iff,
        readDisk_ok_iff] at h
      obtain ⟨disk, hdisk, hload⟩ := h
      exact ⟨disk, resolveCurrentPath_ok hpath, hdisk, WalletFile.loaded_of_fromDisk hload⟩

/-- A save goes to the file that is selected then. -/
theorem saveCurrent_ok {io : SaveIo} (h : app.saveCurrent c io wf = .ok app') :
    ∃ name disk, app.currentWallet = some name ∧ wf.toDisk c io.nonce = .ok disk ∧
      app' = { app with wallets := Function.update app.wallets name (some (.wallet disk)) } := by
  simp only [AppState.saveCurrent, AppState.save, bind_ok_iff, ensure_ok_iff, mapErr_ok_iff,
    pure_ok_iff] at h
  obtain ⟨path, hpath, disk, hdisk, -, -, rfl⟩ := h
  exact ⟨path, disk, resolveCurrentPath_ok hpath, hdisk, rfl⟩

/-- A selection changes no file. -/
theorem select_wallets {name : String} {passphrase : Option String}
    (h : app.select c name passphrase = .ok app') : app'.wallets = app.wallets := by
  simp only [AppState.select, bind_ok_iff, mapErr_ok_iff] at h
  obtain ⟨path, -, -, -, encrypted, -, h⟩ := h
  cases encrypted with
  | true =>
      simp only [if_true, bind_ok_iff, pure_ok_iff] at h
      obtain ⟨-, -, -, -, rfl⟩ := h
      rfl
  | false =>
      simp only [Bool.false_eq_true, if_false, pure_ok_iff] at h
      subst h
      rfl

/-- `keygen` writes the file of the name it is given, and no other. -/
theorem keygen_wallets {libs : Libraries} {input : GuiKeygenInput} {io : KeygenIo}
    {out : KeygenOutput} (h : app.keygen libs input io = .ok (out, app')) :
    ∃ disk, app'.wallets = Function.update app.wallets input.name (some (.wallet disk)) := by
  simp only [AppState.keygen, bind_ok_iff, mapErr_ok_iff] at h
  obtain ⟨path, hpath, -, -, ⟨wf, out⟩, -, h⟩ := h
  obtain rfl := walletPathFor_ok hpath
  split at h
  · simp only [AppState.save, bind_ok_iff, mapErr_ok_iff, pure_ok_iff, Prod.mk.injEq] at h
    obtain ⟨-, -, -, ⟨disk, -, -, -, rfl⟩, -, rfl⟩ := h
    exact ⟨disk, rfl⟩
  · simp only [AppState.save, bind_ok_iff, mapErr_ok_iff, pure_ok_iff, Prod.mk.injEq] at h
    obtain ⟨-, ⟨disk, -, -, -, rfl⟩, -, rfl⟩ := h
    exact ⟨disk, rfl⟩

end

end Hodlchain.Desktop
