/-
Commands, and a session in which they interleave.

A command loads the selected wallet, runs an operation on it in memory, and saves it.
An `async` one waits for servers between the load and the save, and there every other
command can run; `mint_utxo` and the commands that manage wallets do not wait.

A command in flight keeps the wallet it loaded.  Beside it stands what no part of the
program records, and what statements about runs are about: which file it was loaded
from, how often that file had been created by then, and what the commands that have
answered changed.
-/
import Hodlchain.Lib.System
import Hodlchain.Desktop.State

namespace Hodlchain.Desktop

open Wallet

/-! ### Commands -/

/-- The commands that wait, of those that save. -/
inductive AsyncCommand where
  | checkMintFunding (input : CheckMintFundingInput)
  | mintMessage (input : MintMessageInput)
  | transfer (input : TransferInput)
  | lightBalance (input : LightBalanceInput)
  | reclaimMint (input : ReclaimMintInput)
deriving DecidableEq, Repr

inductive Command where
  | mintUtxo (input : MintUtxoInput)
  | waiting (command : AsyncCommand)
deriving DecidableEq, Repr

inductive Output where
  | mintUtxo (out : MintUtxoOutput)
  | checkMintFunding (out : CheckMintFundingOutput)
  | mintMessage (out : MintMessageOutput)
  | transfer (out : TransferOutput)
  | lightBalance (out : LightBalanceOutput)
  | reclaimMint (out : ReclaimMintOutput)
deriving DecidableEq, Repr

section

variable (prim : Primitives) (libs : Libraries)

/-- The operation behind a command. -/
def Command.run (w : Surroundings) : Command → Op Output
  | .mintUtxo input => do
      let out ← Wallet.mintUtxo prim libs input
      pure (.mintUtxo out)
  | .waiting (.checkMintFunding input) => do
      let out ← Wallet.checkMintFunding libs w input
      pure (.checkMintFunding out)
  | .waiting (.mintMessage input) => do
      let out ← Wallet.mintMessage prim libs w input
      pure (.mintMessage out)
  | .waiting (.transfer input) => do
      let out ← Wallet.transfer prim libs w input
      pure (.transfer out)
  | .waiting (.lightBalance input) => do
      let out ← Wallet.lightBalance prim libs w input
      pure (.lightBalance out)
  | .waiting (.reclaimMint input) => do
      let out ← Wallet.reclaimMint prim libs w input
      pure (.reclaimMint out)

/-! ### Sessions -/

/-- A command between its load and its save. -/
structure InFlight where
  command : AsyncCommand
  loaded : WalletFile
  /-- The name it was loaded under. -/
  wallet : String
  /-- How often `keygen` had written that file. -/
  keygens : Nat

/-- A command that has answered `Ok`. -/
structure Completed where
  command : Command
  output : Output
  loaded : WalletFile
  saved : WalletFile

structure Session where
  app : AppState
  inFlight : List InFlight
  /-- How often `keygen` has written each file. -/
  keygens : String → Nat
  /-- The last one first. -/
  completed : List Completed

inductive Event where
  | select (name : String) (passphrase : Option String)
  | deselect
  | keygen (input : GuiKeygenInput) (io : KeygenIo)
  | mintUtxo (input : MintUtxoInput) (w : Surroundings) (io : SaveIo)
  /-- A command loads the wallet, and waits. -/
  | call (command : AsyncCommand)
  /-- The `i`-th command in flight has its answers, and saves. -/
  | answer (i : Nat) (w : Surroundings) (io : SaveIo)

namespace Session

/-- What a command does once it has its answers: an operation that fails saves nothing. -/
def finish (w : Surroundings) (io : SaveIo) (command : Command) (loaded : WalletFile)
    (s : Session) : Session :=
  match command.run prim libs w loaded with
  | (.error _, _) => s
  | (.ok output, wf) =>
      match s.app.saveCurrent libs.cipher io wf with
      | .error _ => s
      | .ok app => { s with app := app, completed := ⟨command, output, loaded, wf⟩ :: s.completed }

/-- One event; a command that answers with an error leaves the session as it is. -/
def next (s : Session) : Event → Session
  | .select name passphrase =>
      match s.app.select libs.cipher name passphrase with
      | .error _ => s
      | .ok app => { s with app := app }
  | .deselect => { s with app := s.app.deselect }
  | .keygen input io =>
      match s.app.keygen libs input io with
      | .error _ => s
      | .ok (_, app) =>
          { s with
            app := app
            keygens := Function.update s.keygens input.name (s.keygens input.name + 1) }
  | .mintUtxo input w io =>
      match s.app.loadCurrent libs.cipher with
      | .error _ => s
      | .ok wf => s.finish prim libs w io (.mintUtxo input) wf
  | .call command =>
      match s.app.currentWallet, s.app.loadCurrent libs.cipher with
      | some name, .ok wf => { s with
        inFlight := s.inFlight ++ [⟨command, wf, name, s.keygens name⟩] }
      | _, _ => s
  | .answer i w io =>
      match s.inFlight[i]? with
      | none => s
      | some p =>
          { s with inFlight := s.inFlight.eraseIdx i }.finish prim libs w io
            (.waiting p.command) p.loaded

end Session

/-- Sessions that start so, with the events that are allowed. -/
def system (start : Session → Prop) (allowed : Event → Session → Prop) : System Session :=
  ⟨start, fun s t => ∃ e, allowed e s ∧ s.next prim libs e = t⟩

/-- Nothing has been asked of the application yet. -/
def Session.idle (app : AppState) : Session := ⟨app, [], fun _ => 0, []⟩

/-- `AppState::init`, over any directory. -/
def Started (s : Session) : Prop := ∃ wallets, s = .idle ⟨wallets, none, fun _ => none⟩

/-- A wallet is selected, and nothing is in flight. -/
def Selected (s : Session) : Prop := ∃ app name, app.currentWallet = some name ∧ s = .idle app

end

/-! ### One command -/

section

variable {prim : Primitives} {libs : Libraries} {w : Surroundings}

/-- The index that a `mint_utxo` has handed out. -/
def Output.handedOut : Output → Option UInt32
  | .mintUtxo out => some out.bip32Index
  | _ => none

/-- **What a command that answers leaves of the wallet, and the index it handed out.** -/
theorem Command.run_grown {command : Command} {wf wf' : WalletFile} {out : Output}
    (h : command.run prim libs w wf = (.ok out, wf')) :
    Grown wf wf' ∧ ∀ i, out.handedOut = some i → i = wf.nextMintIndex ∧ i < wf'.nextMintIndex := by
  cases command with
  | mintUtxo input =>
      simp only [Command.run, Action.bind_ok_iff, Action.pure_ok_iff] at h
      obtain ⟨out, wf', hop, rfl, rfl⟩ := h
      obtain ⟨hindex, hmax, rfl⟩ := mintUtxo_ok hop
      refine ⟨.allocated hmax, fun i hi => ?_⟩
      obtain rfl : out.bip32Index = i := Option.some.inj hi
      rw [hindex]
      exact ⟨rfl, Grown.lt_succ_of_ne_max hmax⟩
  | waiting command =>
      cases command with
      | checkMintFunding input =>
          simp only [Command.run, Action.bind_ok_iff, Action.pure_ok_iff] at h
          obtain ⟨out, wf', hop, rfl, rfl⟩ := h
          refine ⟨?_, nofun⟩
          rcases checkMintFunding_ok hop with rfl | ⟨record, u, height, hfind, hfunded, rfl⟩
          · exact .refl _
          · exact recordFunding_grown hfind hfunded _ u height
      | mintMessage input =>
          simp only [Command.run, Action.bind_ok_iff, Action.pure_ok_iff] at h
          obtain ⟨out, wf', hop, rfl, rfl⟩ := h
          obtain ⟨counterparty, resp, rfl⟩ := mintMessage_ok hop
          exact ⟨recordMint_grown _ _ _, nofun⟩
      | transfer input =>
          simp only [Command.run, Action.bind_ok_iff, Action.pure_ok_iff] at h
          obtain ⟨out, wf', hop, rfl, rfl⟩ := h
          obtain ⟨t, rfl⟩ := transfer_ok hop
          exact ⟨.appendTx _ _, nofun⟩
      | lightBalance input =>
          simp only [Command.run, Action.bind_ok_iff, Action.pure_ok_iff] at h
          obtain ⟨out, wf', hop, rfl, rfl⟩ := h
          obtain ⟨own, target, head, events, l1Tip, -, -, -, rfl⟩ := lightBalance_ok hop
          have hwalked : Grown wf (projectEvents w events { wf with verifiedHead := none }) :=
            (Grown.verifiedHead wf none).trans (projectEvents_grown events _)
          exact ⟨(hwalked.trans (finalizeAndRefresh_grown l1Tip _)).trans (.verifiedHead _ _),
            nofun⟩
      | reclaimMint input =>
          simp only [Command.run, Action.bind_ok_iff, Action.pure_ok_iff] at h
          obtain ⟨out, wf', hop, rfl, rfl⟩ := h
          obtain ⟨dest, valueSat, txid, rfl⟩ := reclaimMint_ok hop
          exact ⟨recordReclaim_grown _ _ _ _, nofun⟩

/-- A command that finishes either saves nothing, or puts its wallet in the file selected then. -/
theorem Session.finish_cases (prim : Primitives) (libs : Libraries) (w : Surroundings) (io : SaveIo)
    (command : Command) (loaded : WalletFile) (s : Session) :
    s.finish prim libs w io command loaded = s ∨
      ∃ out wf name disk, command.run prim libs w loaded = (.ok out, wf) ∧
        s.app.currentWallet = some name ∧ wf.toDisk libs.cipher io.nonce = .ok disk ∧
        s.finish prim libs w io command loaded =
          { s with
            app :=
              { s.app with wallets := Function.update s.app.wallets name (some (.wallet disk)) }
            completed := ⟨command, out, loaded, wf⟩ :: s.completed } := by
  rcases hrun : command.run prim libs w loaded with ⟨r, wf⟩
  cases r with
  | error e => exact .inl (by rw [Session.finish, hrun])
  | ok out =>
      cases hsave : s.app.saveCurrent libs.cipher io wf with
      | error e => exact .inl (by simp only [Session.finish, hrun, hsave])
      | ok app =>
          obtain ⟨name, disk, hname, hdisk, rfl⟩ := saveCurrent_ok hsave
          exact .inr ⟨out, wf, name, disk, rfl, hname, hdisk, by
            simp only [Session.finish, hrun, hsave]⟩

end

/-! ### A directory to run on -/

/-- A plain wallet file, with one mint that waits for its deposit. -/
def plainFile (mnemonic : String) : DiskLoad :=
  { version := none
    network := .regtest
    mnemonic := some mnemonic
    encryptedMnemonic := none
    sequencerUrl := "http://127.0.0.1:8081"
    nodeUrl := none
    esploraUrl := "http://127.0.0.1:8080"
    nextMintIndex := 1
    mints := [⟨"bcrt1p0", 144, 0, none, none, none, false, false⟩]
    verifiedHead := none
    transactions := [] }

/-- A save that goes through. -/
def written : SaveIo := ⟨ByteArr.ofNat 24 0, true⟩

def twoWallets : String → Option File
  | "alice" => some (.wallet (plainFile "alice"))
  | "bob" => some (.wallet (plainFile "bob"))
  | _ => none

end Hodlchain.Desktop
