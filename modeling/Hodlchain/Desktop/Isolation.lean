/-
Isolation of wallets.

A save looks up the selected wallet's file again.  Where that is still the file the
command loaded, the save writes a wallet with the mnemonic that is there; otherwise
it writes one wallet over another.
-/
import Hodlchain.Desktop.Session

namespace Hodlchain.Desktop

open Wallet

section

variable (prim : Primitives) (libs : Libraries)

/-- A file that reads, under the same context, as the same mnemonic as before. -/
def SameMnemonic (c : Cipher) (file file' : Option File) : Prop :=
  ∃ disk disk' ctx mnemonic, file = some (.wallet disk) ∧ file' = some (.wallet disk') ∧
    disk.Reads c ctx mnemonic ∧ disk'.Reads c ctx mnemonic

/-- A `keygen` of this name. -/
def Event.KeygenOf (name : String) : Event → Prop
  | .keygen input _ => input.name = name
  | _ => False

/-- The wallet that the command of an event has loaded. -/
def Event.loads (s : Session) : Event → Option String
  | .mintUtxo .. => s.app.currentWallet
  | .answer i _ _ => s.inFlight[i]?.map (·.wallet)
  | _ => none

/-- An event that changes a file is a `keygen` of its name, or the save of a command that loaded
that very wallet, and then the mnemonic stays. -/
def Isolated (e : Event) (s : Session) : Prop :=
  ∀ name, (s.next prim libs e).app.wallets name ≠ s.app.wallets name →
    e.KeygenOf name ∨ (e.loads s = some name ∧
      SameMnemonic libs.cipher (s.app.wallets name) ((s.next prim libs e).app.wallets name))

/-- A command that comes to save finds no wallet selected, or the one it loaded, not created anew
since. -/
def Undisturbed : Event → Session → Prop
  | .answer i _ _, s => ∀ p, s.inFlight[i]? = some p →
      s.app.currentWallet = none ∨
        (s.app.currentWallet = some p.wallet ∧ s.keygens p.wallet = p.keygens)
  | _, _ => True

/-! ### What is in flight -/

/-- What a command in flight loaded is a wallet with the mnemonic that its file has, unless the
file was created anew. -/
def Tracks (c : Cipher) (s : Session) (p : InFlight) : Prop :=
  p.keygens ≤ s.keygens p.wallet ∧
    (s.keygens p.wallet = p.keygens → ∃ disk, s.app.wallets p.wallet = some (.wallet disk) ∧
      disk.Reads c p.loaded.encryptionCtx p.loaded.mnemonic)

variable {prim libs} {s : Session}

/-- **A save into the file a command loaded, whoever else has it in flight.** -/
theorem finish_isolated (prim : Primitives) (hc : libs.cipher.Lawful) (hone : libs.cipher.OneKey)
    (w : Surroundings) (io : SaveIo) (command : Command) {loaded : WalletFile} {name : String}
    {disk : DiskLoad} (hname : s.app.currentWallet = some name)
    (hfile : s.app.wallets name = some (.wallet disk))
    (hreads : disk.Reads libs.cipher loaded.encryptionCtx loaded.mnemonic) :
    (∀ n, (s.finish prim libs w io command loaded).app.wallets n ≠ s.app.wallets n →
      n = name ∧ SameMnemonic libs.cipher (s.app.wallets n)
        ((s.finish prim libs w io command loaded).app.wallets n)) ∧
    ∀ p, Tracks libs.cipher s p →
      Tracks libs.cipher (s.finish prim libs w io command loaded) p := by
  rcases s.finish_cases prim libs w io command loaded with
    hsame | ⟨out, wf, name', disk', hrun, hname', hdisk', hfinish⟩
  · rw [hsame]
    exact ⟨fun n hne => absurd rfl hne, fun p hp => hp⟩
  · obtain rfl : name' = name := Option.some.inj (hname'.symm.trans hname)
    have hsame := (Command.run_grown hrun).1.same
    have hreads' : disk'.Reads libs.cipher loaded.encryptionCtx loaded.mnemonic := by
      have := WalletFile.reads_of_toDisk hc hdisk'
      rwa [hsame.encryptionCtx, hsame.mnemonic] at this
    rw [hfinish]
    constructor
    · intro n hne
      obtain rfl : n = name' := by
        by_contra hn
        exact hne (Function.update_of_ne hn _ _)
      exact ⟨rfl, disk, disk', _, _, hfile, Function.update_self .., hreads, hreads'⟩
    · rintro p ⟨hle, hp⟩
      refine ⟨hle, fun hkeygens => ?_⟩
      obtain ⟨d, hd, hpreads⟩ := hp hkeygens
      by_cases hwallet : p.wallet = name'
      · rw [hwallet, hfile, Option.some.injEq, File.wallet.injEq] at hd
        subst hd
        obtain ⟨hctx, hmnemonic⟩ := hreads.unique hone hpreads
        refine ⟨disk', by rw [hwallet]; exact Function.update_self .., ?_⟩
        rwa [← hctx, ← hmnemonic]
      · exact ⟨d, by simpa [Function.update_of_ne hwallet] using hd, hpreads⟩

/-- With no wallet selected nothing is saved. -/
theorem finish_deselected {w : Surroundings} {io : SaveIo} {command : Command} {loaded : WalletFile}
    (hname : s.app.currentWallet = none) : s.finish prim libs w io command loaded = s := by
  rcases s.finish_cases prim libs w io command loaded with
    hsame | ⟨out, wf, name, disk, -, hsome, -⟩
  · exact hsame
  · simp [hname] at hsome

theorem finish_inFlight {w : Surroundings} {io : SaveIo} {command : Command} {loaded : WalletFile} :
    (s.finish prim libs w io command loaded).inFlight = s.inFlight := by
  rcases s.finish_cases prim libs w io command loaded with
    hsame | ⟨out, wf, name, disk, -, -, -, hfinish⟩
  · rw [hsame]
  · rw [hfinish]

/-! ### Steps and runs -/

private theorem isolated_of_wallets {e : Event}
    (h : (s.next prim libs e).app.wallets = s.app.wallets) : Isolated prim libs e s :=
  fun name hne => absurd (congrFun h name) hne

private theorem isolated_of_same {e : Event} (hs : ∀ p ∈ s.inFlight, Tracks libs.cipher s p)
    (hnext : s.next prim libs e = s) : Isolated prim libs e s ∧
      ∀ p ∈ (s.next prim libs e).inFlight, Tracks libs.cipher (s.next prim libs e) p :=
  ⟨isolated_of_wallets (by rw [hnext]), by rwa [hnext]⟩

/-- `keygen` writes one file, which no command in flight tracks any longer. -/
theorem keygen_isolated (hs : ∀ p ∈ s.inFlight, Tracks libs.cipher s p) (input : GuiKeygenInput)
    (io : KeygenIo) : Isolated prim libs (.keygen input io) s ∧
      ∀ p ∈ (s.next prim libs (.keygen input io)).inFlight,
        Tracks libs.cipher (s.next prim libs (.keygen input io)) p := by
  cases hkeygen : s.app.keygen libs input io with
  | error e =>
      exact isolated_of_same hs (by simp only [Session.next, hkeygen])
  | ok r =>
      obtain ⟨out, app⟩ := r
      obtain ⟨disk, hwallets⟩ := keygen_wallets hkeygen
      have hnext : s.next prim libs (.keygen input io) =
          { s with
            app := app
            keygens := Function.update s.keygens input.name (s.keygens input.name + 1) } := by
        simp only [Session.next, hkeygen]
      constructor
      · intro name hne
        rw [hnext, hwallets] at hne
        by_contra hnot
        exact hne (Function.update_of_ne (fun h => hnot (.inl h.symm)) _ _)
      · rw [hnext]
        intro p hp
        obtain ⟨hle, htracks⟩ := hs p hp
        by_cases hwallet : p.wallet = input.name
        · -- A file that was created anew is no longer the one that was loaded.
          simp only [Tracks, hwallet, Function.update_self]
          rw [hwallet] at hle
          exact ⟨by omega, fun h => by omega⟩
        · simpa only [Tracks, hwallets, Function.update_of_ne hwallet] using ⟨hle, htracks⟩

/-- A command that finishes saves to the wallet it has loaded. -/
theorem answer_isolated (hc : libs.cipher.Lawful) (hone : libs.cipher.OneKey)
    (hs : ∀ p ∈ s.inFlight, Tracks libs.cipher s p) {i : Nat} {w : Surroundings} {io : SaveIo}
    (he : Undisturbed (.answer i w io) s) : Isolated prim libs (.answer i w io) s ∧
      ∀ p ∈ (s.next prim libs (.answer i w io)).inFlight,
        Tracks libs.cipher (s.next prim libs (.answer i w io)) p := by
  cases hget : s.inFlight[i]? with
  | none =>
      exact isolated_of_same hs (by simp only [Session.next, hget])
  | some p =>
      let s₁ : Session := { s with inFlight := s.inFlight.eraseIdx i }
      have hnext : s.next prim libs (.answer i w io) =
          s₁.finish prim libs w io (.waiting p.command) p.loaded := by
            simp only [Session.next, hget, s₁]
      have hrest : ∀ q ∈ s₁.inFlight, Tracks libs.cipher s₁ q := fun q hq =>
        hs q (List.mem_of_mem_eraseIdx hq)
      rcases he p hget with hnone | ⟨hname, hkeygens⟩
      · have hfinish : s₁.finish prim libs w io (.waiting p.command) p.loaded = s₁ :=
          finish_deselected hnone
        rw [hfinish] at hnext
        exact ⟨isolated_of_wallets (by rw [hnext]), by rw [hnext]; exact hrest⟩
      · obtain ⟨disk, hfile, hreads⟩ := (hs p (List.mem_of_getElem? hget)).2 hkeygens
        obtain ⟨hisolated, htracks⟩ : _ ∧ ∀ q, Tracks libs.cipher s₁ q →
            Tracks libs.cipher (s₁.finish prim libs w io (.waiting p.command) p.loaded) q :=
          finish_isolated prim hc hone w io (.waiting p.command) hname hfile hreads
        constructor
        · intro n hne
          rw [hnext] at hne ⊢
          obtain ⟨rfl, hsame⟩ := hisolated n hne
          exact .inr ⟨by simp [Event.loads, hget], hsame⟩
        · rw [hnext, finish_inFlight]
          exact fun q hq => htracks q (hrest q hq)

/-- What the commands in flight loaded, through one event. -/
theorem next_isolated (hc : libs.cipher.Lawful) (hone : libs.cipher.OneKey)
    (hs : ∀ p ∈ s.inFlight, Tracks libs.cipher s p) {e : Event} (he : Undisturbed e s) :
    Isolated prim libs e s ∧
      ∀ p ∈ (s.next prim libs e).inFlight, Tracks libs.cipher (s.next prim libs e) p := by
  cases e with
  | select name passphrase =>
      cases hselect : s.app.select libs.cipher name passphrase with
      | error e =>
          exact isolated_of_same hs (by simp only [Session.next, hselect])
      | ok app =>
          have hnext : s.next prim libs (.select name passphrase) = { s with app := app } := by
            simp only [Session.next, hselect]
          have hwallets := select_wallets hselect
          refine ⟨isolated_of_wallets (by rw [hnext, hwallets]), ?_⟩
          rw [hnext]
          intro p hp
          simpa only [Tracks, hwallets] using hs p hp
  | deselect => exact ⟨isolated_of_wallets rfl, hs⟩
  | keygen input io => exact keygen_isolated hs input io
  | mintUtxo input w io =>
      cases hload : s.app.loadCurrent libs.cipher with
      | error e =>
          exact isolated_of_same hs (by simp only [Session.next, hload])
      | ok wf =>
          have hnext : s.next prim libs (.mintUtxo input w io) =
              s.finish prim libs w io (.mintUtxo input) wf := by simp only [Session.next, hload]
          obtain ⟨name, disk, hname, hfile, hloaded⟩ := loadCurrent_ok hload
          obtain ⟨hisolated, htracks⟩ :=
            finish_isolated prim hc hone w io (.mintUtxo input) hname hfile hloaded.reads
          constructor
          · intro n hne
            rw [hnext] at hne ⊢
            obtain ⟨rfl, hsame⟩ := hisolated n hne
            exact .inr ⟨hname, hsame⟩
          · rw [hnext, finish_inFlight]
            exact fun p hp => htracks p (hs p hp)
  | call command =>
      cases hname : s.app.currentWallet with
      | none =>
          exact isolated_of_same hs (by simp only [Session.next, hname])
      | some name =>
          cases hload : s.app.loadCurrent libs.cipher with
          | error e =>
              exact isolated_of_same hs (by simp only [Session.next, hname, hload])
          | ok wf =>
              have hnext : s.next prim libs (.call command) =
                  { s with inFlight := s.inFlight ++ [⟨command, wf, name, s.keygens name⟩] } := by
                simp only [Session.next, hname, hload]
              obtain ⟨name', disk, hname', hfile, hloaded⟩ := loadCurrent_ok hload
              obtain rfl := Option.some.inj (hname.symm.trans hname')
              refine ⟨isolated_of_wallets (by rw [hnext]), ?_⟩
              rw [hnext]
              intro p hp
              rcases List.mem_append.mp hp with hp | hp
              · exact hs p hp
              · obtain rfl := List.mem_singleton.mp hp
                exact ⟨Nat.le_refl _, fun _ => ⟨disk, hfile, hloaded.reads⟩⟩
  | answer i w io => exact answer_isolated hc hone hs he

/--
**Where every command that comes to save finds the wallet it loaded still selected, and not
created anew since, or no wallet at all, every file that changes does so by a `keygen` of its
name, or by a command that loaded it and keeps its mnemonic.**
-/
theorem isolated_of_undisturbed (hc : libs.cipher.Lawful) (hone : libs.cipher.OneKey)
    (h : (system prim libs Started Undisturbed).Reachable s) {e : Event} (he : Undisturbed e s) :
    Isolated prim libs e s := by
  have htracks : ∀ p ∈ s.inFlight, Tracks libs.cipher s p := by
    refine h.invariant (I := fun s => ∀ p ∈ s.inFlight, Tracks libs.cipher s p) ?_ ?_
    · rintro s ⟨wallets, rfl⟩ p hp
      cases hp
    · rintro s t - hs ⟨e, he, rfl⟩
      exact (next_isolated hc hone hs he).2
  exact (next_isolated hc hone htracks he).1

end

/-! ### Two wallets -/

/-- Alice's wallet waits for a deposit while Bob's is selected. -/
def selectedMeanwhile : Session :=
  (((Session.idle ⟨twoWallets, none, fun _ => none⟩).next .sample .sample
    (.select "alice" none)).next
    .sample .sample (.call (.checkMintFunding ⟨0⟩))).next .sample .sample (.select "bob" none)

/-- No deposit has been seen, and the wallet is saved. -/
def noDeposit : Event := .answer 0 .quiet written

theorem selectedMeanwhile_reachable {allowed : Event → Session → Prop}
    (hselect : ∀ name pp s, allowed (.select name pp) s)
    (hcall : ∀ command s, allowed (.call command) s) :
    (system .sample .sample Started allowed).Reachable selectedMeanwhile :=
  .step (.step (.step (.init ⟨twoWallets, rfl⟩) ⟨_, hselect "alice" none _, rfl⟩)
    ⟨_, hcall (.checkMintFunding ⟨0⟩) _, rfl⟩) ⟨_, hselect "bob" none _, rfl⟩

/-- Alice's wallet is saved over Bob's: his mnemonic is gone. -/
theorem save_over_other_wallet :
    ∃ s e, (system .sample .sample Started fun _ _ => True).Reachable s ∧
      ¬ Isolated .sample .sample e s ∧
      s.app.wallets "bob" = some (.wallet (plainFile "bob")) ∧
      (s.next .sample .sample e).app.wallets "bob" = some (.wallet (plainFile "alice")) := by
  refine ⟨selectedMeanwhile, noDeposit, selectedMeanwhile_reachable (fun _ _ _ => trivial)
    fun _ _ => trivial, fun hisolated => ?_, rfl, rfl⟩
  have hne : (selectedMeanwhile.next .sample .sample noDeposit).app.wallets "bob" ≠
      selectedMeanwhile.app.wallets "bob" := by
    intro h
    have hsome : some "alice" = some "bob" := congrArg DiskLoad.mnemonic
      (File.wallet.inj (Option.some.inj h))
    simp at hsome
  rcases hisolated "bob" hne with hkeygen | ⟨hloads, -⟩
  · exact hkeygen
  · have halice : some "alice" = some "bob" := hloads
    simp at halice

/-- With Alice's wallet selected again the save is hers. -/
theorem isolated_selected_again :
    Isolated .sample .sample noDeposit (selectedMeanwhile.next .sample .sample
      (.select "alice" none)) :=
  isolated_of_undisturbed Cipher.sample_lawful Cipher.sample_oneKey
    (.step (selectedMeanwhile_reachable (fun _ _ _ => trivial) fun _ _ => trivial)
      ⟨.select "alice" none, trivial, rfl⟩)
    fun p hp => by
      obtain rfl := Option.some.inj hp
      exact .inr ⟨rfl, rfl⟩

end Hodlchain.Desktop
