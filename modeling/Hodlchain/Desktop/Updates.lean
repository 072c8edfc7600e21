/-
Updates of one wallet.

A command writes the wallet it loaded, with its own change.  What other commands have
saved in between is written over, and with it the records they added, the flags they
set and the index they took.
-/
import Hodlchain.Desktop.Session

namespace Hodlchain.Desktop

open Wallet

section

variable (prim : Primitives) (libs : Libraries)

/-! ### What must not be lost -/

/-- Two records of one mint. -/
def SameMint (r m : MintRecord) : Prop :=
  m.mintAddress = r.mintAddress ∧ m.lockBlocks = r.lockBlocks ∧ m.bip32Index = r.bip32Index

/-- What a command has changed from `loaded` to `saved` is in the file. -/
structure Kept (loaded saved : WalletFile) (file : DiskLoad) : Prop where
  mint : ∀ r ∈ saved.mints.drop loaded.mints.length, ∃ m ∈ file.mints, SameMint r m
  tx : ∀ t ∈ saved.transactions.drop loaded.transactions.length,
    ∃ t' ∈ file.transactions, { t' with status := t.status } = t
  minted : ∀ (k : Nat) (r r' : MintRecord), loaded.mints[k]? = some r → saved.mints[k]? = some r' →
    r.minted = false → r'.minted = true → ∃ m ∈ file.mints, SameMint r' m ∧ m.minted = true
  reclaimed : ∀ (k : Nat) (r r' : MintRecord), loaded.mints[k]? = some r →
    saved.mints[k]? = some r' →
    r.reclaimed = false → r'.reclaimed = true → ∃ m ∈ file.mints, SameMint r' m ∧ m.reclaimed = true
  outpoint : ∀ (k : Nat) (r r' : MintRecord), loaded.mints[k]? = some r →
    saved.mints[k]? = some r' →
    r'.outpoint ≠ r.outpoint → ∃ m ∈ file.mints, SameMint r' m ∧ m.outpoint = r'.outpoint

/-- The indices that `mint_utxo` has handed out. -/
def Session.handedOut (s : Session) : List UInt32 := s.completed.filterMap (·.output.handedOut)

/-- Every command that answered `Ok` is in the selected file, and no index was handed out twice. -/
def NoLostUpdate (s : Session) : Prop :=
  (∀ done ∈ s.completed, ∃ name file, s.app.currentWallet = some name ∧
    s.app.wallets name = some (.wallet file) ∧ Kept done.loaded done.saved file) ∧
  s.handedOut.Nodup

/-- The commands on the selected wallet. -/
def Event.OnWallet : Event → Prop
  | .mintUtxo .. | .call _ | .answer .. => True
  | _ => False

/-- A command that comes to save has loaded all that the file holds then: no record was added, no
flag set and no index taken since. -/
def UpToDate : Event → Session → Prop
  | .answer i _ _, s => ∀ p name file, s.inFlight[i]? = some p → s.app.currentWallet = some name →
      s.app.wallets name = some (.wallet file) → file.records.Grows p.loaded.records
  | _, _ => True

variable {prim libs} {s : Session} {loaded saved : WalletFile} {file : DiskLoad}

/-- What has grown from a command's own wallet keeps its change. -/
theorem kept_of_grown (h : Grown loaded saved) (hfile : saved.records.Grows file.records) :
    Kept loaded saved file where
  mint r hr := by
    obtain ⟨m, hm, hgrows⟩ := hfile.mints.mem (List.mem_of_mem_drop hr)
    exact ⟨m, hm, hgrows.mintAddress, hgrows.lockBlocks, hgrows.bip32Index⟩
  tx t ht := hfile.transactions.mem (List.mem_of_mem_drop ht)
  minted k r r' _ hr' _ hset := by
    obtain ⟨m, hm, hgrows⟩ := hfile.mints.mem (List.mem_of_getElem? hr')
    exact ⟨m, hm, ⟨hgrows.mintAddress, hgrows.lockBlocks, hgrows.bip32Index⟩, hgrows.minted hset⟩
  reclaimed k r r' _ hr' _ hset := by
    obtain ⟨m, hm, hgrows⟩ := hfile.mints.mem (List.mem_of_getElem? hr')
    exact ⟨m, hm, ⟨hgrows.mintAddress, hgrows.lockBlocks, hgrows.bip32Index⟩, hgrows.reclaimed hset⟩
  outpoint k r r' hr hr' hne := by
    obtain ⟨m, hm, hgrows⟩ := hfile.mints.mem (List.mem_of_getElem? hr')
    refine ⟨m, hm, ⟨hgrows.mintAddress, hgrows.lockBlocks, hgrows.bip32Index⟩, ?_⟩
    -- An outpoint changes only to that of a confirmed deposit, and then no more.
    obtain ⟨r'', hr'', hstep⟩ := h.records.mints.getElem? hr
    obtain rfl := Option.some.inj (hr'.symm.trans hr'')
    rcases hstep.outpoint with hsame | hfunded
    · exact absurd hsame hne
    · exact (hgrows.funded hfunded).2

/-! ### The invariant -/

/-- All that was saved is in the file, and its counter is above every index handed out. -/
structure UpTo (name : String) (s : Session) : Prop where
  selected : s.app.currentWallet = some name
  grown : ∀ done ∈ s.completed, Grown done.loaded done.saved
  saved : ∀ done ∈ s.completed, ∃ file, s.app.wallets name = some (.wallet file) ∧
    done.saved.records.Grows file.records
  below : ∀ i ∈ s.handedOut, ∃ file, s.app.wallets name = some (.wallet file) ∧
    i < file.nextMintIndex
  nodup : s.handedOut.Nodup

theorem UpTo.noLostUpdate {name : String} (h : UpTo name s) : NoLostUpdate s := by
  refine ⟨fun done hdone => ?_, h.nodup⟩
  obtain ⟨file, hfile, hgrows⟩ := h.saved done hdone
  exact ⟨name, file, h.selected, hfile, kept_of_grown (h.grown done hdone) hgrows⟩

/-- **A save keeps what was saved before it when the command had loaded all of that.** -/
theorem UpTo.finish {name : String} (h : UpTo name s) (w : Surroundings) (io : SaveIo)
    (command : Command) (hloaded : ∀ file, s.app.wallets name = some (.wallet file) →
      file.records.Grows loaded.records) :
    UpTo name (s.finish prim libs w io command loaded) := by
  rcases s.finish_cases prim libs w io command loaded with
    hsame | ⟨out, wf, name', disk, hrun, hname', hdisk, hfinish⟩
  · rwa [hsame]
  · obtain rfl := Option.some.inj (hname'.symm.trans h.selected)
    obtain ⟨hgrown, hout⟩ := Command.run_grown hrun
    have hrecords := WalletFile.records_of_toDisk hdisk
    have hwritten : loaded.records.Grows disk.records := hrecords ▸ hgrown.records
    have hindex : disk.nextMintIndex = wf.nextMintIndex := congrArg Records.nextMintIndex hrecords
    have hread : (Function.update s.app.wallets name' (some (File.wallet disk))) name'
        = some (.wallet disk) := Function.update_self ..
    have hbefore : ∀ i ∈ s.handedOut, i < loaded.nextMintIndex := by
      intro i hi
      obtain ⟨file, hfile, hlt⟩ := h.below i hi
      exact UInt32.lt_of_lt_of_le hlt (hloaded file hfile).nextMintIndex
    rw [hfinish]
    have hhanded : ∀ i ∈ Session.handedOut
        { s with
          app := { s.app with wallets := Function.update s.app.wallets name' (some (.wallet disk)) }
          completed := ⟨command, out, loaded, wf⟩ :: s.completed },
        out.handedOut = some i ∨ i ∈ s.handedOut := by
      intro i hi
      obtain ⟨done, hdone, hi⟩ := List.mem_filterMap.mp hi
      rcases List.mem_cons.mp hdone with rfl | hdone
      · exact .inl hi
      · exact .inr (List.mem_filterMap.mpr ⟨done, hdone, hi⟩)
    exact
      { selected := h.selected
        grown := by
          intro done hdone
          rcases List.mem_cons.mp hdone with rfl | hdone
          · exact hgrown
          · exact h.grown done hdone
        saved := by
          intro done hdone
          refine ⟨disk, hread, ?_⟩
          rcases List.mem_cons.mp hdone with rfl | hdone
          · exact hrecords ▸ .refl _
          · obtain ⟨file, hfile, hgrows⟩ := h.saved done hdone
            exact (hgrows.trans (hloaded file hfile)).trans hwritten
        below := by
          intro i hi
          refine ⟨disk, hread, ?_⟩
          rcases hhanded i hi with hnew | hold
          · exact hindex ▸ (hout i hnew).2
          · exact UInt32.lt_of_lt_of_le (hbefore i hold) hwritten.nextMintIndex
        nodup := by
          simp only [Session.handedOut, List.filterMap_cons]
          cases hnew : out.handedOut with
          | none => exact h.nodup
          | some i =>
              refine List.nodup_cons.mpr ⟨fun hold => ?_, h.nodup⟩
              exact absurd ((hout i hnew).1 ▸ hbefore i hold) (UInt32.lt_irrefl _) }

theorem UpTo.next {name : String} (h : UpTo name s) {e : Event} (hwallet : e.OnWallet)
    (he : UpToDate e s) : UpTo name (s.next prim libs e) := by
  cases e with
  | select name passphrase => exact hwallet.elim
  | deselect => exact hwallet.elim
  | keygen input io => exact hwallet.elim
  | mintUtxo input w io =>
      simp only [Session.next]
      split
      · exact h
      · rename_i wf hload
        refine h.finish w io _ fun file hfile => ?_
        obtain ⟨name', disk, hname', hdisk, hloaded⟩ := loadCurrent_ok hload
        obtain rfl := Option.some.inj (hname'.symm.trans h.selected)
        rw [hdisk, Option.some.injEq, File.wallet.injEq] at hfile
        subst hfile
        exact hloaded.records ▸ .refl _
  | call command =>
      simp only [Session.next]
      split
      · exact ⟨h.selected, h.grown, h.saved, h.below, h.nodup⟩
      · exact h
  | answer i w io =>
      simp only [Session.next]
      split
      · exact h
      · rename_i p hp
        have hrest : UpTo name { s with inFlight := s.inFlight.eraseIdx i } :=
          ⟨h.selected, h.grown, h.saved, h.below, h.nodup⟩
        exact hrest.finish w io _ fun file hfile => he p name file hp h.selected hfile

/--
**Where every command that comes to save has loaded all that the file holds then, what the
commands on one wallet have added and set is in its file, and no index is handed out twice.**
-/
theorem noLostUpdate_of_upToDate
    (h : (system prim libs Selected fun e s => e.OnWallet ∧ UpToDate e s).Reachable s) :
    NoLostUpdate s := by
  have hupTo : ∃ name, UpTo name s := by
    refine h.invariant (I := fun s => ∃ name, UpTo name s) ?_ ?_
    · rintro s ⟨app, name, hname, rfl⟩
      exact ⟨name, hname, by simp [Session.idle], by simp [Session.idle],
        by simp [Session.idle, Session.handedOut], by simp [Session.idle, Session.handedOut]⟩
    · rintro s t - ⟨name, hs⟩ ⟨e, ⟨hwallet, he⟩, rfl⟩
      exact ⟨name, hs.next hwallet he⟩
  obtain ⟨name, hname⟩ := hupTo
  exact hname.noLostUpdate

end

/-! ### Overlapping commands -/

/-- Alice's wallet is selected. -/
def aliceSelected : Session := .idle ⟨twoWallets, some "alice", fun _ => none⟩

theorem aliceSelected_selected : Selected aliceSelected := ⟨_, "alice", rfl, rfl⟩

/-- A new deposit address is given out while the wallet looks for the first deposit. -/
def polledMeanwhile : Session :=
  ((aliceSelected.next .sample .sample (.call (.checkMintFunding ⟨0⟩))).next .sample .sample
    (.mintUtxo ⟨144⟩ .quiet written)).next .sample .sample (.answer 0 .quiet written)

/-- And then another one. -/
def indexTwice : Session := polledMeanwhile.next .sample .sample (.mintUtxo ⟨200⟩ .quiet written)

/-- The first address is forgotten, and the next one has its key. -/
theorem deposit_address_lost :
    (system .sample .sample Selected fun e _ => e.OnWallet).Reachable polledMeanwhile ∧
      ¬ NoLostUpdate polledMeanwhile ∧
      polledMeanwhile.app.wallets "alice" = some (.wallet (plainFile "alice")) ∧
      (system .sample .sample Selected fun e _ => e.OnWallet).Reachable indexTwice ∧
      indexTwice.handedOut = [1, 1] := by
  have hpolled : (system .sample .sample Selected fun e _ => e.OnWallet).Reachable
      polledMeanwhile :=
    .step (.step (.step (.init aliceSelected_selected)
      ⟨.call (.checkMintFunding ⟨0⟩), trivial, rfl⟩)
      ⟨.mintUtxo ⟨144⟩ .quiet written, trivial, rfl⟩) ⟨.answer 0 .quiet written, trivial, rfl⟩
  refine ⟨hpolled, fun hkept => ?_, rfl,
    .step hpolled ⟨.mintUtxo ⟨200⟩ .quiet written, trivial, rfl⟩, rfl⟩
  obtain ⟨poll, minted, hcompleted, hnew⟩ :
      ∃ poll minted, polledMeanwhile.completed = [poll, minted] ∧
      ∃ r, minted.saved.mints.drop minted.loaded.mints.length = [r] ∧ r.bip32Index = 1 :=
    ⟨_, _, rfl, _, rfl, rfl⟩
  obtain ⟨r, hr, hindex⟩ := hnew
  obtain ⟨name, file, hname, hfile, hlost⟩ := hkept.1 minted (by simp [hcompleted])
  obtain ⟨m, hm, -, -, hsame⟩ := hlost.mint r (by simp [hr])
  obtain rfl : "alice" = name := Option.some.inj hname
  obtain rfl : plainFile "alice" = file := File.wallet.inj (Option.some.inj hfile)
  obtain rfl := List.mem_singleton.mp hm
  have hzero : (0 : UInt32) = 1 := hsame.trans hindex
  exact absurd hzero (by decide)

/-- One command after the other. -/
theorem noLostUpdate_in_turn :
    NoLostUpdate (((aliceSelected.next .sample .sample (.mintUtxo ⟨144⟩ .quiet written)).next
      .sample .sample (.call (.checkMintFunding ⟨0⟩))).next
      .sample .sample (.answer 0 .quiet written)) :=
  noLostUpdate_of_upToDate
    (.step (.step (.step (.init aliceSelected_selected)
      ⟨.mintUtxo ⟨144⟩ .quiet written, ⟨trivial, trivial⟩, rfl⟩)
      ⟨.call (.checkMintFunding ⟨0⟩), ⟨trivial, trivial⟩, rfl⟩)
      ⟨.answer 0 .quiet written, ⟨trivial, fun p name file hp hname hfile => by
        obtain rfl := Option.some.inj hp
        obtain rfl : "alice" = name := Option.some.inj hname
        obtain rfl := File.wallet.inj (Option.some.inj hfile)
        exact .refl _⟩, rfl⟩)

end Hodlchain.Desktop
