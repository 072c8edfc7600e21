/-
A wallet in use.

The owner of an address works with one wallet file: deposits, mints, transfers and
reclaims, answered however they may be, and light balances that ask the node.  Everything
else runs as before.  The history in the file is then the history of the address on the
sequencer's chain, from the block that the first light balance has come to.
-/
import Hodlchain.Wallet.Journal
import Hodlchain.Wallet.Resolution
import Hodlchain.Wallet.Running

namespace Hodlchain

/-! ### What rows show an address -/

section

variable (prim : Primitives) (own : L2Address) (row : UInt32 → Option Row)

/-- What the block of a row shows. -/
def shownAt (k : UInt32) : List TxEvent :=
  (row k).elim [] fun r => r.block.txs.flatMap (observeTx prim own k r.block.header)

/-- What the blocks above `a` show, up to `b`. -/
def shownBetween (a b : UInt32) : List TxEvent :=
  (List.range' (a.toNat + 1) (b.toNat - a.toNat)).flatMap fun k =>
    shownAt prim own row (UInt32.ofNat k)

end

section

variable {prim : Primitives} {own : L2Address} {row row' : UInt32 → Option Row} {a b c : UInt32}
  {ev : TxEvent}

@[simp] theorem shownBetween_self (a : UInt32) : shownBetween prim own row a a = [] := by
  unfold shownBetween
  rw [Nat.sub_self]
  rfl

theorem shownBetween_append (hab : a ≤ b) (hbc : b ≤ c) :
    shownBetween prim own row a b ++ shownBetween prim own row b c =
      shownBetween prim own row a c := by
  rw [UInt32.le_iff_toNat_le] at hab hbc
  have hsplit : List.range' (a.toNat + 1) (c.toNat - a.toNat)
      = List.range' (a.toNat + 1) (b.toNat - a.toNat) ++ List.range' (b.toNat + 1)
        (c.toNat - b.toNat) := by
    have hone := @List.range'_append_1 (a.toNat + 1) (b.toNat - a.toNat) (c.toNat - b.toNat)
    rw [show a.toNat + 1 + (b.toNat - a.toNat) = b.toNat + 1 by omega,
      show b.toNat - a.toNat + (c.toNat - b.toNat) = c.toNat - a.toNat by omega] at hone
    exact hone.symm
  unfold shownBetween
  rw [hsplit, List.flatMap_append]

theorem mem_shownBetween : ev ∈ shownBetween prim own row a b ↔
    ∃ k, a < k ∧ k ≤ b ∧ ∃ r, row k = some r ∧
      ∃ tx ∈ r.block.txs, ev ∈ observeTx prim own k r.block.header tx := by
  have hat : ∀ k, ev ∈ shownAt prim own row k ↔ ∃ r, row k = some r ∧
      ∃ tx ∈ r.block.txs, ev ∈ observeTx prim own k r.block.header tx := by
    intro k
    unfold shownAt
    cases row k with
    | none => simp
    | some r => simp [List.mem_flatMap]
  have hb := b.toNat_lt
  unfold shownBetween
  rw [List.mem_flatMap]
  constructor
  · intro h
    obtain ⟨k, hk, hev⟩ := h
    rw [List.mem_range'_1] at hk
    have hof : (UInt32.ofNat k).toNat = k := toNat_ofNat32 (by omega)
    refine ⟨UInt32.ofNat k, ?_, ?_, (hat _).mp hev⟩
    · rw [UInt32.lt_iff_toNat_lt, hof]
      omega
    · rw [UInt32.le_iff_toNat_le, hof]
      omega
  · intro h
    obtain ⟨k, hak, hkb, hev⟩ := h
    rw [UInt32.lt_iff_toNat_lt] at hak
    rw [UInt32.le_iff_toNat_le] at hkb
    refine ⟨k.toNat, ?_, ?_⟩
    · rw [List.mem_range'_1]
      omega
    · rw [UInt32.ofNat_toNat]
      exact (hat k).mpr hev

/-- Where the rows are, later rows show the same. -/
theorem shownBetween_congr (h : ∀ k, a < k → k ≤ b → row' k = row k) :
    shownBetween prim own row' a b = shownBetween prim own row a b := by
  have hb := b.toNat_lt
  unfold shownBetween
  refine List.flatMap_congr fun k hk => ?_
  rw [List.mem_range'_1] at hk
  have hof : (UInt32.ofNat k).toNat = k := toNat_ofNat32 (by omega)
  unfold shownAt
  rw [h (UInt32.ofNat k) (by rw [UInt32.lt_iff_toNat_lt, hof]; omega)
    (by rw [UInt32.le_iff_toNat_le, hof]; omega)]

/-- Rows that are served are observed as they are. -/
theorem observeFrom_served {api : ApiClient} (n : ℕ) : ∀ i : ℕ,
    (∀ k, i ≤ k → k < i + n → ∃ r, row (UInt32.ofNat k) = some r ∧
      api.getBlock (UInt32.ofNat k) = some r.block) →
    observeFrom prim own (UInt32.ofNat i) (servedFrom api n (UInt32.ofNat i))
      = (List.range' i n).flatMap fun k => shownAt prim own row (UInt32.ofNat k) := by
  induction n with
  | zero => exact fun _ _ => rfl
  | succ n ih =>
      intro i hrows
      obtain ⟨r, hr, hserved⟩ := hrows i (Nat.le_refl i) (by omega)
      have hnext : UInt32.ofNat i + 1 = UInt32.ofNat (i + 1) := (UInt32.ofNat_add i 1).symm
      have hrest := ih (i + 1) fun k hk hlt => hrows k (by omega) (by omega)
      have hhere : shownAt prim own row (UInt32.ofNat i)
          = r.block.txs.flatMap (observeTx prim own (UInt32.ofNat i) r.block.header) := by
        unfold shownAt
        rw [hr]
        rfl
      rw [servedFrom, hserved, Option.toList_some, List.singleton_append, observeFrom, hnext, hrest,
        List.range'_succ, List.flatMap_cons, hhere]

/-! ### What a query has walked -/

variable {api : ApiServer} {esplora : EsploraServer} {head head' : VerifiedHead}

/-- A walk counts the heights it has come up. -/
theorem walkSteps_climbs {tip : UInt32} {steps : List ChainStep} {count : ℕ} {events : List TxEvent}
    (h : walkSteps prim api esplora tip steps head = .ok (head', count, events)) :
    head.l2Height.toNat + count = head'.l2Height.toNat := by
  induction steps generalizing head count events with
  | nil =>
      simp only [walkSteps, pure_ok_iff, Prod.mk.injEq] at h
      obtain ⟨rfl, rfl, -⟩ := h
      rfl
  | cons step steps ih =>
      rw [walkSteps] at h
      by_cases hpast : step.attestation.height ≤ head.l2Height
      · rw [if_pos hpast] at h
        have hrest := ih h
        exact hrest
      · rw [if_neg hpast] at h
        simp only [bind_ok_iff, pure_ok_iff, Prod.mk.injEq] at h
        obtain ⟨⟨mid, shown⟩, hrange, ⟨last, k, rest⟩, hsteps, rfl, rfl, -⟩ := h
        have hlt := UInt32.lt_iff_toNat_lt.mp (UInt32.not_le.mp hpast)
        have hbound := step.attestation.height.toNat_lt
        have hnext : (head.l2Height + 1).toNat = head.l2Height.toNat + 1 := by
          rw [UInt32.toNat_add, UInt32.toNat_one, Nat.mod_eq_of_lt (by omega)]
        obtain ⟨d, hd⟩ := Nat.exists_eq_add_of_lt hlt
        rw [show step.attestation.height.toNat - head.l2Height.toNat = d + 1 by omega] at hrange ⊢
        obtain ⟨hmid, -⟩ := walkRange_served (by omega) hrange
        have hrest := ih hsteps
        dsimp only at hrest ⊢
        omega

theorem walkForward_climbs {fuel count : ℕ} {events : List TxEvent}
    (h : walkForward prim fuel head api esplora = .ok (head', count, events)) :
    head.l2Height.toNat + count = head'.l2Height.toNat := by
  simp only [walkForward, bind_ok_iff, mapErr_ok_iff] at h
  obtain ⟨chain, -, h⟩ := h
  cases chain with
  | nil =>
      simp only [pure_ok_iff, Prod.mk.injEq] at h
      obtain ⟨rfl, rfl, -⟩ := h
      rfl
  | cons step steps =>
      simp only [bind_ok_iff] at h
      obtain ⟨tip, -, h⟩ := h
      exact walkSteps_climbs h

/-- The events of a query are those of the blocks from its start to its head. -/
theorem lightBalance_events {fuel : ℕ} {addr : Option L2Address} {persisted : Option VerifiedHead}
    {res : LightBalanceResult}
    (h : lightBalance prim fuel api esplora own addr persisted = .ok res) :
    res.output.l2Height = res.head.l2Height ∧
      ∃ start mode count, startHead prim fuel api esplora own persisted = .ok (start, mode) ∧
      start.l2Height.toNat + count = res.head.l2Height.toNat ∧
      res.events = observeFrom prim start.ownAddress (start.l2Height + 1)
        (servedFrom api.toApiClient count (start.l2Height + 1)) := by
  obtain ⟨-, start, mode, last, count, events, top, -, -, hstart, hwalk, htop, -, rfl⟩ :=
    lightBalance_ok_iff.mp h
  have htopped : top.l2Height = last.l2Height := by
    unfold topUp at htop
    split_ifs at htop
    · simp only [bind_ok_iff, pure_ok_iff] at htop
      obtain ⟨bal, -, rfl⟩ := htop
      rfl
    · obtain rfl := Except.ok.inj htop
      rfl
  refine ⟨rfl, start, mode, count, hstart, ?_, (walkForward_observe hwalk).2⟩
  show _ = top.l2Height.toNat
  rw [htopped]
  exact walkForward_climbs hwalk

/-- What a query of another address asks for has no part in the head, nor in the events. -/
theorem lightBalanceOver_own {fuel : ℕ} {read : ApiServer} {addr : Option L2Address}
    {persisted : Option VerifiedHead} {res : LightBalanceResult}
    (h : lightBalanceOver prim fuel { Stages.all api esplora with read := read } own addr persisted
      = .ok res) :
    ∃ out, lightBalance prim fuel api esplora own none persisted = .ok ⟨out, res.head, res.events⟩ ∧
      res.output.l2Height = res.head.l2Height := by
  obtain ⟨htracked, start, mode, last, count, events, top, balance, nonce, hstart, hwalk,
      htop, -, rfl⟩ :=
    lightBalanceOver_ok_iff.mp h
  have hread : readBalance prim api own own top = .ok (balanceFrom top own) := by
    rw [readBalance, if_pos rfl]
    rfl
  exact ⟨_, lightBalance_ok_iff.mpr ⟨htracked, start, mode, last, count, events, top, _, _, hstart,
    hwalk, htop, hread, rfl⟩, rfl⟩

end

end Hodlchain

namespace Hodlchain.Sequencer

open Wallet (Libraries WalletFile Surroundings LightBalanceInput TxRecord Tells Operates)

/-! ### The system -/

/-- All that runs, with the file of the wallet, and the height that its first light balance has come
to. -/
structure Owner where
  running : Running
  file : WalletFile
  since : Option UInt32

section

variable (prim : Primitives) (libs : Libraries) (seen : UInt32 → Chain) (anchor0 : OutPoint)
  (own : L2Address)

/-- Something else happens; an operation of the wallet ends, whatever it was answered; or a light
balance succeeds, for any address and at any time, and the file is saved.  Its head comes from one
state of the node; the balance of another address, and what the refresh goes by, may come
from anywhere. -/
inductive OwnerStep (s : Owner) : Owner → Prop
  | running {r : Running} (h : RunningStep prim seen anchor0 own s.running r)
      (hwallet : r.wallet = s.running.wallet) : OwnerStep s { s with running := r }
  | operate {file : WalletFile} (h : Operates prim libs s.file file) :
      OwnerStep s { s with file := file }
  | lightBalance {w : Surroundings} {input : LightBalanceInput} {out : LightBalanceOutput}
      {file : WalletFile} {esplora : EsploraServer} {read : ApiServer}
      (hlight : w.light = { Stages.all (s.running.world.api prim) esplora with read := read })
      (hasked : s.running.Asked anchor0 esplora) (hfuel : s.running.l1.txs.length < w.fuel)
      (h : Wallet.lightBalance prim libs w input s.file = (.ok out, file)) :
      OwnerStep s
        { running := { s.running with wallet := file.verifiedHead }
          file := file
          since := s.since.or (some out.l2Height) }

/-- A new wallet, made by `keygen`. -/
structure OwnerStart (s : Owner) : Prop where
  running : RunningStart prim anchor0 s.running
  file : ∃ input generated out, Wallet.keygen libs input generated = .ok (s.file, out)
  key : s.file.xonlyPubkey libs.keys = .ok own
  since : s.since = none

def ownerSystem : System Owner :=
  ⟨OwnerStart prim libs anchor0 own, OwnerStep prim libs seen anchor0 own⟩

/-- The history tells what the rows show between two heights. -/
def Owner.TellsBetween (s : Owner) (a b : UInt32) : Prop :=
  Tells (shownBetween prim own s.running.app.store.row a b) s.file.transactions

/-- What holds in every run. -/
structure Owner.Kept (s : Owner) : Prop where
  reachable : (runningSystem prim seen anchor0 own).Reachable s.running
  key : s.file.xonlyPubkey libs.keys = .ok own
  wallet : s.file.verifiedHead = s.running.wallet
  unasked : s.file.verifiedHead = none → s.since = none ∧ Tells [] s.file.transactions
  asked : ∀ head, s.file.verifiedHead = some head → ∃ a, s.since = some a ∧ a ≤ head.l2Height ∧
    s.TellsBetween prim own a head.l2Height

end

section

variable {prim : Primitives} {libs : Libraries} {seen : UInt32 → Chain} {anchor0 : OutPoint}
  {own : L2Address} {s s' : Owner}

/-! ### The rows of a run -/

/-- The node holds the rows up to its head. -/
theorem Running.Kept.held {r : Running} (h : r.Kept prim seen anchor0 own) {k : UInt32}
    (hk : k ≤ r.world.head.height) : ∃ x, r.app.store.row k = some x ∧
      (r.world.api prim).getBlock k = some x.block :=
  h.line.archived.block k hk

/-- A step leaves the rows alone that there are. -/
theorem RunningStep.rows {r r' : Running} (h : r.Kept prim seen anchor0 own)
    (hstep : RunningStep prim seen anchor0 own r r') {k : UInt32} {x : Row}
    (hx : r.app.store.row k = some x) : r'.app.store.row k = some x := by
  cases hstep with
  | sequencer hseq hposts hown => exact h.row_step hseq k x hx
  | mine block hvalid hlength hspent => exact hx
  | node hnode hhits hsafe => exact hx
  | lightBalance hasked hfuel hres => exact hx

/-- **A query shows what the blocks show that it has walked**, and the first one walks none. -/
theorem Running.Kept.shown {r : Running} (h : r.Kept prim seen anchor0 own)
    {esplora : EsploraServer} {fuel : ℕ} {addr : Option L2Address} {res : LightBalanceResult}
    (hasked : r.Asked anchor0 esplora) (hfuel : r.l1.txs.length < fuel)
    (hres :
      Hodlchain.lightBalance prim fuel (r.world.api prim) esplora own addr r.wallet = .ok res) :
    res.head.l2Height ≤ r.world.head.height ∧ (r.wallet = none → res.events = []) ∧
      ∀ head, r.wallet = some head → head.l2Height ≤ res.head.l2Height ∧
        res.events = shownBetween prim own r.app.store.row head.l2Height res.head.l2Height := by
  have hnext := h.step (.lightBalance hasked hfuel hres)
  have hle : res.head.l2Height ≤ r.world.head.height := (hnext.wallet _ rfl).le
  obtain ⟨-, start, mode, count, hstart, hcount, hevents⟩ := lightBalance_events hres
  refine ⟨hle, fun hnone => ?_, fun head hsome => ?_⟩
  · -- a first head is where the node is
    rw [hnone] at hstart
    simp only [startHead, bind_ok_iff, mapErr_ok_iff, pure_ok_iff, Prod.mk.injEq] at hstart
    obtain ⟨cold, hboot, rfl, -⟩ := hstart
    obtain ⟨bal, items, l1, hcold, rfl⟩ := bootstrap_ok_iff.mp hboot
    obtain rfl := Option.some.inj (hcold.balance.symm.trans rfl)
    have hheight : r.world.head.height = l1.l2Height := hcold.l2Height
    have hzero : count = 0 := by
      rw [UInt32.le_iff_toNat_le, hheight] at hle
      have hsum : l1.l2Height.toNat + count = res.head.l2Height.toNat := hcount
      omega
    rw [hevents, hzero]
    rfl
  · rw [hsome] at hstart
    simp only [startHead, pure_ok_iff, Prod.mk.injEq] at hstart
    obtain ⟨rfl, -⟩ := hstart
    have hown : head.ownAddress = own := (h.wallet head (by rw [hsome]; rfl)).ownAddress
    refine ⟨?_, ?_⟩
    · rw [UInt32.le_iff_toNat_le]
      omega
    · have hnext : head.l2Height + 1 = UInt32.ofNat (head.l2Height.toNat + 1) := by
        rw [UInt32.ofNat_add, UInt32.ofNat_toNat]
        rfl
      have hlast := res.head.l2Height.toNat_lt
      rw [hevents, hown, hnext, observeFrom_served count _ fun k hk hlt => h.held ?_]
      · unfold shownBetween
        rw [show res.head.l2Height.toNat - head.l2Height.toNat = count by omega]
      · rw [UInt32.le_iff_toNat_le] at hle ⊢
        rw [toNat_ofNat32 (by omega)]
        omega

/-! ### The invariant -/

theorem OwnerStart.kept (h : OwnerStart prim libs anchor0 own s) :
    s.Kept prim libs seen anchor0 own := by
  obtain ⟨input, generated, out, hkeygen⟩ := h.file
  simp only [Wallet.keygen, bind_ok_iff, pure_ok_iff, Prod.mk.injEq] at hkeygen
  obtain ⟨⟨phrase, fresh⟩, -, address, -, hfile, -⟩ := hkeygen
  have hhead : s.file.verifiedHead = none := by rw [← hfile]
  have htxs : s.file.transactions = [] := by rw [← hfile]
  refine ⟨.init h.running, h.key, hhead.trans h.running.posting.deployed.wallet.symm, fun _ => ?_,
    fun head hsome => ?_⟩
  · rw [htxs]
    exact ⟨h.since, .nil⟩
  · rw [hhead] at hsome
    cases hsome

theorem Owner.Kept.running (h : s.Kept prim libs seen anchor0 own) {r : Running}
    (hstep : RunningStep prim seen anchor0 own s.running r)
    (hwallet : r.wallet = s.running.wallet) :
    Owner.Kept prim libs seen anchor0 own { s with running := r } := by
  have hkept := running_kept h.reachable
  refine ⟨h.reachable.step hstep, h.key, h.wallet.trans hwallet.symm, h.unasked,
    fun head hhead => ?_⟩
  obtain ⟨a, hsince, hle, htells⟩ := h.asked head hhead
  refine ⟨a, hsince, hle, ?_⟩
  have hbelow : head.l2Height ≤ s.running.world.head.height :=
    (hkept.wallet head (by rw [← h.wallet, hhead]; rfl)).le
  have hsame : shownBetween prim own r.app.store.row a head.l2Height
      = shownBetween prim own s.running.app.store.row a head.l2Height := by
    refine shownBetween_congr fun k _ hk => ?_
    obtain ⟨x, hx, -⟩ := hkept.held (UInt32.le_trans hk hbelow)
    rw [hx, hstep.rows hkept hx]
  unfold Owner.TellsBetween
  rw [hsame]
  exact htells

theorem Owner.Kept.operate (h : s.Kept prim libs seen anchor0 own) {file : WalletFile}
    (hop : Operates prim libs s.file file) :
    Owner.Kept prim libs seen anchor0 own { s with file := file } := by
  have hsubmitted := hop.submitted
  have hkey := Wallet.xonlyPubkey_congr hsubmitted.network hsubmitted.mnemonic libs.keys
  refine ⟨h.reachable, hkey.trans h.key, hsubmitted.verifiedHead.trans h.wallet, fun hnone => ?_,
    fun head hhead => ?_⟩
  · obtain ⟨hsince, htells⟩ := h.unasked (hsubmitted.verifiedHead.symm.trans hnone)
    exact ⟨hsince, hsubmitted.tells htells⟩
  · obtain ⟨a, hsince, hle, htells⟩ := h.asked head (hsubmitted.verifiedHead.symm.trans hhead)
    exact ⟨a, hsince, hle, hsubmitted.tells htells⟩

theorem Owner.Kept.lightBalance (h : s.Kept prim libs seen anchor0 own) {w : Surroundings}
    {input : LightBalanceInput} {out : LightBalanceOutput} {file : WalletFile}
    {esplora : EsploraServer} {read : ApiServer}
    (hlight : w.light = { Stages.all (s.running.world.api prim) esplora with read := read })
    (hasked : s.running.Asked anchor0 esplora) (hfuel : s.running.l1.txs.length < w.fuel)
    (hrun : Wallet.lightBalance prim libs w input s.file = (.ok out, file)) :
    Owner.Kept prim libs seen anchor0 own
      { running := { s.running with wallet := file.verifiedHead }
        file := file
        since := s.since.or (some out.l2Height) } := by
  obtain ⟨own', target, head, events, l1Tip, hown, -, hres, rfl⟩ := Wallet.lightBalance_ok hrun
  obtain rfl := Except.ok.inj (h.key.symm.trans hown)
  rw [hlight, h.wallet] at hres
  have hkept := running_kept h.reachable
  obtain ⟨shown, hquery, hheight⟩ := lightBalanceOver_own hres
  obtain ⟨-, hcold, hwarm⟩ := hkept.shown hasked hfuel hquery
  have hproject := @Wallet.projectEvents_grown w events { s.file with verifiedHead := none }
  have hrefresh := @Wallet.finalizeAndRefresh_grown w
    (Wallet.projectEvents w events { s.file with verifiedHead := none }) l1Tip events.length
  have hkey := Wallet.xonlyPubkey_congr (hrefresh.same.network.trans hproject.same.network)
    (hrefresh.same.mnemonic.trans hproject.same.mnemonic) libs.keys
  -- the history is that of the file without its head
  have hcleared : ∀ {shown}, Tells shown s.file.transactions →
      Tells shown { s.file with verifiedHead := none }.transactions := id
  refine ⟨h.reachable.step (.lightBalance hasked hfuel hquery), hkey.trans h.key,
    rfl, fun hnone => ?_,
    fun head' hhead' => ?_⟩
  · cases hnone
  · obtain rfl := Option.some.inj hhead'
    cases hbefore : s.file.verifiedHead with
    | none =>
        -- the first one adds nothing
        obtain ⟨hsince, htells⟩ := h.unasked hbefore
        have hnil : events = [] := hcold (h.wallet.symm.trans hbefore)
        refine ⟨head.l2Height, ?_, UInt32.le_refl _, ?_⟩
        · rw [hsince, hheight]
          rfl
        · have hnext := (hcleared htells).walked w events l1Tip events.length
          unfold Owner.TellsBetween
          rw [shownBetween_self]
          rw [hnil] at hnext ⊢
          exact hnext
    | some head₀ =>
        obtain ⟨a, hsince, hle, htells⟩ := h.asked head₀ hbefore
        obtain ⟨hup, hevents⟩ := hwarm head₀ (h.wallet.symm.trans hbefore)
        refine ⟨a, ?_, UInt32.le_trans hle hup, ?_⟩
        · rw [hsince]
          rfl
        · have hnext := (hcleared htells).walked w events l1Tip events.length
          unfold Owner.TellsBetween
          rw [← shownBetween_append hle hup, ← show events = _ from hevents]
          exact hnext

theorem owner_kept (h : (ownerSystem prim libs seen anchor0 own).Reachable s) :
    s.Kept prim libs seen anchor0 own := by
  refine h.invariant (I := fun s => s.Kept prim libs seen anchor0 own) (fun _ => OwnerStart.kept) ?_
  intro s s' _ hkept hstep
  cases hstep with
  | running hstep hwallet => exact hkept.running hstep hwallet
  | operate hop => exact hkept.operate hop
  | lightBalance hlight hasked hfuel hrun => exact hkept.lightBalance hlight hasked hfuel hrun

/-! ### The history of an address -/

/-- **The history is that of the address on the sequencer's chain.**  In every run of sequencer, L1,
node and wallet, in which the wallet deposits, mints, transfers and reclaims as it likes: from the
block that its first light balance has come to up to the one of its last, every transaction of the
sequencer's blocks that pays the address or is paid by it has a record that stands in a block; every
record of L2 that stands in a block is a record of such a transaction, at the heights of its block,
and with its amount and sender if it came in; and what came in is recorded once. -/
theorem history_exact (h : (ownerSystem prim libs seen anchor0 own).Reachable s) {a : UInt32}
    {head : VerifiedHead} (hsince : s.since = some a) (hhead : s.file.verifiedHead = some head) :
    a ≤ head.l2Height ∧
    (∀ k, a < k → k ≤ head.l2Height → ∃ r, s.running.app.store.row k = some r ∧
      ∀ tx ∈ r.block.txs, ∀ ev ∈ observeTx prim own k r.block.header tx,
        ∃ t ∈ s.file.transactions, t.Placed ∧
          t.isFor (Wallet.TxEvent.entry ev).1 (Wallet.TxEvent.entry ev).2 = true) ∧
    (∀ t ∈ s.file.transactions, t.kind.onL2 = true → t.Placed →
      ∃ k r, a < k ∧ k ≤ head.l2Height ∧ s.running.app.store.row k = some r ∧
        ∃ tx ∈ r.block.txs, ∃ ev ∈ observeTx prim own k r.block.header tx, t.Reports ev) ∧
    ∀ key, s.file.transactions.countP (TxRecord.isFor .l2TransferReceived key) ≤ 1 := by
  have hkept := owner_kept h
  have hrunning := running_kept hkept.reachable
  obtain ⟨a', hsince', hle, htells⟩ := hkept.asked head hhead
  obtain rfl := Option.some.inj (hsince.symm.trans hsince')
  have hbelow : head.l2Height ≤ s.running.world.head.height :=
    (hrunning.wallet head (by rw [← hkept.wallet, hhead]; rfl)).le
  refine ⟨hle, fun k hak hk => ?_, fun t ht hL2 hplaced => ?_, htells.once⟩
  · obtain ⟨r, hr, -⟩ := hrunning.held (UInt32.le_trans hk hbelow)
    refine ⟨r, hr, fun tx htx ev hev => ?_⟩
    obtain ⟨t, ht, hfor, hplaced⟩ := htells.complete ev
      (mem_shownBetween.mpr ⟨k, hak, hk, r, hr, tx, htx, hev⟩)
    exact ⟨t, ht, hplaced, hfor⟩
  · obtain ⟨ev, hev, hreports⟩ := htells.sound t ht hL2 hplaced
    obtain ⟨k, hak, hk, r, hr, tx, htx, hshown⟩ := mem_shownBetween.mp hev
    exact ⟨k, r, hak, hk, hr, tx, htx, ev, hshown, hreports⟩

/-- A query that succeeds is a light balance that succeeds. -/
theorem lightBalance_of_query {w : Surroundings} {wf : WalletFile} {res : LightBalanceResult}
    (hkey : wf.xonlyPubkey libs.keys = .ok own)
    (hres : lightBalanceOver prim w.fuel w.light own none wf.verifiedHead = .ok res) :
    ∃ file, Wallet.lightBalance prim libs w ⟨none⟩ wf = (.ok res.output, file) ∧
      file.verifiedHead = some res.head := by
  simp only [lightBalanceOver, bind_ok_iff, pure_ok_iff, Option.getD_none] at hres
  obtain ⟨u, htracked, ⟨walked, mode, count, events⟩, hwalk, ⟨head, out⟩, hread, rfl⟩ := hres
  have htarget : Wallet.addressOr libs own wf.network none = .ok own := rfl
  simp only [Wallet.lightBalance, Action.get_bind_run, hkey, htarget, htracked, hwalk,
    hread, mapErr, Action.lift_ok_bind_run, Action.modify_bind_run]
  exact ⟨_, rfl, rfl⟩

end

/-! ### A mint -/

/-- Every key is the one that `shortMint` pays. -/
def shortMintLibraries : Libraries :=
  { Libraries.sample with
    keys :=
      { Libraries.sample.keys with
        derivePriv := fun _ _ => some ⟨shortMint.event.l2Destination, fun _ _ =>
          ⟨ByteArr.ofNat 64 0⟩,
          fun _ => ⟨ByteArr.ofNat 64 0⟩⟩ } }

/-- A wallet of that key over the chain that funds the first anchor. -/
def shortMintOwner : System Owner :=
  ownerSystem Primitives.sample shortMintLibraries (fun _ => lockChain) rootAnchor
    shortMint.event.l2Destination

/-- Its answers. -/
def askNode (r : Running) : Surroundings :=
  { Surroundings.quiet with
    light := .all (r.world.api Primitives.sample) (r.world.esplora r.l1)
    fuel := 4 }

/-- A light balance of it over a settled node succeeds, and comes to the node's head. -/
theorem shortMintOwner_query {s : Owner} (h : shortMintOwner.Reachable s)
    (hsettled : s.running.Settled rootAnchor) (hfuel : s.running.l1.txs.length < 4) :
    ∃ file head, shortMintOwner.Reachable
        ⟨{ s.running with wallet := some head }, file, s.since.or (some head.l2Height)⟩ ∧
      file.verifiedHead = some head ∧ head.l2Height = s.running.world.head.height := by
  have hkept := owner_kept h
  have hrunning := running_kept hkept.reachable
  obtain ⟨res, r, hres, hr, hread, -⟩ := hrunning.query hsettled hfuel none
  rw [← hkept.wallet] at hres
  obtain ⟨file, hrun, hhead⟩ := @lightBalance_of_query _ shortMintLibraries _
    (askNode s.running) _ _
    hkept.key hres
  have hnext := h.step (@OwnerStep.lightBalance _ _ _ _ _ s (askNode s.running) _ _ _
    (s.running.world.esplora s.running.l1) (s.running.world.api Primitives.sample) rfl
    (.inr ⟨rfl, hsettled⟩) hfuel hrun)
  rw [hhead, (lightBalance_events hres).1] at hnext
  obtain ⟨attested, hsound, -⟩ := hrunning.sound
  obtain ⟨m, hrows, -⟩ := hsound.inStep.feed
  refine ⟨file, res.head, hnext, hhead, ?_⟩
  rw [hread.stands.l2Height]
  exact hrows.height _ _ (Store.row_eq_some_iff.mp hr).1

/-- A wallet asks, a mint of seven atoms is submitted for it and put in block 1, and the block is
attested and followed: when the wallet asks again, the mint is in its history. -/
theorem history_exact_shortMint : ∃ s a head, shortMintOwner.Reachable s ∧ s.since = some a ∧
    s.file.verifiedHead = some head ∧ ∃ t ∈ s.file.transactions, t.kind = .l2MintApply ∧
      t.Placed := by
  obtain ⟨app, app', node, p, r, hstart, hsubmit, hstep, hposts, hown, htx, hversion, hrow,
      hmint, hlow⟩ :=
    exists_mint_posted
  obtain ⟨hfirst, hzero⟩ := funded_start hstart hlow
  obtain ⟨input, hinput⟩ : ∃ input : Wallet.KeygenInput, input = ⟨.regtest, "", none, "", none⟩ :=
    ⟨_, rfl⟩
  obtain ⟨file₀, out, hkeygen, hkey⟩ : ∃ file out,
      Wallet.keygen shortMintLibraries input (some "") = .ok (file, out) ∧
      file.xonlyPubkey shortMintLibraries.keys = .ok shortMint.event.l2Destination := by
    rw [hinput]
    exact ⟨_, _, rfl, rfl⟩
  have hinit : shortMintOwner.Reachable ⟨⟨app, [], fundedChain, World.start node, none⟩,
      file₀, none⟩ :=
    .init ⟨hfirst, ⟨_, _, _, hkeygen⟩, hkey, rfl⟩
  -- the first light balance, at genesis
  have hsettled₀ : Running.Settled rootAnchor ⟨app, [], fundedChain, World.start node, none⟩ := by
    have hrunning := running_kept (owner_kept hinit).reachable
    obtain ⟨before, after, hsplit, hbetween⟩ := hrunning.line.between
    have hnil : fundedChain.links rootAnchor = [] := by
      unfold Chain.links
      rw [Chain.pass_unspent fun p hp hop =>
        fundedChain_unspent rootAnchor ⟨p.2, Chain.mem_txs_of_placed hp, hop⟩]
    have hboth := List.append_eq_nil_iff.mp (hsplit.symm.trans hnil)
    exact ⟨before, after, hsplit, hbetween.anchor, hbetween.last hboth.2⟩
  obtain ⟨file₁, head₁, hasked, -, hheight₁⟩ := shortMintOwner_query hinit hsettled₀
    (show fundedChain.txs.length < 4 by decide)
  -- the mint is submitted, and the block with it is produced and attested
  have hsubmitted := hasked.step (.running (.sequencer hsubmit (.silent rfl rfl)
    fun q hq => absurd hq List.not_mem_nil) rfl)
  have hown' : ∀ q ∈ [p], OwnId rootAnchor ([] ++ []) fundedChain.txs q := by
    intro q hq
    rw [List.mem_singleton.mp hq]
    exact hown
  have hcalled := hsubmitted.step (.running (.sequencer hstep hposts hown') rfl)
  have hspent : SpentByPosted rootAnchor [p] [attestedTx p.attestation] := by
    intro tx hmem op _ _
    rw [List.mem_singleton.mp hmem, ← htx]
    exact ⟨p, List.mem_singleton_self _, rfl⟩
  have hmined := hcalled.step (.running (.mine ⟨[attestedTx p.attestation]⟩
    (attested_carries hversion).valid (attested_carries hversion).length hspent) rfl)
  -- the node follows, and the wallet asks again
  have hrunning := running_kept (owner_kept hmined).reachable
  obtain ⟨w, htick, hsettled, hbetween⟩ := hrunning.settles
    (attested_unspent (owner_kept hmined).reachable rfl)
  have hticked := hmined.step (.running htick rfl)
  have hcount : (Chain.txs (fundedChain ++ [⟨[attestedTx p.attestation]⟩])).length < 4 :=
    Nat.lt_succ_self 3
  obtain ⟨file₂, head₂, hreach, hhead₂, hheight₂⟩ := shortMintOwner_query hticked hsettled hcount
  have hpos : 0 < head₂.l2Height := by
    rw [hheight₂]
    show 0 < w.head.height
    rw [hbetween.last rfl]
    exact links_crash_pos (owner_kept hmined).reachable
      (congrArg Prod.fst (attested_links hversion))
  refine ⟨_, head₁.l2Height, head₂, hreach, rfl, hhead₂, ?_⟩
  obtain ⟨-, hcomplete, -⟩ := history_exact hreach rfl hhead₂
  obtain ⟨r', hr', hrecorded⟩ := hcomplete 1
    (by rw [hheight₁, show (World.start node).head.height = 0 from hzero]; decide)
    (by rw [UInt32.le_iff_toNat_le, UInt32.toNat_one]; exact UInt32.lt_iff_toNat_lt.mp hpos)
  obtain rfl := Option.some.inj (hrow.symm.trans hr')
  obtain ⟨t, ht, hplaced, hfor⟩ := hrecorded _ hmint _ (List.mem_singleton_self _)
  exact ⟨t, ht, (of_decide_eq_true hfor).1, hplaced⟩

end Hodlchain.Sequencer
