/-
The tally of mints.

Nothing commits to the number of atoms ever minted that a head carries.  A cold start
takes it from the node, for the height that L1 attests; a walk adds the mints of the
blocks it verifies; and a head that has zero even then is given the total of one more
answer, of whatever height the node has by that time.  A block that comes in between
is counted twice from there on.  A head that was persisted without a tally counts from
its own height, as soon as a block it walks over mints.
-/
import Mathlib.Algebra.BigOperators.Group.Finset.Basic
import Mathlib.Order.Interval.Finset.Nat
import Hodlchain.Core.Accepted
import Hodlchain.Wallet.Determinism

namespace Hodlchain

open Bytes LedgerState

/-! ### The chain and its node -/

/-- What the mints among transactions add up to. -/
def mintedAmount (txs : List L2Tx) : ℕ := ((mintsOf txs).map (·.event.amount.toNat)).sum

/-- A chain: the block at each height, and the ledger that the bodies up to there leave. -/
structure L2Chain (prim : Primitives) where
  fee : Option L2Address
  block : ℕ → L2Block
  ledger : ℕ → LedgerState
  start : ledger 0 = LedgerState.start fee
  step : ∀ n, (ledger n).replay prim (block (n + 1)).txs = .ok (ledger (n + 1))

namespace L2Chain

variable {prim : Primitives} (c : L2Chain prim)

/-- The mints of the blocks above `a`, up to `b`. -/
def mintedIn (a b : ℕ) : ℕ := ∑ n ∈ Finset.Ico a b, mintedAmount (c.block (n + 1)).txs

/-- The mints of the blocks `1..=n`. -/
def minted (n : ℕ) : ℕ := c.mintedIn 0 n

@[simp] theorem minted_zero : c.minted 0 = 0 := rfl

theorem mintedIn_self (a : ℕ) : c.mintedIn a a = 0 := by
  unfold mintedIn
  rw [Finset.Ico_self, Finset.sum_empty]

theorem mintedIn_succ (a : ℕ) : c.mintedIn a (a + 1) = mintedAmount (c.block (a + 1)).txs := by
  unfold mintedIn
  rw [Nat.Ico_succ_singleton, Finset.sum_singleton]

theorem mintedIn_add {a b d : ℕ} (hab : a ≤ b) (hbd : b ≤ d) :
    c.mintedIn a b + c.mintedIn b d = c.mintedIn a d := by
  unfold mintedIn
  rw [← Finset.Ico_union_Ico_eq_Ico hab hbd, Finset.sum_union
    (Finset.Ico_disjoint_Ico_consecutive a b d)]

theorem minted_add {a b : ℕ} (hab : a ≤ b) : c.minted a + c.mintedIn a b = c.minted b :=
  c.mintedIn_add (Nat.zero_le a) hab

/-- A replayed body adds its mints, as far as `u64::MAX`. -/
theorem replay_total {s s' : LedgerState} {txs : List L2Tx} (h : s.replay prim txs = .ok s') :
    s'.totalMintedAtoms.toNat
      = min (s.totalMintedAtoms.toNat + mintedAmount txs) (2 ^ 64 - 1) := by
  obtain ⟨hok, rfl⟩ := replayFrom_ok_iff.mp h
  exact hok.totalMintedAtoms

theorem ledger_total (n : ℕ) :
    (c.ledger n).totalMintedAtoms.toNat = min (c.minted n) (2 ^ 64 - 1) := by
  induction n with
  | zero =>
      rw [c.start]
      rfl
  | succ n ih =>
      rw [replay_total (c.step n), ih, ← c.minted_add (Nat.le_succ n), c.mintedIn_succ]
      omega

/-- What a node that follows the chain serves, at whatever height it has by then. -/
structure Honest (api : ApiServer) : Prop where
  block : ∀ h b, api.getBlock h = some b → b = c.block h.toNat
  balance : ∀ a bal, api.balance a = some bal → ∃ nonce,
    bal = (c.ledger bal.l2Height.toNat).balanceResponse prim bal.l2Height a nonce

theorem Honest.total {c : L2Chain prim} {api : ApiServer} {a : L2Address} {bal : BalanceResponse}
    (h : c.Honest api) (hbal : api.balance a = some bal) :
    bal.totalMintedAtoms = (c.ledger bal.l2Height.toNat).totalMintedAtoms := by
  obtain ⟨nonce, heq⟩ := h.balance a bal hbal
  exact congrArg BalanceResponse.totalMintedAtoms heq

/-- The node when it has come to height `n`. -/
def nodeAt (n : UInt32) : ApiServer where
  getBlock h := if h ≤ n then some (c.block h.toNat) else none
  getWitness _ := none
  balance a := some ((c.ledger n.toNat).balanceResponse prim n a 0)
  getNullifiers := some (c.ledger n.toNat).consumedNullifiers.toList

theorem nodeAt_honest (n : UInt32) : c.Honest (c.nodeAt n) where
  block h b hb := by
    simp only [nodeAt, Option.ite_none_right_eq_some, Option.some.injEq] at hb
    exact hb.2.symm
  balance a bal hbal := by
    obtain rfl := Option.some.inj hbal
    exact ⟨0, rfl⟩

/-! ### A walk -/

/-- The tally of a head is that of the blocks up to its height. -/
def Exact (head : VerifiedHead) : Prop :=
  head.totalMintedAtoms.toNat = c.minted head.l2Height.toNat

/-- From a head to a later one, with the mints of the blocks between them added. -/
structure Adds (head head' : VerifiedHead) : Prop where
  le : head.l2Height.toNat ≤ head'.l2Height.toNat
  total : head'.totalMintedAtoms.toNat = min (head.totalMintedAtoms.toNat
    + c.mintedIn head.l2Height.toNat head'.l2Height.toNat) (2 ^ 64 - 1)

variable {c} {api : ApiServer} {esplora : EsploraServer} {tip : UInt32}

theorem Adds.refl (head : VerifiedHead) : c.Adds head head := by
  refine ⟨Nat.le_refl _, ?_⟩
  have hbound := head.totalMintedAtoms.toNat_lt
  rw [c.mintedIn_self]
  omega

theorem Adds.trans {a b d : VerifiedHead} (h : c.Adds a b) (h' : c.Adds b d) : c.Adds a d := by
  refine ⟨h.le.trans h'.le, ?_⟩
  rw [h'.total, h.total, ← c.mintedIn_add h.le h'.le]
  omega

/-- A verified block of the chain adds its mints. -/
theorem Adds.of_verified {head head' : VerifiedHead} {height : UInt32} {att : Option Attestation}
    {events : List TxEvent} (hnext : height.toNat = head.l2Height.toNat + 1)
    (h : Verified prim head height att (c.block height.toNat) head' events) :
    c.Adds head head' := by
  obtain ⟨witness, s', hreplay, -, htotal, -⟩ := h.records
  have hheight : head'.l2Height.toNat = head.l2Height.toNat + 1 := by rw [h.l2Height, hnext]
  refine ⟨by omega, ?_⟩
  rw [hheight, c.mintedIn_succ, ← hnext, ← htotal]
  exact replay_total hreplay

theorem walkRange_adds (hapi : c.Honest api) {att : Attestation} {n : ℕ} {h : UInt32}
    {head head' : VerifiedHead} {events : List TxEvent} (hnext : h.toNat = head.l2Height.toNat + 1)
    (hfit : head.l2Height.toNat + n < 2 ^ 32)
    (hrun : walkRange prim api esplora tip att n h head = .ok (head', events)) :
    c.Adds head head' ∧ head'.l2Height.toNat = head.l2Height.toNat + n := by
  induction n generalizing h head events with
  | zero =>
      simp only [walkRange, pure_ok_iff, Prod.mk.injEq] at hrun
      obtain ⟨rfl, -⟩ := hrun
      exact ⟨.refl head, rfl⟩
  | succ n ih =>
      obtain ⟨block, mid, shown, rest, hblock, hverified, hrest, -⟩ := walkRange_succ hrun
      obtain rfl := hapi.block h block hblock
      have hmid : mid.l2Height.toNat = head.l2Height.toNat + 1 := by rw [hverified.l2Height, hnext]
      rcases Nat.eq_zero_or_pos n with rfl | hpos
      · simp only [walkRange, pure_ok_iff, Prod.mk.injEq] at hrest
        obtain ⟨rfl, -⟩ := hrest
        exact ⟨.of_verified hnext hverified, hmid⟩
      · have hup : (h + 1).toNat = mid.l2Height.toNat + 1 := by
          rw [UInt32.toNat_add, UInt32.toNat_one, Nat.mod_eq_of_lt (by omega)]
          omega
        obtain ⟨hadds, hheight⟩ := ih hup (by omega) hrest
        exact ⟨(Adds.of_verified hnext hverified).trans hadds, by omega⟩

end L2Chain

/-- The highest of a height and the attested ones. -/
def reached (height : UInt32) (steps : List ChainStep) : UInt32 :=
  steps.foldl
    (fun h step => if step.attestation.height ≤ h then h else step.attestation.height) height

/-- The height that a walk from `height`, behind `anchor`, comes to. -/
def walkedTo (fuel : ℕ) (esplora : EsploraServer) (height : UInt32) (anchor : OutPoint) : UInt32 :=
  match walkAttestationChain esplora fuel anchor with
  | .ok steps => reached height steps
  | .error _ => height

namespace L2Chain

variable {prim : Primitives} {c : L2Chain prim} {api : ApiServer} {esplora : EsploraServer}
  {tip : UInt32}

theorem walkSteps_adds (hapi : c.Honest api) {steps : List ChainStep} {head head' : VerifiedHead}
    {count : ℕ} {events : List TxEvent}
    (hrun : walkSteps prim api esplora tip steps head = .ok (head', count, events)) :
    c.Adds head head' ∧ head'.l2Height = reached head.l2Height steps := by
  induction steps generalizing head count events with
  | nil =>
      simp only [walkSteps, pure_ok_iff, Prod.mk.injEq] at hrun
      obtain ⟨rfl, -⟩ := hrun
      exact ⟨.refl head, rfl⟩
  | cons step steps ih =>
      rw [walkSteps] at hrun
      have hcons : reached head.l2Height (step :: steps)
          = reached (if step.attestation.height ≤ head.l2Height then head.l2Height
            else step.attestation.height) steps := rfl
      by_cases hpast : step.attestation.height ≤ head.l2Height
      · rw [if_pos hpast] at hrun
        obtain ⟨hadds, hheight⟩ := ih hrun
        rw [hcons, if_pos hpast]
        exact ⟨⟨hadds.le, hadds.total⟩, hheight⟩
      · rw [if_neg hpast] at hrun
        simp only [bind_ok_iff, pure_ok_iff, Prod.mk.injEq] at hrun
        obtain ⟨⟨mid, shown⟩, hrange, ⟨last, k, rest⟩, hsteps, rfl, -, -⟩ := hrun
        have hlt := UInt32.lt_iff_toNat_lt.mp (UInt32.not_le.mp hpast)
        have hbound := step.attestation.height.toNat_lt
        have hnext : (head.l2Height + 1).toNat = head.l2Height.toNat + 1 := by
          rw [UInt32.toNat_add, UInt32.toNat_one, Nat.mod_eq_of_lt (by omega)]
        obtain ⟨hrangeAdds, hmid⟩ := walkRange_adds hapi hnext (by omega) hrange
        obtain ⟨hadds, hheight⟩ := ih hsteps
        have htarget : mid.l2Height = step.attestation.height := UInt32.toNat_inj.mp (by omega)
        rw [hcons, if_neg hpast, ← htarget]
        exact ⟨hrangeAdds.trans ⟨hadds.le, hadds.total⟩, hheight⟩

theorem walkForward_adds (hapi : c.Honest api) {fuel : ℕ} {head head' : VerifiedHead} {count : ℕ}
    {events : List TxEvent}
    (hrun : walkForward prim fuel head api esplora = .ok (head', count, events)) :
    c.Adds head head' ∧ head'.l2Height = walkedTo fuel esplora head.l2Height
      head.anchorOutpoint := by
  simp only [walkForward, bind_ok_iff, mapErr_ok_iff] at hrun
  obtain ⟨chain, hchain, hrun⟩ := hrun
  rw [walkedTo, hchain]
  cases chain with
  | nil =>
      simp only [pure_ok_iff, Prod.mk.injEq] at hrun
      obtain ⟨rfl, -⟩ := hrun
      exact ⟨.refl head, rfl⟩
  | cons step steps =>
      simp only [bind_ok_iff] at hrun
      obtain ⟨tip, -, hrun⟩ := hrun
      exact walkSteps_adds hapi hrun

end L2Chain

/-! ### A call while the chains grow -/

/-- A call of `light_balance`. -/
structure Query where
  fuel : ℕ
  stages : Stages
  addr : Option L2Address
  /-- Whether the wallet is read from its file again when the call fails; else the head is gone. -/
  reloads : Bool

namespace Query

variable (prim : Primitives) (own : L2Address)

/-- The head that the call persists. -/
def persists (q : Query) (p : Option VerifiedHead) : Option VerifiedHead :=
  (lightBalanceOver prim q.fuel q.stages own q.addr p).toOption.map (·.head)

/-- What the next call starts from. -/
def next (q : Query) (p : Option VerifiedHead) : Option VerifiedHead :=
  (q.persists prim own p).or (if q.reloads then p else none)

/-- The height and the anchor that the call starts at. -/
def startsAt (q : Query) : Option VerifiedHead → Option (UInt32 × OutPoint)
  | some head => some (head.l2Height, head.anchorOutpoint)
  | none => do
      let genesis ← q.stages.coldStart.getBlock 0
      let anchor0 ← genesis.header.anchorOutpoint
      let chain ← (walkAttestationChain q.stages.coldStartL1 q.fuel anchor0).toOption
      let l1 := attestedHead prim genesis anchor0 chain
      some (l1.l2Height, l1.anchorOutpoint)

end Query

/-- The heads that a sequence of calls persists, in order. -/
def persistedHeads (prim : Primitives) (own : L2Address) :
    Option VerifiedHead → List Query → List VerifiedHead
  | _, [] => []
  | p, q :: qs => (q.persists prim own p).toList ++ persistedHeads prim own (q.next prim own p) qs

namespace L2Chain

variable {prim : Primitives} (c : L2Chain prim)

/-- The tally that a call starts with at `start`. -/
def seed (start : UInt32) : Option VerifiedHead → Amount
  | some head => head.totalMintedAtoms
  | none => (c.ledger start.toNat).totalMintedAtoms

/-- No mint is missed and none counted twice from `start` up to `stop`: the mints fit a `u64`; a
tally of zero that is behind the mints is not added to; and what a tally of zero is replaced by, if
it is, is the total at `stop`. -/
structure CountsOnce (seed : Amount) (start stop : UInt32) (answer : Option BalanceResponse) :
    Prop where
  fits : c.minted stop.toNat < 2 ^ 64
  behind : seed = 0 → c.minted start.toNat ≠ 0 → c.mintedIn start.toNat stop.toNat = 0
  replaced : seed = 0 → c.mintedIn start.toNat stop.toNat = 0 → 0 < stop → ∀ bal ∈ answer,
    (c.ledger bal.l2Height.toNat).totalMintedAtoms = (c.ledger stop.toNat).totalMintedAtoms

/-- The call counts every mint once. -/
def QueryCounts (own : L2Address) (q : Query) (p : Option VerifiedHead) : Prop :=
  ∀ start anchor, q.startsAt prim p = some (start, anchor) →
    c.CountsOnce (c.seed start p) start (walkedTo q.fuel q.stages.walkL1 start anchor)
      (q.stages.topUp.balance own)

/-- So does every call of the sequence that persists a head. -/
def AllCount (own : L2Address) : Option VerifiedHead → List Query → Prop
  | _, [] => True
  | p, q :: qs => ((q.persists prim own p).isSome → QueryCounts c own q p) ∧
      AllCount own (q.next prim own p) qs

/-- The node that answers the call follows the chain. -/
structure QueryHonest (q : Query) : Prop where
  coldStart : c.Honest q.stages.coldStart
  walk : c.Honest q.stages.walk
  topUp : c.Honest q.stages.topUp

variable {c} {own : L2Address} {q : Query} {p : Option VerifiedHead} {head : VerifiedHead}

/-- The tally of a head is the ledger's. -/
def Tallied (c : L2Chain prim) (head : VerifiedHead) : Prop :=
  head.totalMintedAtoms = (c.ledger head.l2Height.toNat).totalMintedAtoms

theorem Exact.tallied (h : c.Exact head) : c.Tallied head := by
  refine UInt64.toNat_inj.mp ?_
  have hbound := head.totalMintedAtoms.toNat_lt
  rw [Exact] at h
  rw [c.ledger_total]
  omega

/-- Where a call starts, and that its tally is the ledger's if it is not one of zero. -/
theorem startHead_ok (hp : ∀ head ∈ p, c.Exact head ∨ head.totalMintedAtoms = 0)
    (hq : c.Honest q.stages.coldStart) {mode : LightBalanceMode}
    (h : startHead prim q.fuel q.stages.coldStart q.stages.coldStartL1 own p = .ok (head, mode)) :
    q.startsAt prim p = some (head.l2Height, head.anchorOutpoint) ∧
      c.seed head.l2Height p = head.totalMintedAtoms ∧
      (c.Tallied head ∨ head.totalMintedAtoms = 0) := by
  cases p with
  | some persisted =>
      simp only [startHead, pure_ok_iff, Prod.mk.injEq] at h
      obtain ⟨rfl, -⟩ := h
      exact ⟨rfl, rfl, (hp persisted rfl).imp_left Exact.tallied⟩
  | none =>
      simp only [startHead, bind_ok_iff, mapErr_ok_iff, pure_ok_iff, Prod.mk.injEq] at h
      obtain ⟨cold, hcold, rfl, -⟩ := h
      obtain ⟨bal, items, l1, hstart, rfl⟩ := bootstrap_ok_iff.mp hcold
      obtain ⟨genesis, anchor0, chain, hgenesis, hanchor, hchain, rfl⟩ := hstart.walk
      -- the answer is of the attested height, as `bootstrap` has checked
      have htotal := hq.total hstart.balance
      rw [hstart.l2Height] at htotal
      refine ⟨?_, htotal.symm, .inl htotal⟩
      simp only [Query.startsAt, hgenesis, hanchor, hchain, Except.toOption, Option.bind_eq_bind,
        Option.bind_some]
      rfl

theorem total_of_tallied (h : c.Tallied head ∨ head.totalMintedAtoms = 0) :
    head.totalMintedAtoms.toNat = min (c.minted head.l2Height.toNat) (2 ^ 64 - 1) ∨
      head.totalMintedAtoms.toNat = 0 := by
  rcases h with htallied | hzero
  · rw [htallied, c.ledger_total]
    exact .inl rfl
  · rw [hzero]
    exact .inr rfl

/-- A head that has zero after the walk is given the total of the answer. -/
theorem Adds.exact_replaced_iff {a b : VerifiedHead} {bal : BalanceResponse} (hadds : c.Adds a b)
    (ha : c.Tallied a ∨ a.totalMintedAtoms = 0) (hzero : b.totalMintedAtoms = 0)
    (hheight : 0 < b.l2Height)
    (hanswer : bal.totalMintedAtoms = (c.ledger bal.l2Height.toNat).totalMintedAtoms) :
    c.Exact { b with totalMintedAtoms := bal.totalMintedAtoms } ↔
      c.CountsOnce a.totalMintedAtoms a.l2Height b.l2Height (some bal) := by
  have hsum := c.minted_add hadds.le
  have htotal := hadds.total
  have hstart := total_of_tallied ha
  have hstop := c.ledger_total b.l2Height.toNat
  rw [hzero, UInt64.toNat_zero] at htotal
  show bal.totalMintedAtoms.toNat = c.minted b.l2Height.toNat ↔ _
  constructor
  · intro hexact
    have hbound := bal.totalMintedAtoms.toNat_lt
    refine ⟨by omega, fun _ _ => by omega, ?_⟩
    rintro - - - _ ⟨⟩
    rw [← hanswer]
    exact UInt64.toNat_inj.mp (by omega)
  · intro hcounts
    have hfits := hcounts.fits
    have hseed : a.totalMintedAtoms = 0 := UInt64.toNat_inj.mp (show _ = 0 by omega)
    have hsame := hcounts.replaced hseed (by omega) hheight bal rfl
    rw [hanswer, hsame]
    omega

/-- Any other head is left as the walk made it. -/
theorem Adds.exact_kept_iff {a b : VerifiedHead} (hadds : c.Adds a b)
    (ha : c.Tallied a ∨ a.totalMintedAtoms = 0)
    (hkept : ¬ (b.totalMintedAtoms = 0 ∧ 0 < b.l2Height)) (answer : Option BalanceResponse) :
    c.Exact b ↔ c.CountsOnce a.totalMintedAtoms a.l2Height b.l2Height answer := by
  have hsum := c.minted_add hadds.le
  have htotal := hadds.total
  have hstart := total_of_tallied ha
  have hseed : a.totalMintedAtoms = 0 ↔ a.totalMintedAtoms.toNat = 0 := UInt64.toNat_inj.symm
  have hpos : 0 < b.l2Height ↔ 0 < b.l2Height.toNat := UInt32.lt_iff_toNat_lt
  have hkept' : ¬ (b.totalMintedAtoms.toNat = 0 ∧ 0 < b.l2Height.toNat) := by
    rwa [← UInt64.toNat_inj, UInt64.toNat_zero, hpos] at hkept
  unfold Exact
  rcases Nat.eq_zero_or_pos b.l2Height.toNat with hlow | hhigh
  · -- nothing is minted up to genesis
    have hnone : c.minted b.l2Height.toNat = 0 := by rw [hlow, c.minted_zero]
    refine iff_of_true (by omega) ⟨by omega, fun _ _ => by omega, fun _ _ hgt => ?_⟩
    rw [hpos] at hgt
    omega
  · constructor
    · intro hexact
      have hbound := b.totalMintedAtoms.toNat_lt
      refine ⟨by omega, fun hnone hbefore => ?_, fun hnone hstill => ?_⟩
      · rw [hseed] at hnone
        omega
      · rw [hseed] at hnone
        omega
    · intro hcounts
      have hfits := hcounts.fits
      have hbehind := hcounts.behind
      rw [hseed] at hbehind
      omega

theorem Adds.exact_topUp_iff {api : ApiServer} {a b : VerifiedHead} (hadds : c.Adds a b)
    (ha : c.Tallied a ∨ a.totalMintedAtoms = 0) (hapi : c.Honest api)
    (htop : topUp api own b = .ok head) :
    c.Exact head ↔ c.CountsOnce a.totalMintedAtoms a.l2Height b.l2Height (api.balance own) := by
  unfold topUp at htop
  by_cases htopped : b.totalMintedAtoms = 0 ∧ b.l2Height > 0
  · rw [if_pos htopped] at htop
    simp only [bind_ok_iff, okOr_ok_iff, pure_ok_iff] at htop
    obtain ⟨bal, hbal, rfl⟩ := htop
    rw [hbal]
    exact hadds.exact_replaced_iff ha htopped.1 htopped.2 (hapi.total hbal)
  · rw [if_neg htopped, pure_ok_iff] at htop
    subst htop
    exact hadds.exact_kept_iff ha htopped _

theorem persists_ok (h : q.persists prim own p = some head) :
    ∃ start mode walked count events,
      startHead prim q.fuel q.stages.coldStart q.stages.coldStartL1 own p = .ok (start, mode) ∧
      walkForward prim q.fuel start q.stages.walk q.stages.walkL1 = .ok (walked, count, events) ∧
      topUp q.stages.topUp own walked = .ok head := by
  obtain ⟨r, hr, rfl⟩ := Option.map_eq_some_iff.mp h
  obtain ⟨-, start, mode, walked, count, events, head, balance, nonce, hstart, hwalk,
      htop, -, rfl⟩ :=
    lightBalanceOver_ok_iff.mp (toOption_eq_some_iff.mp hr)
  exact ⟨start, mode, walked, count, events, hstart, hwalk, htop⟩

/-- **One call.**  From a head that is exact or has no tally, a call persists an exact one just if
it counts every mint once. -/
theorem persists_exact_iff (hp : ∀ head ∈ p, c.Exact head ∨ head.totalMintedAtoms = 0)
    (hq : c.QueryHonest q) (h : q.persists prim own p = some head) :
    c.Exact head ↔ QueryCounts c own q p := by
  obtain ⟨start, mode, walked, count, events, hstart, hwalk, htop⟩ := persists_ok h
  obtain ⟨hat, hseed, htally⟩ := startHead_ok hp hq.coldStart hstart
  obtain ⟨hadds, hwalked⟩ := walkForward_adds hq.walk hwalk
  rw [hadds.exact_topUp_iff htally hq.topUp htop, QueryCounts, hat]
  constructor
  · rintro hcounts _ _ ⟨⟩
    rw [hseed, ← hwalked]
    exact hcounts
  · intro hcounts
    have h := hcounts _ _ rfl
    rwa [hseed, ← hwalked] at h

/-- What the next call starts from is exact or has no tally, if that is so here and what the call
persists is exact. -/
theorem next_tally (hp : ∀ head ∈ p, c.Exact head ∨ head.totalMintedAtoms = 0)
    (hexact : ∀ head ∈ q.persists prim own p, c.Exact head) :
    ∀ head ∈ q.next prim own p, c.Exact head ∨ head.totalMintedAtoms = 0 := by
  unfold Query.next
  cases hpersists : q.persists prim own p with
  | some head =>
      rintro _ ⟨⟩
      exact .inl (hexact head hpersists)
  | none =>
      cases q.reloads with
      | true => exact hp
      | false => simp

/-- **The local tally of mints, over every sequence of calls**: starting cold, or from a head that
was persisted without a tally, and against nodes that follow one chain while it grows, every head
that is persisted has the sum of the mints of the blocks up to its height just if every call counts
every mint once. -/
theorem persistedHeads_exact_iff (c : L2Chain prim) (own : L2Address) {p : Option VerifiedHead}
    {qs : List Query} (hp : ∀ head ∈ p, head.totalMintedAtoms = 0)
    (hqs : ∀ q ∈ qs, c.QueryHonest q) :
    (∀ head ∈ persistedHeads prim own p qs, c.Exact head) ↔ AllCount c own p qs := by
  have hstart : ∀ head ∈ p, c.Exact head ∨ head.totalMintedAtoms = 0 := fun head h =>
    .inr (hp head h)
  clear hp
  induction qs generalizing p with
  | nil => simp [persistedHeads, AllCount]
  | cons q qs ih =>
      obtain ⟨hq, hqs⟩ := List.forall_mem_cons.mp hqs
      have hcall : (∀ head ∈ q.persists prim own p, c.Exact head) ↔
          ((q.persists prim own p).isSome → QueryCounts c own q p) := by
        cases hpersists : q.persists prim own p with
        | none => simp
        | some head => simp [persists_exact_iff hstart hq hpersists]
      simp only [persistedHeads, AllCount, List.forall_mem_append, Option.mem_toList]
      rw [← hcall]
      exact and_congr_right fun hexact => ih hqs (next_tally hstart hexact)

end L2Chain

/-! ### A mint that comes in during a cold start -/

namespace L2Chain

/-- Blocks with these bodies, each on the one before. -/
def blocksOf (prim : Primitives) (body : ℕ → List L2Tx) (ledger : ℕ → LedgerState) : ℕ → L2Block
  | 0 => genesis prim H256.zero 0 0 firstAnchor none none
  | n + 1 =>
      let parent := blocksOf prim body ledger n
      { header :=
          { parent.header with
            height := parent.header.height + 1
            prevHash := parent.hash prim
            txsRoot := computeTxsRoot prim (body (n + 1))
            stateRoot := (ledger (n + 1)).stateRoot prim
            anchorOutpoint := none }
        txs := body (n + 1) }

theorem replay_thousandMint (prim : Primitives) :
    LedgerState.new.replay prim [.mint thousandMint] =
      .ok (LedgerState.new.minted thousandMint) := by
  have hok : LedgerState.new.TxOk prim (.mint thousandMint) :=
    ⟨by decide, Std.ExtTreeSet.not_mem_empty⟩
  refine replayFrom_ok_iff.mpr ⟨⟨hok, trivial⟩, ?_⟩
  rw [applyAll_cons_ok hok]
  rfl

/-- A chain of empty blocks but for the second, which mints. -/
def secondMints (prim : Primitives) : L2Chain prim where
  fee := none
  block := blocksOf prim (fun n => if n = 2 then [.mint thousandMint] else [])
    fun n => if n < 2 then LedgerState.new else LedgerState.new.minted thousandMint
  ledger n := if n < 2 then LedgerState.new else LedgerState.new.minted thousandMint
  start := rfl
  step n := by
    match n with
    | 0 => rfl
    | 1 => exact replay_thousandMint prim
    | n + 2 => rfl

/-- What is attested of a block. -/
def attestationOf (prim : Primitives) (b : L2Block) : Attestation :=
  .new b.header.height (b.hash prim) b.header.stateRoot

/-- A cold start when the first block has been attested; the node has come to height `n` by the time
it is asked for the total. -/
def coldCall (prim : Primitives) (n : UInt32) : Query where
  fuel := 2
  stages :=
    let c := secondMints prim
    let l1 := attestingOnce (attestationOf prim (c.block 1))
    ⟨c.nodeAt 1, l1, c.nodeAt 1, l1, c.nodeAt n, c.nodeAt n⟩
  addr := none
  reloads := true

theorem coldCall_honest (prim : Primitives) (n : UInt32) :
    ∀ q ∈ [coldCall prim n], (secondMints prim).QueryHonest q := by
  simp only [List.mem_singleton, forall_eq]
  exact ⟨nodeAt_honest _ _, nodeAt_honest _ _, nodeAt_honest _ _⟩

/-- The head of a cold start at the first block. -/
def firstBlockHead (prim : Primitives) (own : L2Address) : VerifiedHead :=
  coldHead own (LedgerState.new.balanceResponse prim 1 own 0)
    LedgerState.new.consumedNullifiers.toList
    (attestedHead prim ((secondMints prim).block 0) firstAnchor
      [⟨attestationOf prim ((secondMints prim).block 1), 5, ⟨firstAttestation, 1⟩⟩])

theorem coldStart_firstBlock (prim : Primitives) (own : L2Address) :
    ColdStart prim 2 ((secondMints prim).nodeAt 1)
      (attestingOnce (attestationOf prim ((secondMints prim).block 1))) own
      (LedgerState.new.balanceResponse prim 1 own 0) LedgerState.new.consumedNullifiers.toList
      (attestedHead prim ((secondMints prim).block 0) firstAnchor
        [⟨attestationOf prim ((secondMints prim).block 1), 5, ⟨firstAttestation, 1⟩⟩]) where
  walk := ⟨_, firstAnchor, _, rfl, rfl, attestingOnce_walk rfl, rfl⟩
  balance := rfl
  nullifiers := rfl
  stateRoot := rfl
  l2Height := rfl
  address := rfl
  components := rfl
  proof := LedgerState.new.verify_accountInclusionProof own
  leaf := by
    simp only [balanceResponse, leaf_accountInclusionProof, values_leaves]
  nullifiersHash := by
    rw [nullifierSet_toList]
    rfl

/-- That head with the total at height `n`. -/
def toppedUpAt (prim : Primitives) (own : L2Address) (n : UInt32) : VerifiedHead :=
  { firstBlockHead prim own with
    totalMintedAtoms := ((secondMints prim).ledger n.toNat).totalMintedAtoms }

theorem coldCall_persists (prim : Primitives) (n : UInt32) (own : L2Address) :
    (coldCall prim n).persists prim own none = some (toppedUpAt prim own n) := by
  have hstart : startHead prim 2 ((secondMints prim).nodeAt 1)
      (attestingOnce (attestationOf prim ((secondMints prim).block 1))) own none
      = .ok (firstBlockHead prim own, .coldStart) := by
    rw [startHead, bootstrap_ok_iff.mpr ⟨_, _, _, coldStart_firstBlock prim own, rfl⟩]
    rfl
  have hwalk : walkForward prim 2 (firstBlockHead prim own) ((secondMints prim).nodeAt 1)
      (attestingOnce (attestationOf prim ((secondMints prim).block 1)))
      = .ok (firstBlockHead prim own, 0, []) := by
    have hrest : walkAttestationChain
      (attestingOnce (attestationOf prim ((secondMints prim).block 1))) 2
        (firstBlockHead prim own).anchorOutpoint = .ok [] := attestingOnce_rest _
    rw [walkForward, hrest]
    rfl
  have hheight : (0 : UInt32) < 1 := by decide
  have htop : topUp ((secondMints prim).nodeAt n) own (firstBlockHead prim own)
      = .ok (toppedUpAt prim own n) := by
    rw [topUp, if_pos ⟨rfl, hheight⟩]
    rfl
  have hread : readBalance prim ((secondMints prim).nodeAt n) own own (toppedUpAt prim own n)
      = .ok (balanceFrom (toppedUpAt prim own n) own) := by
    rw [readBalance, if_pos rfl]
    rfl
  have hrun : ∃ r, lightBalanceOver prim 2 (coldCall prim n).stages own none none = .ok r ∧
      r.head = toppedUpAt prim own n :=
    ⟨_, lightBalanceOver_ok_iff.mpr
      ⟨rfl, _, _, _, _, _, _, _, _, hstart, hwalk, htop, hread, rfl⟩, rfl⟩
  obtain ⟨r, hr, hhead⟩ := hrun
  exact Option.map_eq_some_iff.mpr ⟨r, toOption_eq_some_iff.mpr hr, hhead⟩

theorem coldCall_heads (prim : Primitives) (n : UInt32) (own : L2Address) :
    persistedHeads prim own none [coldCall prim n] = [toppedUpAt prim own n] := by
  rw [persistedHeads, coldCall_persists]
  rfl

/-- The node has the second block by the time it is asked for the total: the head at height 1 has
the mint of block 2. -/
theorem persistedHeads_countsTwice :
    let c := secondMints Primitives.counting
    let own : L2Address := ⟨ByteArr.ofNat 32 2⟩
    (∀ q ∈ [coldCall Primitives.counting 2], c.QueryHonest q) ∧
    ∃ head, persistedHeads Primitives.counting own none [coldCall Primitives.counting 2] = [head] ∧
      head.l2Height = 1 ∧ head.totalMintedAtoms = 1000 ∧ c.minted 1 = 0 ∧ ¬ c.Exact head := by
  intro c own
  have htotal : (toppedUpAt Primitives.counting own 2).totalMintedAtoms = 1000 := by decide +kernel
  have hminted : c.minted 1 = 0 := rfl
  refine ⟨coldCall_honest _ 2, _, coldCall_heads _ 2 own, rfl, htotal, hminted, fun hexact => ?_⟩
  have hsame : (toppedUpAt Primitives.counting own 2).totalMintedAtoms.toNat = c.minted 1 := hexact
  rw [htotal, hminted] at hsame
  cases hsame

/-- The call starts at the attested block, and walks no further. -/
theorem coldCall_startsAt (prim : Primitives) (n : UInt32) :
    (coldCall prim n).startsAt prim none = some (1, ⟨firstAttestation, 1⟩) := by
  have hgenesis :
    (coldCall prim n).stages.coldStart.getBlock 0 = some ((secondMints prim).block 0) := rfl
  have hanchor : ((secondMints prim).block 0).header.anchorOutpoint = some firstAnchor := rfl
  have hchain : walkAttestationChain (coldCall prim n).stages.coldStartL1
    (coldCall prim n).fuel firstAnchor
      = .ok [⟨attestationOf prim ((secondMints prim).block 1), 5, ⟨firstAttestation, 1⟩⟩] :=
    attestingOnce_walk rfl
  simp only [Query.startsAt, hgenesis, hanchor, hchain, Except.toOption, Option.bind_eq_bind,
    Option.bind_some]
  rfl

theorem coldCall_walkedTo (prim : Primitives) (n : UInt32) :
    walkedTo (coldCall prim n).fuel (coldCall prim n).stages.walkL1 1 ⟨firstAttestation, 1⟩ =
      1 := by
  have hrest : walkAttestationChain (coldCall prim n).stages.walkL1 (coldCall prim n).fuel
      ⟨firstAttestation, 1⟩ = .ok [] := attestingOnce_rest _
  rw [walkedTo, hrest]
  rfl

/-- The node is still at the first block then. -/
theorem persistedHeads_exact_unminted :
    let c := secondMints Primitives.counting
    let own : L2Address := ⟨ByteArr.ofNat 32 2⟩
    ∃ head, persistedHeads Primitives.counting own none [coldCall Primitives.counting 1] = [head] ∧
      c.Exact head := by
  intro c own
  have hcounts : AllCount c own none [coldCall Primitives.counting 1] := by
    refine ⟨fun _ start anchor hat => ?_, trivial⟩
    rw [coldCall_startsAt, Option.some.injEq, Prod.mk.injEq] at hat
    obtain ⟨rfl, rfl⟩ := hat
    rw [coldCall_walkedTo]
    have hminted : c.minted 1 = 0 := rfl
    refine ⟨?_, fun _ hbefore => absurd hminted hbefore, fun _ _ _ bal hbal => ?_⟩
    · show c.minted 1 < 2 ^ 64
      rw [hminted]
      omega
    · obtain rfl := Option.some.inj hbal
      rfl
  have hexact := (persistedHeads_exact_iff c own (by simp) (coldCall_honest _ 1)).mpr hcounts
  rw [coldCall_heads] at hexact
  exact ⟨_, coldCall_heads _ 1 own, hexact _ List.mem_cons_self⟩

end L2Chain

end Hodlchain
