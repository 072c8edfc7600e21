/-
A receipt is honoured.

The block that takes a transaction is the one whose call drains it from the mempool; the
block a receipt promises is the one after the head that is read later.  When a call is
running in between, these are two blocks: it has drained the mempool, and it sets the
head only at its end.
-/
import Hodlchain.Sequencer.Honest
import Hodlchain.Sequencer.Interleaving
import Hodlchain.Sequencer.Nullifiers

namespace Hodlchain.Sequencer

open LedgerState

section

variable (prim : Primitives)

/-! ### What a call does with what it has drained -/

/-- The body a call builds on a ledger. -/
def Job.body (prior : LedgerState) (job : Job) : List L2Tx :=
  Sequencer.body prim job.env.view prior job.mints job.transfers

/-- The mints that verify again have the events they were submitted with. -/
def Job.Rederives (job : Job) : Prop :=
  ∀ i entry tx, job.mints[i]? = some entry →
    freshMint prim (job.env.view i) entry = .ok tx → tx = .mint entry

/-! ### The promise -/

/-- The rows of a block are written. -/
def WritesSucceed : Event → Daemon → Prop
  | .build, d => ∀ job block witness, d.build = .swapped job block witness →
      ∃ app, writeRows job block witness d.app = (.ok (), app)
  | _, _ => True

/-- No receipt is signed while the call that runs has not drained its transaction; mints are
re-derived as they were submitted; and the heights have not come to their end. -/
def Timely : Event → Daemon → Prop
  | .request i _, d => ∀ o, d.requests[i]? = some (.signing o) →
      (d.build ≠ .idle → o.batch < d.drained) ∧ d.app.shared.head.height.toNat + 1 < 2 ^ 32
  | .build, d => (∀ job, d.build = .drained job → job.Rederives prim) ∧
      d.app.shared.head.height.toNat + 1 < 2 ^ 32
  | _, _ => True

end

section

variable {prim : Primitives} {job : Job} {prior : LedgerState} {tx : L2Tx}

end

/-! ### Heights -/

section

variable (prim : Primitives)

/-- Where a call is, in heights: the block it builds is the one after the head. -/
def Stage.Fits (base heads : Nat) (bodies : List (List L2Tx)) (store : Store) : Stage → Prop
  | .idle => bodies.length = heads
  | .drained _ => bodies.length = heads
  | .built job _ _ _ => bodies.length = heads ∧ job.Rederives prim
  | .ready job _ block _ => bodies.length = heads ∧ job.Rederives prim ∧
      block.header.height.toNat = base + heads + 1
  | .swapped _ block _ => bodies.length = heads + 1 ∧ bodies[heads]? = some block.txs ∧
      block.header.height.toNat = base + heads + 1
  | .written block => bodies.length = heads + 1 ∧ bodies[heads]? = some block.txs ∧
      block.header.height.toNat = base + heads + 1 ∧
      store.getBlock block.header.height = some block

/-- Batches, heads and heights go together. -/
structure OnTime (base : Nat) (d : Daemon) : Prop where
  head : d.app.shared.head.height.toNat = base + d.heads
  fits : d.build.Fits prim base d.heads d.bodies d.app.store
  /-- The body of a batch is in the block of its height. -/
  stored : ∀ k body, k < d.heads → d.bodies[k]? = some body → ∃ height block,
    d.app.store.getBlock height = some block ∧ height.toNat = base + k + 1 ∧ block.txs = body
  /-- A body was built from what was pushed for its batch. -/
  built : ∀ k body, d.bodies[k]? = some body → ∃ (job : Job) (prior : LedgerState),
    job.Rederives prim ∧
    (∀ tx, job.Holds tx ↔ d.Offered k tx) ∧ body = job.body prim prior
  /-- A receipt names a height that is not below the one of the batch. -/
  receipts : ∀ i o softConf heads, d.receipt? i = some (o, softConf, heads) →
    softConf.txHash = o.tx.hash prim ∧ softConf.targetL2Height.toNat = base + heads + 1 ∧
      o.batch ≤ heads

end

section

variable {prim : Primitives} {d d' : Daemon} {e : Event} {base : Nat} {start : LedgerState}

theorem Stage.Fits.le {heads : Nat} {bodies : List (List L2Tx)} {store : Store} {stage : Stage}
    (h : stage.Fits prim base heads bodies store) : heads ≤ bodies.length := by
  cases stage with
  | idle => exact Nat.le_of_eq h.symm
  | drained => exact Nat.le_of_eq h.symm
  | built => exact Nat.le_of_eq h.1.symm
  | ready => exact Nat.le_of_eq h.1.symm
  | swapped => exact h.1 ▸ Nat.le_succ _
  | written => exact h.1 ▸ Nat.le_succ _

/-- While a call runs, the mempool is one batch ahead of the head. -/
theorem OnTime.drained (h : OnTime prim base d) :
    (d.build = .idle → d.drained = d.heads) ∧ (d.build ≠ .idle → d.drained = d.heads + 1) := by
  have hfits := h.fits
  unfold Daemon.drained
  cases hbuild : d.build with
  | idle =>
      rw [hbuild] at hfits
      exact ⟨fun _ => hfits, fun hne => absurd rfl hne⟩
  | drained job =>
      rw [hbuild] at hfits
      exact ⟨nofun, fun _ => congrArg (· + 1) hfits⟩
  | built job prior state txs =>
      rw [hbuild] at hfits
      exact ⟨nofun, fun _ => congrArg (· + 1) hfits.1⟩
  | ready job state block witness =>
      rw [hbuild] at hfits
      exact ⟨nofun, fun _ => congrArg (· + 1) hfits.1⟩
  | swapped job block witness =>
      rw [hbuild] at hfits
      exact ⟨nofun, fun _ => hfits.1⟩
  | written block =>
      rw [hbuild] at hfits
      exact ⟨nofun, fun _ => hfits.1⟩

/-- An event that only serves a request, and signs nothing. -/
theorem OnTime.serve (h : OnTime prim base d)
    (hshared : d'.app.shared.head = d.app.shared.head) (hstore : d'.app.store = d.app.store)
    (hbuild : d'.build = d.build) (hbodies : d'.bodies = d.bodies) (hheads : d'.heads = d.heads)
    (hoffered : ∀ k tx, k < d.bodies.length → (d'.Offered k tx ↔ d.Offered k tx))
    (hreceipt : ∀ i, d'.receipt? i = d.receipt? i) : OnTime prim base d' := by
  refine ⟨?_, ?_, ?_, ?_, ?_⟩
  · rw [hshared, hheads]
    exact h.head
  · rw [hbuild, hbodies, hheads, hstore]
    exact h.fits
  · rw [hbodies, hheads, hstore]
    exact h.stored
  · intro k body hbody
    rw [hbodies] at hbody
    obtain ⟨job, prior, hrederives, hholds, hbuilt⟩ := h.built k body hbody
    have hlt := (List.getElem?_eq_some_iff.mp hbody).1
    exact ⟨job, prior, hrederives, fun tx => (hholds tx).trans (hoffered k tx hlt).symm, hbuilt⟩
  · intro i o softConf heads hi
    rw [hreceipt] at hi
    exact h.receipts i o softConf heads hi

/-- A receipt, with no call running or after the drain. -/
theorem OnTime.sign (h : OnTime prim base d) (hwaiting : Waiting d) {i : Nat} {now : UInt64}
    {o : Offer} (hi : d.requests[i]? = some (.signing o))
    (htimely : Timely prim (.request i now) d) :
    OnTime prim base { d with
      requests := d.requests.set i
        (.accepted o (signSoftConf prim d.app.shared (o.tx.hash prim) now) d.heads) } := by
  obtain ⟨hdrained, hheight⟩ := htimely o hi
  have ho : d.offer? i = some o := Daemon.offer?_of_request hi rfl
  have hbatch : o.batch ≤ d.heads := by
    have hle := hwaiting.batch i o ho
    by_cases hidle : d.build = .idle
    · rw [h.drained.1 hidle] at hle
      exact hle
    · have hlt := hdrained hidle
      rw [h.drained.2 hidle] at hlt
      exact Nat.le_of_lt_succ hlt
  have hoffer := @bind_getElem?_set_eq _ _ _ Request.offer? _ _ hi
    (.accepted o (signSoftConf prim d.app.shared (o.tx.hash prim) now) d.heads) rfl
  refine { h with built := fun k body hbody => ?_, receipts := fun j o' softConf heads hj => ?_ }
  · obtain ⟨job, prior, hrederives, hholds, hbuilt⟩ := h.built k body hbody
    refine ⟨job, prior, hrederives, fun tx => (hholds tx).trans ?_, hbuilt⟩
    unfold Daemon.Offered Daemon.offer?
    simp only [hoffer]
  · have hreceipt := bind_getElem?_set Request.receipt? hi
      (.accepted o (signSoftConf prim d.app.shared (o.tx.hash prim) now) d.heads) j
    unfold Daemon.receipt? at hj
    rw [hreceipt] at hj
    by_cases hij : i = j
    · rw [if_pos hij] at hj
      obtain ⟨rfl, rfl, rfl⟩ : o = o' ∧ _ = softConf ∧ d.heads = heads := by
        simpa only [Request.receipt?, Option.some.injEq, Prod.mk.injEq] using hj
      refine ⟨rfl, ?_, hbatch⟩
      have hnext : (d.app.shared.head.height + 1).toNat = d.app.shared.head.height.toNat + 1 := by
        rw [UInt32.toNat_add]
        exact Nat.mod_eq_of_lt hheight
      exact hnext.trans (congrArg (· + 1) h.head)
    · rw [if_neg hij] at hj
      exact h.receipts j o' softConf heads hj

theorem OnTime.step (h : OnTime prim base d) (hledgers : Ledgers prim start d)
    (hwaiting : Waiting d) (hwrites : WritesSucceed e d) (htimely : Timely prim e d)
    (hmoves : Moves prim d e d') : OnTime prim base d' := by
  have hfits := h.fits
  have hkept : (∀ j, d'.offer? j = d.offer? j) → ∀ k tx, d'.Offered k tx ↔ d.Offered k tx := by
    intro hoffer k tx
    unfold Daemon.Offered
    simp only [hoffer]
  cases hmoves with
  | none => exact h
  | arrive r hr =>
      have hoffered := hkept (bind_getElem?_append Request.offer? hr)
      exact h.serve rfl rfl rfl rfl rfl (fun k tx _ => hoffered k tx)
        (bind_getElem?_append Request.receipt? (r.receipt?_eq_none hr))
  | refuse text hi hr =>
      have hoffered := hkept (bind_getElem?_set_eq Request.offer? hi hr.symm)
      exact h.serve rfl rfl rfl rfl rfl (fun k tx _ => hoffered k tx)
        (bind_getElem?_set_eq Request.receipt? hi (Request.receipt?_eq_none hr).symm)
  | check hi =>
      have hoffered := hkept (bind_getElem?_set_eq Request.offer? hi rfl)
      exact h.serve rfl rfl rfl rfl rfl (fun k tx _ => hoffered k tx)
        (bind_getElem?_set_eq Request.receipt? hi rfl)
  | push hi hpush =>
      refine h.serve rfl rfl rfl rfl rfl (fun k tx hk => ?_)
        (bind_getElem?_set_eq Request.receipt? hi rfl)
      -- the new offer is for a later batch
      have hne : k ≠ d.drained := by
        unfold Daemon.drained
        omega
      exact (Daemon.offered_push hi).trans (or_iff_left fun hnew => hne hnew.1)
  | sign hi => exact h.sign hwaiting hi htimely
  | drain hidle htip =>
      rw [hidle] at hfits
      exact { h with fits := hfits }
  | build hbuild =>
      rw [hbuild] at hfits
      exact { h with fits := ⟨hfits, htimely.1 _ hbuild⟩ }
  | readHead hbuild =>
      rw [hbuild] at hfits
      refine { h with fits := ⟨hfits.1, hfits.2, ?_⟩ }
      have hnext : (d.app.shared.head.height + 1).toNat = d.app.shared.head.height.toNat + 1 := by
        rw [UInt32.toNat_add]
        exact Nat.mod_eq_of_lt htimely.2
      exact hnext.trans (congrArg (· + 1) h.head)
  | @swap job state block witness hbuild =>
      rw [hbuild] at hfits
      obtain ⟨hlength, hrederives, hheight⟩ := hfits
      have hfollows := hledgers.follows
      rw [hbuild] at hfollows
      refine { h with fits := ⟨?_, ?_, hheight⟩, stored := ?_, built := ?_ }
      · rw [List.length_append, hlength]
        rfl
      · rw [← hlength]
        exact List.getElem?_concat_length
      · intro k body hk hbody
        have hk' : k < d.bodies.length := by
          rw [hlength]
          exact hk
        rw [List.getElem?_append_left hk'] at hbody
        exact h.stored k body hk hbody
      · intro k body hbody
        by_cases hk : k < d.bodies.length
        · rw [List.getElem?_append_left hk] at hbody
          exact h.built k body hbody
        · have hlt := (List.getElem?_eq_some_iff.mp hbody).1
          rw [List.length_append, List.length_singleton] at hlt
          obtain rfl : k = d.bodies.length := by omega
          rw [List.getElem?_concat_length] at hbody
          obtain rfl := Option.some.inj hbody
          have hjob : d.build.job? = some job := by
            rw [hbuild]
            rfl
          exact ⟨job, d.app.shared.state, hrederives, hwaiting.job job hjob, hfollows.1⟩
  | @write job block witness _ hbuild hrun =>
      rw [hbuild] at hfits
      obtain ⟨hlength, hbody, hheight⟩ := hfits
      obtain ⟨hfree, rfl⟩ := writeRows_ok hrun
      refine { h with fits := ⟨hlength, hbody, hheight, ?_⟩, stored := fun k body hk hb => ?_ }
      · exact (Store.getBlock_insertBlock d.app.store block d.app.shared.state witness _).trans
          (if_pos rfl)
      · obtain ⟨height, old, hold, hrest⟩ := h.stored k body hk hb
        exact ⟨height, old, Store.getBlock_insertBlock_of_some hold hfree
          d.app.shared.state witness, hrest⟩
  | fail hbuild hrun =>
      obtain ⟨app, hok⟩ := hwrites _ _ _ hbuild
      rw [hok] at hrun
      cases hrun
  | @setHead block hbuild =>
      rw [hbuild] at hfits
      obtain ⟨hlength, hbody, hheight, hblock⟩ := hfits
      refine { h with head := hheight, fits := hlength, stored := fun k body hk hb => ?_ }
      by_cases hlast : k = d.heads
      · rw [hlast, hbody] at hb
        exact ⟨_, block, hblock, hlast ▸ hheight, Option.some.inj hb⟩
      · have hlt : k < d.heads + 1 := hk
        exact h.stored k body (Nat.lt_of_le_of_ne (Nat.le_of_lt_succ hlt) hlast) hb

end

/-! ### A mint, and the block that is being built -/

end Hodlchain.Sequencer
