/-
Recovery of the attestation chain from an L1 reorg.

The attestations not yet final form a chain of anchors.  A reorg takes a tail of it
away, since what spends an output that is gone is gone too.  `monitorPending` goes
back to the anchor that the last missing attestation spent; that anchor exists when
the last missing one is also the first.
-/
import Hodlchain.Sequencer.Rows

namespace Hodlchain.Sequencer

/-! ### Chains of attestations -/

/-- Each attestation spends what the one before it created, from one anchor to another. -/
def Chained : OutPoint → List PendingAttestation → OutPoint → Prop
  | start, [], anchor => start = anchor
  | start, p :: ps, anchor => p.spentAnchor = start ∧ Chained p.newAnchor ps anchor

/-- An attestation past reorg risk. -/
def AttestationStatus.isFinal : AttestationStatus → Bool
  | .confirmed confirmations _ => confirmations ≥ reorgFinalityDepth
  | _ => false

section

variable (status : Txid → Option AttestationStatus)

def gone (p : PendingAttestation) : Bool := status p.txid = some .missing

def final (p : PendingAttestation) : Bool := (status p.txid).any AttestationStatus.isFinal

/-- What bitcoind answers about a chain of attestations, and the outpoints that exist on L1: an
attestation is missing when what it created does not exist, it exists only if what it spent does,
and it has at most the confirmations of those before it. -/
structure ConsistentWith (onL1 : OutPoint → Prop) (start : OutPoint)
    (pending : List PendingAttestation) : Prop where
  start : onL1 start
  created : ∀ p ∈ pending, onL1 p.newAnchor ↔ gone status p = false
  spent : ∀ p ∈ pending, gone status p = false → onL1 p.spentAnchor
  confirmed : pending.Pairwise fun p q => final status q = true → final status p = true

/-- The stored anchor is the one the earliest missing attestation spent, or as before if none is
missing; it exists on L1; and the attestations still followed form a chain that ends there. -/
structure Recovered (onL1 : OutPoint → Prop) (app app' : AppState) : Prop where
  anchor : app'.store.anchor = match app.store.pendingAttestations.find? (gone status) with
    | none => app.store.anchor
    | some p => some p.spentAnchor
  onL1 : ∃ anchor, app'.store.anchor = some anchor ∧ onL1 anchor
  chained : ∃ start anchor, app'.store.anchor = some anchor ∧
    Chained start app'.store.pendingAttestations anchor

end

variable {status : Txid → Option AttestationStatus} {onL1 : OutPoint → Prop}
  {start anchor : OutPoint} {pending : List PendingAttestation}

theorem ConsistentWith.tail {p : PendingAttestation}
    (h : ConsistentWith status onL1 start (p :: pending)) (hp : gone status p = false) :
    ConsistentWith status onL1 p.newAnchor pending where
  start := (h.created p (by simp)).mpr hp
  created q hq := h.created q (by simp [hq])
  spent q hq := h.spent q (by simp [hq])
  confirmed := (List.pairwise_cons.mp h.confirmed).2

/-- What comes after an anchor that does not exist is missing. -/
theorem gone_of_chained (hchain : Chained start pending anchor) (hstart : ¬ onL1 start)
    (hcreated : ∀ p ∈ pending, onL1 p.newAnchor ↔ gone status p = false)
    (hspent : ∀ p ∈ pending, gone status p = false → onL1 p.spentAnchor) :
    ∀ p ∈ pending, gone status p = true := by
  induction pending generalizing start with
  | nil => simp
  | cons p pending ih =>
      obtain ⟨rfl, hrest⟩ := hchain
      have hgone : gone status p = true := by
        by_contra hno
        exact hstart (hspent p (by simp) (by simpa using hno))
      have hnext : ¬ onL1 p.newAnchor := fun hon => by
        rw [(hcreated p (by simp)).mp hon] at hgone
        cases hgone
      intro q hq
      rcases List.mem_cons.mp hq with rfl | hin
      · exact hgone
      · exact ih hrest hnext (fun q hq => hcreated q (by simp [hq]))
          (fun q hq => hspent q (by simp [hq])) q hin

/-- The last of several missing attestations spent an anchor that does not exist. -/
theorem not_onL1_last {p last : PendingAttestation} (hchain : Chained start (p :: pending) anchor)
    (hgone : ∀ q ∈ p :: pending, ¬ onL1 q.newAnchor) (hlast : pending.getLast? = some last) :
    ¬ onL1 last.spentAnchor := by
  induction pending generalizing p start with
  | nil => cases hlast
  | cons q pending ih =>
      obtain ⟨rfl, hrest⟩ := hchain
      cases pending with
      | nil =>
          obtain rfl : q = last := by simpa using hlast
          rw [hrest.1]
          exact hgone p (by simp)
      | cons r pending =>
          exact ih hrest (fun r hr => hgone r (by simp [hr])) (by simpa using hlast)

/-- **A reorg takes a tail.**  Either no attestation is missing and the anchor exists, or a first
one is, it spent an anchor that exists, and all after it are missing too. -/
theorem ConsistentWith.split (h : ConsistentWith status onL1 start pending)
    (hchain : Chained start pending anchor) :
    ((∀ p ∈ pending, gone status p = false) ∧ onL1 anchor) ∨
    ∃ alive first lost, pending = alive ++ first :: lost ∧ (∀ p ∈ alive, gone status p = false) ∧
      (∀ p ∈ first :: lost, gone status p = true) ∧ onL1 first.spentAnchor ∧
      Chained start alive first.spentAnchor ∧ Chained first.spentAnchor (first :: lost) anchor := by
  induction pending generalizing start with
  | nil =>
      obtain rfl : start = anchor := hchain
      exact .inl ⟨by simp, h.start⟩
  | cons p pending ih =>
      obtain ⟨rfl, hrest⟩ := hchain
      by_cases hp : gone status p = true
      · have hnext : ¬ onL1 p.newAnchor := fun hon => by
          rw [(h.created p (by simp)).mp hon] at hp
          cases hp
        have hlost := gone_of_chained hrest hnext (fun q hq => h.created q (by simp [hq]))
          (fun q hq => h.spent q (by simp [hq]))
        refine .inr ⟨[], p, pending, rfl, by simp, fun q hq => ?_, h.start, rfl, rfl, hrest⟩
        rcases List.mem_cons.mp hq with rfl | hin
        · exact hp
        · exact hlost q hin
      · have hp : gone status p = false := by simpa using hp
        rcases ih (h.tail hp) hrest with ⟨hall, hanchor⟩ | ⟨alive, first, lost, rfl, halive, hlost⟩
        · refine .inl ⟨fun q hq => ?_, hanchor⟩
          rcases List.mem_cons.mp hq with rfl | hin
          · exact hp
          · exact hall q hin
        · obtain ⟨hgone, hon, hfront, hback⟩ := hlost
          refine .inr ⟨p :: alive, first, lost, rfl, fun q hq => ?_, hgone, hon, ⟨rfl, hfront⟩,
            hback⟩
          rcases List.mem_cons.mp hq with rfl | hin
          · exact hp
          · exact halive q hin

/-- Without the final ones at its start, a chain is still a chain. -/
theorem chained_filter (hchain : Chained start pending anchor)
    (hconfirmed : pending.Pairwise fun p q => final status q = true → final status p = true) :
    ∃ start', Chained start' (pending.filter fun p => !final status p) anchor := by
  induction pending generalizing start with
  | nil => exact ⟨start, hchain⟩
  | cons p pending ih =>
      obtain ⟨hfirst, hrest⟩ := List.pairwise_cons.mp hconfirmed
      by_cases hp : final status p = true
      · rw [List.filter_cons_of_neg (by simp [hp])]
        exact ih hchain.2 hrest
      · -- nothing after it is final either
        have hall : ∀ q ∈ p :: pending, (!final status q) = true := by
          intro q hq
          rcases List.mem_cons.mp hq with rfl | hin
          · simpa using hp
          · simpa using mt (hfirst q hin) hp
        exact ⟨start, by rw [List.filter_eq_self.mpr hall]; exact hchain⟩

/-! ### A round of monitoring -/

theorem monitorLoop_ok {acc acc' : MonitorAcc} (h : monitorLoop status acc pending = .ok acc') :
    acc'.surviving = acc.surviving
        ++ pending.filter (fun p => !final status p && !gone status p) ∧
      acc'.anchorToRevert
        = ((pending.filter (gone status)).getLast?.map (·.spentAnchor)).or acc.anchorToRevert := by
  induction pending generalizing acc with
  | nil =>
      obtain rfl : acc = acc' := Except.ok.inj h
      simp
  | cons p pending ih =>
      rw [monitorLoop] at h
      cases hstatus : status p.txid with
      | none =>
          rw [hstatus] at h
          cases h
      | some st =>
          rw [hstatus] at h
          obtain ⟨hsurviving, hrevert⟩ := ih h
          rw [hsurviving, hrevert]
          cases st with
          | mempool =>
              simp [monitorEntry, final, gone, hstatus, AttestationStatus.isFinal]
          | reorged =>
              simp [monitorEntry, final, gone, hstatus, AttestationStatus.isFinal]
          | missing =>
              have hgone : gone status p = true := by simp [gone, hstatus]
              refine ⟨by simp [monitorEntry, hgone], ?_⟩
              rw [List.filter_cons_of_pos hgone, List.getLast?_cons]
              cases (pending.filter (gone status)).getLast? <;> rfl
          | confirmed confirmations blockHeight =>
              have hgone : gone status p = false := by simp [gone, hstatus]
              have hfinal : final status p = decide (reorgFinalityDepth ≤ confirmations) := by
                simp [final, hstatus, AttestationStatus.isFinal]
              have hrest : (p :: pending).filter (gone status) = pending.filter (gone status) :=
                List.filter_cons_of_neg (by simp [hgone])
              rw [hrest]
              by_cases hdeep : reorgFinalityDepth ≤ confirmations
              · rw [List.filter_cons_of_neg (by simp [hfinal, hdeep])]
                simp only [monitorEntry, ge_iff_le, if_pos hdeep]
                exact ⟨trivial, trivial⟩
              · rw [List.filter_cons_of_pos (by simp [hfinal, hdeep, hgone])]
                simp only [monitorEntry, ge_iff_le, if_neg hdeep, List.append_assoc,
                  List.singleton_append]
                exact ⟨trivial, trivial⟩

theorem setStore_ok {faults : StoreCall → Option Fault} {site : StoreCall} {f : Store → Store}
    {app app' : AppState} (h : setStore faults site f app = (.ok (), app')) :
    app' = { app with store := f app.store } := by
  simp only [setStore, Action.bind_run, storeCall_run] at h
  cases hfault : faults site with
  | none =>
      rw [hfault] at h
      exact (Prod.mk.inj h).2.symm
  | some fault =>
      rw [hfault] at h
      cases (Prod.mk.inj h).1

theorem storeCall_ok {faults : StoreCall → Option Fault} {site : StoreCall} {app app' : AppState}
    (h : storeCall faults site app = (.ok (), app')) : app' = app := by
  rw [storeCall_run] at h
  cases hfault : faults site with
  | none =>
      rw [hfault] at h
      exact (Prod.mk.inj h).2.symm
  | some fault =>
      rw [hfault] at h
      cases (Prod.mk.inj h).1

/-- What a round leaves in the store. -/
theorem monitorPending_ok {env : MonitorEnv} {app app' : AppState}
    (h : monitorPending env app = (.ok (), app')) :
    app'.store.pendingAttestations = app.store.pendingAttestations.filter
        (fun p => !final env.status p && !gone env.status p) ∧
      app'.store.anchor
        = match (app.store.pendingAttestations.filter (gone env.status)).getLast? with
          | none => app.store.anchor
          | some p => some p.spentAnchor := by
  obtain ⟨_, app₁, hread, hrest⟩ := Action.bind_ok_iff.mp h
  obtain rfl : app₁ = app := storeCall_ok hread
  rw [Action.bind_run_ok (Action.get_run _)] at hrest
  dsimp only at hrest
  by_cases hnone : app₁.store.pendingAttestations = []
  · rw [if_pos hnone] at hrest
    obtain ⟨-, rfl⟩ := Prod.mk.inj hrest
    rw [hnone]
    exact ⟨rfl, rfl⟩
  · rw [if_neg hnone] at hrest
    obtain ⟨acc, app₂, hloop, hstores⟩ := Action.bind_ok_iff.mp hrest
    obtain ⟨hacc, rfl⟩ := Prod.mk.inj hloop
    obtain ⟨hsurviving, hrevert⟩ := monitorLoop_ok (mapErr_ok_iff.mp hacc)
    rw [List.nil_append] at hsurviving
    rw [Option.or_none] at hrevert
    obtain ⟨_, app₂, hpending, hanchor⟩ := Action.bind_ok_iff.mp hstores
    obtain rfl := setStore_ok hpending
    cases hlast : (app₁.store.pendingAttestations.filter (gone env.status)).getLast? with
    | none =>
        rw [hlast, Option.map_none] at hrevert
        rw [hrevert] at hanchor
        obtain ⟨-, rfl⟩ := Prod.mk.inj hanchor
        exact ⟨hsurviving, rfl⟩
    | some p =>
        rw [hlast, Option.map_some] at hrevert
        rw [hrevert] at hanchor
        obtain ⟨_, app₂, hset, hrewind⟩ := Action.bind_ok_iff.mp hanchor
        obtain rfl := setStore_ok hset
        obtain ⟨_, app₂, hread', hrewind⟩ := Action.bind_ok_iff.mp hrewind
        obtain rfl := storeCall_ok hread'
        dsimp only at hrewind
        by_cases hlast : app₁.store.lastAttestedL1Height.getD 0 > 0
        · rw [if_pos hlast] at hrewind
          obtain rfl := setStore_ok hrewind
          exact ⟨hsurviving, rfl⟩
        · rw [if_neg hlast] at hrewind
          obtain ⟨-, rfl⟩ := Prod.mk.inj hrewind
          exact ⟨hsurviving, rfl⟩

/-- The attestations still followed, of some that are not missing. -/
theorem filter_alive (h : ∀ p ∈ pending, gone status p = false) :
    pending.filter (fun p => !final status p && !gone status p)
      = pending.filter fun p => !final status p :=
  List.filter_congr fun p hp => by simp [h p hp]

theorem filter_gone_split {alive lost : List PendingAttestation} {first : PendingAttestation}
    (halive : ∀ p ∈ alive, gone status p = false)
    (hlost : ∀ p ∈ first :: lost, gone status p = true) :
    (alive ++ first :: lost).filter (gone status) = first :: lost ∧
      (alive ++ first :: lost).find? (gone status) = some first ∧
      (alive ++ first :: lost).filter (fun p => !final status p && !gone status p)
        = alive.filter fun p => !final status p := by
  have hnone : alive.filter (gone status) = [] :=
    List.filter_eq_nil_iff.mpr fun p hp => by simp [halive p hp]
  have hrest : (first :: lost).filter (fun p => !final status p && !gone status p) = [] :=
    List.filter_eq_nil_iff.mpr fun p hp => by simp [hlost p hp]
  refine ⟨?_, ?_, ?_⟩
  · rw [List.filter_append, hnone, List.nil_append, List.filter_eq_self.mpr hlost]
  · rw [List.find?_append, List.find?_eq_none.mpr fun p hp => by simp [halive p hp],
      List.find?_cons_of_pos (hlost first (by simp))]
    rfl
  · rw [List.filter_append, hrest, List.append_nil, filter_alive halive]

/-- **Recovery works exactly when one attestation at most is missing.**  For every chain of
attestations that ends at the stored anchor, and all answers about it that are consistent with
L1. -/
theorem monitorPending_recovers_iff {env : MonitorEnv} {app app' : AppState}
    (hanchor : app.store.anchor = some anchor)
    (hchain : Chained start app.store.pendingAttestations anchor)
    (hconsistent : ConsistentWith env.status onL1 start app.store.pendingAttestations)
    (h : monitorPending env app = (.ok (), app')) :
    Recovered env.status onL1 app app' ↔
      (app.store.pendingAttestations.filter (gone env.status)).length ≤ 1 := by
  obtain ⟨hsurviving, hstored⟩ := monitorPending_ok h
  rcases hconsistent.split hchain with
    ⟨hall, hon⟩ | ⟨alive, first, lost, heq, halive, hlost, hsplit⟩
  · -- nothing is missing
    have hnone : app.store.pendingAttestations.filter (gone env.status) = [] :=
      List.filter_eq_nil_iff.mpr fun p hp => by simp [hall p hp]
    rw [hnone, List.getLast?_nil] at hstored
    rw [filter_alive hall] at hsurviving
    obtain ⟨start', hkept⟩ := chained_filter hchain hconsistent.confirmed
    refine iff_of_true ⟨?_, ⟨anchor, hstored.trans hanchor, hon⟩,
      ⟨start', anchor, hstored.trans hanchor, by rw [hsurviving]; exact hkept⟩⟩ (by simp [hnone])
    rw [List.find?_eq_none.mpr fun p hp => by simp [hall p hp]]
    exact hstored
  · obtain ⟨hon, hfront, hback⟩ := hsplit
    obtain ⟨hgone, hfind, hkept⟩ := @filter_gone_split env.status _ _ _ halive hlost
    have hconfirmed := hconsistent.confirmed
    have hcreated := hconsistent.created
    rw [heq] at hsurviving hstored hconfirmed hcreated ⊢
    rw [hgone, List.getLast?_cons] at hstored
    rw [hgone]
    cases hlast : lost.getLast? with
    | none =>
        -- the last missing one is the first
        rw [hlast] at hstored
        obtain rfl := List.getLast?_eq_none_iff.mp hlast
        obtain ⟨start', halive'⟩ := chained_filter hfront (List.pairwise_append.mp hconfirmed).1
        refine iff_of_true ⟨?_, ⟨_, hstored, hon⟩,
          ⟨start', _, hstored, by rw [hsurviving, hkept]; exact halive'⟩⟩ (by simp)
        rw [heq, hfind]
        exact hstored
    | some last =>
        rw [hlast] at hstored
        have hdead : ∀ q ∈ first :: lost, ¬ onL1 q.newAnchor := fun q hq hlive => by
          have hno := (hcreated q (List.mem_append_right _ hq)).mp hlive
          rw [hlost q hq] at hno
          cases hno
        refine iff_of_false (fun hrecovered => ?_) ?_
        · obtain ⟨anchor', heq', hlive⟩ := hrecovered.onL1
          rw [hstored] at heq'
          obtain rfl := Option.some.inj heq'
          exact not_onL1_last hback hdead hlast hlive
        · rintro hle
          have hne : lost ≠ [] := by
            rintro rfl
            cases hlast
          have hpos := List.length_pos_iff.mpr hne
          rw [List.length_cons] at hle
          omega

/-- The anchor that the first attestation spends. -/
def rootAnchor : OutPoint := ⟨⟨ByteArr.ofNat 32 1⟩, 1⟩

/-- The attestation with a transaction id, over an anchor. -/
def attestationOver (txid : Nat) (spentAnchor : OutPoint) : PendingAttestation :=
  ⟨⟨ByteArr.ofNat 32 txid⟩, spentAnchor, ⟨⟨ByteArr.ofNat 32 txid⟩, 1⟩, 1, 1⟩

def firstAttestation : PendingAttestation := attestationOver 2 rootAnchor

def secondAttestation : PendingAttestation := attestationOver 3 firstAttestation.newAnchor

/-- A sequencer that follows these attestations. -/
def following (pending : List PendingAttestation) (anchor : OutPoint) : AppState :=
  ⟨Shared.new LedgerState.new ⟨0, H256.zero, H256.zero, 0, H256.zero⟩ sampleIdentity,
    { Store.empty with anchor := some anchor, pendingAttestations := pending }⟩

/-- Every transaction is missing. -/
def allMissing : MonitorEnv := ⟨fun _ => some .missing, fun _ => none⟩

theorem allMissing_consistent (pending : List PendingAttestation)
    (h : ∀ p ∈ pending, p.newAnchor ≠ rootAnchor) :
    ConsistentWith allMissing.status (· = rootAnchor) rootAnchor pending where
  start := rfl
  created p hp := iff_of_false (h p hp) (by simp [gone, allMissing])
  spent p _ hp := by simp [gone, allMissing] at hp
  confirmed := List.Pairwise.imp (R := fun _ _ => True)
    (fun _ hfinal => by simp [final, allMissing, AttestationStatus.isFinal] at hfinal)
    (List.pairwise_of_forall fun _ _ => trivial)

/-- Two attestations are missing: the anchor becomes the one the first of them created, which is
missing too. -/
theorem monitorPending_two_missing : ∃ app',
    Chained rootAnchor [firstAttestation, secondAttestation] secondAttestation.newAnchor ∧
    ConsistentWith allMissing.status (· = rootAnchor) rootAnchor
      [firstAttestation, secondAttestation] ∧
    monitorPending allMissing
      (following [firstAttestation, secondAttestation] secondAttestation.newAnchor) =
        (.ok (), app') ∧
    app'.store.anchor = some firstAttestation.newAnchor ∧
    firstAttestation.newAnchor ≠ rootAnchor ∧
    ¬ Recovered allMissing.status (· = rootAnchor)
      (following [firstAttestation, secondAttestation] secondAttestation.newAnchor) app' := by
  have hne : ∀ p ∈ [firstAttestation, secondAttestation], p.newAnchor ≠ rootAnchor := by decide
  refine ⟨_, ⟨rfl, rfl, rfl⟩, allMissing_consistent _ hne, rfl, rfl,
    hne firstAttestation (by simp), fun h => ?_⟩
  obtain ⟨anchor, hanchor, hlive⟩ := h.onL1
  exact hne firstAttestation (by simp) ((Option.some.inj hanchor).trans hlive)

/-- One attestation is missing: the anchor goes back to the one it spent. -/
theorem monitorPending_one_missing : ∃ app',
    monitorPending allMissing (following [firstAttestation] firstAttestation.newAnchor)
      = (.ok (), app') ∧
    Recovered allMissing.status (· = rootAnchor)
      (following [firstAttestation] firstAttestation.newAnchor) app' := by
  have hchain : Chained rootAnchor [firstAttestation] firstAttestation.newAnchor := ⟨rfl, rfl⟩
  have hconsistent := allMissing_consistent [firstAttestation] (by decide)
  exact ⟨_, rfl, (monitorPending_recovers_iff rfl hchain hconsistent rfl).mpr (by decide)⟩

end Hodlchain.Sequencer
