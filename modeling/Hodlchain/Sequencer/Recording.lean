/-
A crash while an attestation is being recorded.

Four calls to the store follow a broadcast: the new anchor, the L1 height, the read of
the list of attestations that are followed, and the write of the longer list.  Cut short
before the first, the store knows nothing of the transaction; cut short after it, it has
the new anchor and nothing to follow.  A later round of monitoring goes by the list alone.
-/
import Hodlchain.Sequencer.Honest
import Hodlchain.Sequencer.Reorg

namespace Hodlchain.Sequencer

/-! ### Cut short -/

/-- Where the calls that follow a broadcast are cut short. -/
inductive RecordPoint where
  | unanchored
  | untracked
  | recorded
deriving DecidableEq, Repr

def recordPoint (faults : StoreCall → Option Fault) : RecordPoint :=
  if (faults .setAnchor).isSome then .unanchored
  else if (faults .setLastAttestedL1Height).isSome || (faults .pendingAttestations).isSome
      || (faults .setPendingAttestations).isSome then .untracked
  else .recorded

/-- What the store has of the attestation then. -/
def RecordPoint.Leaves (entry : PendingAttestation) (s s' : Store) : RecordPoint → Prop
  | unanchored => s'.anchor = s.anchor ∧ s'.pendingAttestations = s.pendingAttestations
  | untracked =>
      s'.anchor = some entry.newAnchor ∧ s'.pendingAttestations = s.pendingAttestations
  | recorded =>
      s'.anchor = some entry.newAnchor ∧ s'.pendingAttestations = s.pendingAttestations ++ [entry]

section

variable (prim : Primitives)

/-- A call of `check_and_attest` gets to a broadcast: it has produced its block, which leaves
`mid`, and bitcoind has taken the transaction that spends the stored anchor. -/
structure Broadcasts (env : AttestEnv) (app mid : AppState)
    (entry : PendingAttestation) : Prop where
  due : ∃ last, lastAttested env.faults app = (.ok last, app) ∧ ¬ entry.postedAtL1Height ≤ last
  tip : env.blockCount = some entry.postedAtL1Height
  produced : produceBlock prim env.block app = (.ok (), mid)
  read : env.faults .getAnchor = none
  anchor : mid.store.anchor = some entry.spentAnchor
  posted : env.post (Attestation.new mid.shared.head.height mid.shared.head.blockHash
    mid.shared.head.stateRoot) entry.spentAnchor = some entry.txid
  created : entry.newAnchor = ⟨entry.txid, 1⟩
  l2HeadHeight : entry.l2HeadHeight = mid.shared.head.height

end

variable {prim : Primitives} {env : AttestEnv} {app mid app' : AppState}
  {entry : PendingAttestation} {r : Except Halt Unit}

theorem setStore_run (faults : StoreCall → Option Fault) (site : StoreCall) (f : Store → Store)
    (app : AppState) : setStore faults site f app = match faults site with
      | none => (.ok (), { app with store := f app.store })
      | some fault => (.error (haltOf site fault), app) := by
  unfold setStore
  rw [Action.bind_run, storeCall_run]
  cases faults site <;> rfl

theorem recordAttestation_leaves {faults : StoreCall → Option Fault}
    (hcreated : entry.newAnchor = ⟨entry.txid, 1⟩)
    (h : recordAttestation faults entry.postedAtL1Height entry.l2HeadHeight entry.spentAnchor
      entry.txid app = (r, app')) :
    (recordPoint faults).Leaves entry app.store app'.store := by
  have hentry : PendingAttestation.mk entry.txid entry.spentAnchor ⟨entry.txid, 1⟩
      entry.l2HeadHeight entry.postedAtL1Height = entry := by rw [← hcreated]
  unfold recordAttestation at h
  unfold recordPoint
  simp only [Action.bind_run, setStore_run, storeCall_run] at h
  cases hset : faults .setAnchor with
  | some f =>
      rw [hset] at h
      obtain ⟨-, rfl⟩ := Prod.mk.inj h
      exact ⟨rfl, rfl⟩
  | none =>
      rw [hset] at h
      cases hheight : faults .setLastAttestedL1Height with
      | some f =>
          rw [hheight] at h
          obtain ⟨-, rfl⟩ := Prod.mk.inj h
          exact ⟨by rw [hcreated]; rfl, rfl⟩
      | none =>
          rw [hheight] at h
          cases hread : faults .pendingAttestations with
          | some f =>
              rw [hread] at h
              obtain ⟨-, rfl⟩ := Prod.mk.inj h
              exact ⟨by rw [hcreated]; rfl, rfl⟩
          | none =>
              rw [hread] at h
              simp only [Action.get_run, hentry] at h
              cases hwrite : faults .setPendingAttestations with
              | some f =>
                  rw [hwrite] at h
                  obtain ⟨-, rfl⟩ := Prod.mk.inj h
                  exact ⟨by rw [hcreated]; rfl, rfl⟩
              | none =>
                  rw [hwrite] at h
                  obtain ⟨-, rfl⟩ := Prod.mk.inj h
                  exact ⟨by rw [hcreated]; rfl, rfl⟩

/-- From the broadcast on, a call is the four calls to the store. -/
theorem Broadcasts.checkAndAttest (h : Broadcasts prim env app mid entry) :
    checkAndAttest prim env app = recordAttestation env.faults entry.postedAtL1Height
      entry.l2HeadHeight entry.spentAnchor entry.txid mid := by
  obtain ⟨last, hlast, hdue⟩ := h.due
  unfold Sequencer.checkAndAttest attestHead
  simp only [Action.bind_run, Action.lift_run, h.tip, okOr, hlast, if_neg hdue, h.produced,
    Action.get_run, storeCall_run, h.read, h.anchor, h.posted, h.l2HeadHeight]

/-- Producing a block leaves the anchor and the list alone. -/
theorem Broadcasts.frame (h : Broadcasts prim env app mid entry) :
    mid.store.anchor = app.store.anchor ∧
      mid.store.pendingAttestations = app.store.pendingAttestations := by
  have hends := produceBlock_ends h.produced
  generalize hr : (Except.ok () : Except Halt Unit) = r at hends
  cases hends with
  | noTip => cases hr
  | unwritten => cases hr
  | behind => cases hr
  | done => exact ⟨rfl, rfl⟩

theorem Broadcasts.leaves (h : Broadcasts prim env app mid entry)
    (hrun : Sequencer.checkAndAttest prim env app = (r, app')) :
    (recordPoint env.faults).Leaves entry app.store app'.store := by
  rw [h.checkAndAttest] at hrun
  obtain ⟨hanchor, hpending⟩ := h.frame
  have hleaves := recordAttestation_leaves h.created hrun
  cases hpoint : recordPoint env.faults with
  | unanchored =>
      rw [hpoint] at hleaves
      exact ⟨hleaves.1.trans hanchor, hleaves.2.trans hpending⟩
  | untracked =>
      rw [hpoint] at hleaves
      exact ⟨hleaves.1, hleaves.2.trans hpending⟩
  | recorded =>
      rw [hpoint] at hleaves
      exact ⟨hleaves.1, by rw [hleaves.2, hpending]⟩

/-! ### What L1 carries -/

section

variable (status : Txid → Option AttestationStatus)

/-- The end of the part of a chain that is not missing. -/
def liveEnd : OutPoint → List PendingAttestation → OutPoint
  | start, [] => start
  | start, p :: ps => if gone status p then start else liveEnd p.newAnchor ps

/-- The stored anchor is the end of what L1 carries, where the next attestation can be chained,
and what is carried and not final is followed. -/
structure Tracks (onL1 : OutPoint → Prop) (start : OutPoint) (broadcast : List PendingAttestation)
    (s : Store) : Prop where
  anchor : s.anchor = some (liveEnd status start broadcast)
  onL1 : onL1 (liveEnd status start broadcast)
  pending : ∀ p ∈ broadcast, gone status p = false → final status p = false →
    p ∈ s.pendingAttestations

/-- The crash does no lasting harm, by what L1 has become of the attestation it cut short and of
the earlier ones. -/
def RecordPoint.Harmless (pending : List PendingAttestation) (entry : PendingAttestation) :
    RecordPoint → Prop
  | unanchored => gone status entry = true ∧ (pending.filter (gone status)).length ≤ 1
  | untracked => final status entry = true ∨ (pending.filter (gone status)).length = 1
  | recorded => ((pending ++ [entry]).filter (gone status)).length ≤ 1

end

section

variable {status : Txid → Option AttestationStatus} {onL1 : OutPoint → Prop}
  {start anchor : OutPoint} {pending alive lost : List PendingAttestation}
  {first : PendingAttestation} {s s' s₁ s₂ : Store}

theorem chained_append (h : Chained start pending entry.spentAnchor) :
    Chained start (pending ++ [entry]) entry.newAnchor := by
  induction pending generalizing start with
  | nil =>
      obtain rfl : start = entry.spentAnchor := h
      exact ⟨rfl, rfl⟩
  | cons p pending ih => exact ⟨h.1, ih h.2⟩

/-- The outpoints spent along a chain are those created, and the first. -/
theorem chained_spent (h : Chained start pending anchor) :
    pending.map PendingAttestation.spentAnchor ++ [anchor]
      = start :: pending.map PendingAttestation.newAnchor := by
  induction pending generalizing start with
  | nil =>
      obtain rfl : start = anchor := h
      rfl
  | cons p pending ih =>
      obtain ⟨rfl, hrest⟩ := h
      rw [List.map_cons, List.cons_append, ih hrest, List.map_cons]

theorem liveEnd_alive (h : Chained start pending anchor)
    (halive : ∀ p ∈ pending, gone status p = false) :
    liveEnd status start pending = anchor := by
  induction pending generalizing start with
  | nil => exact h
  | cons p pending ih =>
      have hp := halive p List.mem_cons_self
      rw [liveEnd, if_neg (by rw [hp]; exact Bool.false_ne_true)]
      exact ih h.2 fun q hq => halive q (List.mem_cons_of_mem _ hq)

theorem liveEnd_split (h : Chained start alive first.spentAnchor)
    (halive : ∀ p ∈ alive, gone status p = false) (hfirst : gone status first = true) :
    liveEnd status start (alive ++ first :: lost) = first.spentAnchor := by
  induction alive generalizing start with
  | nil =>
      rw [List.nil_append, liveEnd, if_pos hfirst]
      exact h
  | cons p alive ih =>
      have hp := halive p List.mem_cons_self
      rw [List.cons_append, liveEnd, if_neg (by rw [hp]; exact Bool.false_ne_true)]
      exact ih h.2 fun q hq => halive q (List.mem_cons_of_mem _ hq)

theorem gone_of_final {p : PendingAttestation} (h : final status p = true) :
    gone status p = false := by
  unfold final at h
  unfold gone
  cases hstatus : status p.txid with
  | none => rfl
  | some st =>
      rw [hstatus] at h
      cases st with
      | missing => cases h
      | _ => rfl

/-- What a round of monitoring leaves of a store. -/
structure Monitored (status : Txid → Option AttestationStatus) (s s' : Store) : Prop where
  pending : s'.pendingAttestations
    = s.pendingAttestations.filter fun p => !final status p && !gone status p
  anchor : s'.anchor = match (s.pendingAttestations.filter (gone status)).getLast? with
    | none => s.anchor
    | some p => some p.spentAnchor

/-- With nothing missing the anchor stays. -/
theorem Monitored.anchor_alive (h : Monitored status s s')
    (halive : ∀ p ∈ s.pendingAttestations, gone status p = false) : s'.anchor = s.anchor := by
  have hnone : s.pendingAttestations.filter (gone status) = [] :=
    List.filter_eq_nil_iff.mpr fun p hp => by simp [halive p hp]
  rw [h.anchor, hnone]
  rfl

theorem Monitored.mem_pending (h : Monitored status s s') {p : PendingAttestation}
    (hp : gone status p = false) (hfinal : final status p = false) :
    p ∈ s'.pendingAttestations ↔ p ∈ s.pendingAttestations := by
  rw [h.pending, List.mem_filter, hp, hfinal]
  exact and_iff_left rfl

/-- With a last one missing the anchor is what it spent. -/
theorem Monitored.anchor_lost (h : Monitored status s s')
    (hlist : s.pendingAttestations = alive ++ first :: lost)
    (halive : ∀ p ∈ alive, gone status p = false)
    (hlost : ∀ p ∈ first :: lost, gone status p = true) :
    s'.anchor = some ((first :: lost).getLast (List.cons_ne_nil _ _)).spentAnchor := by
  have hfilter : s.pendingAttestations.filter (gone status) = first :: lost := by
    rw [hlist, List.filter_append, List.filter_eq_nil_iff.mpr fun p hp => by simp [halive p hp],
      List.nil_append, List.filter_eq_self.mpr hlost]
  rw [h.anchor, hfilter, List.getLast?_eq_some_getLast (List.cons_ne_nil _ _)]

/-- No outpoint comes twice along a chain, so neither does an attestation. -/
structure Distinct (start : OutPoint) (broadcast : List PendingAttestation) : Prop where
  nodup : (start :: broadcast.map PendingAttestation.newAnchor).Nodup

theorem Distinct.spent (h : Distinct start pending) (hchain : Chained start pending anchor) :
    (pending.map PendingAttestation.spentAnchor).Nodup ∧
      ∀ p ∈ pending, p.spentAnchor ≠ anchor := by
  have hnodup := h.nodup
  rw [← chained_spent hchain] at hnodup
  obtain ⟨hspent, -, hdisj⟩ := List.nodup_append.mp hnodup
  exact ⟨hspent, fun p hp => hdisj _ (List.mem_map_of_mem hp) _ (List.mem_singleton_self _)⟩

/-- Nothing is missing: the anchor must have been stored, and the entry too unless it is final. -/
theorem tracks_alive_iff {point : RecordPoint} (hleaves : point.Leaves entry s s₁)
    (hanchor : s.anchor = some entry.spentAnchor)
    (hchain : Chained start s.pendingAttestations entry.spentAnchor)
    (hdistinct : Distinct start (s.pendingAttestations ++ [entry]))
    (hmonitored : Monitored status s₁ s₂)
    (halive : ∀ p ∈ s.pendingAttestations ++ [entry], gone status p = false)
    (hlive : onL1 entry.newAnchor) :
    Tracks status onL1 start (s.pendingAttestations ++ [entry]) s₂ ↔
      point.Harmless status s.pendingAttestations entry := by
  have hall := chained_append hchain
  have hend := liveEnd_alive hall halive
  have hentry : gone status entry = false := halive entry (by simp)
  have hpending : ∀ p ∈ s.pendingAttestations, gone status p = false :=
    fun p hp => halive p (List.mem_append_left _ hp)
  obtain ⟨hspent, hne⟩ := hdistinct.spent hall
  have hnew : entry ∉ s.pendingAttestations := by
    intro hmem
    rw [List.map_append] at hspent
    exact (List.nodup_append.mp hspent).2.2 _ (List.mem_map_of_mem hmem) _ (by simp) rfl
  have hcount : ∀ l : List PendingAttestation, (∀ p ∈ l, gone status p = false) →
      (l.filter (gone status)).length = 0 := by
    intro l hl
    rw [List.filter_eq_nil_iff.mpr fun p hp => by simp [hl p hp]]
    rfl
  cases point with
  | unanchored =>
      obtain ⟨hsame, hlist⟩ := hleaves
      have hstored := hmonitored.anchor_alive (by rw [hlist]; exact hpending)
      refine iff_of_false (fun h => ?_) (fun h => ?_)
      · have heq := h.anchor
        rw [hstored, hsame, hanchor, hend] at heq
        exact hne entry (by simp) (Option.some.inj heq)
      · exact Bool.false_ne_true (hentry.symm.trans h.1)
  | untracked =>
      obtain ⟨hset, hlist⟩ := hleaves
      have hstored := hmonitored.anchor_alive (by rw [hlist]; exact hpending)
      constructor
      · intro h
        refine .inl ?_
        by_contra hfinal
        have hfinal : final status entry = false := by simpa using hfinal
        have hin := h.pending entry (by simp) hentry hfinal
        rw [hmonitored.mem_pending hentry hfinal, hlist] at hin
        exact hnew hin
      · rintro (hfinal | hone)
        · refine ⟨by rw [hstored, hset, hend], by rw [hend]; exact hlive,
            fun p hp hgone hopen => ?_⟩
          rw [hmonitored.mem_pending hgone hopen, hlist]
          rcases List.mem_append.mp hp with hold | hlast
          · exact hold
          · rw [List.mem_singleton.mp hlast, hfinal] at hopen
            cases hopen
        · rw [hcount _ hpending] at hone
          cases hone
  | recorded =>
      obtain ⟨hset, hlist⟩ := hleaves
      have hstored := hmonitored.anchor_alive (by rw [hlist]; exact halive)
      refine iff_of_true ⟨by rw [hstored, hset, hend], by rw [hend]; exact hlive,
        fun p hp hgone hopen => ?_⟩ ?_
      · rw [hmonitored.mem_pending hgone hopen, hlist]
        exact hp
      · show ((s.pendingAttestations ++ [entry]).filter (gone status)).length ≤ 1
        rw [hcount _ halive]
        exact Nat.zero_le 1

/-- With the new attestation missing, what counts is whether monitoring goes back to the end of
what L1 carries. -/
theorem tracks_gone_iff {point : RecordPoint} (hleaves : point.Leaves entry s s₁)
    (hmonitored : Monitored status s₁ s₂) (hgone : gone status entry = true)
    (hend : liveEnd status start (s.pendingAttestations ++ [entry]) = anchor)
    (hlive : onL1 anchor) :
    Tracks status onL1 start (s.pendingAttestations ++ [entry]) s₂ ↔ s₂.anchor = some anchor := by
  refine ⟨fun h => by rw [h.anchor, hend], fun h => ⟨by rw [h, hend], by rw [hend]; exact hlive,
    fun p hp hcarried hopen => ?_⟩⟩
  rw [hmonitored.mem_pending hcarried hopen]
  cases point with
  | recorded =>
      rw [hleaves.2]
      exact hp
  | _ =>
      rw [hleaves.2]
      rcases List.mem_append.mp hp with hold | hlast
      · exact hold
      · rw [List.mem_singleton.mp hlast, hgone] at hcarried
        cases hcarried

/-- Only the new one is missing: the anchor must not have been stored, or must be given up again. -/
theorem tracks_first_iff {point : RecordPoint} (hleaves : point.Leaves entry s s₁)
    (hanchor : s.anchor = some entry.spentAnchor)
    (hchain : Chained start s.pendingAttestations entry.spentAnchor)
    (hdistinct : Distinct start (s.pendingAttestations ++ [entry]))
    (hmonitored : Monitored status s₁ s₂)
    (halive : ∀ p ∈ s.pendingAttestations, gone status p = false) (hgone : gone status entry = true)
    (hlive : onL1 entry.spentAnchor) :
    Tracks status onL1 start (s.pendingAttestations ++ [entry]) s₂ ↔
      point.Harmless status s.pendingAttestations entry := by
  obtain ⟨-, hne⟩ := hdistinct.spent (chained_append hchain)
  rw [tracks_gone_iff hleaves hmonitored hgone (liveEnd_split hchain halive hgone) hlive]
  have hnone : s.pendingAttestations.filter (gone status) = [] :=
    List.filter_eq_nil_iff.mpr fun p hp => by simp [halive p hp]
  cases point with
  | unanchored =>
      obtain ⟨hsame, hlist⟩ := hleaves
      refine iff_of_true ?_ ⟨hgone, by rw [hnone]; exact Nat.zero_le 1⟩
      rw [hmonitored.anchor_alive (by rw [hlist]; exact halive), hsame, hanchor]
  | untracked =>
      obtain ⟨hset, hlist⟩ := hleaves
      refine iff_of_false (fun h => ?_) ?_
      · rw [hmonitored.anchor_alive (by rw [hlist]; exact halive), hset] at h
        exact hne entry (by simp) (Option.some.inj h).symm
      · rintro (hfinal | hone)
        · rw [gone_of_final hfinal] at hgone
          cases hgone
        · rw [hnone] at hone
          cases hone
  | recorded =>
      obtain ⟨-, hlist⟩ := hleaves
      refine iff_of_true ?_ ?_
      · exact hmonitored.anchor_lost hlist halive (by simpa using hgone)
      · show ((s.pendingAttestations ++ [entry]).filter (gone status)).length ≤ 1
        rw [List.filter_append, hnone, List.nil_append]
        exact List.length_filter_le _ _

/-- Two attestations of a chain never spend one outpoint. -/
theorem getLast_spent_iff {rest : List PendingAttestation}
    (h : ((first :: rest).map PendingAttestation.spentAnchor).Nodup) :
    ((first :: rest).getLast (List.cons_ne_nil _ _)).spentAnchor = first.spentAnchor ↔
      rest = [] := by
  cases rest with
  | nil => exact iff_of_true rfl rfl
  | cons p rest =>
      refine iff_of_false (fun heq => ?_) (List.cons_ne_nil _ _)
      rw [List.getLast_cons (List.cons_ne_nil _ _)] at heq
      rw [List.map_cons, List.nodup_cons, ← heq] at h
      exact h.1 (List.mem_map_of_mem (List.getLast_mem _))

/-- Earlier ones are missing too: monitoring goes back to what the last one it knows of spent. -/
theorem tracks_tail_iff {point : RecordPoint} (hleaves : point.Leaves entry s s₁)
    (hchain : Chained start s.pendingAttestations entry.spentAnchor)
    (hdistinct : Distinct start (s.pendingAttestations ++ [entry]))
    (hmonitored : Monitored status s₁ s₂)
    (hsplit : s.pendingAttestations = alive ++ first :: lost)
    (halive : ∀ p ∈ alive, gone status p = false)
    (hlost : ∀ p ∈ first :: lost, gone status p = true) (hgone : gone status entry = true)
    (hlive : onL1 first.spentAnchor) (hfront : Chained start alive first.spentAnchor) :
    Tracks status onL1 start (s.pendingAttestations ++ [entry]) s₂ ↔
      point.Harmless status s.pendingAttestations entry := by
  obtain ⟨hspent, -⟩ := hdistinct.spent (chained_append hchain)
  have hend : liveEnd status start (s.pendingAttestations ++ [entry]) = first.spentAnchor := by
    rw [hsplit, List.append_assoc, List.cons_append]
    exact liveEnd_split hfront halive (hlost first (by simp))
  rw [tracks_gone_iff hleaves hmonitored hgone hend hlive]
  have hfilter : s.pendingAttestations.filter (gone status) = first :: lost := by
    rw [hsplit, List.filter_append, List.filter_eq_nil_iff.mpr fun p hp => by simp [halive p hp],
      List.nil_append, List.filter_eq_self.mpr hlost]
  rw [hsplit, List.append_assoc, List.map_append] at hspent
  have hnodup := (List.nodup_append.mp hspent).2.1
  have hnodup' : ((first :: lost).map PendingAttestation.spentAnchor).Nodup := by
    rw [List.map_append] at hnodup
    exact (List.nodup_append.mp hnodup).1
  cases point with
  | unanchored =>
      obtain ⟨-, hlist⟩ := hleaves
      rw [hmonitored.anchor_lost (hlist.trans hsplit) halive hlost, Option.some.injEq,
        getLast_spent_iff hnodup']
      constructor
      · rintro rfl
        exact ⟨hgone, by rw [hfilter]; exact Nat.le_refl 1⟩
      · rintro ⟨-, hle⟩
        rw [hfilter, List.length_cons] at hle
        exact List.length_eq_zero_iff.mp (by omega)
  | untracked =>
      obtain ⟨-, hlist⟩ := hleaves
      rw [hmonitored.anchor_lost (hlist.trans hsplit) halive hlost, Option.some.injEq,
        getLast_spent_iff hnodup']
      constructor
      · rintro rfl
        exact .inr (by rw [hfilter]; rfl)
      · rintro (hfinal | hone)
        · rw [gone_of_final hfinal] at hgone
          cases hgone
        · rw [hfilter, List.length_cons] at hone
          exact List.length_eq_zero_iff.mp (by omega)
  | recorded =>
      obtain ⟨-, hlist⟩ := hleaves
      have hall : ∀ p ∈ first :: (lost ++ [entry]), gone status p = true := by
        intro p hp
        rw [← List.cons_append] at hp
        rcases List.mem_append.mp hp with hold | hnew
        · exact hlost p hold
        · rw [List.mem_singleton.mp hnew]
          exact hgone
      have hlist' : s₁.pendingAttestations = alive ++ first :: (lost ++ [entry]) := by
        rw [hlist, hsplit, List.append_assoc, List.cons_append]
      have hspentLast := @getLast_spent_iff first (lost ++ [entry]) hnodup
      rw [hmonitored.anchor_lost hlist' halive hall, Option.some.injEq, hspentLast]
      refine iff_of_false (List.append_ne_nil_of_right_ne_nil _ (List.cons_ne_nil _ _))
        fun hle => ?_
      have hcount : ((s.pendingAttestations ++ [entry]).filter (gone status)).length ≤ 1 := hle
      rw [List.filter_append, hfilter, List.filter_cons_of_pos hgone, List.length_append,
        List.length_cons, List.length_cons] at hcount
      omega

/-- **When a crash does no lasting harm**, for a store with a chain of attestations and all answers
about it that are consistent with L1. -/
theorem tracks_iff {point : RecordPoint} (hleaves : point.Leaves entry s s₁)
    (hanchor : s.anchor = some entry.spentAnchor)
    (hchain : Chained start s.pendingAttestations entry.spentAnchor)
    (hdistinct : Distinct start (s.pendingAttestations ++ [entry]))
    (hconsistent : ConsistentWith status onL1 start (s.pendingAttestations ++ [entry]))
    (hmonitored : Monitored status s₁ s₂) :
    Tracks status onL1 start (s.pendingAttestations ++ [entry]) s₂ ↔
      point.Harmless status s.pendingAttestations entry := by
  rcases hconsistent.split (chained_append hchain) with
    ⟨hall, hlive⟩ | ⟨alive, first, lost, heq, halive, hlost, hlive, hfront, -⟩
  · exact tracks_alive_iff hleaves hanchor hchain hdistinct hmonitored hall hlive
  · rcases List.eq_nil_or_concat lost with rfl | ⟨lost, last, rfl⟩
    · obtain ⟨rfl, hlast⟩ := List.append_inj' heq rfl
      obtain rfl : entry = first := List.head_eq_of_cons_eq hlast
      exact tracks_first_iff hleaves hanchor hchain hdistinct hmonitored halive
        (hlost entry (by simp)) hlive
    · rw [List.concat_eq_append, ← List.cons_append, ← List.append_assoc] at heq
      obtain ⟨hpending, hlast⟩ := List.append_inj' heq rfl
      obtain rfl : entry = last := List.head_eq_of_cons_eq hlast
      refine tracks_tail_iff hleaves hchain hdistinct hmonitored hpending halive
        (fun p hp => hlost p ?_) (hlost entry (by simp)) hlive hfront
      rw [List.concat_eq_append, ← List.cons_append]
      exact List.mem_append_left _ hp

/-- What L1 carries and is not final is a chain to its end. -/
theorem live_chained (hchain : Chained start pending anchor)
    (hconsistent : ConsistentWith status onL1 start pending) : ∃ start', Chained start'
      (pending.filter fun p => !final status p && !gone status p)
      (liveEnd status start pending) := by
  rcases hconsistent.split hchain with
    ⟨hall, -⟩ | ⟨alive, first, lost, rfl, halive, hlost, -, hfront, -⟩
  · rw [filter_alive hall, liveEnd_alive hchain hall]
    exact chained_filter hchain hconsistent.confirmed
  · rw [(filter_gone_split halive hlost).2.2,
      liveEnd_split hfront halive (hlost first List.mem_cons_self)]
    exact chained_filter hfront (List.pairwise_append.mp hconsistent.confirmed).1

/-- The stored list is a chain to the stored anchor. -/
def Store.Anchored (s : Store) : Prop :=
  ∃ start anchor, s.anchor = some anchor ∧ Chained start s.pendingAttestations anchor

/-- A store that tracks what L1 carries follows a chain again. -/
theorem Tracks.anchored {point : RecordPoint}
    (h : Tracks status onL1 start (s.pendingAttestations ++ [entry]) s₂)
    (hleaves : point.Leaves entry s s₁) (hmonitored : Monitored status s₁ s₂)
    (hchain : Chained start s.pendingAttestations entry.spentAnchor)
    (hdistinct : Distinct start (s.pendingAttestations ++ [entry]))
    (hconsistent : ConsistentWith status onL1 start (s.pendingAttestations ++ [entry])) :
    s₂.Anchored := by
  have hall := chained_append hchain
  obtain ⟨start', hlive⟩ := live_chained hall hconsistent
  refine ⟨start', _, h.anchor, ?_⟩
  have hlist : s₂.pendingAttestations = (s.pendingAttestations ++ [entry]).filter
      fun p => !final status p && !gone status p := by
    rw [hmonitored.pending]
    cases point with
    | recorded => rw [hleaves.2]
    | _ =>
        rw [hleaves.2, List.filter_append]
        have hnone : [entry].filter (fun p => !final status p && !gone status p) = [] := by
          refine List.filter_eq_nil_iff.mpr fun p hp hopen => ?_
          obtain rfl := List.mem_singleton.mp hp
          simp only [Bool.and_eq_true, Bool.not_eq_true'] at hopen
          have hin := h.pending p (by simp) hopen.2 hopen.1
          rw [hmonitored.mem_pending hopen.2 hopen.1, hleaves.2] at hin
          have hspent := (hdistinct.spent hall).1
          rw [List.map_append] at hspent
          exact (List.nodup_append.mp hspent).2.2 _ (List.mem_map_of_mem hin) _ (by simp) rfl
        rw [hnone, List.append_nil]
  rw [hlist]
  exact hlive

/-- So does one after a round of monitoring that finds one attestation at most missing. -/
theorem Monitored.anchored (h : Monitored status s s') (hanchor : s.anchor = some anchor)
    (hchain : Chained start s.pendingAttestations anchor)
    (hconsistent : ConsistentWith status onL1 start s.pendingAttestations)
    (hone : (s.pendingAttestations.filter (gone status)).length ≤ 1) : s'.Anchored := by
  obtain ⟨start', hlive⟩ := live_chained hchain hconsistent
  refine ⟨start', _, ?_, by rw [h.pending]; exact hlive⟩
  rcases hconsistent.split hchain with
    ⟨hall, -⟩ | ⟨alive, first, lost, heq, halive, hlost, -, hfront, -⟩
  · rw [h.anchor_alive hall, hanchor, liveEnd_alive hchain hall]
  · have hnil : lost = [] := by
      rw [heq, (filter_gone_split halive hlost).1, List.length_cons] at hone
      exact List.length_eq_zero_iff.mp (by omega)
    subst hnil
    rw [h.anchor_lost heq halive hlost, heq, liveEnd_split hfront halive (hlost first (by simp))]
    rfl

end

/-! ### Runs -/

/-- The outpoint that the first of the followed attestations spends. -/
def Store.chainStart (s : Store) (anchor : OutPoint) : OutPoint :=
  match s.pendingAttestations with
  | [] => anchor
  | p :: _ => p.spentAnchor

theorem Store.chainStart_eq {s : Store} {start anchor : OutPoint}
    (h : Chained start s.pendingAttestations anchor) : s.chainStart anchor = start := by
  unfold Store.chainStart
  cases hlist : s.pendingAttestations with
  | nil =>
      rw [hlist] at h
      exact h.symm
  | cons p pending =>
      rw [hlist] at h
      exact h.1

section

variable (prim : Primitives)

/-- What bitcoind answers about the attestations of a store and a further one, in a round of
monitoring, and the outpoints that exist on L1 then. -/
structure Answers (menv : MonitorEnv) (onL1 : OutPoint → Prop) (anchor : OutPoint)
    (broadcast : List PendingAttestation) (s : Store) : Prop where
  consistent : ConsistentWith menv.status onL1 (s.chainStart anchor) broadcast
  distinct : Distinct (s.chainStart anchor) broadcast

/-- A call of `check_and_attest` that broadcasts an attestation and is cut short or not, then a
restart, then a round of monitoring. -/
structure Round (env : AttestEnv) (menv : MonitorEnv) (onL1 : OutPoint → Prop)
    (entry : PendingAttestation) (app app' : AppState) : Prop where
  broadcast : ∃ mid, Broadcasts prim env app mid entry
  answers : Answers menv onL1 entry.spentAnchor (app.store.pendingAttestations ++ [entry]) app.store
  runs : ∃ r app₁ app₂, checkAndAttest prim env app = (r, app₁) ∧ restart prim app₁ = some app₂ ∧
    monitorPending menv app₂ = (.ok (), app')

/-- The states of a sequencer whose crashes while recording have done no lasting harm, and whose
rounds of monitoring have found one attestation at most missing. -/
inductive Recording : AppState → Prop
  | started {app : AppState} : Started prim app → Recording app
  | step {app app' : AppState} : Recording app → Step prim (fun _ _ => True) app app' →
      app'.store.anchor = app.store.anchor →
      app'.store.pendingAttestations = app.store.pendingAttestations → Recording app'
  | monitor {menv : MonitorEnv} {onL1 : OutPoint → Prop} {anchor : OutPoint} {app app' : AppState} :
      Recording app → app.store.anchor = some anchor →
      Answers menv onL1 anchor app.store.pendingAttestations app.store →
      (app.store.pendingAttestations.filter (gone menv.status)).length ≤ 1 →
      monitorPending menv app = (.ok (), app') → Recording app'
  | round {env : AttestEnv} {menv : MonitorEnv} {onL1 : OutPoint → Prop}
      {entry : PendingAttestation} {app app' : AppState} :
      Recording app → Round prim env menv onL1 entry app app' →
      (recordPoint env.faults).Harmless menv.status app.store.pendingAttestations entry →
      Recording app'

end

theorem Started.anchored (h : Started prim app) : app.store.Anchored := by
  obtain ⟨identity, l1BlockHash, l1GenesisHeight, now, anchor0, hstart⟩ := h
  simp only [coldStart, bind_ok_iff, Store.writeBlockAndState_ok_iff, pure_ok_iff] at hstart
  obtain ⟨store, ⟨-, rfl⟩, rfl⟩ := hstart
  exact ⟨anchor0, anchor0, rfl, rfl⟩

theorem restart_store (h : restart prim app = some app') : app'.store = app.store := by
  obtain ⟨state, head, -, rfl⟩ := restart_eq_some_iff.mp h
  rfl

section

variable {menv : MonitorEnv} {onL1 : OutPoint → Prop}

theorem monitored_of_run (h : monitorPending menv app = (.ok (), app')) :
    Monitored menv.status app.store app'.store := by
  obtain ⟨hpending, hanchor⟩ := monitorPending_ok h
  exact ⟨hpending, hanchor⟩

/-- One round, from a store that follows a chain. -/
theorem Round.tracks_iff (h : Round prim env menv onL1 entry app app')
    (hanchored : app.store.Anchored) :
    (Tracks menv.status onL1 (app.store.chainStart entry.spentAnchor)
        (app.store.pendingAttestations ++ [entry]) app'.store ↔
      (recordPoint env.faults).Harmless menv.status app.store.pendingAttestations entry) ∧
    (Tracks menv.status onL1 (app.store.chainStart entry.spentAnchor)
      (app.store.pendingAttestations ++ [entry]) app'.store → app'.store.Anchored) := by
  obtain ⟨mid, hbroadcast⟩ := h.broadcast
  obtain ⟨r, app₁, app₂, hcheck, hrestart, hmonitor⟩ := h.runs
  have hleaves := hbroadcast.leaves hcheck
  have hmonitored := monitored_of_run hmonitor
  rw [restart_store hrestart] at hmonitored
  have hanchor := hbroadcast.frame.1.symm.trans hbroadcast.anchor
  obtain ⟨start, anchor, hstored, hchain⟩ := hanchored
  obtain rfl := Option.some.inj (hstored.symm.trans hanchor)
  have hstart := Store.chainStart_eq hchain
  have hconsistent := h.answers.consistent
  have hdistinct := h.answers.distinct
  rw [hstart] at hconsistent hdistinct ⊢
  exact ⟨Sequencer.tracks_iff hleaves hanchor hchain hdistinct hconsistent hmonitored,
    fun htracks => htracks.anchored hleaves hmonitored hchain hdistinct hconsistent⟩

theorem Recording.anchored (h : Recording prim app) : app.store.Anchored := by
  induction h with
  | started hstarted => exact hstarted.anchored
  | step _ _ hanchor hpending ih =>
      obtain ⟨start, anchor, hstored, hchain⟩ := ih
      exact ⟨start, anchor, hanchor.trans hstored, by rw [hpending]; exact hchain⟩
  | monitor _ hanchor hanswers hone hmonitor ih =>
      obtain ⟨start, anchor, hstored, hchain⟩ := ih
      obtain rfl := Option.some.inj (hstored.symm.trans hanchor)
      have hconsistent := hanswers.consistent
      rw [Store.chainStart_eq hchain] at hconsistent
      exact (monitored_of_run hmonitor).anchored hanchor hchain hconsistent hone
  | round _ hround hharmless ih =>
      obtain ⟨hiff, hkept⟩ := hround.tracks_iff ih
      exact hkept (hiff.mpr hharmless)

/-- **A crash while an attestation is recorded does no lasting harm exactly by where it falls and
what becomes of the attestation.**  In a sequencer that no such crash has harmed before, after the
restart and a round of monitoring the stored anchor is the end of what L1 carries and every carried
attestation that is not final is followed, if and only if: with all four calls made, one
attestation at most is missing; without the list, the new one is final already, or exactly one of
the earlier ones is missing; without the anchor, the new one is missing and one of the earlier
ones at most. -/
theorem attest_crash_iff (hreach : Recording prim app)
    (hround : Round prim env menv onL1 entry app app') :
    Tracks menv.status onL1 (app.store.chainStart entry.spentAnchor)
        (app.store.pendingAttestations ++ [entry]) app'.store ↔
      (recordPoint env.faults).Harmless menv.status app.store.pendingAttestations entry :=
  (hround.tracks_iff hreach.anchored).1

end

/-! ### A stop before the first call -/

/-- L1 has grown by a block, the attestation is broadcast, and the process stops. -/
def crashing : AttestEnv where
  blockCount := some 1
  block := steadyEnv
  post _ _ := some firstAttestation.txid
  faults site := if site = .setAnchor then some .stop else none

/-- A new sequencer over `rootAnchor`. -/
theorem exists_started_root (prim : Primitives) : ∃ app, Started prim app ∧ Synced prim app ∧
    app.store.anchor = some rootAnchor ∧ app.store.pendingAttestations = [] ∧
    app.store.lastAttestedL1Height = none ∧ app.store.l1Cursor = some 0 := by
  obtain ⟨app, happ⟩ := exists_coldStart prim sampleIdentity H256.zero 0 0 rootAnchor
  obtain ⟨first, -, hlatest, hhead, -⟩ := coldStart_latest happ
  refine ⟨app, ⟨_, _, _, _, _, happ⟩, ?_, ?_⟩
  · rw [Synced, hhead]
    exact hlatest.resume
  · simp only [coldStart, bind_ok_iff, Store.writeBlockAndState_ok_iff, pure_ok_iff] at happ
    obtain ⟨store, ⟨-, rfl⟩, rfl⟩ := happ
    exact ⟨rfl, rfl, rfl, rfl⟩

/-- A new sequencer that crashes so has stored nothing of the attestation. -/
theorem exists_crash (prim : Primitives) : ∃ app app₁ app₂, Started prim app ∧
    app.store.pendingAttestations = [] ∧
      (∃ mid, Broadcasts prim crashing app mid firstAttestation) ∧
    checkAndAttest prim crashing app = (.error .stopped, app₁) ∧ restart prim app₁ = some app₂ ∧
    app₂.store.anchor = some rootAnchor ∧ app₂.store.pendingAttestations = [] := by
  obtain ⟨app, hstarted, hsynced, hanchor, hpending, hlast, hcursor⟩ := exists_started_root prim
  obtain ⟨hheight, hwrite⟩ := @Started.writable prim app steadyEnv hstarted rfl
  obtain ⟨tip, htip⟩ := steadyEnv_l1Tip
  have hproduce := @produceBlock_done prim steadyEnv app tip htip hwrite rfl
  have hbroadcast : Broadcasts prim crashing app (steadyEnv.finished prim tip app)
      firstAttestation := by
    constructor
    · refine ⟨0, ?_, by decide⟩
      have hcalls : crashing.faults .lastAttestedL1Height = none ∧
          crashing.faults .l1Cursor = none := ⟨rfl, rfl⟩
      unfold lastAttested
      simp only [Action.bind_run, storeCall_run, hcalls.1, hcalls.2, Action.get_run, hlast, hcursor]
      rfl
    · rfl
    · exact hproduce
    · rfl
    · exact hanchor
    · rfl
    · rfl
    · show (1 : UInt32) = app.shared.head.height + 1
      rw [hheight]
      rfl
  have hmid : Synced prim (steadyEnv.finished prim tip app) := by
    obtain ⟨prev, block, hsuccessor⟩ :=
      (produceBlock_ends hproduce).successor hstarted.rowed hsynced
    exact hsuccessor.synced
  refine ⟨app, steadyEnv.finished prim tip app, _, hstarted, hpending, ⟨_, hbroadcast⟩, ?_,
    restart_eq_some_iff.mpr ⟨_, _, hmid, rfl⟩, hanchor, hpending⟩
  rw [hbroadcast.checkAndAttest]
  unfold recordAttestation
  rw [Action.bind_run, setStore_run]
  rfl

/-- A round of monitoring with nothing to follow. -/
theorem monitorPending_nil {menv : MonitorEnv} (hcall : menv.faults .pendingAttestations = none)
    (hnil : app.store.pendingAttestations = []) : monitorPending menv app = (.ok (), app) := by
  unfold monitorPending
  simp only [Action.bind_run, storeCall_run, hcall, Action.get_run, hnil, if_true]
  rfl

/-- The transaction is mined. -/
def mined : MonitorEnv := ⟨fun _ => some (.confirmed 1 (some 2)), fun _ => none⟩

/-- The attestation has a confirmation.  After the restart nothing follows it, and the stored anchor
is the one it has spent. -/
theorem attest_crash_unanchored : ∃ app app',
    Recording Primitives.sample app ∧
    Round Primitives.sample crashing mined (fun _ => True) firstAttestation app app' ∧
    app'.store.anchor = some firstAttestation.spentAnchor ∧ app'.store.pendingAttestations = [] ∧
    ¬ Tracks mined.status (fun _ => True) (app.store.chainStart firstAttestation.spentAnchor)
      (app.store.pendingAttestations ++ [firstAttestation]) app'.store := by
  obtain ⟨app, app₁, app₂, hstarted, hnil, hbroadcast, hcheck, hrestart, hanchor, hpending⟩ :=
    exists_crash Primitives.sample
  have hstart : app.store.chainStart firstAttestation.spentAnchor = rootAnchor :=
    Store.chainStart_eq (by rw [hnil]; rfl)
  have hanswers : Answers mined (fun _ => True) firstAttestation.spentAnchor
      (app.store.pendingAttestations ++ [firstAttestation]) app.store := by
    constructor
    · refine ⟨trivial, fun p _ => iff_of_true trivial rfl, fun _ _ _ => trivial, ?_⟩
      rw [hnil]
      exact List.pairwise_singleton _ _
    · rw [hstart, hnil]
      exact ⟨by decide⟩
  refine ⟨app, app₂, .started hstarted, ⟨hbroadcast, hanswers, _, _, _, hcheck, hrestart,
    monitorPending_nil rfl hpending⟩, hanchor, hpending, fun h => ?_⟩
  have heq := h.anchor
  rw [hanchor, hstart, hnil] at heq
  exact absurd (Option.some.inj heq) (by decide)

/-- The attestation is missing.  Nothing of it was stored, and nothing is lost. -/
theorem attest_crash_missing : ∃ app app',
    Round Primitives.sample crashing allMissing (· = rootAnchor) firstAttestation app app' ∧
    Tracks allMissing.status (· = rootAnchor) (app.store.chainStart firstAttestation.spentAnchor)
      (app.store.pendingAttestations ++ [firstAttestation]) app'.store := by
  obtain ⟨app, app₁, app₂, hstarted, hnil, hbroadcast, hcheck, hrestart, hanchor, hpending⟩ :=
    exists_crash Primitives.sample
  have hstart : app.store.chainStart firstAttestation.spentAnchor = rootAnchor :=
    Store.chainStart_eq (by rw [hnil]; rfl)
  have hanswers : Answers allMissing (· = rootAnchor) firstAttestation.spentAnchor
      (app.store.pendingAttestations ++ [firstAttestation]) app.store := by
    constructor
    · rw [hstart, hnil]
      exact allMissing_consistent _ (by decide)
    · rw [hstart, hnil]
      exact ⟨by decide⟩
  have hround : Round Primitives.sample crashing allMissing (· = rootAnchor) firstAttestation app
      app₂ := ⟨hbroadcast, hanswers, _, _, _, hcheck, hrestart, monitorPending_nil rfl hpending⟩
  refine ⟨app, app₂, hround, (attest_crash_iff (.started hstarted) hround).mpr ?_⟩
  have hpoint : recordPoint crashing.faults = .unanchored := rfl
  rw [hpoint, hnil]
  exact ⟨rfl, Nat.zero_le 1⟩

end Hodlchain.Sequencer
