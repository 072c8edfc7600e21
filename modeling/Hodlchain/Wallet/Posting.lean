/-
Attestations as they are posted.

The sequencer posts a transaction that spends the stored anchor, and may stop anywhere in
recording it; its monitoring goes back to an earlier anchor, from where it posts again.
So several posted transactions may spend one anchor, and L1 takes what it takes of them.
On L1 there is one chain of links all the same: each attests a block of the sequencer,
higher than the one before it.
-/
import Hodlchain.Node.CatchUp

namespace Hodlchain.Sequencer

/-! ### What is posted -/

/-- An attestation that bitcoind has taken from `post_attestation_chained`, and the change it put
behind it. -/
structure Posted where
  attestation : Attestation
  anchorIn : OutPoint
  txid : Txid
  change : TxOut
deriving DecidableEq, Repr

/-- One input, the anchor; the attestation at 0 and the change at 1. -/
def Posted.tx (p : Posted) : BtcTx :=
  ⟨p.txid, [p.anchorIn], [⟨0, p.attestation.toScript⟩, p.change]⟩

def Posted.newAnchor (p : Posted) : OutPoint := ⟨p.txid, 1⟩

/-- The first anchor, or the change of a posted attestation. -/
def IsAnchor (anchor0 : OutPoint) (posted : List Posted) (op : OutPoint) : Prop :=
  op = anchor0 ∨ ∃ p ∈ posted, op = p.newAnchor

/-- What is posted attests blocks of the sequencer above the first one, and spends anchors, each
time the change of a lower attestation. -/
structure PostedWell (anchor0 : OutPoint) (attested : List Attestation) (posted : List Posted) :
    Prop where
  attested : ∀ p ∈ posted, p.attestation ∈ attested
  version : ∀ p ∈ posted, p.attestation.version = attestationVersion
  spends : ∀ p ∈ posted, IsAnchor anchor0 posted p.anchorIn
  above : ∀ p ∈ posted, 0 < p.attestation.height
  rises : ∀ p ∈ posted, ∀ q ∈ posted, q.anchorIn = p.newAnchor →
    p.attestation.height < q.attestation.height

/-- Nothing but what is posted spends an anchor. -/
def SpentByPosted (anchor0 : OutPoint) (posted : List Posted) (txs : List BtcTx) : Prop :=
  ∀ tx ∈ txs, ∀ op ∈ tx.input, IsAnchor anchor0 posted op → ∃ p ∈ posted, tx = p.tx

section

variable {anchor0 : OutPoint} {attested : List Attestation} {posted : List Posted}

/-! ### The links -/

/-- Reading a posted transaction. -/
theorem Posted.readAdvance {p : Posted}
    (hversion : p.attestation.version = attestationVersion) (h : ℕ)
    (anchor : OutPoint) : Hodlchain.readAdvance h anchor p.tx
      = .ok ⟨p.attestation, h, p.txid, anchor, p.newAnchor⟩ :=
  readAdvance_of_script rfl rfl hversion h anchor

/-- **A pass over what is posted is not broken off.**  It attests what was posted, with heights that
rise. -/
theorem pass_posted (hposted : PostedWell anchor0 attested posted) (txs : List (ℕ × BtcTx)) :
    ∀ (anchor : OutPoint) (low : UInt32), IsAnchor anchor0 posted anchor →
      SpentByPosted anchor0 posted (txs.map Prod.snd) →
      (∀ p ∈ posted, p.anchorIn = anchor → low < p.attestation.height) →
      ∃ links last, Chain.pass anchor txs = (links, .ok last) ∧
        links.map (·.attestation) ⊆ attested ∧
        (low :: links.map (·.attestation.height)).Pairwise (· < ·) := by
  induction txs with
  | nil =>
      intro anchor low _ _ _
      exact ⟨[], anchor, rfl, List.nil_subset _, List.pairwise_singleton _ _⟩
  | cons placed txs ih =>
      intro anchor low hanchor hspent hlow
      obtain ⟨height, tx⟩ := placed
      have hrest : SpentByPosted anchor0 posted (txs.map Prod.snd) := fun tx' htx' =>
        hspent tx' (List.mem_cons_of_mem _ htx')
      by_cases hspends : tx.input.contains anchor = true
      · have hop : anchor ∈ tx.input := List.contains_iff_mem.mp hspends
        obtain ⟨p, hp, rfl⟩ := hspent tx List.mem_cons_self anchor hop hanchor
        have hin : p.anchorIn = anchor := (List.mem_singleton.mp hop).symm
        obtain ⟨links, last, hpass, hall, hsorted⟩ := ih p.newAnchor p.attestation.height
          (.inr ⟨p, hp, rfl⟩) hrest (fun q hq hspent => hposted.rises p hp q hq hspent)
        refine ⟨⟨p.attestation, height, p.txid, anchor, p.newAnchor⟩ :: links, last, ?_, ?_, ?_⟩
        · rw [Chain.pass_cons, if_pos hspends, p.readAdvance (hposted.version p hp)]
          show (_ :: (Chain.pass p.newAnchor txs).1, (Chain.pass p.newAnchor txs).2) = _
          rw [hpass]
        · exact List.cons_subset.mpr ⟨hposted.attested p hp, hall⟩
        · have hfirst : low < p.attestation.height := hlow p hp hin
          rw [List.map_cons, List.pairwise_cons]
          refine ⟨fun k hk => ?_, hsorted⟩
          rcases List.mem_cons.mp hk with rfl | hk
          · exact hfirst
          · exact UInt32.lt_trans hfirst ((List.pairwise_cons.mp hsorted).1 k hk)
      · rw [Chain.pass_cons, if_neg hspends]
        exact ih anchor low hanchor hrest hlow

/-- **A chain that takes what is posted carries the attestations**, with heights that rise. -/
theorem carries_of_posted {c : Chain} (hposted : PostedWell anchor0 attested posted)
    (hvalid : c.Valid) (hlength : c.length ≤ 2 ^ 32) (hfunded : ∃ tx ∈ c.txs,
      anchor0.txid = tx.txid)
    (hspent : SpentByPosted anchor0 posted c.txs) : c.Carries anchor0 attested ∧
      c.Rises anchor0 := by
  rw [Chain.txs_eq_placed] at hspent
  obtain ⟨links, last, hpass, hall, hrises⟩ :=
    pass_posted hposted c.placed anchor0 0 (.inl rfl) hspent fun p hp _ => hposted.above p hp
  have hlinks : c.links anchor0 = links := by rw [Chain.links, hpass]
  refine ⟨⟨hvalid, hlength, hfunded, ⟨last, by rw [hpass]⟩, ?_, ?_⟩, ?_⟩
  · rw [hlinks]
    exact hall
  · rw [hlinks]
    exact (List.pairwise_cons.mp hrises).2.imp UInt32.le_of_lt
  · rw [Chain.Rises, hlinks]
    exact hrises

/-! ### Another attestation -/

theorem IsAnchor.mono {posted' : List Posted} {op : OutPoint} (h : IsAnchor anchor0 posted op)
    (hmore : posted ⊆ posted') : IsAnchor anchor0 posted' op := by
  rcases h with rfl | ⟨p, hp, rfl⟩
  · exact .inl rfl
  · exact .inr ⟨p, hmore hp, rfl⟩

/-- The id of a transaction is its own: no one has seen it. -/
structure OwnId (anchor0 : OutPoint) (posted : List Posted) (txs : List BtcTx)
    (p : Posted) : Prop where
  first : anchor0.txid ≠ p.txid
  posted : ∀ q ∈ posted, q.txid ≠ p.txid
  unspent : ∀ tx ∈ txs, ∀ op ∈ tx.input, op.txid ≠ p.txid

/-- What was an anchor before is none of its outputs. -/
theorem OwnId.other {p : Posted} {txs : List BtcTx} (h : OwnId anchor0 posted txs p) {op : OutPoint}
    (hop : IsAnchor anchor0 posted op) : op.txid ≠ p.txid := by
  rcases hop with rfl | ⟨q, hq, rfl⟩
  · exact h.first
  · exact h.posted q hq

/-- An attestation that spends an anchor, and is above all that are posted, can be posted. -/
theorem PostedWell.push {p : Posted} {txs : List BtcTx} (h : PostedWell anchor0 attested posted)
    (hatt : p.attestation ∈ attested) (hversion : p.attestation.version = attestationVersion)
    (hin : IsAnchor anchor0 posted p.anchorIn) (hown : OwnId anchor0 posted txs p)
    (habove : 0 < p.attestation.height)
    (hhigh : ∀ q ∈ posted, q.attestation.height < p.attestation.height) :
    PostedWell anchor0 attested (posted ++ [p]) := by
  have hall : ∀ {I : Posted → Prop}, (∀ q ∈ posted, I q) → I p → ∀ q ∈ posted ++ [p], I q := by
    intro I hold hnew q hq
    rcases List.mem_append.mp hq with hq | hq
    · exact hold q hq
    · rw [List.mem_singleton.mp hq]
      exact hnew
  -- its change is not spent yet
  have hunspent : ∀ r ∈ posted ++ [p], r.anchorIn ≠ p.newAnchor :=
    hall (fun r hr hspent => hown.other (h.spends r hr) (congrArg OutPoint.txid hspent))
      fun hspent => hown.other hin (congrArg OutPoint.txid hspent)
  refine ⟨hall h.attested hatt, hall h.version hversion,
    hall (fun q hq => (h.spends q hq).mono (List.subset_append_left _ _))
      (hin.mono (List.subset_append_left _ _)), hall h.above habove, fun q hq r hr hspent => ?_⟩
  rcases List.mem_append.mp hq with hq | hq
  · rcases List.mem_append.mp hr with hr | hr
    · exact h.rises q hq r hr hspent
    · rw [List.mem_singleton.mp hr]
      exact hhigh q hq
  · rw [List.mem_singleton.mp hq] at hspent
    exact absurd hspent (hunspent r hr)

/-- What L1 has was posted before. -/
theorem SpentByPosted.push {p : Posted} {txs : List BtcTx} (h : SpentByPosted anchor0 posted txs)
    (hown : OwnId anchor0 posted txs p) : SpentByPosted anchor0 (posted ++ [p]) txs := by
  intro tx htx op hop hanchor
  have hold : IsAnchor anchor0 posted op := by
    rcases hanchor with rfl | ⟨q, hq, rfl⟩
    · exact .inl rfl
    · rcases List.mem_append.mp hq with hq | hq
      · exact .inr ⟨q, hq, rfl⟩
      · obtain rfl := List.mem_singleton.mp hq
        exact absurd rfl (hown.unspent tx htx _ hop)
  obtain ⟨q, hq, rfl⟩ := h tx htx op hop hold
  exact ⟨q, List.mem_append_left _ hq, rfl⟩

end

/-! ### What a step posts -/

section

variable (prim : Primitives)

/-- The attestations that a step of the sequencer posts: a call of `check_and_attest` that gets to a
broadcast posts one, wherever it is cut short then, and everything else none. -/
inductive StepPosts (allowed : BlockEnv → AppState → Prop) (app app' : AppState) :
    List Posted → Prop
  | silent (hanchor : app'.store.anchor = app.store.anchor)
      (hpending : app'.store.pendingAttestations = app.store.pendingAttestations) :
      StepPosts allowed app app' []
  | monitored {env : MonitorEnv} (h : settle prim (monitorPending env app) = some app') :
      StepPosts allowed app app' []
  | broadcast {env : AttestEnv} {mid : AppState} {entry : PendingAttestation} (change : TxOut)
      (hallowed : allowed env.block app) (hbroadcast : Broadcasts prim env app mid entry)
      (h : settle prim (checkAndAttest prim env app) = some app') :
      StepPosts allowed app app' [⟨Attestation.new mid.shared.head.height mid.shared.head.blockHash
        mid.shared.head.stateRoot, entry.spentAnchor, entry.txid, change⟩]

/-- The anchors in a store are known ones. -/
structure Store.Over (Known : OutPoint → Prop) (s : Store) : Prop where
  anchor : ∀ op, s.anchor = some op → Known op
  pending : ∀ e ∈ s.pendingAttestations, Known e.spentAnchor

end

section

variable {prim : Primitives} {allowed : BlockEnv → AppState → Prop} {app app' mid : AppState}
  {new : List Posted} {Known : OutPoint → Prop}

theorem produceBlock_anchors {env : BlockEnv} {r : Except Halt Unit}
    (h : produceBlock prim env app = (r, app')) : app'.store.anchor = app.store.anchor ∧
      app'.store.pendingAttestations = app.store.pendingAttestations := by
  cases produceBlock_ends h <;> exact ⟨rfl, rfl⟩

/-- An attestation of the head is posted, or the anchor and the list stay. -/
theorem attestHead_posts {env : AttestEnv} {tip : UInt32} {r : Except Halt Unit}
    (h : attestHead env tip app = (r, app')) :
    (∃ anchor txid, env.faults .getAnchor = none ∧ app.store.anchor = some anchor ∧
      env.post (Attestation.new app.shared.head.height app.shared.head.blockHash
        app.shared.head.stateRoot) anchor = some txid) ∨ app' = app := by
  by_cases hcall : env.faults .getAnchor = none
  · by_cases hpost : ∃ anchor txid, app.store.anchor = some anchor ∧
        env.post (Attestation.new app.shared.head.height app.shared.head.blockHash
          app.shared.head.stateRoot) anchor = some txid
    · obtain ⟨anchor, txid, hanchor, hpost⟩ := hpost
      exact .inl ⟨anchor, txid, hcall, hanchor, hpost⟩
    · refine .inr (attestHead_unposted (fun anchor hanchor => ?_) h)
      by_contra hsome
      obtain ⟨txid, htxid⟩ := Option.ne_none_iff_exists'.mp hsome
      exact hpost ⟨anchor, txid, hanchor, htxid⟩
  · obtain ⟨fault, hfault⟩ := Option.ne_none_iff_exists'.mp hcall
    unfold attestHead at h
    rw [Action.get_bind_run, Action.bind_run, storeCall_run, hfault] at h
    exact .inr (Prod.mk.inj h).2.symm

/-- A call of `check_and_attest` broadcasts, or leaves the anchor and the list alone. -/
theorem checkAndAttest_posts {env : AttestEnv} {r : Except Halt Unit}
    (h : checkAndAttest prim env app = (r, app')) :
    (∃ mid entry, Broadcasts prim env app mid entry) ∨
      app'.store.anchor = app.store.anchor ∧
        app'.store.pendingAttestations = app.store.pendingAttestations := by
  rcases checkAndAttest_cases h with rfl | ⟨⟨tip, last, htip, hread, hdue⟩, r₁, mid, hproduce, -, -⟩
  · exact .inr ⟨rfl, rfl⟩
  · rw [checkAndAttest_run htip hread, if_neg hdue] at h
    cases r₁ with
    | error halt =>
        rw [Action.bind_run_error hproduce] at h
        obtain ⟨-, rfl⟩ := Prod.mk.inj h
        exact .inr (produceBlock_anchors hproduce)
    | ok u =>
        rw [Action.bind_run_ok hproduce] at h
        rcases attestHead_posts h with ⟨anchor, txid, hcall, hanchor, hpost⟩ | rfl
        · exact .inl ⟨mid, ⟨txid, anchor, ⟨txid, 1⟩, mid.shared.head.height, tip⟩,
            ⟨last, Prod.ext hread (lastAttested_snd _ _), hdue⟩, htip, hproduce, hcall,
              hanchor, hpost, rfl, rfl⟩
        · exact .inr (produceBlock_anchors hproduce)

theorem Broadcasts.attests {env : AttestEnv} {entry : PendingAttestation}
    (h : Broadcasts prim env app mid entry) : Attests env app := by
  obtain ⟨last, hlast, hdue⟩ := h.due
  exact ⟨_, last, h.tip, by rw [hlast], hdue⟩

/-- **Every step posts one attestation or none**, whatever change bitcoind puts behind it. -/
theorem Step.posts (h : Step prim allowed app app') (change : TxOut) :
    ∃ new, StepPosts prim allowed app app' new := by
  cases h with
  | submitMint l1 now proof l2Destination _ =>
      have hstore := @submitMint_keeps prim app (fun a => a.store = app.store) (fun _ h => h) l1 now
        proof l2Destination rfl
      exact ⟨[], .silent (by rw [hstore]) (by rw [hstore])⟩
  | submitTransfer now transfer _ =>
      have hstore := @submitTransfer_keeps prim app (fun a => a.store = app.store)
        (fun _ h => h) now
        transfer rfl
      exact ⟨[], .silent (by rw [hstore]) (by rw [hstore])⟩
  | @produceBlock env _ _ hsettle =>
      rcases hrun : Sequencer.produceBlock prim env app with ⟨result, app₁⟩
      obtain ⟨hanchor, hpending⟩ := produceBlock_anchors hrun
      rw [hrun] at hsettle
      rw [← settle_store hsettle] at hanchor hpending
      exact ⟨[], .silent hanchor hpending⟩
  | @checkAndAttest env _ hallowed hsettle =>
      rcases hrun : Sequencer.checkAndAttest prim env app with ⟨result, app₁⟩
      rcases checkAndAttest_posts hrun with ⟨mid, entry, hbroadcast⟩ | ⟨hanchor, hpending⟩
      · exact ⟨_, .broadcast change (hallowed hbroadcast.attests) hbroadcast hsettle⟩
      · rw [hrun] at hsettle
        rw [← settle_store hsettle] at hanchor hpending
        exact ⟨[], .silent hanchor hpending⟩
  | monitorPending hsettle => exact ⟨[], .monitored hsettle⟩
  | restart hrestart =>
      have hstore := restart_store hrestart
      exact ⟨[], .silent (by rw [hstore]) (by rw [hstore])⟩

/-- A round of monitoring stores anchors it has read. -/
theorem monitorPending_over (env : MonitorEnv) :
    Action.Keeps (fun app : AppState => app.store.Over Known) (monitorPending env) := by
  refine (keeps_storeCall _ _).bind fun _ => ?_
  refine Action.Triple.bind (Q := fun read app => read.store.Over Known ∧ app.store.Over Known)
    (.get fun _ h => ⟨h, h⟩) fun read => ?_
  by_cases hnone : read.store.pendingAttestations = []
  · rw [if_pos hnone]
    exact .pure fun _ h => h.2
  · rw [if_neg hnone]
    refine Action.Triple.bind (Q := fun acc app => (∀ e ∈ acc.surviving, Known e.spentAnchor) ∧
      (∀ op, acc.anchorToRevert = some op → Known op) ∧ app.store.Over Known)
      (.lift (fun acc app hacc hover => ?_) fun _ _ _ h => h.2) fun acc => ?_
    · obtain ⟨hsurviving, hrevert⟩ := monitorLoop_ok (mapErr_ok_iff.mp hacc)
      rw [Option.or_none] at hrevert
      rw [List.nil_append] at hsurviving
      refine ⟨fun e he => ?_, fun op hop => ?_, hover.2⟩
      · rw [hsurviving] at he
        exact hover.1.pending e (List.mem_filter.mp he).1
      · rw [hrevert] at hop
        obtain ⟨e, he, rfl⟩ := Option.map_eq_some_iff.mp hop
        exact hover.1.pending e (List.mem_filter.mp (List.mem_of_getLast? he)).1
    · rintro app ⟨hsurviving, hrevert, hover⟩
      refine Action.Triple.bind (P := fun app => app.store.Over Known)
        (keeps_setStore (f := (·.setPendingAttestations acc.surviving)) _ _
          fun app h => ⟨h.anchor, hsurviving⟩) (fun _ => ?_) app hover
      cases hto : acc.anchorToRevert with
      | none => exact .pure fun _ h => h
      | some op =>
          have hrevertTo : ∀ app : AppState, app.store.Over Known →
              (app.store.setAnchor op).Over Known := by
            refine fun app h => ⟨fun op' hop' => ?_, h.pending⟩
            obtain rfl := Option.some.inj hop'
            exact hrevert _ hto
          refine (keeps_setStore (f := (·.setAnchor op)) _ _ hrevertTo).bind fun _ => ?_
          refine (keeps_storeCall _ _).bind fun _ => ?_
          show Action.Triple _ (if _ then _ else _) _ _
          split_ifs
          · exact keeps_setStore _ _ fun app h => ⟨h.anchor, h.pending⟩
          · exact .pure fun _ h => h

/-- A store over known anchors is then over these and the change of what was posted. -/
theorem StepPosts.over (h : StepPosts prim allowed app app' new) (hover : app.store.Over Known) :
    app'.store.Over fun op => Known op ∨ ∃ p ∈ new, op = p.newAnchor := by
  cases h with
  | silent hanchor hpending =>
      refine ⟨fun op hop => .inl (hover.anchor op ?_), fun e he => .inl (hover.pending e ?_)⟩
      · rw [← hanchor]
        exact hop
      · rw [← hpending]
        exact he
  | @monitored env hsettle =>
      rcases hrun : monitorPending env app with ⟨result, app₁⟩
      have hkept : app₁.store.Over Known := by
        have hrun' := (monitorPending_over env).run hover
        rw [hrun] at hrun'
        exact hrun'
      rw [hrun] at hsettle
      rw [settle_store hsettle]
      exact ⟨fun op hop => .inl (hkept.anchor op hop), fun e he => .inl (hkept.pending e he)⟩
  | @broadcast env mid entry change _ hbroadcast hsettle =>
      rcases hrun : checkAndAttest prim env app with ⟨result, app₁⟩
      have hleaves := hbroadcast.leaves hrun
      have hspent := hover.anchor _ (hbroadcast.frame.1.symm.trans hbroadcast.anchor)
      rw [hrun] at hsettle
      rw [settle_store hsettle]
      have hnew : ∀ op, app₁.store.anchor = some entry.newAnchor → app₁.store.anchor = some op →
          Known op ∨ ∃ p ∈ [(⟨Attestation.new mid.shared.head.height mid.shared.head.blockHash
            mid.shared.head.stateRoot, entry.spentAnchor, entry.txid, change⟩ : Posted)],
            op = p.newAnchor := by
        intro op hset hop
        obtain rfl := Option.some.inj (hset.symm.trans hop)
        exact .inr ⟨_, List.mem_singleton_self _, hbroadcast.created⟩
      cases hpoint : recordPoint env.faults with
      | unanchored =>
          rw [hpoint] at hleaves
          refine ⟨fun op hop => .inl (hover.anchor op ?_), fun e he => .inl (hover.pending e ?_)⟩
          · rw [← hleaves.1]
            exact hop
          · rw [← hleaves.2]
            exact he
      | untracked =>
          rw [hpoint] at hleaves
          refine ⟨fun op hop => hnew op hleaves.1 hop, fun e he => .inl (hover.pending e ?_)⟩
          rw [← hleaves.2]
          exact he
      | recorded =>
          rw [hpoint] at hleaves
          refine ⟨fun op hop => hnew op hleaves.1 hop, fun e he => .inl ?_⟩
          rw [hleaves.2] at he
          rcases List.mem_append.mp he with hold | hlast
          · exact hover.pending e hold
          · rw [List.mem_singleton.mp hlast]
            exact hspent

/-! ### The head that is attested -/

theorem keeps_recordAttestation_core (faults : StoreCall → Option Fault) (tip l2HeadHeight : UInt32)
    (spentAnchor : OutPoint) (txid : Txid) :
    Action.Keeps (SameCore app) (recordAttestation faults tip l2HeadHeight spentAnchor txid) := by
  refine (keeps_setStore _ _ fun _ h => ⟨h.1, h.2, h.3, h.4⟩).bind fun _ => ?_
  refine (keeps_setStore _ _ fun _ h => ⟨h.1, h.2, h.3, h.4⟩).bind fun _ => ?_
  refine (keeps_storeCall _ _).bind fun _ => ?_
  refine Action.Triple.bind (Q := fun _ => SameCore app) (.get fun _ h => h) fun _ => ?_
  exact keeps_setStore _ _ fun _ h => ⟨h.1, h.2, h.3, h.4⟩

/-- What a restart loads goes by the blocks and the states. -/
theorem SameCore.resume (h : SameCore app app') :
    Sequencer.resume prim app'.store = Sequencer.resume prim app.store := by
  unfold Sequencer.resume Store.loadLatestState Store.getBlock
  rw [h.blocks, h.stateSnapshots]

theorem synced_of_view {view : UInt32 → L1View}
    (h : (system prim (Produces prim view)).Reachable app) : Synced prim app := by
  have hinit : ∀ app, (system prim (Produces prim view)).init app →
      (system prim (FailsHarmlessly prim)).init app := fun _ hstarted => hstarted
  exact synced_of_reachable
    (h.mono hinit fun _ _ hstep => Step.mono hstep fun _ _ hallowed => hallowed.1)

/-- What is posted attests the head the sequencer goes on with, also after a crash. -/
theorem StepPosts.attests {view : UInt32 → L1View}
    (hreach : (system prim (Produces prim view)).Reachable app)
    (hstep : Step prim (Produces prim view) app app')
    (hallowed : ∀ env, allowed env app → Produces prim view env app)
    (h : StepPosts prim allowed app app' new) : new = [] ∨ ∃ p, new = [p] ∧
      p.attestation = Attestation.new app'.shared.head.height app'.shared.head.blockHash
        app'.shared.head.stateRoot := by
  cases h with
  | silent _ _ => exact .inl rfl
  | monitored _ => exact .inl rfl
  | @broadcast env mid entry change henv hbroadcast hsettle =>
      have hmid : (system prim (Produces prim view)).Reachable mid := by
        refine hreach.step (.produceBlock (hallowed _ henv) ?_)
        rw [hbroadcast.produced]
        rfl
      have hcore : SameCore mid (checkAndAttest prim env app).2 := by
        rw [hbroadcast.checkAndAttest]
        exact (keeps_recordAttestation_core _ _ _ _ _).run (SameCore.refl mid)
      have hresume : Sequencer.resume prim app'.store = Sequencer.resume prim mid.store := by
        rw [settle_store hsettle]
        exact hcore.resume
      have hbefore := synced_of_view hmid
      have hafter := synced_of_view (hreach.step hstep)
      rw [Synced, hresume, hbefore] at hafter
      obtain ⟨-, hhead⟩ := Prod.mk.inj (Option.some.inj (Except.ok.inj hafter))
      exact .inr ⟨_, rfl, by rw [← hhead]⟩

end

/-! ### The system -/

/-- Everything deployed, and all that has been posted. -/
structure Posting extends Deployed where
  posted : List Posted

section

variable (prim : Primitives) (seen : UInt32 → Chain) (anchor0 : OutPoint) (own : L2Address)

/-- The calls of `produce_block` that are allowed: those that go through, and check mints against L1
as it is or was. -/
def Deployed.Allows (s : Deployed) (env : BlockEnv) (app : AppState) : Prop :=
  Produces prim (viewOf seen) env app ∧ seen (app.shared.head.height + 1) <+: s.l1

/-- The sequencer does something, and what that posts is known to bitcoind from then on; L1 takes a
block, in which what is posted alone spends anchors; the node processes an attestation that is on
L1; or a query of the wallet succeeds. -/
inductive PostingStep (s : Posting) : Posting → Prop
  | sequencer {app' : AppState} {new : List Posted} (h : Step prim (s.Allows prim seen) s.app app')
      (hposts : StepPosts prim (s.Allows prim seen) s.app app' new)
      (hown : ∀ p ∈ new, OwnId anchor0 s.posted s.l1.txs p) :
      PostingStep s
        { s with
          app := app'
          attested := s.attested ++ new.map fun p => (p.attestation, app'.shared.state)
          posted := s.posted ++ new }
  | mine (block : BtcBlock) (hvalid : Chain.Valid (s.l1 ++ [block]))
      (hlength : (s.l1 ++ [block]).length ≤ 2 ^ 32)
      (hspent : SpentByPosted anchor0 s.posted block.txdata) :
      PostingStep s { s with l1 := s.l1 ++ [block] }
  | processAdvance (adv : ChainAdvance) (h : adv ∈ s.l1.links anchor0) :
      PostingStep s { s with node := (s.processAdvance prim (viewOf seen) adv).2.toNodeState }
  | lightBalance {fuel : ℕ} {addr : Option L2Address} {res : LightBalanceResult}
      (hfuel : s.l1.txs.length < fuel) (h : s.lightBalance prim own fuel addr = .ok res) :
      PostingStep s { s with wallet := some res.head }

/-- Nothing is posted, and nothing spends the first anchor. -/
structure PostingStart (s : Posting) : Prop where
  deployed : DeployedStart prim anchor0 s.toDeployed
  posted : s.posted = []
  unspent : ¬ s.l1.Spends anchor0

def postingSystem : System Posting :=
  ⟨PostingStart prim anchor0, PostingStep prim seen anchor0 own⟩

/-- What holds of the posted attestations in every run. -/
structure Posting.Kept (s : Posting) : Prop where
  deployed : (deployedSystem prim seen anchor0 own).Reachable s.toDeployed
  well : PostedWell anchor0 (s.attested.map Prod.fst) s.posted
  stored : s.app.store.Over (IsAnchor anchor0 s.posted)
  spent : SpentByPosted anchor0 s.posted s.l1.txs

end

section

variable {prim : Primitives} {seen : UInt32 → Chain} {anchor0 : OutPoint} {own : L2Address}
  {s s' : Posting}

/-- The anchor a sequencer starts with is the one in its first block. -/
theorem Started.anchor {app : AppState} {genesis : L2Block} (h : Started prim app)
    (hgenesis : app.store.getBlock 0 = some genesis) :
    app.store.anchor = genesis.header.anchorOutpoint ∧ app.store.pendingAttestations = [] := by
  obtain ⟨identity, l1BlockHash, l1GenesisHeight, now, anchor, hstart⟩ := h
  simp only [coldStart, bind_ok_iff, Store.writeBlockAndState_ok_iff, pure_ok_iff] at hstart
  obtain ⟨store, ⟨-, rfl⟩, rfl⟩ := hstart
  obtain rfl := Option.some.inj (Eq.trans (Std.ExtTreeMap.getElem?_insert_self).symm hgenesis)
  exact ⟨rfl, rfl⟩

theorem PostingStart.kept (h : PostingStart prim anchor0 s) : s.Kept prim seen anchor0 own := by
  obtain ⟨genesis, hgenesis, hanchor⟩ := h.deployed.anchor
  obtain ⟨hstored, hpending⟩ := Started.anchor h.deployed.followed.1 hgenesis
  have hnone : ∀ p, p ∉ s.posted := by
    intro p hp
    rw [h.posted] at hp
    cases hp
  refine ⟨.init h.deployed, ⟨fun p hp => absurd hp (hnone p), fun p hp => absurd hp (hnone p),
    fun p hp => absurd hp (hnone p), fun p hp => absurd hp (hnone p),
    fun p hp => absurd hp (hnone p)⟩,
    ⟨fun op hop => ?_, fun e he => ?_⟩, fun tx htx op hop hin => ?_⟩
  · rw [hstored, hanchor] at hop
    exact .inl (Option.some.inj hop).symm
  · rw [hpending] at he
    cases he
  · rcases hin with rfl | ⟨p, hp, -⟩
    · exact absurd ⟨tx, htx, hop⟩ h.unspent
    · exact absurd hp (hnone p)

theorem Store.Over.mono {Known Known' : OutPoint → Prop} {store : Store} (h : store.Over Known)
    (hmore : ∀ op, Known op → Known' op) : store.Over Known' :=
  ⟨fun op hop => hmore op (h.anchor op hop), fun e he => hmore _ (h.pending e he)⟩

/-- What is posted spends the stored anchor, and attests in the current version. -/
theorem StepPosts.spends {allowed : BlockEnv → AppState → Prop} {app app' : AppState}
    {new : List Posted} (h : StepPosts prim allowed app app' new) : ∀ p ∈ new,
      app.store.anchor = some p.anchorIn ∧ p.attestation.version = attestationVersion := by
  intro p hp
  cases h with
  | silent _ _ => cases hp
  | monitored _ => cases hp
  | broadcast change henv hbroadcast hsettle =>
      rw [List.mem_singleton.mp hp]
      exact ⟨hbroadcast.frame.1.symm.trans hbroadcast.anchor, rfl⟩

/-- What is posted is above the head that the call found. -/
theorem StepPosts.above {allowed : BlockEnv → AppState → Prop} {app app' : AppState}
    {new : List Posted} (hrowed : Rowed app) (h : StepPosts prim allowed app app' new) :
    ∀ p ∈ new, app.shared.head.height < p.attestation.height := by
  intro p hp
  cases h with
  | silent _ _ => cases hp
  | monitored _ => cases hp
  | @broadcast env mid entry change henv hbroadcast hsettle =>
      rw [List.mem_singleton.mp hp]
      obtain ⟨m, hrows, hle⟩ := hrowed
      have hend := produceBlock_ends hbroadcast.produced
      generalize hr : (Except.ok () : Except Halt Unit) = result at hend
      cases hend with
      | noTip => cases hr
      | unwritten => cases hr
      | behind => cases hr
      | @done tip htip hwrite hcursor =>
          obtain ⟨-, hup⟩ := hrows.gap hle hwrite.blocks
          have hheight : (env.block.finished prim tip app).shared.head.height
              = app.shared.head.height + 1 := rfl
          show app.shared.head.height < (env.block.finished prim tip app).shared.head.height
          rw [hheight, UInt32.lt_iff_toNat_lt, hup]
          omega

/-- The head is not below what has been attested. -/
theorem InStep.attested_le {f : Followed} (h : InStep prim (viewOf seen) f) :
    ∀ p ∈ f.attested, p.1.height ≤ f.app.shared.head.height := by
  obtain ⟨m, hlinked, -⟩ := followable_of_reachable h.reachable
  obtain ⟨r, hr, -, hhead⟩ := (synced_of_view h.reachable).row hlinked.rows
  have hheight : f.app.shared.head.height = m := by
    rw [hhead]
    exact hlinked.rows.height m _ (Store.row_eq_some_iff.mp hr).1
  intro p hp
  obtain ⟨r', hr', -⟩ := h.attested p hp
  rw [hheight]
  exact hlinked.rows.row_le hr'

/-- What is posted then attests the head, which is above all that was posted before. -/
theorem Posting.Kept.sequencer (h : s.Kept prim seen anchor0 own) {app' : AppState}
    {new : List Posted} (hstep : Step prim (s.Allows prim seen) s.app app')
    (hposts : StepPosts prim (s.Allows prim seen) s.app app' new) :
    (deployedSystem prim seen anchor0 own).Reachable { s.toDeployed with
      app := app'
      attested := s.attested ++ new.map fun p => (p.attestation, app'.shared.state) } ∧
    (new = [] ∨ ∃ p, new = [p] ∧ 0 < p.attestation.height ∧
      ∀ q ∈ s.posted, q.attestation.height < p.attestation.height) := by
  have hnext : (deployedSystem prim seen anchor0 own).Reachable { s.toDeployed with app := app' } :=
    h.deployed.step (.sequencer hstep)
  have hproduces : Step prim (Produces prim (viewOf seen)) s.app app' :=
    hstep.mono fun _ _ hallows => hallows.1
  rcases hposts.attests (sound_of_reachable h.deployed).inStep.reachable hproduces
    (fun _ hallows => hallows.1) with rfl | ⟨p, rfl, hatt⟩
  · refine ⟨?_, .inl rfl⟩
    rw [List.map_nil, List.append_nil]
    exact hnext
  · have hinStep := (sound_of_reachable h.deployed).inStep
    obtain ⟨m, hlinked, hle⟩ := followable_of_reachable hinStep.reachable
    have habove := hposts.above ⟨m, hlinked.rows, hle⟩ p (List.mem_singleton_self _)
    refine ⟨?_, .inr ⟨p, rfl, UInt32.lt_of_le_of_lt UInt32.zero_le habove, fun q hq => ?_⟩⟩
    · rw [List.map_singleton, hatt]
      exact hnext.step .attest
    · obtain ⟨⟨att, state⟩, hmem, hsame⟩ := List.mem_map.mp (h.well.attested q hq)
      refine UInt32.lt_of_le_of_lt ?_ habove
      rw [← hsame]
      exact hinStep.attested_le _ hmem

theorem Posting.Kept.step (h : s.Kept prim seen anchor0 own)
    (hstep : PostingStep prim seen anchor0 own s s') : s'.Kept prim seen anchor0 own := by
  cases hstep with
  | @sequencer app' new hseq hposts hown =>
      obtain ⟨hdeployed, hnew⟩ := h.sequencer hseq hposts
      have hstored := hposts.over h.stored
      have hmore : s.attested.map Prod.fst ⊆
          (s.attested ++ new.map fun p => (p.attestation, app'.shared.state)).map Prod.fst := by
        rw [List.map_append]
        exact List.subset_append_left _ _
      have hwell : PostedWell anchor0
          ((s.attested ++ new.map fun p => (p.attestation, app'.shared.state)).map Prod.fst)
          s.posted :=
        ⟨fun p hp => hmore (h.well.attested p hp), h.well.version, h.well.spends, h.well.above,
          h.well.rises⟩
      refine ⟨hdeployed, ?_, hstored.mono ?_, ?_⟩
      · rcases hnew with rfl | ⟨p, rfl, habove, hhigh⟩
        · show PostedWell _ _ (s.posted ++ [])
          rw [List.append_nil]
          exact hwell
        · obtain ⟨hin, hversion⟩ := hposts.spends p (List.mem_singleton_self _)
          refine hwell.push ?_ hversion (h.stored.anchor _ hin)
            (hown p (List.mem_singleton_self _)) habove hhigh
          rw [List.map_append]
          exact List.mem_append_right _ (List.mem_singleton_self _)
      · rintro op (hold | ⟨p, hp, rfl⟩)
        · exact hold.mono (List.subset_append_left _ _)
        · exact .inr ⟨p, List.mem_append_right _ hp, rfl⟩
      · rcases hnew with rfl | ⟨p, rfl, -⟩
        · show SpentByPosted _ (s.posted ++ []) _
          rw [List.append_nil]
          exact h.spent
        · exact h.spent.push (hown p (List.mem_singleton_self _))
  | mine block hvalid hlength hspent =>
      have hall : SpentByPosted anchor0 s.posted (Chain.txs (s.l1 ++ [block])) := by
        intro tx htx
        have hsplit : Chain.txs (s.l1 ++ [block]) = s.l1.txs ++ block.txdata := by
          simp [Chain.txs]
        rw [hsplit, List.mem_append] at htx
        rcases htx with htx | htx
        · exact h.spent tx htx
        · exact hspent tx htx
      obtain ⟨tx, htx, hfunds⟩ := (sound_of_reachable h.deployed).carries.funded
      have hfunded : ∃ tx ∈ Chain.txs (s.l1 ++ [block]), anchor0.txid = tx.txid := by
        refine ⟨tx, ?_, hfunds⟩
        unfold Chain.txs
        rw [List.flatMap_append]
        exact List.mem_append_left _ htx
      exact ⟨h.deployed.step (.mine block (carries_of_posted h.well hvalid hlength hfunded hall).1),
        h.well, h.stored, hall⟩
  | processAdvance adv hadv =>
      exact ⟨h.deployed.step (.processAdvance adv hadv), h.well, h.stored, h.spent⟩
  | lightBalance hfuel hres =>
      exact ⟨h.deployed.step (.lightBalance hfuel hres), h.well, h.stored, h.spent⟩

theorem kept_of_reachable (h : (postingSystem prim seen anchor0 own).Reachable s) :
    s.Kept prim seen anchor0 own :=
  h.invariant (I := fun s => s.Kept prim seen anchor0 own) (fun _ => PostingStart.kept)
    fun _ _ _ hkept hstep => hkept.step hstep

/-- **Posting keeps one chain on L1.**  In every run, in which the sequencer may stop anywhere in
recording what it posts, and its monitoring goes back to any anchor it followed, and L1 takes
whichever of the posted transactions: the links from the first anchor are not broken off, each is a
posted attestation of a block of the sequencer, by height, hash and state root, and each is above
the one before it.  So the run is one of the deployed system, in which L1 carries attestations. -/
theorem posted_chain {prim : Primitives} {seen : UInt32 → Chain} {anchor0 : OutPoint}
    {own : L2Address} {s : Posting} (h : (postingSystem prim seen anchor0 own).Reachable s) :
    (∃ last, (Chain.pass anchor0 s.l1.placed).2 = .ok last) ∧
    (∀ adv ∈ s.l1.links anchor0, (∃ p ∈ s.posted, p.attestation = adv.attestation) ∧
      ∃ r, s.app.store.row adv.attestation.height = some r ∧
        adv.attestation = r.block.attestation prim) ∧
    s.l1.Rises anchor0 ∧ (deployedSystem prim seen anchor0 own).Reachable s.toDeployed := by
  have hkept := kept_of_reachable h
  have hsound := sound_of_reachable hkept.deployed
  have hwell : PostedWell anchor0 (s.posted.map (·.attestation)) s.posted :=
    ⟨fun p hp => List.mem_map_of_mem hp, hkept.well.version, hkept.well.spends, hkept.well.above,
      hkept.well.rises⟩
  obtain ⟨hcarries, hrises⟩ := carries_of_posted hwell hsound.carries.valid hsound.carries.length
    hsound.carries.funded hkept.spent
  refine ⟨hcarries.unbroken, fun adv hadv => ⟨?_, ?_⟩, hrises, hkept.deployed⟩
  · obtain ⟨p, hp, hatt⟩ := List.mem_map.mp (hcarries.posted (List.mem_map_of_mem hadv))
    exact ⟨p, hp, hatt⟩
  · obtain ⟨state, hmem⟩ := hsound.attested hadv
    obtain ⟨r, hr, hatt, -⟩ := hsound.inStep.attested _ hmem
    exact ⟨r, hr, hatt⟩

end

/-! ### A crash -/

/-- Where the cursor of a new sequencer is. -/
theorem Started.cursor {prim : Primitives} {app : AppState} {genesis : L2Block}
    (h : Started prim app)
    (hgenesis : app.store.getBlock 0 = some genesis) : app.store.lastAttestedL1Height = none ∧
      app.store.l1Cursor = some genesis.header.l1Height := by
  obtain ⟨identity, l1BlockHash, l1GenesisHeight, now, anchor, hstart⟩ := h
  simp only [coldStart, bind_ok_iff, Store.writeBlockAndState_ok_iff, pure_ok_iff] at hstart
  obtain ⟨store, ⟨-, rfl⟩, rfl⟩ := hstart
  obtain rfl := Option.some.inj (Eq.trans (Std.ExtTreeMap.getElem?_insert_self).symm hgenesis)
  exact ⟨rfl, rfl⟩

/-- What the sequencer may do over that chain. -/
abbrev FundedAllows (app : AppState) (node : NodeState) : BlockEnv → AppState → Prop :=
  Deployed.Allows Primitives.sample (fun _ => lockChain) ⟨⟨app, [], node⟩, fundedChain, none⟩

theorem fundedChain_unspent (op : OutPoint) : ¬ fundedChain.Spends op := by
  intro h
  obtain ⟨tx, htx, hop⟩ := h
  rw [fundedChain_quiet tx htx] at hop
  cases hop

/-- A new sequencer over that chain, with its node. -/
theorem exists_posting_start :
    ∃ app node, Started Primitives.sample app ∧ Synced Primitives.sample app ∧
    PostingStart Primitives.sample rootAnchor ⟨⟨⟨app, [], node⟩, fundedChain, none⟩, []⟩ ∧
    app.store.anchor = some rootAnchor ∧ app.store.pendingAttestations = [] ∧
    app.store.lastAttestedL1Height = none ∧ app.store.l1Cursor = some 0 ∧
    app.shared.state = LedgerState.start (some sampleIdentity.xOnlyPublicKey) ∧
    app.shared.mempool = .empty ∧
    ∀ genesis, app.store.getBlock 0 = some genesis → genesis.header.l1Height < 1 := by
  obtain ⟨app, happ⟩ := exists_coldStart Primitives.sample sampleIdentity H256.zero 0 0 rootAnchor
  have hstarted : Started Primitives.sample app := ⟨_, _, _, _, _, happ⟩
  obtain ⟨first, -, hlatest, hhead, -⟩ := coldStart_latest happ
  have hsynced : Synced Primitives.sample app := by
    rw [Synced, hhead]
    exact hlatest.resume
  obtain ⟨hanchor, hpending, hlast, hcursor, hstate, hmempool⟩ :
      app.store.anchor = some rootAnchor ∧ app.store.pendingAttestations = [] ∧
      app.store.lastAttestedL1Height = none ∧ app.store.l1Cursor = some 0 ∧
      app.shared.state = LedgerState.start (some sampleIdentity.xOnlyPublicKey) ∧
      app.shared.mempool = .empty := by
    simp only [coldStart, bind_ok_iff, Store.writeBlockAndState_ok_iff, pure_ok_iff] at happ
    obtain ⟨store, ⟨-, rfl⟩, rfl⟩ := happ
    exact ⟨rfl, rfl, rfl, rfl, rfl, rfl⟩
  obtain ⟨node, hfollowed⟩ := exists_followedStart hstarted
  have hfirst : ∃ genesis, app.store.getBlock 0 = some genesis ∧
      genesis.header.anchorOutpoint = some rootAnchor := by
    obtain ⟨-, -, genesis, hgenesis, -⟩ := id hfollowed
    exact ⟨genesis, hgenesis, (Started.anchor hstarted hgenesis).1.symm.trans hanchor⟩
  refine ⟨app, node, hstarted, hsynced, ⟨⟨hfollowed, hfirst, fundedChain_carries, rfl⟩, rfl,
    fundedChain_unspent rootAnchor⟩, hanchor, hpending, hlast, hcursor, hstate, hmempool,
    fun genesis hgenesis => ?_⟩
  have hheight := (Started.cursor hstarted hgenesis).2
  rw [← Option.some.inj (hcursor.symm.trans hheight)]
  decide

/-- A sequencer over that chain stops right after a broadcast, with nothing of it stored. -/
theorem crash_posts {app : AppState} {node : NodeState} (hrowed : Rowed app)
    (hsynced : Synced Primitives.sample app) (hwrite : Writable steadyEnv app)
    (hheight : app.shared.head.height = 0) (hanchor : app.store.anchor = some rootAnchor)
    (hlast : app.store.lastAttestedL1Height = none) (hcursor : app.store.l1Cursor = some 0) :
    ∃ tip app' p, steadyEnv.l1Tip = .ok tip ∧
      app'.store = (steadyEnv.finished Primitives.sample tip app).store ∧
      Step Primitives.sample (FundedAllows app node) app app' ∧
      StepPosts Primitives.sample (FundedAllows app node) app app' [p] ∧
      OwnId rootAnchor [] fundedChain.txs p ∧ p.tx = attestedTx p.attestation ∧
      p.attestation.version = attestationVersion := by
  obtain ⟨tip, htip⟩ := steadyEnv_l1Tip
  have hproduce := @produceBlock_done Primitives.sample steadyEnv app tip htip hwrite rfl
  obtain ⟨mid, hmid⟩ : ∃ mid, mid = steadyEnv.finished Primitives.sample tip app := ⟨_, rfl⟩
  rw [← hmid] at hproduce
  have hread : lastAttested crashing.faults app = (.ok 0, app) := by
    have hcalls : crashing.faults .lastAttestedL1Height = none ∧
        crashing.faults .l1Cursor = none := ⟨rfl, rfl⟩
    unfold lastAttested
    simp only [Action.bind_run, storeCall_run, hcalls.1, hcalls.2, Action.get_run, hlast, hcursor]
    rfl
  have hbroadcast : Broadcasts Primitives.sample crashing app mid firstAttestation := by
    refine ⟨⟨0, hread, by decide⟩, rfl, hproduce, rfl, ?_, rfl, rfl, ?_⟩
    · rw [hmid]
      exact hanchor
    · rw [hmid]
      show (1 : UInt32) = app.shared.head.height + 1
      rw [hheight]
      rfl
  have hstands : Synced Primitives.sample mid := by
    obtain ⟨prev, block, hsuccessor⟩ := (produceBlock_ends hproduce).successor hrowed hsynced
    exact hsuccessor.synced
  have hcheck : checkAndAttest Primitives.sample crashing app = (.error .stopped, mid) := by
    rw [hbroadcast.checkAndAttest]
    unfold recordAttestation
    rw [Action.bind_run, setStore_run]
    rfl
  have hsettle : settle Primitives.sample (checkAndAttest Primitives.sample crashing app)
      = some ⟨Shared.new mid.shared.state mid.shared.head mid.shared.identity, mid.store⟩ := by
    rw [hcheck]
    exact restart_eq_some_iff.mpr ⟨_, _, hstands, rfl⟩
  have hallows : FundedAllows app node crashing.block app := by
    refine ⟨⟨fun e app' h => ?_, fun _ => rfl⟩, List.prefix_append _ _⟩
    rw [hbroadcast.produced] at h
    cases h
  have hstore : mid.store = (steadyEnv.finished Primitives.sample tip app).store :=
    congrArg AppState.store hmid
  refine ⟨tip, ⟨Shared.new mid.shared.state mid.shared.head mid.shared.identity, mid.store⟩,
    ⟨Attestation.new mid.shared.head.height mid.shared.head.blockHash mid.shared.head.stateRoot,
      rootAnchor, firstAttestation.txid, ⟨900, []⟩⟩, htip, hstore,
    .checkAndAttest (fun _ => hallows) hsettle,
    .broadcast _ hallows hbroadcast hsettle, ⟨?_, ?_, ?_⟩, rfl, rfl⟩
  · have hother : rootAnchor.txid ≠ firstAttestation.txid := by decide
    exact hother
  · intro q hq
    cases hq
  · exact fun tx htx op hop => absurd ⟨tx, htx, hop⟩ (fundedChain_unspent op)

/-- A sequencer that stops right after its first broadcast, with nothing of it stored. -/
theorem exists_crash_posted : ∃ app app' node p,
    PostingStart Primitives.sample rootAnchor ⟨⟨⟨app, [], node⟩, fundedChain, none⟩, []⟩ ∧
    Step Primitives.sample (FundedAllows app node) app app' ∧
    StepPosts Primitives.sample (FundedAllows app node) app app' [p] ∧
    OwnId rootAnchor [] fundedChain.txs p ∧ p.tx = attestedTx p.attestation ∧
    p.attestation.version = attestationVersion ∧ app'.store.anchor = some rootAnchor ∧
    app'.store.pendingAttestations = [] ∧
    ∀ genesis, app.store.getBlock 0 = some genesis → genesis.header.l1Height < 1 := by
  obtain ⟨app, node, hstarted, hsynced, hstart, hanchor, hpending, hlast, hcursor, -, -, hlow⟩ :=
    exists_posting_start
  obtain ⟨hheight, hwrite⟩ := @Started.writable _ app steadyEnv hstarted rfl
  obtain ⟨tip, app', p, -, hstore, hstep, hposts, hown, htx, hversion⟩ :=
    @crash_posts app node hstarted.rowed hsynced hwrite hheight hanchor hlast hcursor
  refine ⟨app, app', node, p, hstart, hstep, hposts, hown, htx, hversion, ?_, ?_, hlow⟩
  · rw [hstore]
    exact hanchor
  · rw [hstore]
    exact hpending

/-- The sequencer stops right after its first broadcast, with nothing of it stored, and L1 takes the
transaction: there is the one link. -/
theorem posted_chain_crash : ∃ s,
    (postingSystem Primitives.sample (fun _ => lockChain) rootAnchor
      shortMint.event.l2Destination).Reachable s ∧
    s.app.store.anchor = some rootAnchor ∧ s.app.store.pendingAttestations = [] ∧
    (s.l1.links rootAnchor).length = 1 ∧
    ∀ adv ∈ s.l1.links rootAnchor, ∃ r, s.app.store.row adv.attestation.height = some r ∧
      adv.attestation = r.block.attestation Primitives.sample := by
  obtain ⟨app, app', node, p, hstart, hstep, hposts, hown, htx, hversion, hanchor, hpending, -⟩ :=
    exists_crash_posted
  have hcalled : (postingSystem Primitives.sample (fun _ => lockChain) rootAnchor
      shortMint.event.l2Destination).Reachable
        ⟨⟨⟨app', [(p.attestation, app'.shared.state)], node⟩, fundedChain, none⟩, [p]⟩ := by
    have hown' : ∀ q ∈ [p], OwnId rootAnchor [] fundedChain.txs q := by
      intro q hq
      rw [List.mem_singleton.mp hq]
      exact hown
    exact .step (.init hstart) (@PostingStep.sequencer _ _ _ _
      ⟨⟨⟨app, [], node⟩, fundedChain, none⟩, []⟩ app' [p] hstep hposts hown')
  -- the transaction is mined
  have hmined := hcalled.step (.mine ⟨[attestedTx p.attestation]⟩ (attested_carries hversion).valid
    (attested_carries hversion).length ?_)
  · have hlinks := attested_links hversion
    obtain ⟨-, hall, -, -⟩ := posted_chain hmined
    refine ⟨_, hmined, hanchor, hpending, ?_, fun adv hadv => (hall adv hadv).2⟩
    show (Chain.links rootAnchor (fundedChain ++ [⟨[attestedTx p.attestation]⟩])).length = 1
    rw [Chain.links, hlinks]
    rfl
  · intro tx hmem op _ _
    rw [List.mem_singleton.mp hmem, ← htx]
    exact ⟨p, List.mem_singleton_self _, rfl⟩

end Hodlchain.Sequencer
