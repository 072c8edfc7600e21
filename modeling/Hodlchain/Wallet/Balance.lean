/-
The two balance queries a wallet verifies.

`verify_balance` checks one answer of a server in itself; `light_balance` keeps a
head, walks it forward along L1, and reads the own balance from the head and any
other from an answer checked under the head's root.  All of them end at an inclusion
proof, and the address a balance is shown for is the one the user asked about.

Each stage of a query has answers of its own, but sees one snapshot of Esplora: an L1
that grows between two requests of one walk is not modelled.
-/
import Hodlchain.Wallet.Bootstrap

namespace Hodlchain

open Bytes LedgerState

section

variable (prim : Primitives)

/-! ### `verify_balance` -/

inductive VerifyBalanceError where
  | balanceRequest
  | components (derived reported : H256)
  | against (reported expected : H256)
  | proofAddress (proof response : L2Address)
  | proof
  | leafBalance (leaf reported : UInt64)
  | leafNonce (leaf reported : UInt64)
  | emptyLeaf (balance nonce : UInt64)
deriving DecidableEq, Repr

structure VerifyBalanceOutput where
  address : L2Address
  balance : UInt64
  nonce : UInt64
  l2Height : UInt32
  stateRoot : H256
  boundToL1 : Bool
deriving DecidableEq, Repr

/-- Step 2: the optional binding to L1. -/
def checkAgainst (reported : H256) : Option H256 → Except VerifyBalanceError Unit
  | some expected => ensure (expected = reported) (.against reported expected)
  | none => pure ()

/-- Step 4: the leaf in the proof against the reported values. -/
def checkReported (leaf : LeafKind) (balance nonce : UInt64) : Except VerifyBalanceError Unit :=
  match leaf with
  | .account b n => do
      ensure (b = balance) (.leafBalance b balance)
      ensure (n = nonce) (.leafNonce n nonce)
  | .empty => ensure (balance = 0 ∧ nonce = 0) (.emptyLeaf balance nonce)

/-- `verify_balance`, with `--addr` decoded. -/
def verifyBalance (api : ApiServer) (own : L2Address) (addr : Option L2Address)
    (against : Option H256) : Except VerifyBalanceError VerifyBalanceOutput := do
  let target := addr.getD own
  let bal ← okOr (api.balance target) .balanceRequest
  let derived := bal.stateComponents.stateRoot prim
  ensure (derived = bal.stateRoot) (.components derived bal.stateRoot)
  checkAgainst bal.stateRoot against
  ensure (bal.proof.address = bal.address) (.proofAddress bal.proof.address bal.address)
  ensure (bal.proof.verify prim bal.stateComponents.accountsRoot = true) .proof
  checkReported bal.proof.leaf bal.balance bal.nonce
  pure
    { address := target
      balance := bal.balance
      nonce := bal.nonce
      l2Height := bal.l2Height
      stateRoot := bal.stateRoot
      boundToL1 := against.isSome }

/-! ### `walk_forward` -/

inductive WalkForwardError where
  | walk (cause : WalkError)
  | tipHeight
  | block (cause : VerifyError)
deriving DecidableEq, Repr

/-- `n` heights of an attested range, from `h` up. -/
def walkRange (api : ApiServer) (esplora : EsploraServer) (tip : UInt32) (att : Attestation) :
    Nat → UInt32 → VerifiedHead → Except WalkForwardError (VerifiedHead × List TxEvent)
  | 0, _, head => pure (head, [])
  | n + 1, h, head => do
      let endAttestation := if h = att.height then some att else none
      let (head, events) ← mapErr .block (verifyOneL2Block prim head h endAttestation tip
        api.toApiClient esplora.toEsploraClient)
      let (head, events') ← walkRange api esplora tip att n (h + 1) head
      pure (head, events ++ events')

/-- The loop over the attestations; it counts the blocks it verified. -/
def walkSteps (api : ApiServer) (esplora : EsploraServer) (tip : UInt32) :
    List ChainStep → VerifiedHead → Except WalkForwardError (VerifiedHead × Nat × List TxEvent)
  | [], head => pure (head, 0, [])
  | step :: steps, head =>
      let target := step.attestation.height
      if target ≤ head.l2Height then
        walkSteps api esplora tip steps { head with anchorOutpoint := step.newAnchor }
      else do
        let n := target.toNat - head.l2Height.toNat
        let (head, events) ← walkRange prim api esplora tip step.attestation n
          (head.l2Height + 1) head
        let (head, count, events') ← walkSteps api esplora tip steps
          { head with anchorOutpoint := step.newAnchor, l1Height := step.l1Height }
        pure (head, n + count, events ++ events')

/-- `walk_forward`. -/
def walkForward (fuel : Nat) (head : VerifiedHead) (api : ApiServer) (esplora : EsploraServer) :
    Except WalkForwardError (VerifiedHead × Nat × List TxEvent) := do
  let chain ← mapErr .walk (walkAttestationChain esplora fuel head.anchorOutpoint)
  match chain with
  | [] => pure (head, 0, [])
  | step :: steps => do
      let tip ← okOr esplora.tipHeight .tipHeight
      walkSteps prim api esplora tip (step :: steps) head

/-! ### `light_balance` -/

inductive LightBalanceMode where
  | coldStart
  | warmStart
deriving DecidableEq, Repr

inductive LightBalanceError where
  | otherAddress (tracked : L2Address)
  | coldStart (cause : ColdStartError)
  | walkForward (cause : WalkForwardError)
  | balanceRequest
  | stateRoot (node head : H256)
  | proof
  | leafDisagrees
deriving DecidableEq, Repr

structure LightBalanceOutput where
  mode : LightBalanceMode
  blocksVerified : Nat
  l2Height : UInt32
  stateRoot : H256
  accountsRoot : H256
  blockHash : H256
  l1Height : UInt32
  address : L2Address
  balance : UInt64
  nonce : UInt64
  isOwnAddress : Bool
  totalMintedAtoms : UInt64
deriving DecidableEq, Repr

/-- What a query leaves: its output, the head to persist, and the events it saw. -/
structure LightBalanceResult where
  output : LightBalanceOutput
  head : VerifiedHead
  events : List TxEvent

/-- The persisted head must be of the wallet's own address. -/
def checkTracked (own : L2Address) : Option VerifiedHead → Except LightBalanceError Unit
  | some h => ensure (h.ownAddress = own) (.otherAddress h.ownAddress)
  | none => pure ()

/-- The head to walk from, and how it was come by. -/
def startHead (fuel : Nat) (api : ApiServer) (esplora : EsploraServer) (own : L2Address) :
    Option VerifiedHead → Except LightBalanceError (VerifiedHead × LightBalanceMode)
  | none => do
      let head ← mapErr .coldStart (Verify.bootstrap prim fuel api esplora own)
      pure (head, .coldStart)
  | some head => pure (head, .warmStart)

/-- The one-time top-up of a head persisted without a minted total. -/
def topUp (api : ApiServer) (own : L2Address) (head : VerifiedHead) :
    Except LightBalanceError VerifiedHead :=
  if head.totalMintedAtoms = 0 ∧ head.l2Height > 0 then do
    let bal ← okOr (api.balance own) .balanceRequest
    pure { head with totalMintedAtoms := bal.totalMintedAtoms }
  else pure head

/-- The other-address path: an answer checked under the head's accounts root. -/
def otherBalance (api : ApiServer) (head : VerifiedHead) (target : L2Address) :
    Except LightBalanceError (UInt64 × UInt64) := do
  let bal ← okOr (api.balance target) .balanceRequest
  ensure (bal.stateRoot = head.stateRoot) (.stateRoot bal.stateRoot head.stateRoot)
  ensure (bal.proof.verify prim head.accountsRoot = true) .proof
  let values := bal.proof.leaf.values
  ensure (values.1 = bal.balance ∧ values.2 = bal.nonce) .leafDisagrees
  pure values

/-- The balance of `target`: the own one is in the head. -/
def readBalance (api : ApiServer) (own target : L2Address) (head : VerifiedHead) :
    Except LightBalanceError (UInt64 × UInt64) :=
  if target = own then pure (balanceFrom head own) else otherBalance prim api head target

/-- Who answers a query, stage by stage.  Both chains may grow while it runs, and a request that two
stages make is answered by each for itself; within a stage L1 stands still. -/
structure Stages where
  coldStart : ApiServer
  coldStartL1 : EsploraServer
  walk : ApiServer
  walkL1 : EsploraServer
  topUp : ApiServer
  read : ApiServer

/-- The same servers all along. -/
def Stages.all (api : ApiServer) (esplora : EsploraServer) : Stages :=
  ⟨api, esplora, api, esplora, api, api⟩

/-- `light_balance` up to the history: the head to walk from, and the walk. -/
def lightWalk (fuel : Nat) (s : Stages) (own : L2Address) (persisted : Option VerifiedHead) :
    Except LightBalanceError (VerifiedHead × LightBalanceMode × Nat × List TxEvent) := do
  let (head, mode) ← startHead prim fuel s.coldStart s.coldStartL1 own persisted
  let (head, blocksVerified, events) ←
    mapErr .walkForward (walkForward prim fuel head s.walk s.walkL1)
  pure (head, mode, blocksVerified, events)

/-- The values shown under a head. -/
def lightOutput (own target : L2Address) (mode : LightBalanceMode) (blocksVerified : Nat)
    (head : VerifiedHead) (balance nonce : UInt64) : LightBalanceOutput :=
  { mode := mode
    blocksVerified := blocksVerified
    l2Height := head.l2Height
    stateRoot := head.stateRoot
    accountsRoot := head.accountsRoot
    blockHash := head.blockHash
    l1Height := head.l1Height
    address := target
    balance := balance
    nonce := nonce
    isOwnAddress := target = own
    totalMintedAtoms := head.totalMintedAtoms }

/-- `light_balance` from the history on: the top-up, and the balance under the head. -/
def lightRead (s : Stages) (own target : L2Address) (mode : LightBalanceMode) (blocksVerified : Nat)
    (head : VerifiedHead) : Except LightBalanceError (VerifiedHead × LightBalanceOutput) := do
  let head ← topUp s.topUp own head
  let (balance, nonce) ← readBalance prim s.read own target head
  pure (head, lightOutput own target mode blocksVerified head balance nonce)

/-- `light_balance`, with `--addr` decoded, on the persisted head; what it writes to the history
between the walk and the top-up is left to its caller. -/
def lightBalanceOver (fuel : Nat) (s : Stages) (own : L2Address) (addr : Option L2Address)
    (persisted : Option VerifiedHead) : Except LightBalanceError LightBalanceResult := do
  let target := addr.getD own
  checkTracked own persisted
  let (head, mode, blocksVerified, events) ← lightWalk prim fuel s own persisted
  let (head, output) ← lightRead prim s own target mode blocksVerified head
  pure ⟨output, head, events⟩

/-- A query that one node answers, over an L1 that stands still. -/
def lightBalance (fuel : Nat) (api : ApiServer) (esplora : EsploraServer) (own : L2Address)
    (addr : Option L2Address) (persisted : Option VerifiedHead) :
    Except LightBalanceError LightBalanceResult :=
  lightBalanceOver prim fuel (.all api esplora) own addr persisted

end

section

variable {prim : Primitives}

/-! ### The stages of a query -/

variable {fuel : Nat} {s : Stages} {own target : L2Address} {persisted : Option VerifiedHead}
  {mode : LightBalanceMode} {count : Nat} {events : List TxEvent}

theorem lightWalk_ok_iff {walked : VerifiedHead} :
    lightWalk prim fuel s own persisted = .ok (walked, mode, count, events) ↔ ∃ start,
      startHead prim fuel s.coldStart s.coldStartL1 own persisted = .ok (start, mode) ∧
      walkForward prim fuel start s.walk s.walkL1 = .ok (walked, count, events) := by
  simp only [lightWalk, bind_ok_iff, mapErr_ok_iff, pure_ok_iff, Prod.mk.injEq]
  constructor
  · rintro ⟨⟨start, mode'⟩, hstart, ⟨walked', count', events'⟩, hwalk, rfl, rfl, rfl, rfl⟩
    exact ⟨start, hstart, hwalk⟩
  · rintro ⟨start, hstart, hwalk⟩
    exact ⟨_, hstart, _, hwalk, rfl, rfl, rfl, rfl⟩

theorem lightRead_ok_iff {walked head : VerifiedHead} {output : LightBalanceOutput} :
    lightRead prim s own target mode count walked = .ok (head, output) ↔
      topUp s.topUp own walked = .ok head ∧ ∃ balance nonce,
        readBalance prim s.read own target head = .ok (balance, nonce) ∧
        lightOutput own target mode count head balance nonce = output := by
  simp only [lightRead, bind_ok_iff, pure_ok_iff, Prod.mk.injEq]
  constructor
  · rintro ⟨head', htop, ⟨balance, nonce⟩, hread, rfl, rfl⟩
    exact ⟨htop, balance, nonce, hread, rfl⟩
  · rintro ⟨htop, balance, nonce, hread, rfl⟩
    exact ⟨head, htop, _, hread, rfl, rfl⟩

/-- A query goes through when every stage of it does. -/
theorem lightBalanceOver_ok_iff {addr : Option L2Address} {r : LightBalanceResult} :
    lightBalanceOver prim fuel s own addr persisted = .ok r ↔ checkTracked own persisted = .ok () ∧
      ∃ start mode walked count events head balance nonce,
        startHead prim fuel s.coldStart s.coldStartL1 own persisted = .ok (start, mode) ∧
        walkForward prim fuel start s.walk s.walkL1 = .ok (walked, count, events) ∧
        topUp s.topUp own walked = .ok head ∧
        readBalance prim s.read own (addr.getD own) head = .ok (balance, nonce) ∧
        ⟨lightOutput own (addr.getD own) mode count head balance nonce, head, events⟩ = r := by
  simp only [lightBalanceOver, bind_ok_iff, pure_ok_iff]
  constructor
  · rintro ⟨_, htracked, ⟨walked, mode, count, events⟩, hwalk, ⟨head, output⟩, hread, rfl⟩
    obtain ⟨start, hstart, hwalked⟩ := lightWalk_ok_iff.mp hwalk
    obtain ⟨htop, balance, nonce, hbal, rfl⟩ := lightRead_ok_iff.mp hread
    exact ⟨htracked, start, mode, walked, count, events, head, balance, nonce, hstart, hwalked,
      htop, hbal, rfl⟩
  · rintro ⟨htracked, start, mode, walked, count, events, head, balance, nonce, hstart, hwalked,
      htop, hbal, rfl⟩
    exact ⟨(), htracked, _, lightWalk_ok_iff.mpr ⟨start, hstart, hwalked⟩, _,
      lightRead_ok_iff.mpr ⟨htop, balance, nonce, hbal, rfl⟩, rfl⟩

theorem lightBalance_ok_iff {api : ApiServer} {esplora : EsploraServer} {addr : Option L2Address}
    {r : LightBalanceResult} :
    lightBalance prim fuel api esplora own addr persisted = .ok r ↔
      checkTracked own persisted = .ok () ∧
      ∃ start mode walked count events head balance nonce,
        startHead prim fuel api esplora own persisted = .ok (start, mode) ∧
        walkForward prim fuel start api esplora = .ok (walked, count, events) ∧
        topUp api own walked = .ok head ∧
        readBalance prim api own (addr.getD own) head = .ok (balance, nonce) ∧
        ⟨lightOutput own (addr.getD own) mode count head balance nonce, head, events⟩ = r :=
  lightBalanceOver_ok_iff

end

section

variable {prim : Primitives}

/-! ### What a query rests on -/

theorem checkReported_ok_iff {leaf : LeafKind} {balance nonce : UInt64} :
    checkReported leaf balance nonce = .ok () ↔ leaf.values = (balance, nonce) := by
  cases leaf with
  | account b n =>
      simp only [checkReported, bind_ok_iff, ensure_ok_iff, LeafKind.values, Prod.mk.injEq]
      constructor
      · rintro ⟨_, hb, hn⟩
        exact ⟨hb, hn⟩
      · rintro ⟨hb, hn⟩
        exact ⟨(), hb, hn⟩
  | empty =>
      simp only [checkReported, LeafKind.values, ensure_ok_iff, Prod.mk.injEq]
      exact and_congr eq_comm eq_comm

/-- The checks an answer has passed when `verify_balance` returns it. -/
theorem verifyBalance_ok {api : ApiServer} {own : L2Address} {addr : Option L2Address}
    {against : Option H256} {bal : BalanceResponse} {out : VerifyBalanceOutput}
    (h : verifyBalance prim api own addr against = .ok out)
    (hbal : api.balance (addr.getD own) = some bal) :
    bal.stateComponents.stateRoot prim = bal.stateRoot ∧
      bal.proof.verify prim bal.stateComponents.accountsRoot = true ∧
      bal.proof.leaf.values = (out.balance, out.nonce) ∧ out.stateRoot = bal.stateRoot := by
  simp only [verifyBalance, bind_ok_iff, ensure_ok_iff, okOr_ok_iff, hbal, Option.some.injEq,
    exists_eq_left', pure_ok_iff] at h
  obtain ⟨_, hcomp, _, -, _, -, _, hproof, _, hleaf, rfl⟩ := h
  exact ⟨hcomp, hproof, checkReported_ok_iff.mp hleaf, rfl⟩

/-- The head's own leaf and path are a proof for `a` under its accounts root. -/
def VerifiedHead.Shows (prim : Primitives) (head : VerifiedHead) (a : L2Address) : Prop :=
  (InclusionProof.mk a head.ownLeaf head.ownPath).verify prim head.accountsRoot = true

theorem refreshObserver_address {observer q : InclusionProof} {updates : List Update}
    {priorRoot : H256} (h : refreshObserver prim observer updates priorRoot = .ok q) :
    q.address = observer.address := by
  rw [refreshObserver] at h
  split_ifs at h
  · rw [← Except.ok.inj h]
  · cases hv : validateUpdates prim updates priorRoot with
    | error e => simp [hv] at h
    | ok u =>
        rw [hv] at h
        rw [← Except.ok.inj h]

theorem refreshOwn_address {height : UInt32} {observer q : InclusionProof} {updates : List Update}
    {priorRoot : H256} (h : refreshOwn prim height observer updates priorRoot = .ok q) :
    q.address = observer.address := by
  rw [refreshOwn] at h
  split_ifs at h
  · rw [← Except.ok.inj h]
  · exact refreshObserver_address (mapErr_ok_iff.mp h)

/-- A verified block leaves a head that shows the own account. -/
theorem verifyOneL2Block_shows {head head' : VerifiedHead} {height tip : UInt32}
    {att : Option Attestation} {api : ApiClient} {esplora : EsploraClient} {events : List TxEvent}
    (h : verifyOneL2Block prim head height att tip api esplora = .ok (head', events)) :
    head'.ownAddress = head.ownAddress ∧ head'.Shows prim head'.ownAddress := by
  simp only [verifyOneL2Block, bind_ok_iff, ensure_ok_iff, pure_ok_iff, Prod.mk.injEq] at h
  obtain ⟨_, -, _, -, _, -, _, -, _, -, sparse, -, newRoot, -, _, -, q, hq, _, hshow, rfl, -⟩ := h
  have haddr : q.address = head.ownAddress := refreshOwn_address hq
  refine ⟨rfl, ?_⟩
  simp only [VerifiedHead.Shows, ← haddr]
  exact hshow

theorem walkRange_shows {api : ApiServer} {esplora : EsploraServer} {tip : UInt32}
    {att : Attestation} {n : Nat} :
    ∀ {h : UInt32} {head head' : VerifiedHead} {events : List TxEvent},
      walkRange prim api esplora tip att n h head = .ok (head', events) →
      head'.ownAddress = head.ownAddress ∧
        (if n = 0 then head' = head else head'.Shows prim head'.ownAddress) := by
  induction n with
  | zero =>
      intro h head head' events hrun
      simp only [walkRange, pure_ok_iff, Prod.mk.injEq] at hrun
      obtain ⟨rfl, -⟩ := hrun
      exact ⟨rfl, rfl⟩
  | succ n ih =>
      intro h head head' events hrun
      simp only [walkRange, bind_ok_iff, mapErr_ok_iff, pure_ok_iff, Prod.mk.injEq] at hrun
      obtain ⟨⟨mid, evs⟩, hone, ⟨last, evs'⟩, hrest, rfl, -⟩ := hrun
      obtain ⟨hown, hshow⟩ := verifyOneL2Block_shows hone
      obtain ⟨hownRest, hend⟩ := ih hrest
      refine ⟨hownRest.trans hown, ?_⟩
      rw [if_neg (Nat.succ_ne_zero n)]
      split_ifs at hend with hn
      · rw [hend]
        exact hshow
      · exact hend

/-- What a walk leaves of a head: all that a balance is read from, as long as no block was
verified; once one was, the head shows the own account. -/
structure Walked (prim : Primitives) (head head' : VerifiedHead) (count : Nat) : Prop where
  ownAddress : head'.ownAddress = head.ownAddress
  same : count = 0 → head'.stateRoot = head.stateRoot ∧ head'.accountsRoot = head.accountsRoot ∧
    head'.ownLeaf = head.ownLeaf ∧ head'.ownPath = head.ownPath
  shows : count ≠ 0 → head'.Shows prim head'.ownAddress

theorem walkSteps_walked {api : ApiServer} {esplora : EsploraServer} {tip : UInt32}
    {steps : List ChainStep} :
    ∀ {head head' : VerifiedHead} {count : Nat} {events : List TxEvent},
      walkSteps prim api esplora tip steps head = .ok (head', count, events) →
      Walked prim head head' count := by
  induction steps with
  | nil =>
      intro head head' count events h
      simp only [walkSteps, pure_ok_iff, Prod.mk.injEq] at h
      obtain ⟨rfl, rfl, -⟩ := h
      exact ⟨rfl, fun _ => ⟨rfl, rfl, rfl, rfl⟩, fun h0 => absurd rfl h0⟩
  | cons step steps ih =>
      intro head head' count events h
      rw [walkSteps] at h
      split_ifs at h with hpast
      · have hrest := ih h
        exact ⟨hrest.ownAddress, hrest.same, hrest.shows⟩
      · simp only [bind_ok_iff, pure_ok_iff, Prod.mk.injEq] at h
        obtain ⟨⟨mid, evs⟩, hrange, ⟨last, k, evs'⟩, hsteps, rfl, rfl, -⟩ := h
        obtain ⟨hown, hmid⟩ := walkRange_shows hrange
        have hrest := ih hsteps
        have hlt : head.l2Height.toNat < step.attestation.height.toNat :=
          UInt32.lt_iff_toNat_lt.mp (UInt32.not_le.mp hpast)
        rw [if_neg (by omega)] at hmid
        refine ⟨hrest.ownAddress.trans hown, fun h0 => absurd h0 (by omega), fun _ => ?_⟩
        by_cases hk : k = 0
        · obtain ⟨-, hroot, hleaf, hpath⟩ := hrest.same hk
          simp only [VerifiedHead.Shows, hroot, hleaf, hpath, hrest.ownAddress]
          exact hmid
        · exact hrest.shows hk

theorem walkForward_walked {fuel : Nat} {head head' : VerifiedHead} {api : ApiServer}
    {esplora : EsploraServer} {count : Nat} {events : List TxEvent}
    (h : walkForward prim fuel head api esplora = .ok (head', count, events)) :
    Walked prim head head' count := by
  simp only [walkForward, bind_ok_iff, mapErr_ok_iff] at h
  obtain ⟨chain, -, h⟩ := h
  cases chain with
  | nil =>
      simp only [pure_ok_iff, Prod.mk.injEq] at h
      obtain ⟨rfl, rfl, -⟩ := h
      exact ⟨rfl, fun _ => ⟨rfl, rfl, rfl, rfl⟩, fun h0 => absurd rfl h0⟩
  | cons step steps =>
      simp only [bind_ok_iff] at h
      obtain ⟨tip, -, h⟩ := h
      exact walkSteps_walked h

/-- L1 has an attestation above the head. -/
def hasNews (esplora : EsploraServer) (fuel : Nat) (head : VerifiedHead) : Bool :=
  match walkAttestationChain esplora fuel head.anchorOutpoint with
  | .ok chain => chain.any fun step => head.l2Height < step.attestation.height
  | .error _ => false

theorem walkSteps_count {api : ApiServer} {esplora : EsploraServer} {tip : UInt32}
    {steps : List ChainStep} :
    ∀ {head head' : VerifiedHead} {count : Nat} {events : List TxEvent},
      walkSteps prim api esplora tip steps head = .ok (head', count, events) →
      (count = 0 ↔ (steps.any fun step => head.l2Height < step.attestation.height) = false) := by
  induction steps with
  | nil =>
      intro head head' count events h
      simp only [walkSteps, pure_ok_iff, Prod.mk.injEq] at h
      simp [h.2.1.symm]
  | cons step steps ih =>
      intro head head' count events h
      rw [walkSteps] at h
      split_ifs at h with hpast
      · rw [ih h]
        simp [UInt32.not_lt.mpr hpast]
      · simp only [bind_ok_iff, pure_ok_iff, Prod.mk.injEq] at h
        obtain ⟨⟨mid, evs⟩, -, ⟨last, k, evs'⟩, -, -, rfl, -⟩ := h
        have hlt : head.l2Height.toNat < step.attestation.height.toNat :=
          UInt32.lt_iff_toNat_lt.mp (UInt32.not_le.mp hpast)
        have hpos : step.attestation.height.toNat - head.l2Height.toNat + k ≠ 0 := by omega
        exact iff_of_false hpos (by simp [UInt32.not_le.mp hpast])

/-- A walk verifies blocks exactly when there is an attestation above the head. -/
theorem walkForward_count {fuel : Nat} {head head' : VerifiedHead} {api : ApiServer}
    {esplora : EsploraServer} {count : Nat} {events : List TxEvent}
    (h : walkForward prim fuel head api esplora = .ok (head', count, events)) :
    count = 0 ↔ hasNews esplora fuel head = false := by
  simp only [walkForward, bind_ok_iff, mapErr_ok_iff] at h
  obtain ⟨chain, hchain, h⟩ := h
  rw [hasNews, hchain]
  cases chain with
  | nil =>
      simp only [pure_ok_iff, Prod.mk.injEq] at h
      simp [h.2.1.symm]
  | cons step steps =>
      simp only [bind_ok_iff] at h
      obtain ⟨tip, -, h⟩ := h
      exact walkSteps_count h

/-- A walk ends at an unspent anchor. -/
theorem walkFrom_end {esplora : EsploraServer} {fuel : Nat} :
    ∀ {anchor : OutPoint} {chain : List ChainStep}, walkFrom esplora fuel anchor = .ok chain →
      ∃ outspend, outspend.spent = false ∧
        esplora.getOutspend ((chain.getLast?.map (·.newAnchor)).getD anchor).txid
          ((chain.getLast?.map (·.newAnchor)).getD anchor).vout = some outspend := by
  induction fuel with
  | zero => intro anchor chain h; cases h
  | succ fuel ih =>
      intro anchor chain h
      simp only [walkFrom, bind_ok_iff, okOr_ok_iff] at h
      obtain ⟨outspend, hout, h⟩ := h
      split_ifs at h with hspent
      · obtain rfl := pure_ok_iff.mp h
        exact ⟨outspend, by simpa using hspent, hout⟩
      · simp only [bind_ok_iff, pure_ok_iff] at h
        obtain ⟨step, -, rest, hrest, rfl⟩ := h
        obtain ⟨last, hunspent, hlast⟩ := ih hrest
        refine ⟨last, hunspent, ?_⟩
        cases rest with
        | nil => exact hlast
        | cons next rest =>
            rw [List.getLast?_cons] at hlast
            rw [List.getLast?_cons_cons, List.getLast?_cons]
            exact hlast

/-- A cold start is at the tip of the attestation chain. -/
theorem bootstrap_noNews {fuel : Nat} {api : ApiServer} {esplora : EsploraServer}
    {own : L2Address} {head : VerifiedHead}
    (h : Verify.bootstrap prim fuel api esplora own = .ok head) :
    hasNews esplora fuel head = false := by
  obtain ⟨bal, items, l1, hcold, rfl⟩ := bootstrap_ok_iff.mp h
  obtain ⟨genesis, anchor0, chain, -, -, hchain, rfl⟩ := hcold.walk
  simp only [walkAttestationChain, bind_ok_iff] at hchain
  obtain ⟨_, -, _, -, hchain⟩ := hchain
  obtain ⟨outspend, hunspent, hout⟩ := walkFrom_end hchain
  have hanchor : (attestedHead prim genesis anchor0 chain).anchorOutpoint
      = (chain.getLast?.map (·.newAnchor)).getD anchor0 := by
    rw [attestedHead]
    cases chain.getLast? <;> rfl
  rw [← hanchor] at hout
  simp only [hasNews, coldHead]
  cases hwalk : walkAttestationChain esplora fuel
      (attestedHead prim genesis anchor0 chain).anchorOutpoint with
  | error e => rfl
  | ok again =>
      simp only [walkAttestationChain, bind_ok_iff] at hwalk
      obtain ⟨_, -, _, -, hwalk⟩ := hwalk
      cases fuel with
      | zero => cases hwalk
      | succ fuel =>
          simp only [walkFrom, hout, okOr, hunspent, Bool.not_false, if_true, bind_ok_iff,
            Except.ok.injEq, exists_eq_left', pure_ok_iff] at hwalk
          rw [← hwalk]
          rfl

theorem topUp_ok {api : ApiServer} {own : L2Address} {head head' : VerifiedHead}
    (h : topUp api own head = .ok head') :
    ∃ total, head' = { head with totalMintedAtoms := total } := by
  rw [topUp] at h
  split_ifs at h
  · simp only [bind_ok_iff, pure_ok_iff] at h
    obtain ⟨bal, -, rfl⟩ := h
    exact ⟨_, rfl⟩
  · exact ⟨head.totalMintedAtoms, (pure_ok_iff.mp h).symm⟩

theorem otherBalance_ok_iff {api : ApiServer} {head : VerifiedHead} {target : L2Address}
    {bal : BalanceResponse} {values : UInt64 × UInt64} (hbal : api.balance target = some bal) :
    otherBalance prim api head target = .ok values ↔ bal.stateRoot = head.stateRoot ∧
      bal.proof.verify prim head.accountsRoot = true ∧
      bal.proof.leaf.values = (bal.balance, bal.nonce) ∧ values = bal.proof.leaf.values := by
  simp only [otherBalance, bind_ok_iff, ensure_ok_iff, okOr_ok_iff, hbal, Option.some.injEq,
    exists_eq_left', pure_ok_iff, Prod.ext_iff]
  constructor
  · rintro ⟨_, hroot, _, hproof, _, hleaf, hb, hn⟩
    exact ⟨hroot, hproof, hleaf, hb.symm, hn.symm⟩
  · rintro ⟨hroot, hproof, hleaf, hb, hn⟩
    exact ⟨(), hroot, (), hproof, (), hleaf, hb.symm, hn.symm⟩

/-- The address that an answer's proof is for. -/
def answeredFor (api : ApiServer) (target : L2Address) : L2Address :=
  ((api.balance target).map (·.proof.address)).getD target

/-- The address that the own leaf of a wallet's head is proved for after a query: that of the
proof a cold start is answered with; on a warm start the own one, if there was a block to
verify, and else the one it was proved for before. -/
def shownAfter (own : L2Address) (api : ApiServer) (esplora : EsploraServer) (fuel : Nat) :
    Option (VerifiedHead × L2Address) → L2Address
  | none => answeredFor api own
  | some (head, a) => if hasNews esplora fuel head then own else a

/-- A wallet's persisted head over any queries, with the address its own leaf was proved for. -/
inductive WalletHistory (prim : Primitives) (own : L2Address) :
    Option (VerifiedHead × L2Address) → Prop
  | fresh : WalletHistory prim own none
  | query {st : Option (VerifiedHead × L2Address)} {fuel : Nat} {api : ApiServer}
      {esplora : EsploraServer} {addr : Option L2Address} {r : LightBalanceResult}
      (h : WalletHistory prim own st)
      (hquery : lightBalance prim fuel api esplora own addr (st.map Prod.fst) = .ok r) :
      WalletHistory prim own (some (r.head, shownAfter own api esplora fuel st))

/-- What a query leaves behind, and where its answer comes from. -/
structure Answered (prim : Primitives) (own : L2Address) (api : ApiServer) (shown : L2Address)
    (addr : Option L2Address) (r : LightBalanceResult) : Prop where
  ownAddress : r.head.ownAddress = own
  shows : r.head.Shows prim shown
  accountsRoot : r.output.accountsRoot = r.head.accountsRoot
  ownValues : addr.getD own = own → (r.output.balance, r.output.nonce) = r.head.ownLeaf.values
  otherValues : addr.getD own ≠ own → ∃ bal, api.balance (addr.getD own) = some bal ∧
    bal.proof.verify prim r.head.accountsRoot = true ∧
    (r.output.balance, r.output.nonce) = bal.proof.leaf.values

/-- The head a query walks from, and what it will show. -/
theorem startHead_shows {fuel : Nat} {api : ApiServer} {esplora : EsploraServer} {own : L2Address}
    {st : Option (VerifiedHead × L2Address)} {head : VerifiedHead} {mode : LightBalanceMode}
    (hst : ∀ p ∈ st, p.1.ownAddress = own ∧ p.1.Shows prim p.2)
    (h : startHead prim fuel api esplora own (st.map Prod.fst) = .ok (head, mode)) :
    head.ownAddress = own ∧
      (hasNews esplora fuel head = false → head.Shows prim (shownAfter own api esplora fuel st)) ∧
      (hasNews esplora fuel head = true → shownAfter own api esplora fuel st = own) := by
  cases st with
  | some p =>
      simp only [startHead, Option.map_some, pure_ok_iff, Prod.mk.injEq] at h
      obtain ⟨rfl, -⟩ := h
      obtain ⟨hown, hshow⟩ := hst p rfl
      refine ⟨hown, fun hnews => ?_, fun hnews => ?_⟩
      · rw [shownAfter, hnews]
        exact hshow
      · rw [shownAfter, hnews]
        rfl
  | none =>
      simp only [startHead, Option.map_none, bind_ok_iff, mapErr_ok_iff, pure_ok_iff,
        Prod.mk.injEq] at h
      obtain ⟨cold, hcold, rfl, -⟩ := h
      have hnews := bootstrap_noNews hcold
      obtain ⟨bal, items, l1, hstart, rfl⟩ := bootstrap_ok_iff.mp hcold
      refine ⟨rfl, fun _ => ?_, fun htrue => ?_⟩
      · simp only [VerifiedHead.Shows, shownAfter, answeredFor, hstart.balance, Option.map_some,
          Option.getD_some, coldHead]
        exact hstart.proof
      · rw [hnews] at htrue
        cases htrue

theorem lightBalance_answered {fuel : Nat} {api : ApiServer} {esplora : EsploraServer}
    {own : L2Address} {addr : Option L2Address} {st : Option (VerifiedHead × L2Address)}
    {r : LightBalanceResult} (hst : ∀ p ∈ st, p.1.ownAddress = own ∧ p.1.Shows prim p.2)
    (h : lightBalance prim fuel api esplora own addr (st.map Prod.fst) = .ok r) :
    Answered prim own api (shownAfter own api esplora fuel st) addr r := by
  obtain ⟨-, start, mode, walked, count, events, head, balance, nonce, hstart, hwalk, htop, hread,
    rfl⟩ := lightBalance_ok_iff.mp h
  obtain ⟨hown, hold, hnew⟩ := startHead_shows hst hstart
  have hwalked := walkForward_walked hwalk
  have hcount := walkForward_count hwalk
  obtain ⟨total, rfl⟩ := topUp_ok htop
  refine
    { ownAddress := hwalked.ownAddress.trans hown
      shows := ?_
      accountsRoot := rfl
      ownValues := fun htarget => ?_
      otherValues := fun htarget => ?_ }
  · by_cases hzero : count = 0
    · obtain ⟨-, hroot, hleaf, hpath⟩ := hwalked.same hzero
      have hshow := hold (hcount.mp hzero)
      simp only [VerifiedHead.Shows, hroot, hleaf, hpath]
      exact hshow
    · have hshows := hwalked.shows hzero
      rw [hwalked.ownAddress, hown] at hshows
      rw [hnew (by simpa using mt hcount.mpr hzero)]
      exact hshows
  · rw [readBalance, if_pos htarget, pure_ok_iff] at hread
    show (balance, nonce) = walked.ownLeaf.values
    rw [← hread, ← hown, ← hwalked.ownAddress]
    exact balanceFrom_own { walked with totalMintedAtoms := total }
  · rw [readBalance, if_neg htarget] at hread
    cases hbal : api.balance (addr.getD own) with
    | none => simp [otherBalance, hbal, okOr, bind, Except.bind] at hread
    | some bal =>
        obtain ⟨-, hproof, -, hvalues⟩ := (otherBalance_ok_iff hbal).mp hread
        exact ⟨bal, rfl, hproof, hvalues⟩

/-- Every persisted head shows the address it is filed under. -/
theorem WalletHistory.shows {own : L2Address} {st : Option (VerifiedHead × L2Address)}
    (h : WalletHistory prim own st) : ∀ p ∈ st, p.1.ownAddress = own ∧ p.1.Shows prim p.2 := by
  induction h with
  | fresh => simp
  | query _ hquery ih =>
      have hanswered := lightBalance_answered ih hquery
      rintro p ⟨⟩
      exact ⟨hanswered.ownAddress, hanswered.shows⟩

/-- The address of the proof that an answer of `light_balance` rests on. -/
def restsOn (own : L2Address) (api : ApiServer) (esplora : EsploraServer) (fuel : Nat)
    (addr : Option L2Address) (st : Option (VerifiedHead × L2Address)) : L2Address :=
  if addr.getD own = own then shownAfter own api esplora fuel st
  else answeredFor api (addr.getD own)

/-- Two addresses hold the same in `s`. -/
def SameAccount (s : LedgerState) (a b : L2Address) : Prop :=
  s.balanceOf a = s.balanceOf b ∧ s.nonceOf a = s.nonceOf b

/-- The balance and nonce of `a` in `s`. -/
def IsBalanceOf (s : LedgerState) (a : L2Address) (balance nonce : UInt64) : Prop :=
  balance = s.balanceOf a ∧ nonce = s.nonceOf a

variable {U : Set Bytes} {s : LedgerState}

/-- Values read off a proof that is accepted under the ledger's root are those of the address in
the proof. -/
theorem isBalanceOf_iff (hcf : Set.InjOn prim.sha256 U) (hs : s.In prim U) {p : InclusionProof}
    (hp : p.In prim U) (hproof : p.verify prim (s.accountsRoot prim) = true)
    {target : L2Address} {balance nonce : UInt64} (hvalues : (balance, nonce) = p.leaf.values) :
    IsBalanceOf s target balance nonce ↔ SameAccount s p.address target := by
  have hgenuine := hp.genuine hcf (hs.proofs _) hproof
  have hleaf : p.leaf.values = (s.balanceOf p.address, s.nonceOf p.address) := by
    conv_lhs => rw [hgenuine]
    rw [leaf_accountInclusionProof, values_leaves]
  obtain ⟨rfl, rfl⟩ := Prod.mk.inj (hvalues.trans hleaf)
  rfl

/--
**A verified balance is the target's exactly when the proof it rests on is for the target, or
for an address that holds the same.**  For `verify_balance` that is the proof in the answer; so
it is for another address in `light_balance`; and for the own address it is the one the cold
start was answered with, until there has been a block to verify.
-/
theorem verified_balance_iff (hcf : Set.InjOn prim.sha256 U) (hs : s.In prim U) :
    (∀ api own addr against out bal, verifyBalance prim api own addr against = .ok out →
      api.balance (addr.getD own) = some bal → bal.stateComponents.preimage ∈ U →
      bal.proof.In prim U → out.stateRoot = s.stateRoot prim →
      (IsBalanceOf s (addr.getD own) out.balance out.nonce ↔
        SameAccount s bal.proof.address (addr.getD own))) ∧
    ∀ own st fuel api esplora addr r, WalletHistory prim own st →
      lightBalance prim fuel api esplora own addr (st.map Prod.fst) = .ok r →
      (InclusionProof.mk (shownAfter own api esplora fuel st) r.head.ownLeaf r.head.ownPath).In
        prim U →
      (∀ bal, ApiServer.balance api (addr.getD own) = some bal → bal.proof.In prim U) →
      r.output.accountsRoot = s.accountsRoot prim →
      (IsBalanceOf s (addr.getD own) r.output.balance r.output.nonce ↔
        SameAccount s (restsOn own api esplora fuel addr st) (addr.getD own)) := by
  constructor
  · intro api own addr against out bal h hbal hcomp hproof hroot
    obtain ⟨hstate, hverify, hleaf, hout⟩ := verifyBalance_ok h hbal
    have hsame : bal.stateComponents = s.components prim :=
      StateComponents.preimage_inj
        (hcf hcomp hs.components (hstate.trans (hout.symm.trans hroot)))
    rw [hsame] at hverify
    exact isBalanceOf_iff hcf hs hproof hverify hleaf.symm
  · intro own st fuel api esplora addr r hst h hown hother hroot
    have hanswered := lightBalance_answered hst.shows h
    rw [hanswered.accountsRoot] at hroot
    rw [restsOn]
    split_ifs with htarget
    · have hshows := hanswered.shows
      rw [VerifiedHead.Shows, hroot] at hshows
      exact isBalanceOf_iff hcf hs hown hshows (hanswered.ownValues htarget)
    · obtain ⟨bal, hbal, hverify, hvalues⟩ := hanswered.otherValues htarget
      rw [hroot] at hverify
      rw [answeredFor, hbal]
      exact isBalanceOf_iff hcf hs (hother bal hbal) hverify hvalues

end

/-! ### An answer about another account -/

/-- After the attestation there is nothing to walk. -/
theorem attesting_noWalk (prim : Primitives) (s : LedgerState) (api : ApiServer)
    (head : VerifiedHead) (hanchor : head.anchorOutpoint = ⟨firstAttestation, 1⟩) :
    walkForward prim 2 head api (attesting prim s) = .ok (head, 0, []) := by
  have hwalk : walkAttestationChain (attesting prim s) 2 head.anchorOutpoint = .ok [] := by
    rw [hanchor]
    exact attestingOnce_rest (Attestation.new 1 H256.zero (s.stateRoot prim))
  rw [walkForward, hwalk]
  rfl

/-- The head such a node gives a wallet. -/
def answerHead (prim : Primitives) (s : LedgerState) (a own : L2Address) : VerifiedHead :=
  coldHead own { s.balanceResponse prim 1 a 0 with address := own } s.consumedNullifiers.toList
    (attestedFirst prim s)

/-- A first query against a node that answers with the account of `a`, whatever was asked. -/
theorem lightBalance_answering (prim : Primitives) (s : LedgerState) (a own : L2Address)
    (addr : Option L2Address) :
    ∃ r, lightBalance prim 2 (answering prim s a) (attesting prim s) own addr none = .ok r ∧
      r.output.accountsRoot = s.accountsRoot prim ∧ r.output.address = addr.getD own ∧
      r.output.balance = s.balanceOf a ∧ r.output.nonce = s.nonceOf a ∧
      r.head.ownLeaf = s.leaves a ∧ r.head.ownPath = (s.accountInclusionProof prim a).siblings := by
  have hleaf : (s.accountInclusionProof prim a).leaf.values = (s.balanceOf a, s.nonceOf a) := by
    rw [leaf_accountInclusionProof, values_leaves]
  have hstart : startHead prim 2 (answering prim s a) (attesting prim s) own none
      = .ok (answerHead prim s a own, .coldStart) := by
    rw [startHead, bootstrap_ok_iff.mpr ⟨_, _, _, coldStart_answering prim s a own, rfl⟩]
    rfl
  have hwalk := attesting_noWalk prim s (answering prim s a) (answerHead prim s a own) rfl
  have htop : topUp (answering prim s a) own (answerHead prim s a own)
      = .ok (answerHead prim s a own) := by
    rw [topUp]
    split_ifs <;> rfl
  have hread : ∀ target, readBalance prim (answering prim s a) own target
      (answerHead prim s a own) = .ok (s.balanceOf a, s.nonceOf a) := by
    intro target
    rw [readBalance]
    split_ifs with htarget
    · exact congrArg Except.ok ((balanceFrom_own (answerHead prim s a own)).trans hleaf)
    · have hanswer : (answering prim s a).balance target
          = some { s.balanceResponse prim 1 a 0 with address := target } := rfl
      exact (otherBalance_ok_iff hanswer).mpr
        ⟨rfl, s.verify_accountInclusionProof a, hleaf, hleaf.symm⟩
  exact ⟨_, lightBalance_ok_iff.mpr
    ⟨rfl, _, _, _, _, _, _, _, _, hstart, hwalk, htop, hread _, rfl⟩,
    rfl, rfl, rfl, rfl, @leaf_accountInclusionProof prim s a, rfl⟩

/-- The node's answer to any request is the one about `a`. -/
def answeringAs (prim : Primitives) (s : LedgerState) (a : L2Address) : ApiServer :=
  { answering prim s a with balance := fun _ => some (s.balanceResponse prim 1 a 0) }

theorem verifyBalance_answeringAs (prim : Primitives) (s : LedgerState) (a own : L2Address) :
    ∃ out, verifyBalance prim (answeringAs prim s a) own none (some (s.stateRoot prim)) = .ok out ∧
      out.address = own ∧ out.stateRoot = s.stateRoot prim ∧ out.balance = s.balanceOf a ∧
      out.nonce = s.nonceOf a := by
  have hleaf : (s.accountInclusionProof prim a).leaf.values = (s.balanceOf a, s.nonceOf a) := by
    rw [leaf_accountInclusionProof, values_leaves]
  exact ⟨_, bind_ok_iff.mpr ⟨_, rfl, bind_ok_iff.mpr ⟨(), ensure_ok_iff.mpr rfl,
    bind_ok_iff.mpr ⟨(), ensure_ok_iff.mpr rfl, bind_ok_iff.mpr ⟨(), ensure_ok_iff.mpr rfl,
      bind_ok_iff.mpr ⟨(), ensure_ok_iff.mpr (s.verify_accountInclusionProof a),
        bind_ok_iff.mpr ⟨(), checkReported_ok_iff.mpr hleaf, rfl⟩⟩⟩⟩⟩⟩, rfl, rfl, rfl, rfl⟩

/-- Every query takes the account with five atoms for an empty one, under every hash:
`verify_balance` of the own address, `light_balance` of the own address, and `light_balance`
of another. -/
theorem verified_balance_other_account :
    let poor : L2Address := ⟨ByteArr.ofNat 32 2⟩
    let rich : L2Address := ⟨ByteArr.ofNat 32 1⟩
    fiveAtoms.balanceOf rich ≠ fiveAtoms.balanceOf poor ∧
    ∀ prim : Primitives,
    (∃ out, verifyBalance prim (answeringAs prim fiveAtoms rich) poor none
        (some (fiveAtoms.stateRoot prim)) = .ok out ∧
      out.stateRoot = fiveAtoms.stateRoot prim ∧
      ¬ IsBalanceOf fiveAtoms poor out.balance out.nonce) ∧
    (∃ r, lightBalance prim 2 (answering prim fiveAtoms rich) (attesting prim fiveAtoms) poor none
        none = .ok r ∧ r.output.accountsRoot = fiveAtoms.accountsRoot prim ∧
      ¬ IsBalanceOf fiveAtoms poor r.output.balance r.output.nonce) ∧
    ∃ r, lightBalance prim 2 (answering prim fiveAtoms rich) (attesting prim fiveAtoms) rich
        (some poor) none = .ok r ∧ r.output.accountsRoot = fiveAtoms.accountsRoot prim ∧
      ¬ IsBalanceOf fiveAtoms poor r.output.balance r.output.nonce := by
  intro poor rich
  have hne : fiveAtoms.balanceOf rich ≠ fiveAtoms.balanceOf poor := by decide +kernel
  refine ⟨hne, fun prim => ?_⟩
  obtain ⟨out, hout, -, hroot, hbal, -⟩ := verifyBalance_answeringAs prim fiveAtoms rich poor
  obtain ⟨own, hown, hownRoot, -, hownBal, -⟩ :=
    lightBalance_answering prim fiveAtoms rich poor none
  obtain ⟨other, hother, hotherRoot, -, hotherBal, -⟩ :=
    lightBalance_answering prim fiveAtoms rich rich (some poor)
  exact ⟨⟨out, hout, hroot, fun h => hne (hbal.symm.trans h.1)⟩,
    ⟨own, hown, hownRoot, fun h => hne (hownBal.symm.trans h.1)⟩,
    ⟨other, hother, hotherRoot, fun h => hne (hotherBal.symm.trans h.1)⟩⟩

/-- The proof of the own address that an honest node gives a fresh wallet. -/
theorem shown_answering {prim : Primitives} {s : LedgerState} {own : L2Address}
    {head : VerifiedHead} (hleaf : head.ownLeaf = s.leaves own)
    (hpath : head.ownPath = (s.accountInclusionProof prim own).siblings) :
    InclusionProof.mk (shownAfter own (answering prim s own) (attesting prim s) 2 none) head.ownLeaf
      head.ownPath = s.accountInclusionProof prim own := by
  rw [hleaf, hpath, ← @leaf_accountInclusionProof prim]
  rfl

/-- An honest node, with two accounts and a nullifier behind the attested root: both queries
answer for the address asked about. -/
theorem verified_balance_two :
    let prim := Primitives.weighing
    let s := twoLedger [spentNullifier]
    (∃ out, verifyBalance prim (answeringAs prim s firstKey) firstKey none (some (s.stateRoot prim))
        = .ok out ∧ IsBalanceOf s firstKey out.balance out.nonce) ∧
    ∃ r, lightBalance prim 2 (answering prim s firstKey) (attesting prim s) firstKey none none
        = .ok r ∧ IsBalanceOf s firstKey r.output.balance r.output.nonce := by
  intro prim s
  have hin : s.In prim (twoLedgerStrings [spentNullifier]) := twoLedger_in _
  obtain ⟨hverify, hlight⟩ := verified_balance_iff injOn_spentStrings hin
  constructor
  · obtain ⟨out, hout, -, hroot, -⟩ := verifyBalance_answeringAs prim s firstKey firstKey
    exact ⟨out, hout, (hverify _ _ _ _ _ _ hout rfl hin.components (hin.proofs _) hroot).mpr
      ⟨rfl, rfl⟩⟩
  · obtain ⟨r, hr, hroot, -, -, -, hleaf, hpath⟩ :=
      lightBalance_answering prim s firstKey firstKey none
    refine ⟨r, hr, (hlight firstKey none _ _ _ _ r .fresh hr ?_ ?_ hroot).mpr ⟨rfl, rfl⟩⟩
    · rw [shown_answering hleaf hpath]
      exact hin.proofs firstKey
    · rintro bal ⟨⟩
      exact hin.proofs firstKey

end Hodlchain
