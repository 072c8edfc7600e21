/-
L2 blocks: the header, its hash, and the genesis block.
-/
import Hodlchain.Core.State

namespace Hodlchain

open Bytes

structure L2BlockHeader where
  height : UInt32
  prevHash : H256
  l1BlockHash : H256
  /-- The L1 tip the block was produced under. -/
  l1Height : UInt32
  txsRoot : H256
  stateRoot : H256
  timestamp : UInt64
  /-- The root of the attestation chain; only in the genesis header. -/
  anchorOutpoint : Option OutPoint
  producer : Option L2Address
  /-- The chain's fee destination; only in the genesis header. -/
  sequencerFeeAddress : Option L2Address
deriving DecidableEq, Repr

structure L2Block where
  header : L2BlockHeader
  txs : List L2Tx
deriving DecidableEq, Repr

namespace L2BlockHeader

/-- The byte string `block_hash` hashes. -/
def preimage (h : L2BlockHeader) : Bytes :=
  utf8 "hodl-block-v3" ++ be32 h.height ++ h.prevHash.raw ++ h.l1BlockHash.raw ++ be32 h.l1Height
    ++ h.txsRoot.raw ++ h.stateRoot.raw ++ be64 h.timestamp
    ++ optBytes (fun op : OutPoint => op.txid.raw ++ be32 op.vout) h.anchorOutpoint
    ++ optBytes XOnlyPublicKey.serialize h.producer
    ++ optBytes XOnlyPublicKey.serialize h.sequencerFeeAddress

/-- `L2BlockHeader::block_hash`. -/
def blockHash (prim : Primitives) (h : L2BlockHeader) : H256 := prim.sha256 h.preimage

end L2BlockHeader

/-- `L2Block::hash`. -/
def L2Block.hash (prim : Primitives) (b : L2Block) : H256 := b.header.blockHash prim

/-- `block::genesis`. -/
def genesis (prim : Primitives) (l1BlockHash : H256) (l1Height : UInt32) (timestamp : UInt64)
    (anchorOutpoint : OutPoint) (producer sequencerFeeAddress : Option L2Address) : L2Block :=
  let genesisState := { LedgerState.new with sequencerFeeAddress := sequencerFeeAddress }
  { header :=
      { height := 0
        prevHash := H256.zero
        l1BlockHash := l1BlockHash
        l1Height := l1Height
        txsRoot := computeTxsRoot prim []
        stateRoot := genesisState.stateRoot prim
        timestamp := timestamp
        anchorOutpoint := some anchorOutpoint
        producer := producer
        sequencerFeeAddress := sequencerFeeAddress }
    txs := [] }

/-! ### What a block hash commits to -/

private theorem optBytes_split {α : Type} {enc : α → Bytes} {w : Nat}
    (hw : ∀ x, (enc x).length = w) (hinj : ∀ x y, enc x = enc y → x = y) {a b : Option α}
    {s t : Bytes} : optBytes enc a ++ s = optBytes enc b ++ t ↔ a = b ∧ s = t := by
  cases a with
  | none => cases b <;> simp [optBytes]
  | some x =>
      cases b with
      | none => simp [optBytes]
      | some y =>
          simp only [optBytes, List.cons_append, List.nil_append, List.cons.injEq, true_and,
            append_split ((hw x).trans (hw y).symm), Option.some.injEq]
          exact and_congr_left fun _ => ⟨hinj x y, fun h => h ▸ rfl⟩

private theorem optBytes_inj {α : Type} {enc : α → Bytes} {w : Nat}
    (hw : ∀ x, (enc x).length = w) (hinj : ∀ x y, enc x = enc y → x = y) {a b : Option α} :
    optBytes enc a = optBytes enc b ↔ a = b := by
  have h := optBytes_split hw hinj (a := a) (b := b) (s := []) (t := [])
  simpa using h

private theorem outpointBytes_inj (x y : OutPoint)
    (h : x.txid.raw ++ be32 x.vout = y.txid.raw ++ be32 y.vout) : x = y := by
  rw [append_split (by simp)] at h
  obtain ⟨htxid, hvout⟩ := h
  cases x; cases y
  simp_all

/-- The preimage of a header determines it. -/
theorem L2BlockHeader.preimage_inj {a b : L2BlockHeader} (h : a.preimage = b.preimage) : a = b := by
  have hop : ∀ op : OutPoint, (op.txid.raw ++ be32 op.vout).length = 36 := by simp
  have hkey : ∀ k : XOnlyPublicKey, k.serialize.length = 32 := by simp
  have hkeyInj : ∀ k l : XOnlyPublicKey, k.serialize = l.serialize → k = l := by simp
  simp only [preimage, List.append_assoc, List.append_cancel_left_eq,
    append_split (length_be32 _ |>.trans (length_be32 _).symm),
    append_split (length_be64 _ |>.trans (length_be64 _).symm),
    append_split (H256.length_raw _ |>.trans (H256.length_raw _).symm),
    optBytes_split hop outpointBytes_inj, optBytes_split hkey hkeyInj,
    optBytes_inj hkey hkeyInj, be32_inj, be64_inj, H256.raw_inj] at h
  obtain ⟨h1, h2, h3, h4, h5, h6, h7, h8, h9, h10⟩ := h
  cases a; cases b
  simp_all

/-! ### What it commits to below it -/

/-- Headers from the newest down, each naming the hash of the one below it. -/
def HeaderChain (prim : Primitives) (headers : List L2BlockHeader) : Prop :=
  headers.IsChain fun header below => header.prevHash = below.blockHash prim

theorem HeaderChain.below {prim : Primitives} {a : L2BlockHeader} {l : List L2BlockHeader}
    (h : HeaderChain prim (a :: l)) :
    HeaderChain prim l ∧ ∀ x ∈ l.head?, a.prevHash = x.blockHash prim := by
  cases l with
  | nil => exact ⟨.nil, nofun⟩
  | cons b l =>
      obtain ⟨hlink, hrest⟩ := List.isChain_cons_cons.mp h
      refine ⟨hrest, fun x hx => ?_⟩
      rw [← Option.some.inj hx]
      exact hlink

/-- Two chains with one hash at the top agree as far down as both go. -/
theorem HeaderChain.agree {prim : Primitives} {U : Set Bytes} (hcf : Set.InjOn prim.sha256 U)
    {c d : List L2BlockHeader} (hc : HeaderChain prim c) (hd : HeaderChain prim d)
    (hcU : ∀ h ∈ c, h.preimage ∈ U) (hdU : ∀ h ∈ d, h.preimage ∈ U)
    (htop : ∀ a ∈ c.head?, ∀ b ∈ d.head?, a.blockHash prim = b.blockHash prim) :
    c <+: d ∨ d <+: c := by
  induction c generalizing d with
  | nil => exact .inl List.nil_prefix
  | cons a c ih =>
      cases d with
      | nil => exact .inr List.nil_prefix
      | cons b d =>
          obtain rfl : a = b := L2BlockHeader.preimage_inj
            (hcf (hcU a (by simp)) (hdU b (by simp)) (htop a rfl b rfl))
          obtain ⟨hcBelow, hcLink⟩ := hc.below
          obtain ⟨hdBelow, hdLink⟩ := hd.below
          have hrest := ih hcBelow hdBelow (fun h hh => hcU h (List.mem_cons_of_mem a hh))
            (fun h hh => hdU h (List.mem_cons_of_mem a hh))
            (fun x hx y hy => (hcLink x hx).symm.trans (hdLink y hy))
          simpa using hrest

/--
**A block hash binds the header, and everything below it.**  Short of a collision two headers
with one hash are equal in every field, and two chains of `prev_hash` links that end in one hash
are one chain as far down as both go.
-/
theorem blockHash_binds {prim : Primitives} {U : Set Bytes} (hcf : Set.InjOn prim.sha256 U) :
    (∀ a b : L2BlockHeader, a.preimage ∈ U → b.preimage ∈ U →
      a.blockHash prim = b.blockHash prim → a = b) ∧
    ∀ c d : List L2BlockHeader, HeaderChain prim c → HeaderChain prim d →
      (∀ h ∈ c, h.preimage ∈ U) → (∀ h ∈ d, h.preimage ∈ U) → ∀ hash : H256,
        c.head?.map (·.blockHash prim) = some hash → d.head?.map (·.blockHash prim) = some hash →
          ∀ (i : Nat) (a b : L2BlockHeader), (c)[i]? = some a → d[i]? = some b → a = b := by
  refine ⟨fun a b ha hb h => L2BlockHeader.preimage_inj (hcf ha hb h), ?_⟩
  intro c d hc hd hcU hdU hash hctop hdtop i a b ha hb
  have htop : ∀ x ∈ c.head?, ∀ y ∈ d.head?, x.blockHash prim = y.blockHash prim := by
    intro x hx y hy
    rw [Option.mem_def.mp hx] at hctop
    rw [Option.mem_def.mp hy] at hdtop
    exact Option.some.inj (hctop.trans hdtop.symm)
  rcases hc.agree hcf hd hcU hdU htop with hprefix | hprefix
  · obtain ⟨rest, rfl⟩ := hprefix
    rw [List.getElem?_append_left (List.getElem?_eq_some_iff.mp ha).1] at hb
    exact Option.some.inj (ha.symm.trans hb)
  · obtain ⟨rest, rfl⟩ := hprefix
    rw [List.getElem?_append_left (List.getElem?_eq_some_iff.mp hb).1] at ha
    exact Option.some.inj (ha.symm.trans hb)

/-- A genesis header with every field, and a block on it. -/
def boundHeaders (producer : Option L2Address) : List L2BlockHeader :=
  let first := (genesis Primitives.sample H256.zero 7 0 ⟨⟨ByteArr.ofNat 32 9⟩, 1⟩ producer
    producer).header
  [{ first with
      height := 1
      prevHash := first.blockHash Primitives.sample
      anchorOutpoint := none
      sequencerFeeAddress := none }, first]

theorem blockHash_binds_genesis :
    (boundHeaders (some ⟨ByteArr.ofNat 32 1⟩))[1]? ≠ (boundHeaders none)[1]? ∧
      (boundHeaders (some ⟨ByteArr.ofNat 32 1⟩)).head?.map (·.blockHash Primitives.sample)
        ≠ (boundHeaders none).head?.map (·.blockHash Primitives.sample) := by
  have hne : (boundHeaders (some ⟨ByteArr.ofNat 32 1⟩))[1]? ≠ (boundHeaders none)[1]? := by
    intro heq
    have hproducer : some (some (⟨ByteArr.ofNat 32 1⟩ : L2Address)) = some none :=
      congrArg (Option.map L2BlockHeader.producer) heq
    cases hproducer
  have hcf : Set.InjOn Primitives.sample.sha256
      {x | x ∈ (boundHeaders (some ⟨ByteArr.ofNat 32 1⟩)).map (·.preimage) ∨
        x ∈ (boundHeaders none).map (·.preimage)} := injOn_of_forall_mem (by decide +kernel)
  refine ⟨hne, fun htop => hne ?_⟩
  have hlinked : ∀ producer, HeaderChain Primitives.sample (boundHeaders producer) :=
    fun producer =>
    List.isChain_cons_cons.mpr ⟨rfl, .singleton _⟩
  exact congrArg some ((blockHash_binds hcf).2 _ _ (hlinked _) (hlinked _)
    (fun h hh => .inl (List.mem_map_of_mem hh)) (fun h hh => .inr (List.mem_map_of_mem hh)) _ rfl
    htop.symm 1 _ _ rfl rfl)

end Hodlchain
