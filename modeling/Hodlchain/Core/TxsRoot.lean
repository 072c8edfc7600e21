/-
What a `txs_root` commits to.

The body encoding is fixed width apart from the nullifier string, and the string
is pinned by the total length, so equal preimages mean equal fields.  All fields
but one: `witness_canonical_bytes` leaves `claimed_block_height` out, although the
layout in `docs/design.md` lists it.  `eraseClaimedHeight` is that loss, and
`computeTxsRoot_eq_iff` says it is the only one.
-/
import Mathlib.Data.List.Basic
import Hodlchain.Core.Tx

namespace Hodlchain

open Bytes

/-! ### The field the encoding drops -/

/-- The witness with its claimed height cleared. -/
def MintProofEnvelope.eraseClaimedHeight : MintProofEnvelope → MintProofEnvelope
  | .v0Outpoint p => .v0Outpoint { p with claimedBlockHeight := 0 }

/-- The transaction with the claimed height of its witness cleared. -/
def L2Tx.eraseClaimedHeight : L2Tx → L2Tx
  | .mint entry => .mint { entry with witness := entry.witness.eraseClaimedHeight }
  | .transfer t => .transfer t

/-! ### Encodings taken apart -/

@[simp] theorem length_witnessCanonicalBytes (w : MintProofEnvelope) :
    (witnessCanonicalBytes w).length = 137 := by
  cases w
  simp [witnessCanonicalBytes]

theorem witnessCanonicalBytes_eq_iff {v w : MintProofEnvelope} :
    witnessCanonicalBytes v = witnessCanonicalBytes w
      ↔ v.eraseClaimedHeight = w.eraseClaimedHeight := by
  obtain ⟨⟨⟨tv, nv⟩, kv, lv, cv, sv⟩⟩ := v
  obtain ⟨⟨⟨tw, nw⟩, kw, lw, cw, sw⟩⟩ := w
  simp [witnessCanonicalBytes, MintProofEnvelope.eraseClaimedHeight, append_split, and_assoc]

theorem TransferBody.sighashPreimage_inj {a b : TransferBody} :
    a.sighashPreimage = b.sighashPreimage ↔ a = b := by
  cases a; cases b
  simp [TransferBody.sighashPreimage, append_split]

/-- The length of the nullifier is the only free one, so it is the total's excess. -/
theorem L2Tx.length_mintBody (e : MintEntry) :
    (L2Tx.mintBody e).length = (utf8 e.event.nullifierHex).length + 201 := by
  simp [L2Tx.mintBody]
  omega

theorem L2Tx.mintBody_eq_iff {a b : MintEntry} :
    L2Tx.mintBody a = L2Tx.mintBody b
      ↔ (L2Tx.mint a).eraseClaimedHeight = (L2Tx.mint b).eraseClaimedHeight := by
  constructor
  · intro h
    have hlen : (utf8 a.event.nullifierHex).length = (utf8 b.event.nullifierHex).length := by
      have := congrArg List.length h
      rw [L2Tx.length_mintBody, L2Tx.length_mintBody] at this
      omega
    obtain ⟨⟨na, aa, da, ca, la, va⟩, wa⟩ := a
    obtain ⟨⟨nb, ab, db, cb, lb, vb⟩, wb⟩ := b
    simp only at hlen
    simp only [L2Tx.mintBody, List.append_assoc, append_split, hlen, length_be32, length_be64,
      XOnlyPublicKey.length_serialize, utf8_inj, be64_inj, be32_inj,
      XOnlyPublicKey.serialize_inj, witnessCanonicalBytes_eq_iff] at h
    obtain ⟨-, rfl, rfl, rfl, rfl, rfl, rfl, -, hw⟩ := h
    simp [L2Tx.eraseClaimedHeight, hw]
  · intro h
    obtain ⟨ea, wa⟩ := a
    obtain ⟨eb, wb⟩ := b
    simp only [L2Tx.eraseClaimedHeight, L2Tx.mint.injEq, MintEntry.mk.injEq] at h
    obtain ⟨rfl, hw⟩ := h
    simp only [L2Tx.mintBody, witnessCanonicalBytes_eq_iff.mpr hw]

/-! ### Binding, up to the dropped field

`bodyPreimages` names the strings a root computation hashes: one per transaction,
one more for the signed body of a transfer, and the concatenation at the top.
Collision freedom is asked of these strings alone.
-/

/-- The strings hashed for one transaction. -/
def L2Tx.preimages (prim : Primitives) : L2Tx → List Bytes
  | .mint e => [(L2Tx.mint e).hashPreimage prim]
  | .transfer t => [(L2Tx.transfer t).hashPreimage prim, t.body.sighashPreimage]

/-- The strings hashed by `compute_txs_root`. -/
def bodyPreimages (prim : Primitives) (txs : List L2Tx) : List Bytes :=
  txsRootPreimage prim txs :: txs.flatMap (L2Tx.preimages prim)

theorem L2Tx.hashPreimage_mem_preimages (prim : Primitives) (tx : L2Tx) :
    tx.hashPreimage prim ∈ tx.preimages prim := by
  cases tx <;> simp [L2Tx.preimages]

/-- Transactions that differ in nothing but the claimed height share a preimage. -/
theorem L2Tx.hashPreimage_congr (prim : Primitives) {a b : L2Tx}
    (h : a.eraseClaimedHeight = b.eraseClaimedHeight) :
    a.hashPreimage prim = b.hashPreimage prim := by
  cases a with
  | mint e =>
      cases b with
      | mint e' => simp only [L2Tx.hashPreimage, L2Tx.mintBody_eq_iff.mpr h]
      | transfer t => simp [L2Tx.eraseClaimedHeight] at h
  | transfer t =>
      cases b with
      | mint e' => simp [L2Tx.eraseClaimedHeight] at h
      | transfer t' =>
          simp only [L2Tx.eraseClaimedHeight] at h
          rw [h]

theorem L2Tx.eraseClaimedHeight_of_hash (prim : Primitives) {a b : L2Tx}
    (hcf : Set.InjOn prim.sha256 {x | x ∈ a.preimages prim ∨ x ∈ b.preimages prim})
    (h : a.hash prim = b.hash prim) : a.eraseClaimedHeight = b.eraseClaimedHeight := by
  have hpre : a.hashPreimage prim = b.hashPreimage prim :=
    hcf (Or.inl (a.hashPreimage_mem_preimages prim)) (Or.inr (b.hashPreimage_mem_preimages prim)) h
  cases a with
  | mint e =>
      cases b with
      | mint e' =>
          rw [L2Tx.hashPreimage, L2Tx.hashPreimage, append_split rfl] at hpre
          exact L2Tx.mintBody_eq_iff.mp hpre.2
      | transfer t =>
          simp [L2Tx.hashPreimage] at hpre
  | transfer t =>
      cases b with
      | mint e' =>
          simp [L2Tx.hashPreimage] at hpre
      | transfer t' =>
          simp only [L2Tx.hashPreimage, append_split, List.length_append, H256.length_raw,
            H256.raw_inj, Signature.serialize_inj, true_and] at hpre
          have hbody : t.body.sighashPreimage = t'.body.sighashPreimage :=
            hcf (Or.inl (by simp [L2Tx.preimages])) (Or.inr (by simp [L2Tx.preimages])) hpre.1
          have hbody' := TransferBody.sighashPreimage_inj.mp hbody
          obtain ⟨bt, st⟩ := t
          obtain ⟨bt', st'⟩ := t'
          simp only at hbody' hpre
          rw [hbody', hpre.2]

/-- Two lists with the same hashes, transaction by transaction, agree up to the
dropped field. -/
theorem map_eraseClaimedHeight_of_hashes (prim : Primitives) :
    ∀ (a b : List L2Tx),
      Set.InjOn prim.sha256 {x | x ∈ a.flatMap (L2Tx.preimages prim)
        ∨ x ∈ b.flatMap (L2Tx.preimages prim)} →
      a.map (L2Tx.hash prim) = b.map (L2Tx.hash prim) →
      a.map L2Tx.eraseClaimedHeight = b.map L2Tx.eraseClaimedHeight := by
  intro a
  induction a with
  | nil => intro b _ h; simpa using h.symm
  | cons x a ih =>
      intro b hcf h
      cases b with
      | nil => simp at h
      | cons y b =>
          rw [List.map_cons, List.map_cons, List.cons.injEq] at h
          have hxy : x.eraseClaimedHeight = y.eraseClaimedHeight := by
            refine L2Tx.eraseClaimedHeight_of_hash prim (hcf.mono ?_) h.1
            rintro z (hz | hz)
            · exact Or.inl (by simp [hz])
            · exact Or.inr (by simp [hz])
          have hab := ih b (hcf.mono (by
            rintro z (hz | hz)
            · exact Or.inl (by rw [List.flatMap_cons]; exact List.mem_append_right _ hz)
            · exact Or.inr (by rw [List.flatMap_cons]; exact List.mem_append_right _ hz))) h.2
          rw [List.map_cons, List.map_cons, hxy, hab]

/-- **Two bodies have one `txs_root` exactly when they agree up to claimed heights.** -/
theorem computeTxsRoot_eq_iff (prim : Primitives) (a b : List L2Tx)
    (hcf : Set.InjOn prim.sha256 {x | x ∈ bodyPreimages prim a ∨ x ∈ bodyPreimages prim b}) :
    computeTxsRoot prim a = computeTxsRoot prim b
      ↔ a.map L2Tx.eraseClaimedHeight = b.map L2Tx.eraseClaimedHeight := by
  constructor
  · intro h
    have hpre : txsRootPreimage prim a = txsRootPreimage prim b :=
      hcf (Or.inl (by simp [bodyPreimages])) (Or.inr (by simp [bodyPreimages])) h
    rw [txsRootPreimage, txsRootPreimage, append_split rfl] at hpre
    have hraw := flatMap_inj_of_width (by decide : 0 < 32)
      (fun tx : L2Tx => (tx.hash prim).length_raw) hpre.2
    have hhash : a.map (L2Tx.hash prim) = b.map (L2Tx.hash prim) := by
      have hinj : Function.Injective H256.raw := fun _ _ => H256.raw_inj.mp
      refine List.map_injective_iff.mpr hinj ?_
      simpa [List.map_map, Function.comp_def] using hraw
    refine map_eraseClaimedHeight_of_hashes prim a b (hcf.mono ?_) hhash
    rintro x (hx | hx)
    · exact Or.inl (List.mem_cons_of_mem _ hx)
    · exact Or.inr (List.mem_cons_of_mem _ hx)
  · intro h
    have hhash : a.map (L2Tx.hash prim) = b.map (L2Tx.hash prim) := by
      have hfac : ∀ l : List L2Tx,
          l.map (L2Tx.hash prim) = (l.map L2Tx.eraseClaimedHeight).map (L2Tx.hash prim) := by
        intro l
        rw [List.map_map]
        refine List.map_congr_left fun tx _ => ?_
        have : tx.eraseClaimedHeight = tx.eraseClaimedHeight.eraseClaimedHeight := by
          cases tx with
          | mint e => obtain ⟨_, ⟨⟩⟩ := e; rfl
          | transfer t => rfl
        exact congrArg prim.sha256 (L2Tx.hashPreimage_congr prim this)
      rw [hfac a, hfac b, h]
    have hflat : ∀ l : List L2Tx,
        (l.flatMap fun tx => (tx.hash prim).raw) = (l.map (L2Tx.hash prim)).flatMap H256.raw := by
      intro l
      rw [List.flatMap_map]
    rw [computeTxsRoot, computeTxsRoot, txsRootPreimage, txsRootPreimage, hflat, hflat, hhash]

/--
**`txs_root` binds a pair of bodies exactly when the pair does not differ in
claimed heights alone.**
-/
theorem txsRoot_binds_iff (prim : Primitives) (a b : List L2Tx)
    (hcf : Set.InjOn prim.sha256 {x | x ∈ bodyPreimages prim a ∨ x ∈ bodyPreimages prim b}) :
    (computeTxsRoot prim a = computeTxsRoot prim b → a = b)
      ↔ (a.map L2Tx.eraseClaimedHeight = b.map L2Tx.eraseClaimedHeight → a = b) := by
  rw [computeTxsRoot_eq_iff prim a b hcf]

/-- A mint of outpoint `0…0:0`, claimed at a given L1 height. -/
def claimedMint (claimed : UInt32) : L2Tx :=
  let key : XOnlyPublicKey := ⟨ByteArr.ofNat 32 1⟩
  let outpoint : OutPoint := ⟨⟨ByteArr.ofNat 32 0⟩, 0⟩
  .mint
    { event :=
        { nullifierHex := hexEncode (outpoint.txid.raw ++ le32 outpoint.vout)
          amount := 250
          l2Destination := key
          l1CreateHeight := 100
          lockBlocks := 900
          l1ValueSat := 100000 }
      witness := .v0Outpoint
        { outpoint := outpoint
          userXonlyPubkey := key
          lockBlocks := 900
          claimedBlockHeight := claimed
          signature := ⟨ByteArr.ofNat 64 0⟩ } }

/-- The pair the root does not tell apart: one mint, claimed at 150 or at 151. -/
theorem txsRoot_claimedHeight_free :
    ∃ a b : List L2Tx, a ≠ b ∧ ∀ prim : Primitives,
      bodyPreimages prim a = bodyPreimages prim b ∧
        computeTxsRoot prim a = computeTxsRoot prim b :=
  ⟨[claimedMint 150], [claimedMint 151], by decide, fun _ => ⟨rfl, rfl⟩⟩

theorem txsRoot_binds_iff_sample :
    (computeTxsRoot Primitives.sample [claimedMint 150]
        = computeTxsRoot Primitives.sample [] → [claimedMint 150] = [])
      ↔ ([claimedMint 150].map L2Tx.eraseClaimedHeight
          = ([] : List L2Tx).map L2Tx.eraseClaimedHeight → [claimedMint 150] = []) :=
  txsRoot_binds_iff Primitives.sample [claimedMint 150] [] (injOn_of_forall_mem (by decide +kernel))

end Hodlchain
