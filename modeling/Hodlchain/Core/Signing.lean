/-
The messages that keys sign.

Three kinds of message are signed with the keys of this chain: a transfer with the key of
its account, a claim of a mint with the key of its output, a receipt with the sequencer's.
The sequencer's key is that of an account too, so one key can sign all three.  Each digest
starts with a tag of its own, and the fields after it have fixed widths.
-/
import Hodlchain.Core.Effect
import Hodlchain.Core.Proof
import Hodlchain.Core.Rpc
import Hodlchain.Core.TxsRoot

namespace Hodlchain

open Bytes

/-- `SoftConf::verify`. -/
def SoftConf.verify (prim : Primitives) (r : SoftConf) (sequencerPubkey : XOnlyPublicKey) : Bool :=
  prim.verifySchnorr r.sequencerSig
    (SoftConf.sighash prim r.txHash r.targetL2Height r.acceptedAtUnix) sequencerPubkey

/-- A message of one of the three contexts. -/
inductive SignedMessage where
  | transfer (body : TransferBody)
  | mint (outpoint : OutPoint) (claimedBlockHeight : UInt32) (l2Destination : L2Address)
  | softConf (txHash : H256) (targetL2Height : UInt32) (acceptedAtUnix : UInt64)
deriving DecidableEq, Repr

namespace SignedMessage

/-- The byte string its sighash hashes. -/
def preimage : SignedMessage → Bytes
  | .transfer body => body.sighashPreimage
  | .mint outpoint height dest => OutpointProof.sighashPreimage outpoint height dest
  | .softConf txHash height time => SoftConf.sighashPreimage txHash height time

/-- The digest that is signed. -/
def digest (prim : Primitives) : SignedMessage → H256
  | .transfer body => body.sighash prim
  | .mint outpoint height dest => OutpointProof.sighash prim outpoint height dest
  | .softConf txHash height time => SoftConf.sighash prim txHash height time

end SignedMessage

/-- What an outpoint proof claims, for a destination. -/
def OutpointProof.claim (p : OutpointProof) (dest : L2Address) : SignedMessage :=
  .mint p.outpoint p.claimedBlockHeight dest

/-- What a receipt promises. -/
def SoftConf.promise (r : SoftConf) : SignedMessage :=
  .softConf r.txHash r.targetL2Height r.acceptedAtUnix

/-- A signature is of one message: under one key it verifies for one digest. -/
def Primitives.SignsOnce (prim : Primitives) : Prop :=
  ∀ sig msg msg' key, prim.verifySchnorr sig msg key = true →
    prim.verifySchnorr sig msg' key = true →
    msg = msg'

/-! ### The layouts -/

/-- The message a locker signs determines the output and the destination. -/
theorem OutpointProof.sighashPreimage_inj {op op' : OutPoint} {height height' : UInt32}
    {dest dest' : L2Address}
    (h : sighashPreimage op height dest = sighashPreimage op' height' dest') :
    op = op' ∧ height = height' ∧ dest = dest' := by
  simp only [sighashPreimage, List.append_assoc, List.append_cancel_left_eq,
    append_split (Txid.length_raw _ |>.trans (Txid.length_raw _).symm),
    append_split (length_le32 _ |>.trans (length_le32 _).symm),
    append_split (length_be32 _ |>.trans (length_be32 _).symm), Txid.raw_inj, le32_inj, be32_inj,
    XOnlyPublicKey.serialize_inj] at h
  obtain ⟨htxid, hvout, hheight, hdest⟩ := h
  cases op; cases op'
  simp_all

theorem SoftConf.sighashPreimage_inj {txHash txHash' : H256} {height height' : UInt32}
    {time time' : UInt64}
    (h : sighashPreimage txHash height time = sighashPreimage txHash' height' time') :
    txHash = txHash' ∧ height = height' ∧ time = time' := by
  simp only [sighashPreimage, List.append_assoc, List.append_cancel_left_eq,
    append_split (H256.length_raw _ |>.trans (H256.length_raw _).symm),
    append_split (length_be32 _ |>.trans (length_be32 _).symm), H256.raw_inj, be32_inj,
    be64_inj] at h
  exact h

namespace SignedMessage

/-- A layout of each context has its own length. -/
theorem length_preimage (m : SignedMessage) : m.preimage.length = match m with
    | .transfer _ => 96
    | .mint .. => 84
    | .softConf .. => 60 := by
  have htransfer : (utf8 "hodl-transfer-v2").length = 16 := by decide
  have hmint : (utf8 "hodl-mint-v1").length = 12 := by decide
  have hsoftConf : (utf8 "hodl-softconf-v1").length = 16 := by decide
  cases m <;>
    simp [preimage, TransferBody.sighashPreimage, OutpointProof.sighashPreimage,
      SoftConf.sighashPreimage, htransfer, hmint, hsoftConf]

/-- **A layout determines the context and every field.** -/
theorem preimage_inj {m m' : SignedMessage} (h : m.preimage = m'.preimage) : m = m' := by
  have hlength := congrArg List.length h
  rw [length_preimage, length_preimage] at hlength
  cases m with
  | transfer body =>
      cases m' with
      | transfer body' => exact congrArg transfer (TransferBody.sighashPreimage_inj.mp h)
      | mint _ _ _ => simp at hlength
      | softConf _ _ _ => simp at hlength
  | mint op height dest =>
      cases m' with
      | transfer _ => simp at hlength
      | mint op' height' dest' =>
          obtain ⟨rfl, rfl, rfl⟩ := OutpointProof.sighashPreimage_inj h
          rfl
      | softConf _ _ _ => simp at hlength
  | softConf txHash height time =>
      cases m' with
      | transfer _ => simp at hlength
      | mint _ _ _ => simp at hlength
      | softConf txHash' height' time' =>
          obtain ⟨rfl, rfl, rfl⟩ := SoftConf.sighashPreimage_inj h
          rfl

variable {prim : Primitives} {U : Set Bytes}

theorem digest_eq (m : SignedMessage) : m.digest prim = prim.sha256 m.preimage := by
  cases m <;> rfl

/-- Short of a collision, one digest is of one message. -/
theorem digest_inj (hcf : Set.InjOn prim.sha256 U) {m m' : SignedMessage} (hm : m.preimage ∈ U)
    (hm' : m'.preimage ∈ U) (h : m.digest prim = m'.digest prim) : m = m' := by
  rw [digest_eq, digest_eq] at h
  exact preimage_inj (hcf hm hm' h)

/-- One signature of one key is of one message. -/
theorem eq_of_verify (hcf : Set.InjOn prim.sha256 U) (honce : prim.SignsOnce) {m m' : SignedMessage}
    (hm : m.preimage ∈ U) (hm' : m'.preimage ∈ U) {sig : Signature} {key : XOnlyPublicKey}
    (h : prim.verifySchnorr sig (m.digest prim) key = true)
    (h' : prim.verifySchnorr sig (m'.digest prim) key = true) : m = m' :=
  digest_inj hcf hm hm' (honce _ _ _ _ h h')

end SignedMessage

/-! ### What a signature lets through -/

variable {prim : Primitives} {U : Set Bytes}

theorem apply_transfer_signed {s : LedgerState} {t : SignedTransfer}
    (h : (s.apply prim (.transfer t)).1 = .ok ()) :
    prim.verifySchnorr t.signature ((SignedMessage.transfer t.body).digest prim) t.body.sender
      = true := by
  have hok : s.TransferOk prim t := LedgerState.apply_ok_iff.mp h
  exact hok.signed

theorem verify_mint_signed {p : OutpointProof} {l1 : L1View} {dest : L2Address}
    {credit : MintCredit} (h : p.verify prim l1 dest = .ok credit) :
    prim.verifySchnorr p.signature ((p.claim dest).digest prim) p.userXonlyPubkey = true := by
  obtain ⟨output, -, hverified⟩ := OutpointProof.verify_ok h
  exact hverified.signature

/-- What is signed with `sig` under `key` is the one transfer that `sig` lets through, or the one
claim. -/
theorem SignedMessage.eq_of_accepted (hcf : Set.InjOn prim.sha256 U) (honce : prim.SignsOnce)
    {m : SignedMessage} (hm : m.preimage ∈ U) {sig : Signature} {key : XOnlyPublicKey}
    (hsig : prim.verifySchnorr sig (m.digest prim) key = true) :
    (∀ (t : SignedTransfer) (s : LedgerState), (SignedMessage.transfer t.body).preimage ∈ U →
      t.signature = sig → t.body.sender = key → (s.apply prim (.transfer t)).1 = .ok () →
        m = .transfer t.body) ∧
    ∀ (p : OutpointProof) (dest : L2Address) (l1 : L1View) (credit : MintCredit),
      (p.claim dest).preimage ∈ U → p.signature = sig → p.userXonlyPubkey = key →
      p.verify prim l1 dest = .ok credit → m = p.claim dest := by
  constructor
  · rintro t s ht rfl rfl happly
    exact eq_of_verify hcf honce hm ht hsig (apply_transfer_signed happly)
  · rintro p dest l1 credit hp rfl rfl hverify
    exact eq_of_verify hcf honce hm hp hsig (verify_mint_signed hverify)

/--
**Signed messages are unambiguous.**  The digest of a message determines its context and every
field.  So, as a signature is of one message, one that makes a receipt lets through no transfer
from the account of its key and no mint, and one that makes a claim no such transfer either and no
mint with another outpoint, height or destination.
-/
theorem signed_unambiguous (hcf : Set.InjOn prim.sha256 U) :
    (∀ m m' : SignedMessage, m.preimage ∈ U → m'.preimage ∈ U →
      m.digest prim = m'.digest prim → m = m') ∧
    (prim.SignsOnce →
      (∀ (r : SoftConf) (key : XOnlyPublicKey), r.promise.preimage ∈ U → r.verify prim key = true →
        (∀ (t : SignedTransfer) (s : LedgerState), (SignedMessage.transfer t.body).preimage ∈ U →
          t.signature = r.sequencerSig → t.body.sender = key →
            (s.apply prim (.transfer t)).1 ≠ .ok ()) ∧
        ∀ (p : OutpointProof) (dest : L2Address) (l1 : L1View) (credit : MintCredit),
          (p.claim dest).preimage ∈ U → p.signature = r.sequencerSig → p.userXonlyPubkey = key →
            p.verify prim l1 dest ≠ .ok credit) ∧
      ∀ (p : OutpointProof) (dest : L2Address), (p.claim dest).preimage ∈ U →
        prim.verifySchnorr p.signature
          (OutpointProof.sighash prim p.outpoint p.claimedBlockHeight dest)
          p.userXonlyPubkey = true →
        (∀ (t : SignedTransfer) (s : LedgerState), (SignedMessage.transfer t.body).preimage ∈ U →
          t.signature = p.signature → t.body.sender = p.userXonlyPubkey →
            (s.apply prim (.transfer t)).1 ≠ .ok ()) ∧
        ∀ (p' : OutpointProof) (dest' : L2Address) (l1 : L1View) (credit : MintCredit),
          (p'.claim dest').preimage ∈ U → p'.signature = p.signature →
          p'.userXonlyPubkey = p.userXonlyPubkey → p'.verify prim l1 dest' = .ok credit →
            p'.outpoint = p.outpoint ∧ p'.claimedBlockHeight = p.claimedBlockHeight ∧
              dest' = dest) := by
  refine ⟨fun m m' hm hm' h => SignedMessage.digest_inj hcf hm hm' h, fun honce => ⟨?_, ?_⟩⟩
  · intro r key hr hverify
    obtain ⟨htransfer, hmint⟩ := SignedMessage.eq_of_accepted hcf honce hr hverify
    refine ⟨fun t s ht hsig hkey happly => ?_, fun p dest l1 credit hp hsig hkey hok => ?_⟩
    · cases htransfer t s ht hsig hkey happly
    · cases hmint p dest l1 credit hp hsig hkey hok
  · intro p dest hp hverify
    obtain ⟨htransfer, hmint⟩ := SignedMessage.eq_of_accepted hcf honce hp hverify
    refine ⟨fun t s ht hsig hkey happly => ?_, fun p' dest' l1 credit hp' hsig hkey hok => ?_⟩
    · cases htransfer t s ht hsig hkey happly
    · have hsame := hmint p' dest' l1 credit hp' hsig hkey hok
      simp only [OutpointProof.claim, SignedMessage.mint.injEq] at hsame
      exact ⟨hsame.1.symm, hsame.2.1.symm, hsame.2.2.symm⟩

/-! ### One key for two messages -/

theorem sample_signsOnce : Primitives.sample.SignsOnce := by
  intro sig msg msg' key h h'
  simp only [Primitives.sample, beq_iff_eq] at h h'
  exact H256.raw_inj.mp ((append_split_right rfl).mp (h.symm.trans h')).1

/-- The identity of a sequencer. -/
def signingKey : XOnlyPublicKey := ⟨ByteArr.ofNat 32 1⟩

/-- What it signs a message with. -/
def SignedMessage.signedBySample (m : SignedMessage) : Signature :=
  ⟨((m.digest Primitives.sample).bytes ++ signingKey.bytes).cast Primitives.digest_and_key⟩

def signedReceipt : SoftConf :=
  ⟨H256.zero, 1, 0, (SignedMessage.softConf H256.zero 1 0).signedBySample⟩

/-- A transfer that carries the signature of the receipt. -/
def receiptAsTransfer : SignedTransfer :=
  ⟨⟨signingKey, ⟨ByteArr.ofNat 32 2⟩, 500, 0⟩, signedReceipt.sequencerSig⟩

theorem signed_unambiguous_receipt :
    signedReceipt.verify Primitives.sample signingKey = true ∧
      ∀ s : LedgerState, (s.apply Primitives.sample (.transfer receiptAsTransfer)).1 ≠ .ok () := by
  have hverify : signedReceipt.verify Primitives.sample signingKey = true := by decide +kernel
  have hcf : Set.InjOn Primitives.sample.sha256 {x | x ∈ [signedReceipt.promise.preimage] ∨
      x ∈ [(SignedMessage.transfer receiptAsTransfer.body).preimage]} :=
    injOn_of_forall_mem (by decide +kernel)
  refine ⟨hverify, fun s => ?_⟩
  have hreceipt := ((signed_unambiguous hcf).2 sample_signsOnce).1 signedReceipt signingKey
    (.inl (List.mem_singleton.mpr rfl)) hverify
  exact hreceipt.1 receiptAsTransfer s (.inr (List.mem_singleton.mpr rfl)) rfl rfl

end Hodlchain
