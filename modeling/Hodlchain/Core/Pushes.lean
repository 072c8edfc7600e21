/-
Which scripts carry an attestation.

An attestation is its 73 bytes: the encoding is undone by the decoder, and whatever the
decoder takes is an encoding.  A script carries it when `OP_RETURN` is followed by a
push of those bytes, in any of the forms a push has; the grammar of pushes stands here
beside the walk that reads the first one.
-/
import Hodlchain.Core.OpReturn

namespace Hodlchain

open Bytes

/-! ### Pushes -/

/-- A script that starts by pushing `data`, with one length byte or after `OP_PUSHDATA`. -/
inductive Pushes (data : Bytes) : Bytes → Prop
  | direct (rest : Bytes) (h : data.length ≤ 75) :
    Pushes data (UInt8.ofNat data.length :: (data ++ rest))
  | pushData {op : UInt8} {w : Nat} (rest : Bytes) (hop : (op, w) ∈ [(76, 1), (77, 2), (78, 4)])
      (h : data.length < 256 ^ w) :
        Pushes data (op :: ((beBytes w data.length).reverse ++ (data ++ rest)))

theorem takePush_eq_some_iff {n : Nat} {script data : Bytes} :
    takePush n script = some data ↔ data.length = n ∧ ∃ rest, script = data ++ rest := by
  rw [takePush]
  constructor
  · intro h
    split_ifs at h with hle
    obtain rfl := Option.some.inj h
    exact ⟨List.length_take_of_le hle, script.drop n, (List.take_append_drop n script).symm⟩
  · rintro ⟨rfl, rest, rfl⟩
    simp

theorem pushDataLen_eq_some_iff {w : Nat} {script data : Bytes} :
    pushDataLen w script = some data ↔
      data.length < 256 ^ w ∧
        ∃ rest, script = (beBytes w data.length).reverse ++ (data ++ rest) := by
  rw [pushDataLen]
  constructor
  · intro h
    split_ifs at h with hle
    obtain ⟨hlen, rest, hrest⟩ := takePush_eq_some_iff.mp h
    have hw : (script.take w).reverse.length = w := by simp [hle]
    have hbytes := beBytes_beValue (script.take w).reverse
    rw [hw, ← hlen] at hbytes
    refine ⟨?_, rest, ?_⟩
    · have hlt := beValue_lt (script.take w).reverse
      rwa [hw, ← hlen] at hlt
    · rw [hbytes, List.reverse_reverse, ← hrest, List.take_append_drop]
  · rintro ⟨hlt, rest, rfl⟩
    have hw : ((beBytes w data.length).reverse).length = w := by simp
    rw [if_pos (by simp), List.take_left' hw, List.drop_left' hw, List.reverse_reverse,
      beValue_beBytes, Nat.mod_eq_of_lt hlt]
    exact takePush_eq_some_iff.mpr ⟨rfl, rest, rfl⟩

/-- **The walk reads a push exactly where the script has one.** -/
theorem firstPush_eq_some_iff {script data : Bytes} :
    firstPush script = some data ↔ Pushes data script := by
  constructor
  · intro h
    cases script with
    | nil => simp [firstPush] at h
    | cons op script =>
        rw [firstPush] at h
        split_ifs at h with h75 h76 h77 h78
        · obtain ⟨hlen, rest, rfl⟩ := takePush_eq_some_iff.mp h
          have hop : op = UInt8.ofNat data.length := by rw [hlen, UInt8.ofNat_toNat]
          rw [hop]
          exact .direct rest (by rw [hlen]; exact UInt8.le_iff_toNat_le.mp h75)
        all_goals
          obtain ⟨hlt, rest, rfl⟩ := pushDataLen_eq_some_iff.mp h
          subst op
          exact .pushData rest (by simp) hlt
  · intro h
    cases h with
    | direct rest h =>
        have hop : (UInt8.ofNat data.length).toNat = data.length := by
          rw [UInt8.toNat_ofNat']
          omega
        have h75 : UInt8.ofNat data.length ≤ 75 := by
          rw [UInt8.le_iff_toNat_le, hop]
          exact h
        rw [firstPush, if_pos h75, hop]
        exact takePush_eq_some_iff.mpr ⟨rfl, rest, rfl⟩
    | @pushData op w rest hop h =>
        have hread := pushDataLen_eq_some_iff.mpr ⟨h, rest, rfl⟩
        simp only [List.mem_cons, Prod.mk.injEq, List.not_mem_nil, or_false] at hop
        rcases hop with ⟨rfl, rfl⟩ | ⟨rfl, rfl⟩ | ⟨rfl, rfl⟩
        · exact hread
        · exact hread
        · exact hread

/-! ### Attestations -/

/-- A script of `OP_RETURN` and a push of `data`. -/
def OpReturnPush (spk : ScriptBuf) (data : Bytes) : Prop :=
  ∃ rest, spk = opReturn :: rest ∧ Pushes data rest

/-- A payload of the size and with the magic, of a version that is not ours. -/
structure OtherVersion (data : Bytes) : Prop where
  length : data.length = attestationLen
  magic : data.take 4 = magic
  version : data.getD 4 0 ≠ attestationVersion

namespace Attestation

/-- The fields in a payload, whatever its version. -/
private def fields (b : Bytes) : Attestation :=
  ⟨b.getD 4 0, UInt32.ofNat (beValue ((b.drop 5).take 4)), h256At b 9, h256At b 41⟩

private theorem raw_h256At {b : Bytes} {i : Nat} (h : i + 32 ≤ b.length) :
    (h256At b i).raw = (b.drop i).take 32 := by
  refine List.ext_getElem (by simp; omega) fun k hk _ => ?_
  rw [H256.length_raw] at hk
  simp [H256.raw, h256At, List.getD_eq_getElem?_getD,
    List.getElem?_eq_getElem (show i + k < b.length by omega)]

private theorem encode_fields {b : Bytes} (hlen : b.length = attestationLen)
    (hmagic : b.take 4 = magic) :
    (fields b).encode = b := by
  have hlen73 : b.length = 73 := hlen
  have hversion : [b.getD 4 0] = (b.drop 4).take 1 := by
    rw [List.getD_eq_getElem?_getD, List.getElem?_eq_getElem (by omega), Option.getD_some,
      List.drop_eq_getElem_cons (by omega)]
    rfl
  have hheight : be32 (UInt32.ofNat (beValue ((b.drop 5).take 4))) = (b.drop 5).take 4 := by
    have hwidth : ((b.drop 5).take 4).length = 4 := by simp; omega
    have hlt := beValue_lt ((b.drop 5).take 4)
    have hbytes := beBytes_beValue ((b.drop 5).take 4)
    rw [hwidth] at hlt hbytes
    rw [be32, UInt32.toNat_ofNat', Nat.mod_eq_of_lt (by simpa using hlt), hbytes]
  rw [encode, fields, raw_h256At (by omega), raw_h256At (by omega), hheight, hversion, ← hmagic]
  have h5 : b.take 4 ++ (b.drop 4).take 1 = b.take 5 := (List.take_add (j := 1)).symm
  have h9 : b.take 5 ++ (b.drop 5).take 4 = b.take 9 := (List.take_add (j := 4)).symm
  have h41 : b.take 9 ++ (b.drop 9).take 32 = b.take 41 := (List.take_add (j := 32)).symm
  have h73 : b.take 41 ++ (b.drop 41).take 32 = b := by
    have hrest : (b.drop 41).length ≤ 32 := by simp; omega
    rw [List.take_of_length_le hrest, List.take_append_drop]
  rw [h5, h9, h41, h73]

theorem decode_eq_fields {b : Bytes} (hlen : b.length = attestationLen) (hmagic : b.take 4 = magic)
    (hversion : b.getD 4 0 = attestationVersion) : decode b = .ok (fields b) := by
  rw [decode, if_neg (not_not.mpr hlen), if_neg (not_not.mpr hmagic)]
  exact if_neg (not_not.mpr hversion)

/-- What the decoder makes of a payload. -/
theorem decode_cases (b : Bytes) :
    (∃ a, a.version = attestationVersion ∧ b = a.encode ∧ decode b = .ok a) ∨
      (OtherVersion b ∧ decode b = .error (.badVersion (b.getD 4 0))) ∨
      (decode b = .error .badMagic) ∨ decode b = .error (.badLength b.length) := by
  by_cases hlen : b.length = attestationLen
  · by_cases hmagic : b.take 4 = magic
    · by_cases hversion : b.getD 4 0 = attestationVersion
      · exact .inl ⟨fields b, hversion, (encode_fields hlen hmagic).symm,
          decode_eq_fields hlen hmagic hversion⟩
      · refine .inr (.inl ⟨⟨hlen, hmagic, hversion⟩, ?_⟩)
        rw [decode, if_neg (not_not.mpr hlen), if_neg (not_not.mpr hmagic)]
        exact if_pos hversion
    · refine .inr (.inr (.inl ?_))
      rw [decode, if_neg (not_not.mpr hlen), if_pos hmagic]
  · refine .inr (.inr (.inr ?_))
    rw [decode, if_pos hlen]

theorem decode_ok_iff {b : Bytes} {a : Attestation} :
    decode b = .ok a ↔ a.version = attestationVersion ∧ b = a.encode := by
  constructor
  · intro h
    rcases decode_cases b with ⟨a', hversion, hb, h'⟩ | ⟨-, h'⟩ | h' | h'
    · obtain rfl := Except.ok.inj (h.symm.trans h')
      exact ⟨hversion, hb⟩
    all_goals cases h.symm.trans h'
  · rintro ⟨hversion, rfl⟩
    exact decode_encode hversion

theorem decode_of_otherVersion {b : Bytes} (h : OtherVersion b) :
    decode b = .error (.badVersion (b.getD 4 0)) := by
  rw [decode, if_neg (not_not.mpr h.length), if_neg (not_not.mpr h.magic)]
  exact if_pos h.version

/-! ### Scripts -/

variable {spk : ScriptBuf}

theorem tryFromScript_of_not_opReturn (h : spk.head? ≠ some opReturn) :
    tryFromScript spk = .error .notOpReturn := by
  cases spk with
  | nil => rfl
  | cons op rest =>
      rw [tryFromScript]
      exact if_pos fun hop => h (congrArg some hop)

/-- A script that pushes nothing after `OP_RETURN` is not ours. -/
theorem tryFromScript_of_no_push {rest : Bytes} (h : ∀ data, ¬ Pushes data rest) :
    tryFromScript (opReturn :: rest) = .ok none := by
  have hnone : firstPush rest = none :=
    Option.eq_none_iff_forall_ne_some.mpr fun data hdata => h data (firstPush_eq_some_iff.mp hdata)
  rw [tryFromScript, if_neg (not_not.mpr rfl), hnone]

theorem tryFromScript_of_push {data : Bytes} (h : OpReturnPush spk data) :
    tryFromScript spk = match decode data with
      | .ok a => .ok (some a)
      | .error .badMagic => .ok none
      | .error (.badLength _) => .ok none
      | .error e => .error e := by
  obtain ⟨rest, rfl, hpush⟩ := h
  have hfirst := firstPush_eq_some_iff.mpr hpush
  cases hdec : decode data with
  | ok a => simp [tryFromScript, hfirst, hdec]
  | error e => cases e <;> simp [tryFromScript, hfirst, hdec]

/-- What a script is read as. -/
theorem tryFromScript_cases (spk : ScriptBuf) :
    (spk.head? ≠ some opReturn ∧ tryFromScript spk = .error .notOpReturn) ∨
      (∃ data, OpReturnPush spk data ∧ OtherVersion data ∧
        tryFromScript spk = .error (.badVersion (data.getD 4 0))) ∨
      (∃ a, a.version = attestationVersion ∧ OpReturnPush spk a.encode ∧
        tryFromScript spk = .ok (some a)) ∨
      (spk.head? = some opReturn ∧ tryFromScript spk = .ok none) := by
  by_cases hhead : spk.head? = some opReturn
  · obtain ⟨rest, rfl⟩ := List.head?_eq_some_iff.mp hhead
    by_cases hpush : ∃ data, Pushes data rest
    · obtain ⟨data, hpush⟩ := hpush
      have hscript : OpReturnPush (opReturn :: rest) data := ⟨rest, rfl, hpush⟩
      have hread := tryFromScript_of_push hscript
      rcases decode_cases data with ⟨a, hversion, rfl, hdec⟩ | ⟨hother, hdec⟩ | hdec | hdec
      · exact .inr (.inr (.inl ⟨a, hversion, hscript, by rw [hread, hdec]⟩))
      · exact .inr (.inl ⟨data, hscript, hother, by rw [hread, hdec]⟩)
      · exact .inr (.inr (.inr ⟨hhead, by rw [hread, hdec]⟩))
      · exact .inr (.inr (.inr ⟨hhead, by rw [hread, hdec]⟩))
    · exact .inr (.inr (.inr ⟨hhead, tryFromScript_of_no_push (not_exists.mp hpush)⟩))
  · exact .inl ⟨hhead, tryFromScript_of_not_opReturn hhead⟩

theorem tryFromScript_some_iff {a : Attestation} :
    tryFromScript spk = .ok (some a) ↔ a.version = attestationVersion ∧
      OpReturnPush spk a.encode := by
  constructor
  · intro h
    rcases tryFromScript_cases spk with
      ⟨-, h'⟩ | ⟨_, -, -, h'⟩ | ⟨a', hversion, hpush, h'⟩ | ⟨-, h'⟩
    · cases h.symm.trans h'
    · cases h.symm.trans h'
    · obtain rfl := Option.some.inj (Except.ok.inj (h.symm.trans h'))
      exact ⟨hversion, hpush⟩
    · cases h.symm.trans h'
  · rintro ⟨hversion, hpush⟩
    rw [tryFromScript_of_push hpush, decode_encode hversion]

theorem tryFromScript_error_iff {e : AttestationError} :
    tryFromScript spk = .error e ↔
      (spk.head? ≠ some opReturn ∧ e = .notOpReturn) ∨
        ∃ data, OpReturnPush spk data ∧ OtherVersion data ∧ e = .badVersion (data.getD 4 0) := by
  constructor
  · intro h
    rcases tryFromScript_cases spk with
      ⟨hhead, h'⟩ | ⟨data, hpush, hother, h'⟩ | ⟨_, -, -, h'⟩ | ⟨-, h'⟩
    · exact .inl ⟨hhead, Except.error.inj (h.symm.trans h')⟩
    · exact .inr ⟨data, hpush, hother, Except.error.inj (h.symm.trans h')⟩
    · cases h.symm.trans h'
    · cases h.symm.trans h'
  · rintro (⟨hhead, rfl⟩ | ⟨data, hpush, hother, rfl⟩)
    · exact tryFromScript_of_not_opReturn hhead
    · rw [tryFromScript_of_push hpush, decode_of_otherVersion hother]

/-- **The codec**: encoding and decoding undo each other, and a script is read as an attestation
exactly when `OP_RETURN` and a push of its encoding stand at its front. -/
theorem codec :
    (∀ a : Attestation, a.version = attestationVersion →
      decode a.encode = .ok a ∧ tryFromScript a.toScript = .ok (some a)) ∧
    (∀ (b : Bytes) (a : Attestation), decode b = .ok a → a.encode = b) ∧
    ∀ spk : ScriptBuf,
      (∀ a, tryFromScript spk = .ok (some a) ↔
        a.version = attestationVersion ∧ OpReturnPush spk a.encode) ∧
      (∀ e, tryFromScript spk = .error e ↔
        (spk.head? ≠ some opReturn ∧ e = .notOpReturn) ∨
          ∃ data, OpReturnPush spk data ∧ OtherVersion data ∧ e = .badVersion (data.getD 4 0)) ∧
      (tryFromScript spk = .ok none ↔
        spk.head? = some opReturn ∧
          ∀ data, OpReturnPush spk data →
            ¬ OtherVersion data ∧ ∀ a : Attestation, a.version = attestationVersion →
              data ≠ a.encode) := by
  refine ⟨fun a h => ⟨decode_encode h, tryFromScript_toScript h⟩,
    fun b a h => (decode_ok_iff.mp h).2.symm,
    fun spk => ⟨fun a => tryFromScript_some_iff, fun e => tryFromScript_error_iff, ?_⟩⟩
  constructor
  · intro h
    refine ⟨by_contra fun hhead => ?_, fun data hpush =>
      ⟨fun hother => ?_, fun a hversion hdata => ?_⟩⟩
    · cases h.symm.trans (tryFromScript_of_not_opReturn hhead)
    · cases h.symm.trans (tryFromScript_error_iff.mpr (.inr ⟨data, hpush, hother, rfl⟩))
    · cases h.symm.trans (tryFromScript_some_iff.mpr ⟨hversion, hdata ▸ hpush⟩)
  · rintro ⟨hhead, hnot⟩
    rcases tryFromScript_cases spk with
      ⟨h, -⟩ | ⟨data, hpush, hother, -⟩ | ⟨a, hversion, hpush, -⟩ | ⟨-, h⟩
    · exact absurd hhead h
    · exact absurd hother (hnot data hpush).1
    · exact absurd rfl ((hnot a.encode hpush).2 a hversion)
    · exact h

end Attestation

end Hodlchain
