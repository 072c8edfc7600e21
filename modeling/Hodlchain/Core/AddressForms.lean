/-
How an address can be written.

The crate reads both checksums, and drops what is left of the last word without looking
at it.  So the strings that are taken for an address are all spellings of its key under
its prefix, of which the encoder writes one.
-/
import Hodlchain.Lib.Spelling
import Hodlchain.Core.Address

namespace Hodlchain

open Regroup Spelling

/-- What the bech32 crate documents: the encoder writes bech32m in small letters, and the decoder
takes either checksum.  Strings of up to 90 characters are within its limits. -/
structure Bech32.Documented (b : Bech32) : Prop where
  encode : ∀ {hrp data}, ValidPrefix hrp.toList → Lower hrp.toList →
    hrp.toList.length + (toWords data).length + 7 ≤ 90 →
    b.encode hrp data = String.ofList (spell .bech32m hrp.toList (toWords data))
  sound : ∀ {s hrp data}, b.decode s = some (hrp, data) →
    ∃ v ws, Reads s.toList v hrp.toList ws ∧ fromWords ws = data
  complete : ∀ {s hrp v ws}, Reads s.toList v hrp.toList ws → s.toList.length ≤ 90 →
    b.decode s = some (hrp, fromWords ws)

namespace Address

/-! ### Prefixes -/

namespace AddressClass

theorem fromHrp_eq_some_iff {hrp : String} {cls : AddressClass} :
    fromHrp hrp = some cls ↔ hrp = cls.hrp := by
  rw [fromHrp]
  constructor
  · intro h
    split_ifs at h with hmain htest hreg
    all_goals
      obtain rfl := Option.some.inj h
      assumption
  · rintro rfl
    cases cls <;> rfl

theorem validPrefix_hrp (cls : AddressClass) : ValidPrefix cls.hrp.toList := by
  cases cls <;> decide

theorem lower_hrp (cls : AddressClass) : Lower cls.hrp.toList := by
  cases cls <;> decide

theorem h_mem_hrp (cls : AddressClass) : 'h' ∈ cls.hrp.toList := by
  cases cls <;> decide

theorem length_hrp_le (cls : AddressClass) : cls.hrp.toList.length ≤ 4 := by
  cases cls <;> decide

/-- Every class is that of some network. -/
theorem exists_of (cls : AddressClass) : ∃ n, of n = cls := by
  cases cls with
  | mainnet => exact ⟨.bitcoin, rfl⟩
  | testnetOrSignet => exact ⟨.testnet, rfl⟩
  | regtest => exact ⟨.regtest, rfl⟩

theorem reads_iff {s : List Char} {v : Checksum} {cls : AddressClass} {ws : List Word} :
    Reads s v cls.hrp.toList ws ↔ s = spell v cls.hrp.toList ws :=
  reads_iff_of_lower cls.validPrefix_hrp cls.lower_hrp cls.h_mem_hrp (by decide)

end AddressClass

/-! ### What is taken -/

section

variable {b : Bech32} {s : String} {pk : XOnlyPublicKey} {cls : AddressClass}

/-- A key has 52 words, whatever follows its bits in the last one. -/
theorem length_words_of_key {ws : List Word} (h : fromWords ws = pk.serialize) :
    ws.length = 52 := by
  have hlen := length_of_fromWords ws
  rw [h, pk.length_serialize] at hlen
  omega

/-- **The strings taken for an address**: the spellings of its key. -/
theorem decode_ok_iff (hb : b.Documented) :
    decode b s = .ok (pk, cls) ↔
      b.isKey pk.bytes = true ∧ ∃ v ws, s.toList = spell v cls.hrp.toList ws ∧
        fromWords ws = pk.serialize := by
  simp only [decode, bind_ok_iff, okOr_ok_iff, AddressClass.fromHrp_eq_some_iff]
  constructor
  · rintro ⟨⟨hrp, data⟩, hread, cls', rfl, h⟩
    obtain ⟨v, ws, hreads, rfl⟩ := hb.sound hread
    split_ifs at h with hlen
    simp only [bind_ok_iff, ensure_ok_iff, pure_ok_iff, Prod.mk.injEq] at h
    obtain ⟨-, hkey, rfl, rfl⟩ := h
    exact ⟨hkey, v, ws, AddressClass.reads_iff.mp hreads, by
      simp [XOnlyPublicKey.serialize, Vector.toList]⟩
  · rintro ⟨hkey, v, ws, hspell, hws⟩
    have hlen : s.toList.length ≤ 90 := by
      have hprefix := cls.length_hrp_le
      rw [hspell, length_spell, length_words_of_key hws]
      omega
    refine ⟨(cls.hrp, fromWords ws),
      hb.complete (AddressClass.reads_iff.mpr hspell) hlen, cls, rfl, ?_⟩
    have hbytes : (fromWords ws).length = 32 := by rw [hws, pk.length_serialize]
    have hpk : (⟨(fromWords ws).toArray, by simpa using hbytes⟩ : ByteArr 32) = pk.bytes := by
      refine Vector.toList_inj.mp ?_
      simpa [Vector.toList, XOnlyPublicKey.serialize] using hws
    rw [dif_pos hbytes]
    simp only [bind_ok_iff, ensure_ok_iff, pure_ok_iff, hpk]
    exact ⟨(), hkey, trivial⟩

theorem encode_eq (hb : b.Documented) (pk : XOnlyPublicKey) (n : NetworkName) :
    encode b pk n
      = String.ofList (spell .bech32m (AddressClass.of n).hrp.toList (toWords pk.serialize)) := by
  refine hb.encode (AddressClass.validPrefix_hrp _) (AddressClass.lower_hrp _) ?_
  have hprefix := (AddressClass.of n).length_hrp_le
  rw [length_words_of_key (fromWords_toWords pk.serialize)]
  omega

/-- What is written is read, with the class of the network. -/
theorem decode_encode (hb : b.Documented) (hkey : b.isKey pk.bytes = true) (n : NetworkName) :
    decode b (encode b pk n) = .ok (pk, AddressClass.of n) := by
  rw [encode_eq hb]
  exact (decode_ok_iff hb).mpr ⟨hkey, .bech32m, _, String.toList_ofList, fromWords_toWords _⟩

end

/-! ### One encoding -/

/-- An address is read back for its networks, and a string that is taken is the one that is
written. -/
structure OneEncoding (b : Bech32) (s : String) : Prop where
  same : ∀ (pk : XOnlyPublicKey) (n m : NetworkName), b.isKey pk.bytes = true →
    AddressClass.of n = AddressClass.of m → decodeFor b (encode b pk n) m = .ok pk
  other : ∀ (pk : XOnlyPublicKey) (n m : NetworkName), b.isKey pk.bytes = true →
    AddressClass.of n ≠ AddressClass.of m →
    decodeFor b (encode b pk n) m =
      .error (.wrongHrp (AddressClass.of m).hrp (AddressClass.of n).hrp)
  only : ∀ pk cls, decode b s = .ok (pk, cls) → ∃ n, AddressClass.of n = cls ∧
    s.toLower = encode b pk n

/-- Where the string spells a key under one of the prefixes, it does so in bech32m, and the last
word is filled up with zeros. -/
def Canonical (b : Bech32) (s : String) : Prop :=
  ∀ (v : Checksum) (cls : AddressClass) (ws : List Word) (pk : XOnlyPublicKey),
    s.toList = spell v cls.hrp.toList ws → fromWords ws = pk.serialize → b.isKey pk.bytes = true →
      v = .bech32m ∧ Padded ws

section

variable {b : Bech32} {s : String} {pk : XOnlyPublicKey} {n m : NetworkName}

theorem decodeFor_encode_same (hb : b.Documented) (hkey : b.isKey pk.bytes = true)
    (h : AddressClass.of n = AddressClass.of m) : decodeFor b (encode b pk n) m = .ok pk := by
  simp only [decodeFor, bind_ok_iff, ensure_ok_iff, pure_ok_iff]
  exact ⟨(pk, AddressClass.of n), decode_encode hb hkey n, (), h, rfl⟩

theorem decodeFor_encode_other (hb : b.Documented) (hkey : b.isKey pk.bytes = true)
    (h : AddressClass.of n ≠ AddressClass.of m) :
    decodeFor b (encode b pk n) m =
      .error (.wrongHrp (AddressClass.of m).hrp (AddressClass.of n).hrp) := by
  simp only [decodeFor, bind_error_iff, ensure_error_iff]
  exact .inr ⟨(pk, AddressClass.of n), decode_encode hb hkey n, .inl ⟨h, rfl⟩⟩

/-- A spelling of a key is the one that is written when it is bech32m and filled up. -/
theorem spelled_eq_encode_iff (hb : b.Documented) {v : Checksum} {cls : AddressClass}
    {ws : List Word}
    (hs : s.toList = spell v cls.hrp.toList ws) (hws : fromWords ws = pk.serialize) :
    (∃ n, AddressClass.of n = cls ∧ s.toLower = encode b pk n) ↔ v = .bech32m ∧ Padded ws := by
  have hlow : s.toLower.toList = s.toList := by
    rw [toList_toLower, hs, map_toLower_of_lower (lower_spell cls.lower_hrp ws)]
  constructor
  · rintro ⟨n, rfl, henc⟩
    have hspell := congrArg String.toList henc
    rw [hlow, hs, encode_eq hb, String.toList_ofList] at hspell
    obtain ⟨rfl, -, hwords⟩ := spell_inj hspell
    exact ⟨rfl, hwords ▸ padded_toWords _⟩
  · rintro ⟨rfl, hpad⟩
    obtain ⟨n, rfl⟩ := cls.exists_of
    refine ⟨n, rfl, String.toList_inj.mp ?_⟩
    rw [hlow, hs, encode_eq hb, String.toList_ofList, ← hws, toWords_fromWords_iff.mpr hpad]

/-- **When an address has one encoding**: where the legacy checksum and the bits that are dropped do
not come in. -/
theorem oneEncoding_iff (hb : b.Documented) (s : String) : OneEncoding b s ↔ Canonical b s := by
  constructor
  · intro h v cls ws pk hs hws hkey
    exact (spelled_eq_encode_iff hb hs hws).mp
      (h.only pk cls ((decode_ok_iff hb).mpr ⟨hkey, v, ws, hs, hws⟩))
  · intro h
    refine ⟨fun _ _ _ => decodeFor_encode_same hb, fun _ _ _ => decodeFor_encode_other hb, ?_⟩
    intro pk cls hdec
    obtain ⟨hkey, v, ws, hs, hws⟩ := (decode_ok_iff hb).mp hdec
    exact (spelled_eq_encode_iff hb hs hws).mpr (h v cls ws pk hs hws hkey)

end

end Address

/-! ### The crate to run on -/

/-- The crate, with the numbers below the field's prime for keys. -/
def Bech32.standard : Bech32 where
  encode hrp data := String.ofList (spell .bech32m hrp.toList (toWords data))
  decode s := (read s.toList).map fun (_, hrp, ws) => (String.ofList hrp, fromWords ws)
  isKey key := Bytes.beValue key.toList < 2 ^ 256 - 2 ^ 32 - 977

theorem Bech32.standard_documented : Bech32.standard.Documented where
  encode _ _ _ := rfl
  sound := by
    intro s hrp data h
    obtain ⟨⟨v, hrp', ws⟩, hread, heq⟩ := Option.map_eq_some_iff.mp h
    obtain ⟨rfl, rfl⟩ := Prod.mk.inj heq
    exact ⟨v, ws, by rw [String.toList_ofList]; exact read_eq_some_iff.mp hread, rfl⟩
  complete := by
    intro s hrp v ws h _
    exact Option.map_eq_some_iff.mpr ⟨(v, hrp.toList, ws), read_eq_some_iff.mpr h,
      Prod.ext String.ofList_toList rfl⟩

namespace Address

/-- The x coordinate of the curve's generator. -/
def generatorKey : XOnlyPublicKey :=
  ⟨ByteArr.ofNat 32 0x79be667ef9dcbbac55a06295ce870b07029bfcdb2dce28d959f2815b16f81798⟩

/-- The key under the prefix of mainnet, with the legacy checksum. -/
def generatorBech32 : String := "hc10xlxvlhemja6c4dqv22uapctqupfhlxm9h8z3k2e72q4k9hcz7vq5reanm"

theorem generatorKey_isKey : Bech32.standard.isKey generatorKey.bytes = true := by decide

/-- What the encoder writes has no other encoding. -/
theorem oneEncoding_generator :
    OneEncoding Bech32.standard (encode Bech32.standard generatorKey .bitcoin) := by
  refine (oneEncoding_iff Bech32.standard_documented _).mpr fun v cls ws pk hs _ _ => ?_
  have hwritten : (encode Bech32.standard generatorKey .bitcoin).toList
      = spell .bech32m "hc".toList (toWords generatorKey.serialize) := String.toList_ofList
  obtain ⟨rfl, -, rfl⟩ := spell_inj (hs.symm.trans hwritten)
  exact ⟨rfl, padded_toWords _⟩

/-- **A legacy string** is taken for the key, and is not what is written for it. -/
theorem legacy_taken :
    decode Bech32.standard generatorBech32 = .ok (generatorKey, .mainnet) ∧
      ¬ ∃ n, AddressClass.of n = .mainnet ∧
        generatorBech32.toLower = encode Bech32.standard generatorKey n := by
  have hs : generatorBech32.toList
      = spell .bech32 (AddressClass.mainnet).hrp.toList (toWords generatorKey.serialize) := by
    decide +kernel
  have hws := fromWords_toWords generatorKey.serialize
  constructor
  · exact (decode_ok_iff Bech32.standard_documented).mpr ⟨generatorKey_isKey, _, _, hs, hws⟩
  · intro h
    exact nomatch ((spelled_eq_encode_iff Bech32.standard_documented hs hws).mp h).1

end Address

end Hodlchain
