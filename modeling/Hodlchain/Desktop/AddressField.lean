/-
The address field of the transfer form.

The form checks an address as it is typed, with a decoder of its own in TypeScript, and
sends what was typed to the backend.  The form is there to be no laxer than the backend;
what it takes that the backend does not, and where its decoder throws, is settled here.
-/
import Hodlchain.Core.AddressForms

namespace Hodlchain.Desktop

open Regroup Spelling Address

/-! ### `lib/address.ts` -/

/-- The bech32 package of the form; an error is what it throws. -/
structure Bech32Js where
  /-- `bech32m.decode`: the prefix and the words. -/
  decode : String → Except String (String × List Word)
  /-- `bech32m.fromWords`. -/
  fromWords : List Word → Except String Bytes

/-- `DecodeResult`. -/
inductive DecodeResult where
  | ok (pubkeyHex : String) (klass : AddressClass)
  | error (message : String)
deriving DecidableEq, Repr

/-- The characters `String.prototype.trim` takes off. -/
def isSpaceJs (c : Char) : Bool :=
  [0x9, 0xa, 0xb, 0xc, 0xd, 0x20, 0xa0, 0x1680, 0x2000, 0x2001, 0x2002, 0x2003, 0x2004, 0x2005,
    0x2006, 0x2007, 0x2008, 0x2009, 0x200a, 0x2028, 0x2029, 0x202f, 0x205f, 0x3000,
    0xfeff].contains c.toNat

/-- `String.prototype.trim`. -/
def trim (s : String) : String :=
  String.ofList ((s.toList.dropWhile isSpaceJs).reverse.dropWhile isSpaceJs).reverse

/-- `JSON.stringify`, on printable text. -/
def stringify (s : String) : String :=
  String.ofList (Char.ofNat 34 :: (s.toList.flatMap fun c =>
    if c.toNat = 34 ∨ c.toNat = 92 then [Char.ofNat 92, c] else [c]) ++ [Char.ofNat 34])

/-- `addressClassOf`. -/
def addressClassOf : NetworkName → AddressClass
  | .bitcoin => .mainnet
  | .testnet | .signet => .testnetOrSignet
  | .regtest => .regtest

/-- `hrpFor`. -/
def hrpFor : AddressClass → String
  | .mainnet => "hc"
  | .testnetOrSignet => "thc"
  | .regtest => "hcrt"

/-- `classFromHrp`. -/
def classFromHrp (hrp : String) : Option AddressClass :=
  if hrp = "hc" then some .mainnet
  else if hrp = "thc" then some .testnetOrSignet
  else if hrp = "hcrt" then some .regtest
  else none

section

variable (js : Bech32Js)

/-- `decode`; the words are taken apart outside of the `try`. -/
def formDecode (s : String) : Except String DecodeResult :=
  match js.decode (trim s) with
  | .error e => .ok (.error ("bech32m decode failed: " ++ e))
  | .ok (hrp, words) =>
      match classFromHrp hrp with
      | none => .ok (.error ("unknown HRP " ++ stringify hrp ++ "; expected one of hc, thc, hcrt"))
      | some klass => do
          let bytes ← js.fromWords words
          if bytes.length ≠ 32 then pure (.error ("payload must be 32 bytes, got "
            ++ toString bytes.length))
          else pure (.ok (Bytes.hexEncode bytes) klass)

/-- `decodeForNetwork`. -/
def decodeForNetwork (s : String) (net : NetworkName) : Except String DecodeResult := do
  let r ← formDecode js s
  match r with
  | .error message => pure (.error message)
  | .ok pubkeyHex klass =>
      let expected := addressClassOf net
      if klass ≠ expected then
        pure (.error ("wrong network: expected " ++ hrpFor expected ++ "1…, got "
          ++ hrpFor klass ++ "1…"))
      else pure (.ok pubkeyHex klass)

end

/-! ### What the package documents -/

/-- A string the package reads under a prefix: in one case, as JavaScript has it, and spelled in
bech32m in small letters. -/
structure ReadsJs (lowerCase upperCase : String → String) (s hrp : String)
    (ws : List Word) : Prop where
  oneCase : lowerCase s = s ∨ upperCase s = s
  valid : ValidPrefix hrp.toList
  spelled : (lowerCase s).toList = spell .bech32m hrp.toList ws
  short : s.toList.length ≤ 90

/-- The package over JavaScript's `toLowerCase` and `toUpperCase`, of which it is only used that
small ASCII letters stay small. -/
structure Bech32Js.Documented (js : Bech32Js) (lowerCase upperCase : String → String) : Prop where
  lowerCase_ascii : ∀ s : String, (∀ c ∈ s.toList, c.toNat < 128 ∧ c.toLower = c) → lowerCase s = s
  decode_iff : ∀ s hrp ws, js.decode s = .ok (hrp, ws) ↔ ReadsJs lowerCase upperCase s hrp ws
  fromWords_ok : ∀ ws, Padded ws → js.fromWords ws = .ok (Regroup.fromWords ws)
  fromWords_throws : ∀ ws, ¬ Padded ws → ∃ e, js.fromWords ws = .error e

theorem addressClassOf_eq (net : NetworkName) : addressClassOf net = AddressClass.of net := by
  cases net <;> rfl

/-- Printable text has no blanks at its ends. -/
theorem trim_eq_self {s : String} (h : ∀ c ∈ s.toList, 33 ≤ c.toNat ∧ c.toNat ≤ 126) :
    trim s = s := by
  have hspace : ∀ c ∈ s.toList, isSpaceJs c = false := by
    intro c hc
    obtain ⟨hlow, hhigh⟩ := h c hc
    simp only [isSpaceJs, List.contains_eq_mem, decide_eq_false_iff_not, List.mem_cons,
      List.not_mem_nil, or_false]
    omega
  have hdrop : ∀ l : List Char, (∀ c ∈ l, isSpaceJs c = false) → l.dropWhile isSpaceJs = l := by
    intro l hl
    cases l with
    | nil => rfl
    | cons c l => exact List.dropWhile_cons_of_neg (by simp [hl c (by simp)])
  rw [trim, hdrop _ hspace, hdrop _ fun c hc => hspace c (List.mem_reverse.mp hc),
    List.reverse_reverse, String.ofList_toList]

/-! ### The form and the backend -/

section

variable {b : Bech32} {js : Bech32Js} {lowerCase upperCase : String → String} {s : String}
    {net : NetworkName}

/-- What the form takes, the backend takes for the same key; and the form answers. -/
structure NeverLaxer (b : Bech32) (js : Bech32Js) (s : String) (net : NetworkName) : Prop where
  accepted : ∀ pubkeyHex klass, decodeForNetwork js s net = .ok (.ok pubkeyHex klass) →
    ∃ pk, decodeFor b s net = .ok pk ∧ pubkeyHex = Bytes.hexEncode pk.serialize
  answers : ∃ r, formDecode js s = .ok r

/-- Once trimmed, a bech32m string under one of the prefixes is filled up; and one of a 32-byte
payload for the network was typed without blanks and in small letters, and has a key for its
payload. -/
def TypedPlainly (b : Bech32) (lowerCase upperCase : String → String) (s : String)
    (net : NetworkName) :
    Prop :=
  ∀ (cls : AddressClass) (ws : List Word), ReadsJs lowerCase upperCase (trim s) cls.hrp ws →
    Padded ws ∧ ∀ pk : XOnlyPublicKey, cls = AddressClass.of net →
      Regroup.fromWords ws = pk.serialize →
      trim s = s ∧ lowerCase s = s ∧ b.isKey pk.bytes = true

theorem formDecode_of_reads (hjs : js.Documented lowerCase upperCase) {cls : AddressClass}
    {ws : List Word} (h : ReadsJs lowerCase upperCase (trim s) cls.hrp ws) :
    formDecode js s = (js.fromWords ws).map fun bytes =>
      if bytes.length ≠ 32 then .error ("payload must be 32 bytes, got " ++ toString bytes.length)
      else .ok (Bytes.hexEncode bytes) cls := by
  have hcls : classFromHrp cls.hrp = some cls := AddressClass.fromHrp_eq_some_iff.mpr rfl
  simp only [formDecode, (hjs.decode_iff _ _ _).mpr h, hcls]
  cases js.fromWords ws with
  | error e => rfl
  | ok bytes => by_cases hlen : bytes.length = 32 <;> simp [hlen, bind, Except.bind,
    pure, Except.pure, Except.map]

/-- A string that does not read under one of the prefixes is answered with an error. -/
theorem formDecode_cases (hjs : js.Documented lowerCase upperCase) (s : String) :
    (∃ message, formDecode js s = .ok (.error message)) ∨
      ∃ (cls : AddressClass) (ws : List Word), ReadsJs lowerCase upperCase (trim s) cls.hrp ws := by
  cases hdec : js.decode (trim s) with
  | error e => exact .inl ⟨_, by rw [formDecode, hdec]⟩
  | ok decoded =>
      obtain ⟨hrp, ws⟩ := decoded
      cases hcls : classFromHrp hrp with
      | none => exact .inl ⟨_, by simp only [formDecode, hdec, hcls]; rfl⟩
      | some cls =>
          obtain rfl := AddressClass.fromHrp_eq_some_iff.mp hcls
          exact .inr ⟨cls, ws, (hjs.decode_iff _ _ _).mp hdec⟩

theorem decodeForNetwork_ok {pubkeyHex : String} {klass : AddressClass}
    (h : decodeForNetwork js s net = .ok (.ok pubkeyHex klass)) :
    formDecode js s = .ok (.ok pubkeyHex klass) ∧ klass = AddressClass.of net := by
  simp only [decodeForNetwork, bind_ok_iff] at h
  obtain ⟨r, hr, h⟩ := h
  cases r with
  | error message => cases h
  | ok hex cls =>
      simp only at h
      by_cases hcls : cls = addressClassOf net
      · rw [if_neg (not_not.mpr hcls)] at h
        cases h
        exact ⟨hr, by rw [hcls, addressClassOf_eq]⟩
      · rw [if_pos hcls] at h
        cases h

/-- **When the form is no laxer than the backend.** -/
theorem neverLaxer_iff (hb : b.Documented) (hjs : js.Documented lowerCase upperCase) :
    NeverLaxer b js s net ↔ TypedPlainly b lowerCase upperCase s net := by
  constructor
  · intro h cls ws hreads
    have hdec := formDecode_of_reads hjs hreads
    have hpad : Padded ws := by
      by_contra hpad
      obtain ⟨e, he⟩ := hjs.fromWords_throws ws hpad
      obtain ⟨r, hr⟩ := h.answers
      rw [hdec, he] at hr
      cases hr
    refine ⟨hpad, fun pk hcls hws => ?_⟩
    subst hcls
    have hform : decodeForNetwork js s net =
        .ok (.ok (Bytes.hexEncode pk.serialize) (AddressClass.of net)) := by
      simp [decodeForNetwork, hdec, hjs.fromWords_ok ws hpad, hws, addressClassOf_eq,
        Except.map, bind, Except.bind, pure, Except.pure]
    obtain ⟨pk', hback, hhex⟩ := h.accepted _ _ hform
    obtain rfl := XOnlyPublicKey.serialize_inj.mp (Bytes.hexEncode_inj hhex)
    -- the backend reads what was typed, so that is a spelling in small letters
    simp only [decodeFor, bind_ok_iff, ensure_ok_iff, pure_ok_iff] at hback
    obtain ⟨⟨pk', cls⟩, hpk, -, -, rfl⟩ := hback
    obtain ⟨hkey, v, ws', hs, -⟩ := (decode_ok_iff hb).mp hpk
    have hprintable : ∀ c ∈ s.toList, 33 ≤ c.toNat ∧ c.toNat ≤ 126 := fun c hc =>
      spell_printable cls.validPrefix_hrp (hs ▸ hc)
    refine ⟨trim_eq_self hprintable, hjs.lowerCase_ascii s fun c hc => ⟨?_, ?_⟩, hkey⟩
    · have := (hprintable c hc).2
      omega
    · exact lower_spell cls.lower_hrp ws' c (hs ▸ hc)
  · intro h
    refine ⟨fun pubkeyHex klass hform => ?_, ?_⟩
    · obtain ⟨hdec, rfl⟩ := decodeForNetwork_ok hform
      rcases formDecode_cases hjs s with ⟨message, herror⟩ | ⟨cls, ws, hreads⟩
      · cases hdec.symm.trans herror
      · obtain ⟨hpad, hplain⟩ := h cls ws hreads
        rw [formDecode_of_reads hjs hreads, hjs.fromWords_ok ws hpad] at hdec
        have hanswer := Except.ok.inj hdec
        simp only at hanswer
        split_ifs at hanswer with hlen
        rw [not_not] at hlen
        obtain ⟨rfl, rfl⟩ := DecodeResult.ok.inj hanswer
        have hpk : fromWords ws = XOnlyPublicKey.serialize
            ⟨⟨(fromWords ws).toArray, by simpa using hlen⟩⟩ := by
          simp [XOnlyPublicKey.serialize, Vector.toList]
        obtain ⟨htrim, hlower, hkey⟩ := hplain _ rfl hpk
        have hspell := hreads.spelled
        rw [htrim, hlower] at hspell
        refine ⟨_, ?_, congrArg Bytes.hexEncode hpk⟩
        simp only [decodeFor, bind_ok_iff, ensure_ok_iff, pure_ok_iff]
        exact ⟨(_, AddressClass.of net),
          (decode_ok_iff hb).mpr ⟨hkey, .bech32m, ws, hspell, hpk⟩, (), rfl, rfl⟩
    · rcases formDecode_cases hjs s with ⟨message, herror⟩ | ⟨cls, ws, hreads⟩
      · exact ⟨_, herror⟩
      · rw [formDecode_of_reads hjs hreads, hjs.fromWords_ok ws (h cls ws hreads).1]
        exact ⟨_, rfl⟩

end

/-! ### The package to run on -/

/-- The package, with ASCII's cases. -/
def Bech32Js.standard : Bech32Js where
  decode s :=
    if Lower s.toList ∨ Upper s.toList then
      match readLower (s.toList.map Char.toLower) with
      | some (.bech32m, hrp, ws) =>
          if ValidPrefix hrp ∧ s.toList.length ≤ 90 then .ok (String.ofList hrp, ws)
          else .error "Exceeds length limit"
      | _ => .error ("Invalid checksum for " ++ s)
    else .error ("Mixed-case string " ++ s)
  fromWords ws :=
    if Padded ws then .ok (Regroup.fromWords ws)
    else if (padding ws).length < 5 then .error "Non-zero padding" else .error "Excess padding"

theorem lower_iff {s : String} : Lower s.toList ↔ s.toLower = s := by
  rw [← String.toList_inj, toList_toLower]
  constructor
  · exact map_toLower_of_lower
  · intro h c hc
    exact (List.map_eq_map_iff.mp (h.trans s.toList.map_id.symm)) c hc

theorem upper_iff {s : String} : Upper s.toList ↔ s.toUpper = s := by
  rw [← String.toList_inj, toList_toUpper]
  constructor
  · exact fun h => (List.map_congr_left h).trans s.toList.map_id
  · intro h c hc
    exact (List.map_eq_map_iff.mp (h.trans s.toList.map_id.symm)) c hc

theorem Bech32Js.standard_documented :
    Bech32Js.standard.Documented String.toLower String.toUpper where
  lowerCase_ascii s h := lower_iff.mp fun c hc => (h c hc).2
  decode_iff := by
    intro s hrp ws
    have hmap := toList_toLower s
    constructor
    · intro h
      simp only [standard] at h
      split_ifs at h with hcase
      split at h
      · rename_i hrp' ws' hread
        split_ifs at h with hshort
        obtain ⟨rfl, rfl⟩ := Prod.mk.inj (Except.ok.inj h)
        refine ⟨hcase.imp lower_iff.mp upper_iff.mp, ?_, ?_, hshort.2⟩
        · rw [String.toList_ofList]
          exact hshort.1
        · rw [hmap, String.toList_ofList]
          exact readLower_eq_some_iff.mp hread
      · cases h
    · rintro ⟨hcase, hvalid, hspell, hshort⟩
      rw [hmap] at hspell
      have hread := readLower_eq_some_iff.mpr hspell
      simp only [standard, if_pos (hcase.imp lower_iff.mpr upper_iff.mpr), hread,
        if_pos (And.intro hvalid hshort), String.ofList_toList]
  fromWords_ok ws h := if_pos h
  fromWords_throws ws h := by
    simp only [standard, if_neg h]
    by_cases hlen : (padding ws).length < 5
    · exact ⟨_, if_pos hlen⟩
    · exact ⟨_, if_neg hlen⟩

/-- On what the backend writes itself, the form is no laxer. -/
theorem neverLaxer_generator :
    NeverLaxer Bech32.standard Bech32Js.standard (encode Bech32.standard generatorKey .bitcoin)
      .bitcoin := by
  have hwritten : (encode Bech32.standard generatorKey .bitcoin).toList
      = spell .bech32m (AddressClass.mainnet).hrp.toList (toWords generatorKey.serialize) :=
    String.toList_ofList
  have htrim : trim (encode Bech32.standard generatorKey .bitcoin)
      = encode Bech32.standard generatorKey .bitcoin :=
    trim_eq_self fun c hc => spell_printable (AddressClass.validPrefix_hrp .mainnet) (hwritten ▸ hc)
  have hlower : (encode Bech32.standard generatorKey .bitcoin).toLower
      = encode Bech32.standard generatorKey .bitcoin :=
    lower_iff.mp (hwritten ▸ lower_spell (AddressClass.lower_hrp .mainnet) _)
  refine (neverLaxer_iff Bech32.standard_documented Bech32Js.standard_documented).mpr
    fun cls ws hreads => ?_
  have hspell := hreads.spelled
  rw [htrim, hlower, hwritten] at hspell
  obtain ⟨-, -, rfl⟩ := spell_inj hspell
  refine ⟨padded_toWords _, fun pk _ hpk => ⟨htrim, hlower, ?_⟩⟩
  obtain rfl := XOnlyPublicKey.serialize_inj.mp ((fromWords_toWords _).symm.trans hpk)
  exact generatorKey_isKey

/-- **Four strings the form is laxer on**: a blank in front, capitals, a number that is no key; and
one with a bit set after the key, which the decoder throws on. -/
theorem form_laxer :
    (decodeForNetwork Bech32Js.standard
      " hc10xlxvlhemja6c4dqv22uapctqupfhlxm9h8z3k2e72q4k9hcz7vqplf3ke" .bitcoin
        = .ok (.ok (Bytes.hexEncode generatorKey.serialize) .mainnet) ∧
      decodeFor Bech32.standard
        " hc10xlxvlhemja6c4dqv22uapctqupfhlxm9h8z3k2e72q4k9hcz7vqplf3ke" .bitcoin
        = .error .bech32) ∧
    (decodeForNetwork Bech32Js.standard
      "HC10XLXVLHEMJA6C4DQV22UAPCTQUPFHLXM9H8Z3K2E72Q4K9HCZ7VQPLF3KE" .bitcoin
        = .ok (.ok (Bytes.hexEncode generatorKey.serialize) .mainnet) ∧
      decodeFor Bech32.standard
        "HC10XLXVLHEMJA6C4DQV22UAPCTQUPFHLXM9H8Z3K2E72Q4K9HCZ7VQPLF3KE" .bitcoin
        = .error (.unknownHrp "HC")) ∧
    (decodeForNetwork Bech32Js.standard
      "hc1lllllllllllllllllllllllllllllllllllllllllllllllllllsqh7t76" .bitcoin
        = .ok (.ok (Bytes.hexEncode (List.replicate 32 255)) .mainnet) ∧
      decodeFor Bech32.standard
        "hc1lllllllllllllllllllllllllllllllllllllllllllllllllllsqh7t76" .bitcoin
        = .error .invalidPubkey) ∧
    formDecode Bech32Js.standard "hc10xlxvlhemja6c4dqv22uapctqupfhlxm9h8z3k2e72q4k9hcz7vpufaytt"
        = .error "Non-zero padding" := by
  decide +kernel

end Hodlchain.Desktop
