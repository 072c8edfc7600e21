/-
What a state root commits to.

Apart from SHA-256 collisions the root determines the account map and the fee
address.  Of the nullifiers it determines one string, all of them in order one after
the other: nothing marks where one ends, so a set and another way to cut its string
have one root.
-/
import Hodlchain.Core.SmtAccounts

namespace Hodlchain

open Bytes LedgerState

section

variable {prim : Primitives}

/-! ### The strings of a ledger -/

/-- What `nullifiers_hash_of` reads: the nullifiers in order, one after the other. -/
def spelled (set : NullifierSet) : Bytes := set.toList.flatMap utf8

/-- The strings hashed for the root of a ledger, and for its proofs, are in `U`. -/
structure LedgerState.In (prim : Primitives) (U : Set Bytes) (s : LedgerState) : Prop where
  components : (s.components prim).preimage ∈ U
  nullifiers : nullifiersPreimage s.consumedNullifiers ∈ U
  proofs : ∀ a, (s.accountInclusionProof prim a).In prim U

theorem nullifiersPreimage_eq_iff {a b : NullifierSet} :
    nullifiersPreimage a = nullifiersPreimage b ↔ spelled a = spelled b := by
  simp [nullifiersPreimage, spelled]

theorem StateComponents.preimage_inj {a b : StateComponents} (h : a.preimage = b.preimage) :
    a = b := by
  obtain ⟨aRoot, aHash, aFee⟩ := a
  obtain ⟨bRoot, bHash, bFee⟩ := b
  simp only [preimage, List.append_assoc, List.append_cancel_left_eq,
    append_split ((H256.length_raw _).trans (H256.length_raw _).symm), H256.raw_inj] at h
  obtain ⟨hroot, hhash, hfee⟩ := h
  have hfee : aFee = bFee := by
    cases aFee <;> cases bFee <;> simp_all [optBytes]
  rw [hroot, hhash, hfee]

/-- Accounts and their leaves determine each other. -/
theorem accounts_eq_of_leaves {s t : LedgerState} (h : s.leaves = t.leaves) :
    s.accounts = t.accounts := by
  refine Std.ExtTreeMap.ext_getElem? fun a => ?_
  have ha : leafKindOf s.accounts[a]? = leafKindOf t.accounts[a]? := congrFun h a
  cases hs : s.accounts[a]? <;> cases ht : t.accounts[a]? <;> simp_all [leafKindOf]
  rename_i x y
  cases x; cases y
  simp_all

/-- The root of the accounts determines them. -/
theorem accounts_eq_of_root {U : Set Bytes} (hcf : Set.InjOn prim.sha256 U) {s t : LedgerState}
    (hs : s.In prim U) (ht : t.In prim U) (h : s.accountsRoot prim = t.accountsRoot prim) :
    s.accounts = t.accounts := by
  refine accounts_eq_of_leaves (funext fun a => ?_)
  -- a proof of one ledger is a proof of the other, which has only one for each address
  have hin := ht.proofs a
  have htree := hs.proofs a
  rw [accountInclusionProof_eq] at hin htree
  have hverify : (smtProof prim t.leaves a).verify prim (smtRoot prim s.leaves) = true := by
    rw [← accountsRoot_eq, h, accountsRoot_eq]
    exact verify_smtProof _ _
  exact (congrArg InclusionProof.leaf (hin.sound hcf htree hverify)).symm

/-- **What two ledgers with one root have in common.** -/
theorem stateRoot_eq_iff {U : Set Bytes} (hcf : Set.InjOn prim.sha256 U) {s t : LedgerState}
    (hs : s.In prim U) (ht : t.In prim U) :
    s.stateRoot prim = t.stateRoot prim ↔ s.accounts = t.accounts ∧
      spelled s.consumedNullifiers = spelled t.consumedNullifiers ∧
      s.sequencerFeeAddress = t.sequencerFeeAddress := by
  constructor
  · intro h
    have hcomp := StateComponents.preimage_inj (hcf hs.components ht.components h)
    refine ⟨accounts_eq_of_root hcf hs ht (congrArg StateComponents.accountsRoot hcomp), ?_,
      congrArg StateComponents.sequencerFeeAddress hcomp⟩
    exact nullifiersPreimage_eq_iff.mp
      (hcf hs.nullifiers ht.nullifiers (congrArg StateComponents.nullifiersHash hcomp))
  · rintro ⟨haccounts, hspelled, hfee⟩
    have hpre := nullifiersPreimage_eq_iff.mpr hspelled
    simp only [stateRoot, components, accountsRoot, nullifiersHash, nullifiersHashOf, haccounts,
      hpre, hfee]

/-- Nullifiers of one length cannot be cut in two ways. -/
theorem spelled_inj_of_length {a b : NullifierSet} {k : Nat} (hk : 0 < k)
    (ha : ∀ n ∈ a, (utf8 n).length = k) (hb : ∀ n ∈ b, (utf8 n).length = k)
    (h : spelled a = spelled b) : a = b := by
  have hcut : ∀ {set : NullifierSet} (hset : ∀ n ∈ set.toList, (utf8 n).length = k),
      spelled set = (set.toList.attachWith _ hset).flatMap fun n => utf8 n.1 := by
    intro set hset
    rw [spelled, ← List.flatMap_map (fun n : {n // (utf8 n).length = k} => n.1),
      List.attachWith_map_subtype_val]
  have ha' : ∀ n ∈ a.toList, (utf8 n).length = k := fun n hn =>
    ha n (Std.ExtTreeSet.mem_toList.mp hn)
  have hb' : ∀ n ∈ b.toList, (utf8 n).length = k := fun n hn =>
    hb n (Std.ExtTreeSet.mem_toList.mp hn)
  rw [hcut ha', hcut hb'] at h
  have hmap := flatMap_inj_of_width hk (fun n => n.2) h
  refine Std.ExtTreeSet.toList_inj.mp (List.map_injective_iff.mpr (fun _ _ => utf8_inj.mp) ?_)
  rw [← List.attachWith_map_subtype_val ha', ← List.attachWith_map_subtype_val hb', List.map_map,
    List.map_map]
  exact hmap

/--
**A state root binds the ledger exactly where the two sets of nullifiers are not two ways
to cut one string.**  Nullifiers of one length, as every verified mint has, are not.
-/
theorem stateRoot_binds_iff {U : Set Bytes} (hcf : Set.InjOn prim.sha256 U) {s t : LedgerState}
    (hs : s.In prim U) (ht : t.In prim U) :
    ((s.stateRoot prim = t.stateRoot prim → s.accounts = t.accounts ∧
        s.consumedNullifiers = t.consumedNullifiers ∧
        s.sequencerFeeAddress = t.sequencerFeeAddress) ↔
      ¬ (s.accounts = t.accounts ∧ s.sequencerFeeAddress = t.sequencerFeeAddress ∧
        s.consumedNullifiers ≠ t.consumedNullifiers ∧
        spelled s.consumedNullifiers = spelled t.consumedNullifiers)) ∧
    ∀ k, 0 < k → (∀ n, n ∈ s.consumedNullifiers ∨ n ∈ t.consumedNullifiers →
        (utf8 n).length = k) →
      s.stateRoot prim = t.stateRoot prim → s.consumedNullifiers = t.consumedNullifiers := by
  rw [stateRoot_eq_iff hcf hs ht]
  refine ⟨?_, fun k hk hlength h => ?_⟩
  · constructor
    · rintro h ⟨haccounts, hfee, hne, hspelled⟩
      exact hne (h ⟨haccounts, hspelled, hfee⟩).2.1
    · rintro h ⟨haccounts, hspelled, hfee⟩
      exact ⟨haccounts, by_contra fun hne => h ⟨haccounts, hfee, hne, hspelled⟩, hfee⟩
  · exact spelled_inj_of_length hk (fun n hn => hlength n (Or.inl hn))
      (fun n hn => hlength n (Or.inr hn)) h.2.1

end

/-! ### One string, cut in two ways -/

/-- A ledger that has consumed some nullifiers, and nothing else. -/
def ledgerOf (nullifiers : List String) : LedgerState :=
  { LedgerState.new with consumedNullifiers := Std.ExtTreeSet.ofList nullifiers }

/-- Two nullifiers, and their concatenation as one: the root is the same under every hash. -/
theorem stateRoot_two_ways :
    (∀ prim : Primitives,
      (ledgerOf ["a", "b"]).stateRoot prim = (ledgerOf ["ab"]).stateRoot prim) ∧
    (ledgerOf ["a", "b"]).consumedNullifiers ≠ (ledgerOf ["ab"]).consumedNullifiers := by
  have hspelled : spelled (ledgerOf ["a", "b"]).consumedNullifiers
      = spelled (ledgerOf ["ab"]).consumedNullifiers := by
    decide
  constructor
  · intro prim
    have hpre := nullifiersPreimage_eq_iff.mpr hspelled
    simp only [stateRoot, components, accountsRoot, nullifiersHash, nullifiersHashOf, hpre]
    rfl
  · intro h
    have hmem : "a" ∈ (ledgerOf ["ab"]).consumedNullifiers := by
      rw [← h]
      decide
    revert hmem
    decide

/-- A ledger with two accounts that has consumed some nullifiers. -/
def twoLedger (nullifiers : List String) : LedgerState where
  accounts := ((∅ : AccountMap).insert firstKey ⟨500, 1⟩).insert secondKey ⟨700, 2⟩
  consumedNullifiers := Std.ExtTreeSet.ofList nullifiers
  totalMintedAtoms := 1200
  sequencerFeeAddress := none

/-- Two accounts in a map, and in a list. -/
theorem leaves_of_two {s : LedgerState} {a b : L2Address} {x y : Account} (hab : a ≠ b)
    (h : ∀ c, s.accounts[c]? = if b = c then some y else if a = c then some x else none) :
    s.leaves = leafOf [(a, x), (b, y)] := by
  funext c
  unfold leaves leafOf
  rw [h c]
  by_cases hb : b = c
  · subst hb
    simp [leafKindOf, hab]
  · by_cases ha : a = c
    · subst ha
      simp [leafKindOf, hb]
    · simp [leafKindOf, hb, ha]

theorem leaves_twoLedger (nullifiers : List String) :
    (twoLedger nullifiers).leaves = leafOf (twoAccounts firstKey secondKey) := by
  refine leaves_of_two keys_distinct.1 fun c => ?_
  simp only [twoLedger, Std.ExtTreeMap.getElem?_insert, Std.compare_eq_iff_eq,
    Std.ExtTreeMap.getElem?_empty]

/-- The strings hashed for its root and its proofs. -/
def twoLedgerStrings (nullifiers : List String) : Set Bytes :=
  twoStrings firstKey secondKey ∪
    {x | x ∈ [((twoLedger nullifiers).components Primitives.weighing).preimage,
      nullifiersPreimage (twoLedger nullifiers).consumedNullifiers]}

/-- The proofs of a ledger with these accounts. -/
theorem proofs_of_two {s : LedgerState} {a b : L2Address} (h : s.leaves = leafOf (twoAccounts a b))
    (c : L2Address) : (s.accountInclusionProof Primitives.weighing c).In Primitives.weighing
      (twoStrings a b) := by
  intro x hx
  rw [accountInclusionProof_eq, preimages_smtProof, h] at hx
  exact ⟨c, hx⟩

theorem twoLedger_in (nullifiers : List String) :
    (twoLedger nullifiers).In Primitives.weighing (twoLedgerStrings nullifiers) where
  components := .inr (by simp)
  nullifiers := .inr (by simp)
  proofs c x hx := .inl (proofs_of_two (leaves_twoLedger nullifiers) c x hx)

theorem StateComponents.length_preimage (c : StateComponents) :
    c.preimage.length = 82 + (optBytes XOnlyPublicKey.serialize c.sequencerFeeAddress).length := by
  simp only [preimage, List.length_append, H256.length_raw]
  rfl

theorem StateComponents.plain (c : StateComponents) : Plain c.preimage := by
  have hlen := c.length_preimage
  have hfee : (optBytes XOnlyPublicKey.serialize c.sequencerFeeAddress).length ≤ 33 := by
    cases c.sequencerFeeAddress <;> simp [optBytes]
  exact plain_of_prefix (utf8 "hodl-state-v4") (by simp [preimage]) (by decide)
    (by decide) (by omega)

theorem length_nullifiersPreimage (set : NullifierSet) :
    (nullifiersPreimage set).length = 18 + (spelled set).length := by
  rw [nullifiersPreimage, List.length_append]
  rfl

theorem plain_nullifiersPreimage {set : NullifierSet} (h : (spelled set).length < 2 ^ 16) :
    Plain (nullifiersPreimage set) := by
  have hlen := length_nullifiersPreimage set
  exact plain_of_prefix (utf8 "hodl-nullifiers-v0") (List.prefix_append _ _) (by decide) (by decide)
    (by omega)

/-- The weighing hash tells the strings apart unless two are of one length. -/
theorem injOn_twoLedgerStrings {nullifiers : List String}
    (hshort : (spelled (twoLedger nullifiers).consumedNullifiers).length < 2 ^ 16)
    (hne : (spelled (twoLedger nullifiers).consumedNullifiers).length ≠ 65) :
    Set.InjOn Primitives.weighing.sha256 (twoLedgerStrings nullifiers) := by
  refine injOn_twoStrings_plain keys_distinct.1 (fun x hx => ?_) ?_
  · rcases List.mem_pair.mp hx with rfl | rfl
    · exact StateComponents.plain _
    · exact plain_nullifiersPreimage hshort
  · simp only [List.map_cons, List.map_nil, StateComponents.length_preimage,
      length_nullifiersPreimage]
    refine List.nodup_cons.mpr ⟨fun heq => hne ?_, List.nodup_singleton _⟩
    have hcomp : 82 + 1 = 18 + (spelled (twoLedger nullifiers).consumedNullifiers).length :=
      List.mem_singleton.mp heq
    omega

theorem injOn_twoLedgerStrings_two_ways :
    Set.InjOn Primitives.weighing.sha256 (twoLedgerStrings ["a", "b"]) :=
  injOn_twoLedgerStrings (by decide) (by decide)

/-- Two ledgers with the accounts of one: what the root does not bind is how their one string is
cut. -/
theorem stateRoot_binds_iff_two_ways :
    ¬ ((twoLedger ["a", "b"]).stateRoot Primitives.weighing
        = (twoLedger ["ab"]).stateRoot Primitives.weighing →
      (twoLedger ["a", "b"]).accounts = (twoLedger ["ab"]).accounts ∧
      (twoLedger ["a", "b"]).consumedNullifiers = (twoLedger ["ab"]).consumedNullifiers ∧
      (twoLedger ["a", "b"]).sequencerFeeAddress = (twoLedger ["ab"]).sequencerFeeAddress) := by
  have hspelled : spelled (twoLedger ["a", "b"]).consumedNullifiers
      = spelled (twoLedger ["ab"]).consumedNullifiers := by
    decide
  have hpre := nullifiersPreimage_eq_iff.mpr hspelled
  have hcomp : (twoLedger ["a", "b"]).components Primitives.weighing
      = (twoLedger ["ab"]).components Primitives.weighing := by
    simp only [components, accountsRoot, nullifiersHash, nullifiersHashOf, hpre]
    rfl
  have hin : (twoLedger ["ab"]).In Primitives.weighing (twoLedgerStrings ["a", "b"]) := by
    refine ⟨?_, ?_, (twoLedger_in ["a", "b"]).proofs⟩
    · rw [← hcomp]
      exact (twoLedger_in _).components
    · rw [← hpre]
      exact (twoLedger_in _).nullifiers
  rw [(stateRoot_binds_iff injOn_twoLedgerStrings_two_ways (twoLedger_in _) hin).1, not_not]
  refine ⟨rfl, rfl, fun h => ?_, hspelled⟩
  have hmem : "a" ∈ (twoLedger ["ab"]).consumedNullifiers := by
    rw [← h]
    decide
  revert hmem
  decide

end Hodlchain
