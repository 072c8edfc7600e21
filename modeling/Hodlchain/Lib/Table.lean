/-
Tables: the last row of an ordered one, and a sum over all of its rows.

`SELECT … ORDER BY key DESC LIMIT 1` on a table whose rows are a sorted map.  The
sum is over a numeric field, and what it needs is one fact: putting a row changes
it by the new row's field less the field of the row it replaces.
-/
import Mathlib.Algebra.BigOperators.Group.List.Basic
import Mathlib.Algebra.GroupWithZero.Nat
import Mathlib.Tactic.Common
import Std.Data.ExtTreeMap

namespace Hodlchain

section

variable {α β : Type} [Ord α] [Std.TransOrd α] [Std.LawfulEqOrd α]

/-- The row with the greatest key. -/
def lastRow? (t : Std.ExtTreeMap α β) : Option (α × β) := t.toList.getLast?

private theorem lastRow?_spec {t : Std.ExtTreeMap α β} {k : α} {v : β}
    (h : lastRow? t = some (k, v)) : t[k]? = some v ∧ ∀ k' ∈ t, (compare k' k).isLE := by
  obtain ⟨front, hfront⟩ := List.getLast?_eq_some_iff.mp h
  have hsorted := t.ordered_keys_toList
  rw [hfront, List.pairwise_append] at hsorted
  constructor
  · rw [← Std.ExtTreeMap.mem_toList_iff_getElem?_eq_some, hfront]
    simp
  · intro k' hk'
    obtain ⟨v', hv'⟩ := Option.isSome_iff_exists.mp (Std.ExtTreeMap.isSome_getElem?_iff_mem.mpr hk')
    have hmem := Std.ExtTreeMap.mem_toList_iff_getElem?_eq_some.mpr hv'
    rw [hfront, List.mem_append, List.mem_singleton] at hmem
    rcases hmem with hin | heq
    · have hlt : compare k' k = .lt := hsorted.2.2 (k', v') hin (k, v) (by simp)
      simp [hlt]
    · rw [(Prod.mk.inj heq).1]
      simp

/-- The last row is the one that no other is above. -/
theorem lastRow?_eq_some_iff {t : Std.ExtTreeMap α β} {k : α} {v : β} :
    lastRow? t = some (k, v) ↔ t[k]? = some v ∧ ∀ k' ∈ t, (compare k' k).isLE := by
  refine ⟨lastRow?_spec, fun ⟨hrow, hmax⟩ => ?_⟩
  have hmem := Std.ExtTreeMap.mem_toList_iff_getElem?_eq_some.mpr hrow
  obtain ⟨⟨k₀, v₀⟩, hlast⟩ := Option.ne_none_iff_exists'.mp
    (mt List.getLast?_eq_none_iff.mp (List.ne_nil_of_mem hmem))
  obtain ⟨hrow₀, hmax₀⟩ := lastRow?_spec hlast
  have hle := hmax₀ k (Std.ExtTreeMap.mem_iff_isSome_getElem?.mpr (by simp [hrow]))
  have hge := hmax k₀ (Std.ExtTreeMap.mem_iff_isSome_getElem?.mpr (by simp [hrow₀]))
  obtain rfl : k = k₀ := Std.LawfulEqOrd.eq_of_compare (Std.OrientedCmp.isLE_antisymm hle hge)
  obtain rfl : v = v₀ := Option.some.inj (hrow.symm.trans hrow₀)
  exact hlast

omit [Std.LawfulEqOrd α] in
theorem lastRow?_eq_none_iff {t : Std.ExtTreeMap α β} : lastRow? t = none ↔ t = ∅ := by
  rw [lastRow?, List.getLast?_eq_none_iff, Std.ExtTreeMap.toList_eq_nil_iff]

/-- A row put above all others is the last. -/
theorem lastRow?_insert {t : Std.ExtTreeMap α β} {k : α} {v : β}
    (h : ∀ k' ∈ t, (compare k' k).isLE) : lastRow? (t.insert k v) = some (k, v) := by
  rw [lastRow?_eq_some_iff]
  refine ⟨by simp, fun k' hk' => ?_⟩
  rcases Std.ExtTreeMap.mem_insert.mp hk' with heq | hmem
  · rw [Std.LawfulEqOrd.eq_of_compare (Std.OrientedCmp.eq_symm heq)]
    simp
  · exact h k' hmem

/-! ### Sums over the rows -/

/-- The field `f`, summed over all rows. -/
def tableSum (f : β → ℕ) (t : Std.ExtTreeMap α β) : ℕ := (t.toList.map fun e => f e.2).sum

omit [Std.LawfulEqOrd α] in
@[simp] theorem tableSum_empty (f : β → ℕ) : tableSum f (∅ : Std.ExtTreeMap α β) = 0 := by
  have hnil : (∅ : Std.ExtTreeMap α β).toList = [] := Std.ExtTreeMap.toList_eq_nil_iff.mpr rfl
  simp [tableSum, hnil]

omit [Std.LawfulEqOrd α] in
private theorem nodup_rows (t : Std.ExtTreeMap α β) : t.toList.Nodup :=
  t.distinct_keys_toList.imp fun hne heq => by simp [heq] at hne

private theorem rows_insert (t : Std.ExtTreeMap α β) (k : α) (v : β) :
    (t.insert k v).toList.Perm ((k, v) :: (t.erase k).toList) := by
  rw [List.perm_ext_iff_of_nodup (nodup_rows _)]
  · rintro ⟨k', v'⟩
    rw [List.mem_cons, Std.ExtTreeMap.mem_toList_iff_getElem?_eq_some,
      Std.ExtTreeMap.mem_toList_iff_getElem?_eq_some, Std.ExtTreeMap.getElem?_insert,
      Std.ExtTreeMap.getElem?_erase]
    by_cases hk : k = k'
    · subst hk
      simp [eq_comm]
    · simp [hk, Ne.symm hk]
  · refine List.nodup_cons.mpr ⟨?_, nodup_rows _⟩
    rw [Std.ExtTreeMap.mem_toList_iff_getElem?_eq_some]
    simp

private theorem rows_erase (t : Std.ExtTreeMap α β) (k : α) :
    t.toList.Perm ((t[k]?.map (k, ·)).toList ++ (t.erase k).toList) := by
  cases hrow : t[k]? with
  | none =>
      have hsame : t.erase k = t := by
        refine Std.ExtTreeMap.ext_getElem? fun k' => ?_
        rw [Std.ExtTreeMap.getElem?_erase]
        by_cases hk : compare k k' = .eq
        · rw [if_pos hk, ← Std.LawfulEqOrd.eq_of_compare hk, hrow]
        · rw [if_neg hk]
      simp [hsame]
  | some v =>
      have hsame : t.insert k v = t := by
        refine Std.ExtTreeMap.ext_getElem? fun k' => ?_
        rw [Std.ExtTreeMap.getElem?_insert]
        by_cases hk : compare k k' = .eq
        · rw [if_pos hk, ← Std.LawfulEqOrd.eq_of_compare hk, hrow]
        · rw [if_neg hk]
      have hrows := rows_insert t k v
      rw [hsame] at hrows
      simpa using hrows

/-- Putting a row changes the sum by the new row less the row it replaces. -/
theorem tableSum_insert (f : β → ℕ) (t : Std.ExtTreeMap α β) (k : α) (v : β) :
    tableSum f (t.insert k v) + (t[k]?.map f).getD 0 = tableSum f t + f v := by
  have hnew := ((rows_insert t k v).map fun e : α × β => f e.2).sum_eq
  have hold := ((rows_erase t k).map fun e : α × β => f e.2).sum_eq
  rw [List.map_cons, List.sum_cons] at hnew
  rw [List.map_append, List.sum_append] at hold
  have hreplaced : (((t[k]?.map (k, ·)).toList.map fun e : α × β => f e.2)).sum
      = (t[k]?.map f).getD 0 := by
    cases t[k]? <;> simp
  rw [hreplaced] at hold
  simp only [tableSum, hnew, hold]
  omega

/-- No row is above the sum. -/
theorem le_tableSum (f : β → ℕ) (t : Std.ExtTreeMap α β) (k : α) :
    (t[k]?.map f).getD 0 ≤ tableSum f t := by
  have hold := ((rows_erase t k).map fun e : α × β => f e.2).sum_eq
  rw [List.map_append, List.sum_append] at hold
  cases hrow : t[k]? with
  | none => simp
  | some v =>
      simp only [hrow, Option.map_some, Option.toList_some, List.map_cons, List.map_nil,
        List.sum_cons, List.sum_nil] at hold
      simp only [Option.map_some, Option.getD_some, tableSum, hold]
      omega

end

end Hodlchain
