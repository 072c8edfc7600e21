/-
A fold that takes only what is higher.

Someone who reads a list of records and lets go of the one in hand only for a higher
one ends at a highest record.  Someone else looks at the last record alone.  Whether
all of them, wherever they started to read, end at one record is decided by the list.
-/
import Mathlib.Order.Lattice
import Mathlib.Tactic.Common

namespace Hodlchain

section

variable {α κ : Type} [LinearOrder κ] (key : α → κ)

/-- The record in hand after a list of them. -/
def lead (a : α) : List α → α
  | [] => a
  | b :: bs => if key b ≤ key a then lead a bs else lead b bs

/-- The last of a list, or what was there before it. -/
def latest (a : α) (bs : List α) : α := bs.getLast?.getD a

variable {key} {a : α} {as bs : List α}

@[simp] theorem lead_nil : lead key a [] = a := rfl

theorem lead_cons_le {b : α} (h : key b ≤ key a) : lead key a (b :: bs) = lead key a bs := if_pos h

theorem lead_cons_lt {b : α} (h : key a < key b) : lead key a (b :: bs) = lead key b bs :=
  if_neg (not_le.mpr h)

theorem lead_append : lead key a (as ++ bs) = lead key (lead key a as) bs := by
  induction as generalizing a with
  | nil => rfl
  | cons b as ih =>
      rw [List.cons_append]
      by_cases h : key b ≤ key a
      · rw [lead_cons_le h, lead_cons_le h, ih]
      · rw [lead_cons_lt (not_le.mp h), lead_cons_lt (not_le.mp h), ih]

/-- What is in hand is not let go for something lower. -/
theorem key_le_lead : key a ≤ key (lead key a bs) := by
  induction bs generalizing a with
  | nil => exact le_refl _
  | cons b bs ih =>
      by_cases h : key b ≤ key a
      · rw [lead_cons_le h]
        exact ih
      · rw [lead_cons_lt (not_le.mp h)]
        exact (not_le.mp h).le.trans ih

theorem key_le_lead_of_mem {b : α} (hb : b ∈ bs) : key b ≤ key (lead key a bs) := by
  obtain ⟨front, back, rfl⟩ := List.append_of_mem hb
  rw [lead_append]
  by_cases h : key b ≤ key (lead key a front)
  · rw [lead_cons_le h]
    exact h.trans key_le_lead
  · rw [lead_cons_lt (not_le.mp h)]
    exact key_le_lead

/-- Nor for something as high. -/
theorem lead_eq_self (h : key (lead key a bs) ≤ key a) : lead key a bs = a := by
  induction bs with
  | nil => rfl
  | cons b bs ih =>
      have hb : key b ≤ key a := (key_le_lead_of_mem List.mem_cons_self).trans h
      rw [lead_cons_le hb] at h ⊢
      exact ih h

theorem lead_mem : lead key a bs ∈ a :: bs := by
  induction bs generalizing a with
  | nil => exact List.mem_singleton_self _
  | cons b bs ih =>
      by_cases h : key b ≤ key a
      · rw [lead_cons_le h]
        rcases List.mem_cons.mp (ih (a := a)) with heq | hmem
        · rw [heq]
          exact List.mem_cons_self
        · exact List.mem_cons_of_mem _ (List.mem_cons_of_mem _ hmem)
      · rw [lead_cons_lt (not_le.mp h)]
        exact List.mem_cons_of_mem _ ih

@[simp] theorem latest_nil : latest a [] = a := rfl

theorem latest_cons {b : α} : latest a (b :: bs) = latest b bs := by
  unfold latest
  rw [List.getLast?_cons]
  rfl

@[simp] theorem latest_append_singleton {b : α} : latest a (as ++ [b]) = b := by
  simp [latest]

theorem latest_append : latest a (as ++ bs) = latest (latest a as) bs := by
  unfold latest
  rw [List.getLast?_append]
  cases bs.getLast? <;> simp

theorem latest_mem : latest a bs ∈ a :: bs := by
  unfold latest
  cases h : bs.getLast? with
  | none => exact List.mem_cons_self
  | some b => exact List.mem_cons_of_mem _ (List.mem_of_getLast? h)

/-- Nothing is higher than the last record, and nothing else is as high. -/
def LastLeads (key : α → κ) (a : α) (bs : List α) : Prop :=
  ∀ b ∈ a :: bs, key b ≤ key (latest a bs) ∧ (key b = key (latest a bs) → b = latest a bs)

/-- Then everyone ends at it. -/
theorem LastLeads.lead_eq (h : LastLeads key a (as ++ bs)) :
    lead key (latest a as) bs = latest a (as ++ bs) := by
  have hmem : lead key (latest a as) bs ∈ a :: (as ++ bs) := by
    have hread : lead key (latest a as) bs ∈ latest a as :: bs := lead_mem
    have hfirst : latest a as ∈ a :: as := latest_mem
    rcases List.mem_cons.mp hread with heq | hin
    · rw [heq]
      rcases List.mem_cons.mp hfirst with ha | has
      · rw [ha]
        exact List.mem_cons_self
      · exact List.mem_cons_of_mem _ (List.mem_append_left _ has)
    · exact List.mem_cons_of_mem _ (List.mem_append_right _ hin)
  have hhigh : key (latest a (as ++ bs)) ≤ key (lead key (latest a as) bs) := by
    have hlast : latest (latest a as) bs ∈ latest a as :: bs := latest_mem
    rw [latest_append]
    rcases List.mem_cons.mp hlast with heq | hin
    · rw [heq]
      exact key_le_lead
    · exact key_le_lead_of_mem hin
  exact (h _ hmem).2 (le_antisymm (h _ hmem).1 hhigh)

/-- **All readers end at one record exactly when the last record leads.** -/
theorem lead_agree_iff : (∀ as' bs', bs = as' ++ bs' → lead key (latest a as') bs' = latest a bs) ↔
    LastLeads key a bs := by
  constructor
  · intro h b hb
    -- a reader who starts with `b` in hand
    have hreads : ∃ rest, lead key b rest = latest a bs := by
      rcases List.mem_cons.mp hb with rfl | hb
      · exact ⟨bs, h [] bs rfl⟩
      · obtain ⟨front, back, rfl⟩ := List.append_of_mem hb
        refine ⟨back, ?_⟩
        have hrest := h (front ++ [b]) back (by rw [List.append_assoc]; rfl)
        rwa [latest_append_singleton] at hrest
    obtain ⟨rest, hrest⟩ := hreads
    rw [← hrest]
    exact ⟨key_le_lead, fun heq => (lead_eq_self heq.ge).symm⟩
  · rintro h as' bs' rfl
    exact h.lead_eq

end

end Hodlchain
