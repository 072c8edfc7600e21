/-
Structures as JSON documents.

A structure is written as an object with an entry for each field, where a field without
a value can be left out.  It is read field by field, by name and wherever the entry
stands: a field given twice is refused, an unknown one is ignored, and one that is not
there is an error or its default.  The rules say that a field is read as it was written,
and leave one obligation for a structure: that no two of its fields have one name.
-/
import Mathlib.Algebra.Group.Nat.Defs
import Mathlib.Data.List.Nodup
import Mathlib.Tactic.Common

namespace Hodlchain

/-- A document; a number is a `u64`. -/
inductive Json where
  | null
  | bool (b : Bool)
  | num (n : UInt64)
  | str (s : String)
  | arr (elements : List Json)
  | obj (entries : List (String × Json))

namespace Json

/-! ### Writing -/

def u32 (n : UInt32) : Json := .num n.toUInt64

def list {α : Type} (write : α → Json) (l : List α) : Json := .arr (l.map write)

/-- An `Option` that is written either way. -/
def option {α : Type} (write : α → Json) : Option α → Json
  | none => .null
  | some a => write a

/-- The entries of the fields that have a value. -/
def present (fields : List (String × Option Json)) : List (String × Json) :=
  fields.filterMap fun (name, value) => value.map fun value => (name, value)

def struct (fields : List (String × Option Json)) : Json := .obj (present fields)

/-! ### Reading -/

section

variable {α : Type}

def bool? : Json → Option Bool
  | .bool b => some b
  | _ => none

def u64? : Json → Option UInt64
  | .num n => some n
  | _ => none

def u32? : Json → Option UInt32
  | .num n => if n.toNat < 2 ^ 32 then some n.toUInt32 else none
  | _ => none

def str? : Json → Option String
  | .str s => some s
  | _ => none

def list? (read : Json → Option α) : Json → Option (List α)
  | .arr elements => elements.mapM read
  | _ => none

def option? (read : Json → Option α) : Json → Option (Option α)
  | .null => some none
  | value => (read value).map some

/-- The name of a variant without fields. -/
def variant? : Json → Option String
  | .str name => some name
  | .obj [(name, .null)] => some name
  | _ => none

/-- The entries to read a structure with these fields from: an array has their values in order. -/
def entries? (names : List String) : Json → Option (List (String × Json))
  | .obj entries => some entries
  | .arr values => if values.length ≤ names.length then some (names.zip values) else none
  | _ => none

/-- The value of a field, if it has one; a field given twice is refused. -/
def field? (entries : List (String × Json)) (name : String) : Option (Option Json) :=
  match entries.filter fun entry => entry.1 = name with
  | [] => some none
  | [(_, value)] => some (some value)
  | _ => none

/-- A field that has to be there. -/
def required? (read : Json → Option α) (entries : List (String × Json)) (name : String) :
    Option α := do
  let value ← field? entries name
  read (← value)

/-- A field with a default. -/
def defaulted? (default : α) (read : Json → Option α) (entries : List (String × Json))
    (name : String) :
    Option α := do
  match ← field? entries name with
  | none => pure default
  | some value => read value

/-- A structure, from its entries. -/
def struct? (names : List String) (ofEntries : List (String × Json) → Option α) (document : Json) :
    Option α := (entries? names document).bind ofEntries

/-- An internally tagged enumeration, from the name of the variant and what is left to read. -/
def tagged? (tag : String) (ofContent : String → Json → Option α) : Json → Option α
  | .obj entries => do
      let name ← required? str? entries tag
      ofContent name (.obj (entries.filter fun entry => entry.1 ≠ tag))
  | .arr (.str name :: values) => ofContent name (.arr values)
  | _ => none

/-! ### What was written is read -/

variable {write : α → Json} {read : Json → Option α} {fields : List (String × Option Json)}
  {name : String} {value : Option Json} {a : α}

@[simp] theorem u32?_u32 (n : UInt32) : u32? (u32 n) = some n := by
  have hlt := n.toNat_lt
  rw [u32, u32?, UInt32.toNat_toUInt64, if_pos hlt]
  simp

theorem list?_list {l : List α} (h : ∀ a ∈ l, read (write a) = some a) :
    list? read (list write l) = some l := by
  rw [list, list?, List.mapM_map]
  induction l with
  | nil => rfl
  | cons a l ih =>
      rw [List.mapM_cons, Function.comp_apply, h a (by simp),
        ih fun b hb => h b (List.mem_cons_of_mem a hb)]
      rfl

theorem option?_of_read {v : Json} (hv : v ≠ .null) (h : read v = some a) :
    option? read v = some (some a) := by
  unfold option?
  split
  · exact absurd rfl hv
  · rw [h]
    rfl

theorem option?_option {o : Option α} (hv : ∀ a, write a ≠ .null)
    (h : ∀ a, o = some a → read (write a) = some a) : option? read (option write o) = some o := by
  cases o with
  | none => rfl
  | some a => exact option?_of_read (hv a) (h a rfl)

theorem present_cons_some (v : Json) :
    present ((name, some v) :: fields) = (name, v) :: present fields := rfl

theorem filter_present_of_not_mem (h : name ∉ fields.map Prod.fst) :
    (present fields).filter (fun entry => entry.1 = name) = [] := by
  rw [List.filter_eq_nil_iff]
  rintro ⟨name', value⟩ hentry
  obtain ⟨⟨name'', value'⟩, hfield, hvalue⟩ := List.mem_filterMap.mp hentry
  obtain ⟨v, -, hv⟩ := Option.map_eq_some_iff.mp hvalue
  obtain ⟨rfl, -⟩ := Prod.mk.inj hv
  rw [decide_eq_true_eq]
  rintro rfl
  exact h (List.mem_map_of_mem hfield)

/-- **A field is read as it was written**, where no other has its name. -/
theorem field?_present (hnames : (fields.map Prod.fst).Nodup) (hfield : (name, value) ∈ fields) :
    field? (present fields) name = some value := by
  have hhits : (present fields).filter (fun entry => entry.1 = name)
      = (value.map fun value => (name, value)).toList := by
    induction fields with
    | nil => cases hfield
    | cons field fields ih =>
        obtain ⟨hfresh, hrest⟩ := List.nodup_cons.mp hnames
        rcases List.mem_cons.mp hfield with rfl | hlater
        · have htail := filter_present_of_not_mem hfresh
          cases value with
          | none => exact htail
          | some v =>
              rw [present_cons_some, List.filter_cons_of_pos (by simp), htail]
              rfl
        · obtain ⟨name', value'⟩ := field
          have hne : name' ≠ name := fun heq => hfresh (heq ▸ List.mem_map.mpr ⟨_, hlater, rfl⟩)
          rw [← ih hrest hlater]
          cases value' with
          | none => rfl
          | some v => rw [present_cons_some, List.filter_cons_of_neg (by simpa using hne)]
  unfold field?
  rw [hhits]
  cases value <;> rfl

theorem struct?_struct (names : List String) (ofEntries : List (String × Json) → Option α) :
    struct? names ofEntries (struct fields) = ofEntries (present fields) := rfl

/-- The field at a place. -/
theorem required?_present (read : Json → Option α) (hnames : (fields.map Prod.fst).Nodup) (i : ℕ)
    {v : Json} (hfield : fields[i]? = some (name, some v)) (hread : read v = some a) :
    required? read (present fields) name = some a := by
  rw [required?, field?_present hnames (List.mem_of_getElem? hfield)]
  exact hread

theorem defaulted?_present (default : α) (read : Json → Option α)
    (hnames : (fields.map Prod.fst).Nodup) (i : ℕ) {v : Json}
    (hfield : fields[i]? = some (name, some v)) (hread : read v = some a) :
    defaulted? default read (present fields) name = some a := by
  rw [defaulted?, field?_present hnames (List.mem_of_getElem? hfield)]
  exact hread

/-- A field that is left out where it is `none`. -/
theorem defaulted?_skipped (read : Json → Option α) (write : α → Json)
    (hnames : (fields.map Prod.fst).Nodup) (i : ℕ) {o : Option α}
    (hfield : fields[i]? = some (name, o.map write)) (hv : ∀ a, write a ≠ .null)
    (h : ∀ a, o = some a → read (write a) = some a) :
    defaulted? none (option? read) (present fields) name = some o := by
  rw [defaulted?, field?_present hnames (List.mem_of_getElem? hfield)]
  cases o with
  | none => rfl
  | some a => exact option?_of_read (hv a) (h a rfl)

/-- A field that is left out where there is no value to write. -/
theorem defaulted?_absent (default : α) (read : Json → Option α)
    (h : name ∉ fields.map Prod.fst) :
    defaulted? default read (present fields) name = some default := by
  rw [defaulted?, field?, filter_present_of_not_mem h]
  rfl

end

end Json

end Hodlchain
