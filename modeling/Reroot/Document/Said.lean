import Mathlib.Data.List.Perm.Basic
import Reroot.Document.Data
import Reroot.Document.Distinct

set_option autoImplicit false

namespace Reroot

mutual
-- A table that neither a header nor a line of its own makes, and that holds only such tables.
def Node.hollow : Node → Bool
  | .table style entries => (style.implicit || style.dotted) && entries.hollow
  | .scalar _ _ | .array _ _ | .inline _ _ | .tables _ => false
def Entries.hollow : Entries → Bool
  | .nil => true
  | .cons _ node tail => node.hollow && tail.hollow
end

mutual
def Node.said : Node → Data
  | .scalar _ value => value.data
  | .array _ elements => .list elements.data
  | .inline _ entries => .object entries.data
  | .table _ entries => .object entries.said
  | .tables elements => .list elements.said
def Nodes.said : Nodes → DataList
  | .nil => .nil
  | .cons head tail => .cons head.said tail.said
def Entries.said : Entries → DataFields
  | .nil => .nil
  | .cons key node tail => if node.hollow then tail.said else .cons key.name node.said tail.said
end

def Document.said (document : Document) : DataFields := document.root.said

mutual
-- The same data up to the order of fields, for objects without two fields of one name.
def Data.Alike : Data → Data → Prop
  | .list first, .list second => first.Alike second
  | .object first, .object second => first.names.Perm second.names ∧ first.Within second
  | first, second => first = second
def DataList.Alike : DataList → DataList → Prop
  | .nil, .nil => True
  | .cons first firsts, .cons second seconds => first.Alike second ∧ firsts.Alike seconds
  | _, _ => False
def DataFields.Within : DataFields → DataFields → Prop
  | .nil, _ => True
  | .cons name data tail, other =>
    (∃ same, other.get? name = some same ∧ data.Alike same) ∧ tail.Within other
end

def DataFields.Alike (first second : DataFields) : Prop :=
  first.names.Perm second.names ∧ first.Within second

namespace DataFields

theorem mem_names_iff (name : String) (fields : DataFields) :
    name ∈ fields.names ↔ ∃ data, fields.get? name = some data := by
  induction fields with
  | nil => simp [names, get?]
  | cons other data tail ih =>
    by_cases same : other = name
    · simp [names, get?, same]
    · have differs : ¬ name = other := fun h => same h.symm
      simpa [names, get?, same, differs] using ih

theorem within_of_get? (fields other : DataFields) (distinct : fields.names.Nodup)
    (each : ∀ name data, fields.get? name = some data →
      ∃ same, other.get? name = some same ∧ data.Alike same) : fields.Within other := by
  induction fields with
  | nil => trivial
  | cons first data tail ih =>
    obtain ⟨missing, distinctTail⟩ := List.nodup_cons.mp distinct
    refine ⟨each first data (by rw [get?, if_pos rfl]), ih distinctTail ?_⟩
    intro name child found
    have differs : ¬ first = name := by
      rintro rfl
      exact missing ((mem_names_iff _ _).mpr ⟨child, found⟩)
    exact each name child (by rw [get?, if_neg differs, found])

theorem Within.get? {fields other : DataFields} (within : fields.Within other) (name : String)
    (data : Data) (found : fields.get? name = some data) :
    ∃ same, other.get? name = some same ∧ data.Alike same := by
  induction fields with
  | nil => cases found
  | cons first child tail ih =>
    obtain ⟨here, later⟩ := within
    rw [DataFields.get?] at found
    split at found
    · case isTrue same =>
      cases found
      exact same ▸ here
    · exact ih later found

theorem Alike.get? {first second : DataFields} (alike : first.Alike second) (name : String) :
    Option.Rel Data.Alike (first.get? name) (second.get? name) := by
  obtain ⟨perm, within⟩ := alike
  cases found : first.get? name with
  | some data =>
    obtain ⟨same, found', related⟩ := within.get? name data found
    rw [found']
    exact .some related
  | none =>
    have missing : name ∉ second.names := by
      rw [← perm.mem_iff, mem_names_iff, found]
      rintro ⟨data, there⟩
      cases there
    cases found' : second.get? name with
    | none => exact .none
    | some data => exact absurd ((mem_names_iff _ _).mpr ⟨data, found'⟩) missing

end DataFields

theorem Data.Alike.of_empty {data : Data} (alike : (Data.object .nil).Alike data) :
    data = .object .nil := by
  cases data with
  | object fields =>
    cases fields with
    | nil => rfl
    | cons name data tail => cases alike.1.length_eq
  | string value => cases alike
  | integer value => cases alike
  | boolean value => cases alike
  | float spelling => cases alike
  | moment spelling => cases alike
  | list elements => cases alike

namespace Entries

theorem names_data (entries : Entries) : entries.data.names = entries.names := by
  induction entries with
  | nil => rfl
  | cons key node tail ih => rw [data, DataFields.names, names, ih]

theorem get?_data (name : String) (entries : Entries) :
    entries.data.get? name = (entries.get? name).map Node.data := by
  induction entries with
  | nil => rfl
  | cons key node tail ih =>
    rw [data, DataFields.get?, get?, ih]
    split <;> rfl

theorem mem_names_iff (name : String) (entries : Entries) :
    name ∈ entries.names ↔ ∃ node, entries.get? name = some node := by
  rw [← contains_iff_mem_names, contains, Option.isSome_iff_exists]

end Entries

mutual
theorem Node.data_alike : (node : Node) → node.Distinct → node.data.Alike node.data
  | .scalar _ value, _ => by cases value <;> rfl
  | .array _ elements, distinct => Nodes.data_alike elements distinct
  | .inline _ entries, distinct => ⟨.rfl, Entries.data_within entries distinct⟩
  | .table _ entries, distinct => ⟨.rfl, Entries.data_within entries distinct⟩
  | .tables elements, distinct => Nodes.data_alike elements distinct
theorem Nodes.data_alike : (nodes : Nodes) → nodes.Distinct → nodes.data.Alike nodes.data
  | .nil, _ => trivial
  | .cons head tail, distinct => ⟨head.data_alike distinct.1, tail.data_alike distinct.2⟩
theorem Entries.data_within (entries : Entries) (distinct : entries.Distinct) :
    entries.data.Within entries.data := by
  apply DataFields.within_of_get? _ _ (entries.names_data ▸ entries.names_nodup distinct)
  intro name data found
  refine ⟨data, found, ?_⟩
  rw [Entries.get?_data] at found
  obtain ⟨node, member, rfl⟩ := Option.map_eq_some_iff.mp found
  exact Entries.child_alike entries distinct name node member
theorem Entries.child_alike : (entries : Entries) → entries.Distinct → ∀ name node,
    entries.get? name = some node → node.data.Alike node.data
  | .nil, _, _, _, found => by cases found
  | .cons key value tail, distinct, name, node, found => by
    rw [Entries.get?] at found
    split at found
    · cases found
      exact value.data_alike distinct.2.1
    · exact tail.child_alike distinct.2.2 name node found
end

namespace Entries

theorem names_said (entries : Entries) : entries.said.names.Sublist entries.names := by
  induction entries with
  | nil => exact .slnil
  | cons key node tail ih =>
    rw [said]
    split
    · exact .cons _ ih
    · exact .cons_cons _ ih

theorem get?_said (name : String) (entries : Entries) (distinct : entries.names.Nodup) :
    entries.said.get? name =
      (entries.get? name).bind fun node => if node.hollow then none else some node.said := by
  induction entries with
  | nil => rfl
  | cons key node tail ih =>
    obtain ⟨missing, distinctTail⟩ := List.nodup_cons.mp distinct
    rw [said, get?]
    by_cases same : key.name = name
    · have absent : tail.get? name = none := (get?_eq_none_iff _ _).mpr (same ▸ missing)
      rw [if_pos same, Option.bind_some]
      split
      · rw [ih distinctTail, absent]
        rfl
      · rw [DataFields.get?, if_pos same]
    · rw [if_neg same, ← ih distinctTail]
      split
      · rfl
      · rw [DataFields.get?, if_neg same]

end Entries

end Reroot
