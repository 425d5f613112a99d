import Reroot.Document.Legible
import Reroot.Document.Place

set_option autoImplicit false

namespace Reroot

def Entries.keyed? (name : String) : Entries → Option (Key × Node)
  | nil => none
  | cons key node tail => if key.name = name then some (key, node) else tail.keyed? name

namespace Node

def part? : Step → Node → Option Node
  | .key name, table _ entries => entries.get? name
  | .index number, tables elements => elements.toList[number]?
  | _, _ => none

def line? : List Step → String → Node → Option Field
  | [], name, table style entries =>
    if style.dotted then none
    else (entries.keyed? name).bind fun entry =>
      if entry.2.isValue then some ⟨[], entry.1, entry.2⟩ else none
  | [], _, _ => none
  | step :: rest, name, node => (node.part? step).bind (line? rest name)

theorem line?_cons (step : Step) (rest : List Step) (name : String) (node : Node) :
    node.line? (step :: rest) name = (node.part? step).bind (line? rest name) := by
  cases node <;> rfl

theorem part?_cases (step : Step) (node child : Node) (found : node.part? step = some child) :
    (∃ name style entries, step = .key name ∧ node = .table style entries ∧
      entries.get? name = some child) ∨
    ∃ number elements, step = .index number ∧ node = .tables elements ∧
      elements.toList[number]? = some child := by
  cases node with
  | table style entries =>
    cases step with
    | key name => exact .inl ⟨name, style, entries, rfl, rfl, found⟩
    | index number => cases found
  | tables elements =>
    cases step with
    | index number => exact .inr ⟨number, elements, rfl, rfl, found⟩
    | key name => cases found
  | scalar _ _ | array _ _ | inline _ _ => cases step <;> cases found

theorem child?_of_part? (step : Step) (node child : Node) (found : node.part? step = some child) :
    node.child? step = some child := by
  obtain ⟨name, style, entries, rfl, rfl, inner⟩ | ⟨number, elements, rfl, rfl, inner⟩ :=
    part?_cases step node child found
  · exact inner
  · exact inner

end Node

namespace Document

def line? (above : List Step) (name : String) (document : Document) : Option Field :=
  Node.line? above name (.table .fresh document.root)

end Document

def Field.place (above : List Step) (line : Field) : List Step := above ++ [.key line.key.name]

namespace Entries

theorem get?_eq_keyed? (name : String) (entries : Entries) :
    entries.get? name = (entries.keyed? name).map (·.2) := by
  induction entries with
  | nil => rfl
  | cons key node tail ih =>
    by_cases same : key.name = name <;> simp [get?, keyed?, same, ih]

theorem mem_of_keyed? (name : String) (entries : Entries) (entry : Key × Node)
    (found : entries.keyed? name = some entry) : entry ∈ entries.toList ∧ entry.1.name = name := by
  induction entries with
  | nil => cases found
  | cons key node tail ih =>
    rw [keyed?] at found
    split at found
    · case isTrue same =>
      cases found
      exact ⟨List.mem_cons_self, same⟩
    · obtain ⟨member, same⟩ := ih found
      exact ⟨List.mem_cons_of_mem _ member, same⟩

theorem keyed?_of_mem (entries : Entries) (distinct : entries.names.Nodup) :
    ∀ entry ∈ entries.toList, entries.keyed? entry.1.name = some entry := by
  induction entries with
  | nil => exact fun _ member => by cases member
  | cons key node tail ih =>
    obtain ⟨missing, distinctTail⟩ := List.nodup_cons.mp distinct
    rw [toList, List.forall_mem_cons]
    refine ⟨if_pos rfl, fun entry later => ?_⟩
    have differs : ¬ key.name = entry.1.name := by
      intro same
      rw [same] at missing
      exact missing (mem_names_of_mem tail entry later)
    exact (if_neg differs).trans (ih distinctTail entry later)

theorem keyed?_erase (name other : String) (differs : other ≠ name) (entries : Entries) :
    (entries.erase name).keyed? other = entries.keyed? other := by
  induction entries with
  | nil => rfl
  | cons key node tail ih =>
    by_cases same : key.name = name
    · have kept : ¬ key.name = other := fun hit => differs (hit.symm.trans same)
      rw [erase, if_pos same, ih, keyed?, if_neg kept]
    · rw [erase, if_neg same, keyed?, keyed?, ih]

theorem keyed?_put (name other : String) (differs : other ≠ name) (node : Node) (entries : Entries) :
    (entries.put name node).keyed? other = entries.keyed? other := by
  induction entries with
  | nil => exact if_neg (Ne.symm differs)
  | cons key value tail ih =>
    by_cases same : key.name = name
    · have kept : ¬ key.name = other := fun hit => differs (hit.symm.trans same)
      rw [put, if_pos same, keyed?, keyed?, if_neg kept]
      exact if_neg (Ne.symm differs)
    · rw [put, if_neg same, keyed?, keyed?, ih]

theorem keyed?_assign (name other : String) (differs : other ≠ name) (node : Node)
    (entries : Entries) : (entries.assign name node).keyed? other = entries.keyed? other := by
  induction entries with
  | nil => exact if_neg (Ne.symm differs)
  | cons key value tail ih =>
    by_cases same : key.name = name
    · have kept : ¬ key.name = other := fun hit => differs (hit.symm.trans same)
      rw [assign, if_pos same, keyed?, keyed?, if_neg kept, if_neg kept]
    · rw [assign, if_neg same, keyed?, keyed?, ih]

theorem keyed?_modify (name other : String) (change : Node → Node) (entries : Entries) :
    (entries.modify name change).keyed? other =
      if other = name then (entries.keyed? name).map fun entry => (entry.1, change entry.2)
      else entries.keyed? other := by
  induction entries with
  | nil => simp [modify, keyed?]
  | cons key node tail ih =>
    by_cases same : key.name = name
    · subst same
      by_cases hit : other = key.name <;> simp [modify, keyed?, hit, Ne.symm]
    · have found : (cons key node tail).keyed? name = tail.keyed? name := by rw [keyed?, if_neg same]
      rw [modify, if_neg same, found, keyed?, keyed?, ih]
      by_cases hit : key.name = other
      · have kept : ¬ other = name := fun h => same (hit.trans h)
        simp [hit, kept]
      · simp [hit]

end Entries

end Reroot
