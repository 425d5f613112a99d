import Reroot.Document.Basic

set_option autoImplicit false

namespace Reroot.Entries

def toList : Entries → List (Key × Node)
  | nil => []
  | cons key node tail => (key, node) :: tail.toList

def names : Entries → List String
  | nil => []
  | cons key _ tail => key.name :: tail.names

def get? (name : String) : Entries → Option Node
  | nil => none
  | cons key node tail => if key.name = name then some node else tail.get? name

def contains (name : String) (entries : Entries) : Bool := (entries.get? name).isSome

def append (key : Key) (node : Node) : Entries → Entries
  | nil => cons key node nil
  | cons first value tail => cons first value (tail.append key node)

def erase (name : String) : Entries → Entries
  | nil => nil
  | cons key node tail =>
    if key.name = name then tail.erase name else cons key node (tail.erase name)

-- Puts a node under a name: in place of the entry of that name, whose key is made anew, or else at
-- the end.
def put (name : String) (node : Node) : Entries → Entries
  | nil => cons (.fresh name) node nil
  | cons key value tail =>
    if key.name = name then cons (.fresh name) node tail else cons key value (tail.put name node)

-- Puts a node under a name as `put` does, but leaves a present key as it is written.
def assign (name : String) (node : Node) : Entries → Entries
  | nil => cons (.fresh name) node nil
  | cons key value tail =>
    if key.name = name then cons key node tail else cons key value (tail.assign name node)

def modify (name : String) (change : Node → Node) : Entries → Entries
  | nil => nil
  | cons key node tail =>
    if key.name = name then cons key (change node) tail
    else cons key node (tail.modify name change)

def alter? (key : Key) (change : Option Node → Option Node) : Entries → Option Entries
  | nil => (change none).map (cons key · nil)
  | cons first node tail =>
    if first.name = key.name then (change (some node)).map (cons first · tail)
    else (tail.alter? key change).map (cons first node ·)

theorem names_eq_map_to_list (entries : Entries) :
    entries.names = entries.toList.map (·.1.name) := by
  induction entries with
  | nil => rfl
  | cons key node tail ih => simp [names, toList, ih]

theorem mem_names_of_mem (entries : Entries) (entry : Key × Node) (member : entry ∈ entries.toList) :
    entry.1.name ∈ entries.names := by
  rw [names_eq_map_to_list]
  exact List.mem_map_of_mem member

theorem to_list_append (key : Key) (node : Node) (entries : Entries) :
    (entries.append key node).toList = entries.toList ++ [(key, node)] := by
  induction entries with
  | nil => rfl
  | cons first value tail ih => simp [append, toList, ih]

theorem to_list_erase (name : String) (entries : Entries) :
    (entries.erase name).toList = entries.toList.filter (fun entry => entry.1.name ≠ name) := by
  induction entries with
  | nil => rfl
  | cons key node tail ih => by_cases same : key.name = name <;> simp [erase, toList, same, ih]

theorem to_list_put_of_missing (name : String) (node : Node) (entries : Entries)
    (missing : name ∉ entries.names) :
    (entries.put name node).toList = entries.toList ++ [(.fresh name, node)] := by
  induction entries with
  | nil => rfl
  | cons key value tail ih =>
    have other : ¬ key.name = name := fun same => missing (same ▸ List.mem_cons_self)
    have rest : name ∉ tail.names := fun member => missing (List.mem_cons_of_mem _ member)
    rw [put, if_neg other, toList, toList, ih rest, List.cons_append]

theorem contains_iff_mem_names (name : String) (entries : Entries) :
    entries.contains name = true ↔ name ∈ entries.names := by
  induction entries with
  | nil => simp [contains, get?, names]
  | cons key node tail ih =>
    by_cases same : key.name = name
    · simp [contains, get?, names, same]
    · have other : ¬ name = key.name := fun h => same h.symm
      simpa [contains, get?, names, same, other] using ih

theorem names_put (name : String) (node : Node) (entries : Entries) :
    (entries.put name node).names =
      if entries.contains name then entries.names else entries.names ++ [name] := by
  induction entries with
  | nil => simp [put, names, contains, get?, Key.fresh]
  | cons key value tail ih =>
    by_cases same : key.name = name
    · simp [put, names, contains, get?, same, Key.fresh]
    · simp only [contains] at ih
      simp only [put, names, contains, get?, same, if_false, ih]
      by_cases there : (tail.get? name).isSome = true <;> simp [there]

theorem get?_eq_none_iff (name : String) (entries : Entries) :
    entries.get? name = none ↔ name ∉ entries.names := by
  rw [← contains_iff_mem_names, contains]
  cases entries.get? name <;> simp

theorem get?_erase (name other : String) (entries : Entries) :
    (entries.erase name).get? other = if other = name then none else entries.get? other := by
  induction entries with
  | nil => simp [erase, get?]
  | cons key node tail ih =>
    by_cases same : key.name = name
    · rw [erase, if_pos same, ih]
      by_cases hit : other = name
      · rw [if_pos hit, if_pos hit]
      · have differs : ¬ key.name = other := fun h => hit (h.symm.trans same)
        rw [if_neg hit, if_neg hit, get?, if_neg differs]
    · rw [erase, if_neg same, get?, get?, ih]
      by_cases hit : key.name = other
      · have kept : ¬ other = name := fun h => same (hit.trans h)
        simp [hit, kept]
      · simp [hit]

theorem get?_put (name other : String) (node : Node) (entries : Entries) :
    (entries.put name node).get? other = if other = name then some node else entries.get? other := by
  induction entries with
  | nil => simp [put, get?, Key.fresh, eq_comm]
  | cons key value tail ih =>
    by_cases same : key.name = name
    · subst same
      by_cases hit : other = key.name <;> simp [put, get?, Key.fresh, hit, Ne.symm]
    · rw [put, if_neg same, get?, get?, ih]
      by_cases hit : key.name = other
      · have kept : ¬ other = name := fun h => same (hit.trans h)
        simp [hit, kept]
      · simp [hit]

theorem get?_assign (name other : String) (node : Node) (entries : Entries) :
    (entries.assign name node).get? other =
      if other = name then some node else entries.get? other := by
  induction entries with
  | nil => simp [assign, get?, Key.fresh, eq_comm]
  | cons key value tail ih =>
    by_cases same : key.name = name
    · subst same
      by_cases hit : other = key.name <;> simp [assign, get?, hit, Ne.symm]
    · rw [assign, if_neg same, get?, get?, ih]
      by_cases hit : key.name = other
      · have kept : ¬ other = name := fun h => same (hit.trans h)
        simp [hit, kept]
      · simp [hit]

theorem get?_modify (name other : String) (change : Node → Node) (entries : Entries) :
    (entries.modify name change).get? other =
      if other = name then (entries.get? name).map change else entries.get? other := by
  induction entries with
  | nil => simp [modify, get?]
  | cons key node tail ih =>
    by_cases same : key.name = name
    · subst same
      by_cases hit : other = key.name <;> simp [modify, get?, hit, Ne.symm]
    · have found : (cons key node tail).get? name = tail.get? name := by rw [get?, if_neg same]
      rw [modify, if_neg same, found, get?, get?, ih]
      by_cases hit : key.name = other
      · have kept : ¬ other = name := fun h => same (hit.trans h)
        simp [hit, kept]
      · simp [hit]

theorem contains_erase (name other : String) (entries : Entries) :
    (entries.erase name).contains other = (decide (other ≠ name) && entries.contains other) := by
  by_cases hit : other = name <;> simp [contains, get?_erase, hit]

theorem contains_put (name other : String) (node : Node) (entries : Entries) :
    (entries.put name node).contains other = (decide (other = name) || entries.contains other) := by
  by_cases hit : other = name <;> simp [contains, get?_put, hit]

end Reroot.Entries
