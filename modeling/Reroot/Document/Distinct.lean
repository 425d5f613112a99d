import Reroot.Document.Convert

set_option autoImplicit false

namespace Reroot

mutual
def Node.Distinct : Node → Prop
  | .scalar _ _ => True
  | .array _ elements => elements.Distinct
  | .inline _ entries => entries.Distinct
  | .table _ entries => entries.Distinct
  | .tables elements => elements.Distinct
def Nodes.Distinct : Nodes → Prop
  | .nil => True
  | .cons head tail => head.Distinct ∧ tail.Distinct
def Entries.Distinct : Entries → Prop
  | .nil => True
  | .cons key node tail => key.name ∉ tail.names ∧ node.Distinct ∧ tail.Distinct
end

mutual
def Node.decideDistinct : (node : Node) → Decidable node.Distinct
  | .scalar _ _ => inferInstanceAs (Decidable True)
  | .array _ elements => elements.decideDistinct
  | .inline _ entries => entries.decideDistinct
  | .table _ entries => entries.decideDistinct
  | .tables elements => elements.decideDistinct
def Nodes.decideDistinct : (nodes : Nodes) → Decidable nodes.Distinct
  | .nil => inferInstanceAs (Decidable True)
  | .cons head tail => @instDecidableAnd _ _ head.decideDistinct tail.decideDistinct
def Entries.decideDistinct : (entries : Entries) → Decidable entries.Distinct
  | .nil => inferInstanceAs (Decidable True)
  | .cons key node tail =>
    @instDecidableAnd (key.name ∉ tail.names) _ inferInstance
      (@instDecidableAnd _ _ node.decideDistinct tail.decideDistinct)
end

instance (entries : Entries) : Decidable entries.Distinct := entries.decideDistinct

def Document.Distinct (document : Document) : Prop := document.root.Distinct

instance (document : Document) : Decidable document.Distinct := document.root.decideDistinct

namespace Entries

theorem names_nodup (entries : Entries) (distinct : entries.Distinct) : entries.names.Nodup := by
  induction entries with
  | nil => exact List.nodup_nil
  | cons key node tail ih => exact List.nodup_cons.mpr ⟨distinct.1, ih distinct.2.2⟩

theorem distinct_get? (entries : Entries) (distinct : entries.Distinct) (name : String)
    (node : Node) (found : entries.get? name = some node) : node.Distinct := by
  induction entries with
  | nil => simp [get?] at found
  | cons key value tail ih =>
    by_cases same : key.name = name
    · rw [get?, if_pos same] at found
      exact Option.some.inj found ▸ distinct.2.1
    · rw [get?, if_neg same] at found
      exact ih distinct.2.2 found

theorem distinct_entries? (node : Node) (distinct : node.Distinct) (entries : Entries)
    (inner : node.entries? = some entries) : entries.Distinct := by
  cases node with
  | inline style own => exact Option.some.inj inner ▸ distinct
  | table style own => exact Option.some.inj inner ▸ distinct
  | scalar margin value => cases inner
  | array style elements => cases inner
  | tables elements => cases inner

end Entries

end Reroot
