import Reroot.Proofs.Lifting
import Reroot.Proofs.Merged
import Reroot.Proofs.Pinned
import Reroot.Proofs.Redirected

set_option autoImplicit false

namespace Reroot

structure Node.Calm (node : Node) : Prop where
  distinct : node.Distinct
  plain : node.path? = none
  pinned : node.Pinned

structure Entries.Calm (entries : Entries) : Prop where
  names : entries.names.Nodup
  each : entries.Each fun _ node => node.Calm

namespace Entries

theorem distinct_iff (entries : Entries) :
    entries.Distinct ↔ entries.names.Nodup ∧ entries.Each fun _ node => node.Distinct := by
  induction entries with
  | nil => simp [Distinct, names, Each, toList]
  | cons key node tail ih =>
    rw [Distinct, names, List.nodup_cons, each_cons, ih]
    tauto

theorem distinct_erase (name : String) (entries : Entries) (distinct : entries.Distinct) :
    (entries.erase name).Distinct := by
  rw [distinct_iff] at distinct ⊢
  refine ⟨?_, each_erase _ name entries distinct.2⟩
  rw [names_erase]
  exact distinct.1.filter _

theorem calm_iff (entries : Entries) : entries.Calm ↔ entries.Distinct ∧ entries.Pinned := by
  rw [distinct_iff, pinned_iff]
  constructor
  · intro calm
    exact ⟨⟨calm.names, calm.each.imp fun _ _ own => own.distinct⟩,
      calm.each.imp fun _ _ own => ⟨own.plain, own.pinned⟩⟩
  · rintro ⟨⟨distinct, each⟩, pinned⟩
    refine ⟨distinct, fun entry member => ?_⟩
    obtain ⟨plain, inner⟩ := pinned entry member
    exact ⟨each entry member, plain, inner⟩

theorem Calm.erase_all {entries : Entries} (calm : entries.Calm) (names : List String) :
    (entries.eraseAll names).1.Calm := by
  induction names generalizing entries with
  | nil => exact calm
  | cons name names ih =>
    rw [Entries.eraseAll]
    split
    · refine ih ⟨?_, each_erase _ name entries calm.each⟩
      rw [names_erase]
      exact calm.names.filter _
    · exact ih calm

end Entries

theorem Node.distinct_with_margin (margin : Margin) (node : Node) (distinct : node.Distinct) :
    (node.withMargin margin).Distinct := by
  cases node <;> exact distinct

theorem Entries.distinct_unbraced (entries : Entries) (distinct : entries.Distinct) :
    entries.unbraced.Distinct := by
  induction entries with
  | nil => trivial
  | cons key node tail ih =>
    obtain ⟨missing, here, later⟩ := distinct
    refine ⟨?_, node.distinct_with_margin .unset here, ih later⟩
    rwa [names_unbraced]

theorem Node.distinct_under_header? (node : Node) (distinct : node.Distinct) (entries : Entries)
    (inner : node.underHeader? = some entries) : entries.Distinct := by
  cases node with
  | inline style own =>
    cases inner
    exact own.distinct_unbraced distinct
  | table style own =>
    cases inner
    exact distinct
  | scalar margin value => cases inner
  | array style elements => cases inner
  | tables elements => cases inner

theorem Workspace.distinct_lift (root entries : Entries) (distinct : root.Distinct)
    (distinct' : entries.Distinct) : (lift root entries).1.Distinct := by
  induction entries generalizing root with
  | nil => exact distinct
  | cons key node tail ih =>
    obtain ⟨-, here, later⟩ := distinct'
    rw [lift]
    split
    · exact ih root distinct later
    · split
      · exact ih root distinct later
      · rw [Entries.distinct_iff] at distinct
        refine ih _ ?_ later
        rw [Entries.distinct_iff]
        exact ⟨Entries.nodup_put _ _ _ distinct.1, Entries.each_put _ _ _ _ distinct.2 here⟩

theorem Document.distinct_lift_workspace (document : Document) (distinct : document.Distinct) :
    document.liftWorkspace.1.Distinct := by
  rw [liftWorkspace]
  cases found : document.root.get? "workspace" with
  | none => exact distinct
  | some node =>
    have own := Entries.distinct_get? document.root distinct "workspace" node found
    have erased := document.root.distinct_erase "workspace" distinct
    dsimp only
    cases inner : node.underHeader? with
    | none => exact erased
    | some entries =>
      exact Workspace.distinct_lift _ entries erased (node.distinct_under_header? own entries inner)

section Walk

variable (target : Target)

mutual
theorem Node.distinct_redirect : (node : Node) → node.Distinct → (node.redirect target).result.Distinct
  | .scalar _ _, _ => trivial
  | .array _ elements, distinct => Nodes.distinct_redirect elements distinct
  | .inline _ entries, distinct => Entries.distinct_redirect entries distinct
  | .table _ entries, distinct => Entries.distinct_redirect entries distinct
  | .tables elements, distinct => Nodes.distinct_redirect elements distinct
theorem Nodes.distinct_redirect : (nodes : Nodes) → nodes.Distinct →
    (nodes.redirect target).result.Distinct
  | .nil, _ => trivial
  | .cons head tail, distinct => by
    have first := Node.distinct_redirect head distinct.1
    rw [Nodes.redirect]
    rcases Walk.result_join Nodes.cons (head.redirect target) tail (tail.redirect target) with
      stuck | whole
    · rw [stuck]
      exact ⟨first, distinct.2⟩
    · rw [whole]
      exact ⟨first, Nodes.distinct_redirect tail distinct.2⟩
theorem Entries.distinct_redirect : (entries : Entries) → entries.Distinct →
    (entries.redirect target).result.Distinct
  | .nil, _ => trivial
  | .cons key node tail, distinct => by
    obtain ⟨missing, here, later⟩ := distinct
    have first := node.walked_keeps target key.name Node.Distinct here
      (Node.distinct_redirect node here)
      fun pairs names => Node.distinct_of_legible .body _ (Target.legible_reference pairs names .body)
    rcases Entries.redirect_cons target key node tail with stuck | whole
    · rw [stuck]
      exact ⟨missing, first, later⟩
    · rw [whole]
      refine ⟨?_, first, Entries.distinct_redirect tail later⟩
      rwa [Entries.names_redirect]
end

end Walk

namespace Entries

theorem get?_to_values (name : String) (entries : Entries) : entries.toValues.get? name =
    (entries.get? name).map fun node => node.toValue.withMargin .unset := by
  induction entries with
  | nil => rfl
  | cons key node tail ih =>
    rw [toValues, get?, get?, ih]
    by_cases same : key.name = name <;> simp [Key.bare, same]

end Entries

namespace Node

theorem pinned_with_margin (margin : Margin) (node : Node) (pinned : node.Pinned) :
    (node.withMargin margin).Pinned := by
  cases node <;> exact pinned

theorem path?_with_margin (margin : Margin) (node : Node) :
    (node.withMargin margin).path? = node.path? := by
  cases node <;> rfl

theorem path?_to_value (node : Node) (plain : node.path? = none) : node.toValue.path? = none := by
  cases node with
  | table style entries =>
    change entries.toValues.get? "path" = none
    rw [Entries.get?_to_values, show entries.get? "path" = none from plain, Option.map_none]
  | scalar margin value => rfl
  | array style elements => rfl
  | inline style entries => exact plain
  | tables elements => rfl

end Node

mutual
theorem Node.calm_to_value : (node : Node) → node.Distinct → node.Pinned →
    node.toValue.Distinct ∧ node.toValue.Pinned
  | .scalar _ _, _, _ => ⟨trivial, trivial⟩
  | .array _ _, distinct, pinned => ⟨distinct, pinned⟩
  | .inline _ _, distinct, pinned => ⟨distinct, pinned⟩
  | .table _ entries, distinct, pinned => Entries.calm_to_values entries distinct pinned
  | .tables elements, distinct, pinned => Nodes.calm_to_values true elements distinct pinned
theorem Nodes.calm_to_values (isFirst : Bool) : (nodes : Nodes) → nodes.Distinct → nodes.Pinned →
    (nodes.toValues isFirst).Distinct ∧ (nodes.toValues isFirst).Pinned
  | .nil, _, _ => ⟨trivial, trivial⟩
  | .cons head tail, distinct, pinned => by
    obtain ⟨here, still⟩ := Node.calm_to_value head distinct.1 pinned.1
    obtain ⟨later, stillLater⟩ := Nodes.calm_to_values false tail distinct.2 pinned.2
    exact ⟨⟨Node.distinct_with_margin _ _ here, later⟩, Node.pinned_with_margin _ _ still, stillLater⟩
theorem Entries.calm_to_values : (entries : Entries) → entries.Distinct → entries.Pinned →
    entries.toValues.Distinct ∧ entries.toValues.Pinned
  | .nil, _, _ => ⟨trivial, trivial⟩
  | .cons key node tail, distinct, pinned => by
    obtain ⟨here, still⟩ := Node.calm_to_value node distinct.2.1 pinned.2.1
    obtain ⟨later, stillLater⟩ := Entries.calm_to_values tail distinct.2.2 pinned.2.2
    refine ⟨⟨?_, Node.distinct_with_margin _ _ here, later⟩, ?_, Node.pinned_with_margin _ _ still,
      stillLater⟩
    · rw [Entries.names_to_values]
      exact distinct.1
    · rw [Node.path?_with_margin]
      exact node.path?_to_value pinned.1
end

namespace Node

theorem Calm.adopt {node : Node} (calm : node.Calm) (place : Node) : (place.adopt node).Calm := by
  rcases place.adopt_cases node with same | value
  · rwa [same]
  · obtain ⟨distinct, pinned⟩ := node.calm_to_value calm.distinct calm.pinned
    rw [value]
    exact ⟨distinct, node.path?_to_value calm.plain, pinned⟩

theorem calm_of_entries? (node : Node) (entries : Entries) (inner : node.entries? = some entries) :
    node.Calm ↔ entries.Calm ∧ entries.get? "path" = none := by
  have plain : node.path? = entries.get? "path" := by rw [path?, inner, Option.bind_some]
  have parts : (node.Distinct ↔ entries.Distinct) ∧ (node.Pinned ↔ entries.Pinned) := by
    cases node <;> cases inner <;> exact ⟨Iff.rfl, Iff.rfl⟩
  rw [entries.calm_iff, ← plain, ← parts.1, ← parts.2]
  exact ⟨fun calm => ⟨⟨calm.distinct, calm.pinned⟩, calm.plain⟩,
    fun calm => ⟨calm.1.1, calm.2, calm.1.2⟩⟩

theorem calm_with_entries (node : Node) (old entries : Entries) (inner : node.entries? = some old)
    (calm : entries.Calm) (plain : entries.get? "path" = none) : (node.withEntries entries).Calm := by
  refine (calm_of_entries? _ entries ?_).mpr ⟨calm, plain⟩
  cases node <;> cases inner <;> rfl

end Node

namespace Document

theorem calm_redirect (document : Document) (distinct : document.Distinct) (url rev : String) :
    (document.redirect (.revision url rev)).stuck = none ∧
      (document.redirect (.revision url rev)).result.root.Calm := by
  obtain ⟨free, pinned⟩ := Entries.pinned_redirect url rev document.root
  exact ⟨free, (Entries.calm_iff _).mpr
    ⟨Entries.distinct_redirect (.revision url rev) document.root distinct, pinned⟩⟩

theorem calm_cleaned (names : List String) (document : Document) (calm : document.root.Calm) :
    (document.cleaned names).root.Calm := by
  have empty : (Node.table .fresh .nil).Calm := ⟨trivial, rfl, trivial⟩
  have blank : (document.root.assign "package" (.table .fresh .nil)).Calm := by
    refine ⟨?_, Entries.each_assign _ _ _ _ _ calm.each (fun _ _ own => own) empty
      fun _ _ _ _ => empty⟩
    rw [Entries.names_assign]
    exact Entries.nodup_put _ _ _ calm.names
  rw [cleaned, dropDependencies]
  cases found : (document.blankPackage.root.get? "dependencies").bind Node.entries? with
  | none => exact blank
  | some entries =>
    obtain ⟨node, there, inner⟩ := Option.bind_eq_some_iff.mp found
    refine ⟨?_, Entries.each_modify _ _ (fun _ _ own => own) _ _ _ blank.each ?_⟩
    · rw [Entries.names_modify]
      exact blank.names
    · intro key other _ same own
      cases there.symm.trans same
      obtain ⟨calmEntries, plain⟩ := (node.calm_of_entries? entries inner).mp own
      refine node.calm_with_entries entries _ inner (calmEntries.erase_all names) ?_
      rw [Entries.get?_erase_all, plain, ite_self]

end Document

namespace Fragment

theorem calm_put_all (node place : Node) (entries base : Entries) (inner : node.entries? = some entries)
    (inner' : place.entries? = some base) (calm : node.Calm) (calm' : place.Calm) :
    (putAll entries place).Calm := by
  obtain ⟨calmEntries, plain⟩ := (node.calm_of_entries? entries inner).mp calm
  obtain ⟨calmBase, plainBase⟩ := (place.calm_of_entries? base inner').mp calm'
  obtain ⟨out, shape, distinct, each⟩ := put_all_keeps (fun _ node => node.Calm) entries place base
    inner' (fun entry member => (calmEntries.each entry member).adopt place) calmBase.names calmBase.each
  have isTable : place.isTable = true := by rw [Node.isTable, inner']; rfl
  have own : (putAll entries place).entries? = some out := by
    rw [shape]
    cases place <;> cases inner' <;> rfl
  have unset := child?_put_all entries calmEntries.names place isTable "path"
  rw [plain, Node.child?_key, Node.child?_key, own, inner'] at unset
  exact (Node.calm_of_entries? _ out own).mpr ⟨⟨distinct, each⟩, unset.trans plainBase⟩

theorem calm_empty_section (node : Node) : (emptySection node).Calm := by
  cases node <;> exact ⟨trivial, rfl, trivial⟩

theorem calm_overlay_all (root entries : Entries) (calm : root.Calm) (calm' : entries.Calm) :
    (overlayAll root entries).1.Calm := by
  induction entries generalizing root with
  | nil => exact calm
  | cons key node tail ih =>
    obtain ⟨here, later⟩ := (Entries.each_cons _ _ _ _).mp calm'.each
    have next := overlay_each (fun _ node => node.Calm) (fun _ node => node.Calm) (fun _ _ own => own)
      key.name node root calm.names calm.each here (calm_empty_section node) ?_
    · rw [overlayAll]
      exact ih _ ⟨next.1, next.2⟩ ⟨(List.nodup_cons.mp calm'.names).2, later⟩
    · intro own other place inner _ _ isTable calmPlace
      obtain ⟨base, inner'⟩ := Option.isSome_iff_exists.mp isTable
      exact calm_put_all node place own base inner inner' here calmPlace

end Fragment

end Reroot
