import Reroot.Document.Reader
import Reroot.Proofs.Plain

set_option autoImplicit false

namespace Reroot

-- What the spelling of a float or a moment stands for.
structure Reading where
  float : Text → Text
  moment : Text → Text

mutual
def Data.read (reading : Reading) : Data → Data
  | .string value => .string value
  | .integer value => .integer value
  | .boolean value => .boolean value
  | .float spelling => .float (reading.float spelling)
  | .moment spelling => .moment (reading.moment spelling)
  | .list elements => .list (elements.read reading)
  | .object fields => .object (fields.read reading)
def DataList.read (reading : Reading) : DataList → DataList
  | .nil => .nil
  | .cons head tail => .cons (head.read reading) (tail.read reading)
def DataFields.read (reading : Reading) : DataFields → DataFields
  | .nil => .nil
  | .cons name data tail => .cons name (data.read reading) (tail.read reading)
end

def Node.meaning (reading : Reading) (node : Node) : Data := node.data.read reading

def Nodes.meaning (reading : Reading) (nodes : Nodes) : DataList := nodes.data.read reading

def Entries.meaning (reading : Reading) (entries : Entries) : DataFields :=
  entries.data.read reading

def Document.meaning (reading : Reading) (document : Document) : DataFields :=
  document.root.meaning reading

section Structure

variable (reading : Reading)

@[simp] theorem Node.meaning_array (style : ArrayStyle) (elements : Nodes) :
    (Node.array style elements).meaning reading = .list (elements.meaning reading) := rfl

@[simp] theorem Node.meaning_inline (style : InlineStyle) (entries : Entries) :
    (Node.inline style entries).meaning reading = .object (entries.meaning reading) := rfl

@[simp] theorem Node.meaning_table (style : TableStyle) (entries : Entries) :
    (Node.table style entries).meaning reading = .object (entries.meaning reading) := rfl

@[simp] theorem Node.meaning_tables (elements : Nodes) :
    (Node.tables elements).meaning reading = .list (elements.meaning reading) := rfl

@[simp] theorem Nodes.meaning_nil : Nodes.nil.meaning reading = .nil := rfl

@[simp] theorem Nodes.meaning_cons (head : Node) (tail : Nodes) :
    (Nodes.cons head tail).meaning reading = .cons (head.meaning reading) (tail.meaning reading) :=
  rfl

@[simp] theorem Entries.meaning_nil : Entries.nil.meaning reading = .nil := rfl

@[simp] theorem Entries.meaning_cons (key : Key) (node : Node) (tail : Entries) :
    (Entries.cons key node tail).meaning reading =
      .cons key.name (node.meaning reading) (tail.meaning reading) := rfl

theorem Entries.meaning_unbraced (entries : Entries) :
    entries.unbraced.meaning reading = entries.meaning reading :=
  congrArg (DataFields.read reading) entries.data_unbraced

theorem Node.meaning_to_value (node : Node) : node.toValue.meaning reading = node.meaning reading :=
  congrArg (Data.read reading) node.data_to_value

theorem Node.fields?_meaning (node : Node) :
    (node.meaning reading).fields? = node.entries?.map (Entries.meaning reading) := by
  cases node with
  | scalar margin value => cases value <;> rfl
  | array style elements => rfl
  | inline style entries => rfl
  | table style entries => rfl
  | tables elements => rfl

theorem Node.under_header?_meaning (node : Node) :
    (node.meaning reading).fields? = node.underHeader?.map (Entries.meaning reading) := by
  cases node with
  | scalar margin value => cases value <;> rfl
  | array style elements => rfl
  | inline style entries =>
    simp [Data.fields?, Node.underHeader?, Entries.meaning_unbraced]
  | table style entries => rfl
  | tables elements => rfl

theorem Node.string?_meaning (node : Node) : (node.meaning reading).string? = node.string? := by
  cases node with
  | scalar margin value => cases value <;> rfl
  | array style elements => rfl
  | inline style entries => rfl
  | table style entries => rfl
  | tables elements => rfl

end Structure

namespace Entries

variable (reading : Reading)

theorem get?_meaning (name : String) (entries : Entries) :
    (entries.meaning reading).get? name = (entries.get? name).map (Node.meaning reading) := by
  induction entries with
  | nil => rfl
  | cons key node tail ih =>
    by_cases same : key.name = name <;> simp [DataFields.get?, get?, same, ih]

theorem contains_meaning (name : String) (entries : Entries) :
    (entries.meaning reading).contains name = entries.contains name := by
  rw [DataFields.contains, get?_meaning, Option.isSome_map, contains]

theorem erase_meaning (name : String) (entries : Entries) :
    (entries.erase name).meaning reading = (entries.meaning reading).erase name := by
  induction entries with
  | nil => rfl
  | cons key node tail ih =>
    by_cases same : key.name = name <;> simp [DataFields.erase, erase, same, ih]

theorem put_meaning (name : String) (node : Node) (entries : Entries) :
    (entries.put name node).meaning reading =
      (entries.meaning reading).put name (node.meaning reading) := by
  induction entries with
  | nil => rfl
  | cons key value tail ih =>
    by_cases same : key.name = name <;> simp [DataFields.put, put, same, ih, Key.fresh]

theorem assign_meaning (name : String) (node : Node) (entries : Entries) :
    (entries.assign name node).meaning reading =
      (entries.meaning reading).put name (node.meaning reading) := by
  induction entries with
  | nil => rfl
  | cons key value tail ih =>
    by_cases same : key.name = name <;> simp [DataFields.put, assign, same, ih]

theorem modify_meaning (name : String) (change : Node → Node) (entries : Entries) (node : Node)
    (found : entries.get? name = some node) :
    (entries.modify name change).meaning reading =
      (entries.meaning reading).put name ((change node).meaning reading) := by
  induction entries with
  | nil => simp [get?] at found
  | cons key value tail ih =>
    by_cases same : key.name = name
    · rw [get?, if_pos same] at found
      simp [DataFields.put, modify, same, Option.some.inj found]
    · rw [get?, if_neg same] at found
      simp [DataFields.put, modify, same, ih found]

theorem erase_all_meaning (names : List String) (entries : Entries) :
    (entries.meaning reading).eraseAll names =
      ((entries.eraseAll names).1.meaning reading, (entries.eraseAll names).2) := by
  induction names generalizing entries with
  | nil => rfl
  | cons name names ih =>
    rw [eraseAll, DataFields.eraseAll, contains_meaning]
    by_cases there : entries.contains name = true
    · rw [if_pos there, if_pos there, ← erase_meaning, ih]
    · rw [if_neg there, if_neg there, ih]

end Entries

theorem Node.put_all_meaning (reading : Reading) (entries : Entries) (place : Node)
    (there : DataFields) (isTable : (place.meaning reading).fields? = some there) :
    (Fragment.putAll entries place).meaning reading =
      .object (there.putAll (entries.meaning reading)) := by
  induction entries generalizing place there with
  | nil =>
    cases place with
    | scalar margin value => cases value <;> cases isTable
    | array style elements => cases isTable
    | inline style inner => exact congrArg Data.object (Option.some.inj isTable)
    | table style inner => exact congrArg Data.object (Option.some.inj isTable)
    | tables elements => cases isTable
  | cons key node tail ih =>
    rw [Entries.meaning_cons, DataFields.putAll, Fragment.putAll]
    apply ih
    rw [Node.fields?_meaning] at isTable ⊢
    cases place with
    | scalar margin value => cases isTable
    | array style elements => cases isTable
    | inline style inner =>
      rw [← Option.some.inj isTable]
      simp [Node.putEntry, Node.entries?, Entries.put_meaning, Node.meaning_to_value]
    | table style inner =>
      rw [← Option.some.inj isTable]
      simp [Node.putEntry, Node.entries?, Entries.put_meaning]
    | tables elements => cases isTable

theorem Workspace.lift_meaning (reading : Reading) (root entries : Entries) :
    (root.meaning reading).lift (entries.meaning reading) =
      ((lift root entries).1.meaning reading, (lift root entries).2) := by
  induction entries generalizing root with
  | nil => rfl
  | cons key node tail ih =>
    rw [Entries.meaning_cons, DataFields.lift, lift, Entries.contains_meaning]
    by_cases discarded : membershipKeys.contains key.name = true
    · rw [if_pos discarded, if_pos discarded, ih]
    · rw [if_neg discarded, if_neg discarded]
      by_cases shadowed : root.contains key.name = true
      · rw [if_pos shadowed, if_pos shadowed, ih]
      · rw [if_neg shadowed, if_neg shadowed, ← Entries.put_meaning, ih]

theorem Document.lift_workspace_meaning (reading : Reading) (document : Document) :
    (document.meaning reading).liftWorkspace =
      (document.liftWorkspace.1.meaning reading, document.liftWorkspace.2.keys) := by
  rw [liftWorkspace, DataFields.liftWorkspace, meaning, Entries.get?_meaning]
  cases document.root.get? "workspace" with
  | none => rfl
  | some found =>
    dsimp only [Option.map_some]
    rw [Node.under_header?_meaning, ← Entries.erase_meaning]
    cases found.underHeader? with
    | none => rfl
    | some entries => exact Workspace.lift_meaning reading _ entries

namespace Walk

variable {α β γ α' β' γ' : Type}

theorem map_join (f : α → β → γ) (f' : α' → β' → γ') (a : α → α') (b : β → β') (c : γ → γ')
    (respects : ∀ x y, c (f x y) = f' (a x) (b y)) (first : Walk α) (unchanged : β)
    (rest : Walk β) :
    (join f first unchanged rest).map c = join f' (first.map a) (b unchanged) (rest.map b) := by
  rcases first with ⟨result, replaced, stuck⟩
  cases stuck <;> simp [join, map, respects]

end Walk

namespace Target

theorem reference_meaning (reading : Reading) (pairs : List (String × String)) :
    (reference pairs).meaning reading = plainReference pairs := by
  rw [reference, plainReference, Node.meaning_inline]
  apply congrArg Data.object
  induction pairs with
  | nil => rfl
  | cons pair pairs ih => exact congrArg (DataFields.cons pair.1 (.string pair.2)) ih

theorem replacement?_meaning (reading : Reading) (target : Target) (entries : Entries) :
    target.plainReplacement? (entries.meaning reading) =
      (target.replacement? entries).map (Node.meaning reading) := by
  cases target with
  | revision url rev => exact congrArg some (reference_meaning reading _).symm
  | checkout base =>
    rw [plainReplacement?, replacement?, Entries.get?_meaning]
    cases entries.get? "path" with
    | none => rfl
    | some node =>
      simp only [Option.map_some, Option.bind_some, Node.string?_meaning]
      cases node.string? with
      | none => rfl
      | some path => exact congrArg some (reference_meaning reading _).symm

end Target

theorem Node.redirected?_meaning (reading : Reading) (target : Target) (name : String)
    (node : Node) :
    (node.meaning reading).redirected? target name =
      (node.redirected? target name).map (Walk.map (Node.meaning reading)) := by
  rw [Data.redirected?, redirected?, Node.fields?_meaning]
  cases node.entries? with
  | none => rfl
  | some entries =>
    simp only [Option.map_some, Entries.contains_meaning, Target.replacement?_meaning]
    cases entries.contains "path" with
    | false => rfl
    | true => cases target.replacement? entries <;> rfl

mutual
theorem Node.redirect_meaning (reading : Reading) (target : Target) :
    (node : Node) → (node.meaning reading).redirect target =
      (node.redirect target).map (Node.meaning reading)
  | .scalar _ value => by cases value <;> rfl
  | .array _ elements => by
    rw [Node.meaning_array, Data.redirect, Nodes.redirect_meaning reading target elements]
    rfl
  | .inline _ entries => by
    rw [Node.meaning_inline, Data.redirect, Entries.redirect_meaning reading target entries]
    rfl
  | .table _ entries => by
    rw [Node.meaning_table, Data.redirect, Entries.redirect_meaning reading target entries]
    rfl
  | .tables elements => by
    rw [Node.meaning_tables, Data.redirect, Nodes.redirect_meaning reading target elements]
    rfl
theorem Nodes.redirect_meaning (reading : Reading) (target : Target) :
    (nodes : Nodes) → (nodes.meaning reading).redirect target =
      (nodes.redirect target).map (Nodes.meaning reading)
  | .nil => rfl
  | .cons head tail => by
    rw [Nodes.meaning_cons, DataList.redirect, Nodes.redirect, Node.redirect_meaning,
      Nodes.redirect_meaning reading target tail]
    exact (Walk.map_join Nodes.cons DataList.cons (Node.meaning reading) (Nodes.meaning reading)
      (Nodes.meaning reading) (fun _ _ => rfl) _ _ _).symm
theorem Entries.redirect_meaning (reading : Reading) (target : Target) :
    (entries : Entries) → (entries.meaning reading).redirect target =
      (entries.redirect target).map (Entries.meaning reading)
  | .nil => rfl
  | .cons key node tail => by
    have first : ((node.meaning reading).redirected? target key.name).getD
        ((node.meaning reading).redirect target) =
        ((node.redirected? target key.name).getD (node.redirect target)).map
          (Node.meaning reading) := by
      rw [Node.redirected?_meaning, Node.redirect_meaning reading target node]
      cases node.redirected? target key.name <;> rfl
    rw [Entries.meaning_cons, DataFields.redirect, Entries.redirect, first,
      Entries.redirect_meaning reading target tail]
    exact (Walk.map_join (Entries.cons key) (DataFields.cons key.name) (Node.meaning reading)
      (Entries.meaning reading) (Entries.meaning reading) (fun _ _ => rfl) _ _ _).symm
end

namespace Document

theorem blank_package_meaning (reading : Reading) (document : Document) :
    document.blankPackage.meaning reading = (document.meaning reading).blankPackage :=
  Entries.assign_meaning reading "package" _ document.root

theorem drop_dependencies_meaning (reading : Reading) (names : List String) (document : Document) :
    (document.meaning reading).dropDependencies names =
      ((document.dropDependencies names).1.meaning reading, (document.dropDependencies names).2) := by
  rw [dropDependencies, DataFields.dropDependencies, meaning, Entries.get?_meaning]
  cases found : document.root.get? "dependencies" with
  | none => rfl
  | some node =>
    simp only [Option.map_some, Option.bind_some, Node.fields?_meaning]
    cases inner : node.entries? with
    | none => rfl
    | some entries =>
      simp only [Option.map_some, Entries.erase_all_meaning]
      rw [meaning, Entries.modify_meaning reading _ _ _ node found]
      cases node with
      | inline style own => rfl
      | table style own => rfl
      | scalar margin value => cases inner
      | array style elements => cases inner
      | tables elements => cases inner

end Document

namespace Fragment

theorem meaning_empty_section (reading : Reading) (node : Node) :
    (emptySection node).meaning reading = .object .nil := by
  cases node <;> rfl

theorem overlay_meaning (reading : Reading) (name : String) (node : Node) (root : Entries) :
    (root.meaning reading).overlay name (node.meaning reading) =
      ((overlay name node root).1.meaning reading, (overlay name node root).2) := by
  rw [DataFields.overlay, overlay, Node.fields?_meaning, Entries.contains_meaning]
  cases node.entries? with
  | none =>
    cases root.contains name with
    | true => rfl
    | false => exact congrArg (·, SectionFate.merged) (Entries.put_meaning reading _ _ _).symm
  | some entries =>
    have section_ : (if root.contains name then root.meaning reading
        else (root.meaning reading).put name (.object .nil)) =
        (if root.contains name then root
          else root.put name (emptySection node)).meaning reading := by
      cases root.contains name with
      | true => rfl
      | false =>
        rw [if_neg Bool.false_ne_true, if_neg Bool.false_ne_true, Entries.put_meaning,
          meaning_empty_section]
    simp only [Option.map_some]
    rw [section_]
    generalize (if root.contains name then root else root.put name (emptySection node)) = root
    rw [Entries.get?_meaning]
    cases found : root.get? name with
    | none => rfl
    | some place =>
      have isTable := Node.fields?_meaning reading place
      cases inner : place.entries? with
      | none =>
        rw [inner] at isTable
        simp [isTable, Node.isTable, inner]
      | some there =>
        rw [inner] at isTable
        have merged := Node.put_all_meaning reading entries place _ isTable
        simp [isTable, Node.isTable, inner, Entries.modify_meaning reading _ _ _ place found, merged]

theorem overlay_all_meaning (reading : Reading) (root entries : Entries) :
    (root.meaning reading).overlayAll (entries.meaning reading) =
      ((overlayAll root entries).1.meaning reading, (overlayAll root entries).2) := by
  induction entries generalizing root with
  | nil => rfl
  | cons key node tail ih =>
    rw [Entries.meaning_cons, DataFields.overlayAll, overlayAll, overlay_meaning]
    simp only [ih]

end Fragment

def Summary.report (summary : Summary) : Report :=
  ⟨summary.workspace.keys, summary.redirected, summary.removed, summary.fragment⟩

def outcome : Except Stuck Summary → Except String Report
  | .error stuck => .error stuck.key
  | .ok summary => .ok summary.report

def Alike (reading : Reading) :
    Document × Except Stuck Summary → Document × Except Stuck Summary → Prop
  | (_, .error first), (_, .error second) => first.key = second.key
  | (document, .ok first), (other, .ok second) =>
    document.meaning reading = other.meaning reading ∧ first.report = second.report
  | _, _ => False

namespace Document

theorem overlay_meaning (reading : Reading) (document fragment : Document) :
    (document.meaning reading).overlayAll (fragment.meaning reading) =
      ((document.overlay fragment).1.meaning reading, (document.overlay fragment).2) :=
  Fragment.overlay_all_meaning reading document.root fragment.root

theorem stand_alone_meaning (reading : Reading) (document : Document) (target : Target)
    (fragment : Document) (removals : List String) :
    (document.meaning reading).standAlone target (fragment.meaning reading) removals =
      ((document.standAlone target fragment removals).1.meaning reading,
        outcome (document.standAlone target fragment removals).2) := by
  have redirected (document : Document) : (document.meaning reading).redirect target =
      (document.redirect target).map (meaning reading) :=
    Entries.redirect_meaning reading target document.root
  rw [standAlone, DataFields.standAlone, lift_workspace_meaning]
  dsimp only
  rw [redirected]
  generalize document.liftWorkspace.1.redirect target = walk
  rcases walk with ⟨result, replaced, stuck⟩
  cases stuck with
  | some key => rfl
  | none =>
    dsimp only [Walk.map]
    rw [← blank_package_meaning, drop_dependencies_meaning]
    dsimp only
    rw [overlay_meaning]
    rfl

-- Manifests with the same data and fragments with the same data come out alike.
theorem stand_alone_alike (reading : Reading) (manifest manifest' fragment fragment' : Document)
    (target : Target) (removals : List String)
    (sameManifest : manifest.meaning reading = manifest'.meaning reading)
    (sameFragment : fragment.meaning reading = fragment'.meaning reading) :
    Alike reading (manifest.standAlone target fragment removals)
      (manifest'.standAlone target fragment' removals) := by
  have plain := stand_alone_meaning reading manifest target fragment removals
  rw [sameManifest, sameFragment, stand_alone_meaning, Prod.mk.injEq] at plain
  obtain ⟨documents, outcomes⟩ := plain
  generalize manifest.standAlone target fragment removals = first at documents outcomes ⊢
  generalize manifest'.standAlone target fragment' removals = second at documents outcomes ⊢
  rcases first with ⟨document, first | first⟩ <;> rcases second with ⟨other, second | second⟩
  · exact (Except.error.inj outcomes).symm
  · cases outcomes
  · cases outcomes
  · exact ⟨documents.symm, (Except.ok.inj outcomes).symm⟩

theorem stand_alone_alike_header_and_braces :
    ∃ manifest manifest' fragment : Document,
      parse? "[workspace.dependencies.a]\npath = 'a'\n[x]\ny = 1.0\n" = some manifest ∧
      parse? "workspace = \x7b dependencies.a.path = \"a\" \x7d\nx = \x7b y = 1.00 \x7d\n" = some manifest' ∧
      parse? "[x]\nz = true\n" = some fragment ∧
      manifest.data ≠ manifest'.data ∧
      Alike ⟨fun _ => [], id⟩ (manifest.standAlone (.checkout "/b") fragment ["a"])
        (manifest'.standAlone (.checkout "/b") fragment ["a"]) := by
  have same : (parse? "[workspace.dependencies.a]\npath = 'a'\n[x]\ny = 1.0\n").map
      (meaning ⟨fun _ => [], id⟩) =
      (parse? "workspace = \x7b dependencies.a.path = \"a\" \x7d\nx = \x7b y = 1.00 \x7d\n").map
      (meaning ⟨fun _ => [], id⟩) := by decide +kernel
  have differ : (parse? "[workspace.dependencies.a]\npath = 'a'\n[x]\ny = 1.0\n").map data ≠
      (parse? "workspace = \x7b dependencies.a.path = \"a\" \x7d\nx = \x7b y = 1.00 \x7d\n").map data := by
    decide +kernel
  obtain ⟨manifest, read⟩ := Option.isSome_iff_exists.mp
    (show (parse? "[workspace.dependencies.a]\npath = 'a'\n[x]\ny = 1.0\n").isSome by
      decide +kernel)
  obtain ⟨manifest', read'⟩ := Option.isSome_iff_exists.mp
    (show (parse? "workspace = \x7b dependencies.a.path = \"a\" \x7d\nx = \x7b y = 1.00 \x7d\n").isSome by
      decide +kernel)
  obtain ⟨fragment, readFragment⟩ := Option.isSome_iff_exists.mp
    (show (parse? "[x]\nz = true\n").isSome by decide +kernel)
  rw [read, read'] at same differ
  exact ⟨manifest, manifest', fragment, read, read', readFragment,
    fun equal => differ (congrArg some equal),
    stand_alone_alike _ _ _ _ _ _ _ (Option.some.inj same) rfl⟩

end Document

end Reroot
