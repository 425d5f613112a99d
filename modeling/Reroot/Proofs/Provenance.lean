import Reroot.Document.Reader
import Reroot.Manifest.Summary
import Reroot.Proofs.Overlay

set_option autoImplicit false

namespace Reroot

namespace Walk

variable {α β γ : Type}

theorem join_free (f : α → β → γ) (first : Walk α) (unchanged : β) (rest : Walk β)
    (free : (join f first unchanged rest).stuck = none) :
    first.stuck = none ∧ rest.stuck = none ∧
      (join f first unchanged rest).result = f first.result rest.result := by
  rcases first with ⟨result, replaced, stuck⟩
  cases stuck with
  | none => exact ⟨rfl, free, rfl⟩
  | some key => simp [join] at free

end Walk

namespace Target

theorem child?_reference (pairs : List (String × String)) (step : Step) (child : Node)
    (found : (reference pairs).child? step = some child) : ∃ value, child = .ofString value := by
  cases step with
  | index number => cases found
  | key name =>
    rw [Node.child?_key] at found
    change Entries.get? name _ = some child at found
    induction pairs with
    | nil => cases found
    | cons pair pairs ih =>
      rw [List.foldr_cons, Entries.get?] at found
      by_cases same : (Key.fresh pair.1).name = name
      · rw [if_pos same] at found
        exact ⟨pair.2, (Option.some.inj found).symm⟩
      · rw [if_neg same] at found
        exact ih found

theorem path?_below_reference (pairs : List (String × String)) (step : Step) (rest : List Step) :
    ((reference pairs).at? (step :: rest)).bind Node.path? = none := by
  rw [Node.at?_cons]
  cases inside : (reference pairs).child? step with
  | none => rfl
  | some string =>
    obtain ⟨value, rfl⟩ := child?_reference pairs step string inside
    cases rest with
    | nil => rfl
    | cons second rest =>
      rw [Option.bind_some, Node.at?_cons, Node.ofString, Node.child?_eq_none_of_scalar]
      rfl

theorem replacement?_eq_reference (target : Target) (entries : Entries) (node : Node)
    (replaced : target.replacement? entries = some node) : ∃ pairs, node = reference pairs := by
  cases target with
  | revision url rev => exact ⟨_, (Option.some.inj replaced).symm⟩
  | checkout base =>
    obtain ⟨path, -, rfl⟩ := Option.map_eq_some_iff.mp replaced
    exact ⟨_, rfl⟩

theorem path?_replacement? (target : Target) (entries : Entries) (node value : Node)
    (replaced : target.replacement? entries = some node) (carried : node.path? = some value) :
    ∃ base path, target = .checkout base ∧
      (entries.get? "path").bind Node.string? = some path ∧
      value = .ofString (base ++ "/" ++ path) := by
  cases target with
  | revision url rev =>
    rw [← Option.some.inj replaced] at carried
    cases carried
  | checkout base =>
    obtain ⟨path, found, rfl⟩ := Option.map_eq_some_iff.mp replaced
    exact ⟨base, path, rfl, found, (Option.some.inj carried).symm⟩

end Target

section Redirect

variable (target : Target)

def Node.walked (name : String) (node : Node) : Walk Node :=
  (node.redirected? target name).getD (node.redirect target)

theorem Entries.redirect_cons_eq (key : Key) (node : Node) (tail : Entries) :
    (cons key node tail).redirect target =
      .join (cons key) (node.walked target key.name) tail (tail.redirect target) := rfl

theorem Entries.get?_redirect (name : String) (entries : Entries)
    (free : (entries.redirect target).stuck = none) :
    (entries.redirect target).result.get? name =
      (entries.get? name).map (fun node => (node.walked target name).result) ∧
    ∀ node, entries.get? name = some node → (node.walked target name).stuck = none := by
  induction entries with
  | nil => exact ⟨rfl, fun node found => by cases found⟩
  | cons key node tail ih =>
    rw [Entries.redirect] at free ⊢
    obtain ⟨freeFirst, freeRest, result⟩ := Walk.join_free _ _ _ _ free
    rw [result]
    by_cases same : key.name = name
    · subst same
      simp only [get?, if_true]
      refine ⟨rfl, fun found equal => ?_⟩
      rw [← Option.some.inj equal]
      exact freeFirst
    · simp only [get?, if_neg same]
      exact ih freeRest

theorem Nodes.to_list_redirect (nodes : Nodes) (free : (nodes.redirect target).stuck = none) :
    (nodes.redirect target).result.toList =
      nodes.toList.map (fun node => (node.redirect target).result) ∧
    ∀ node ∈ nodes.toList, (node.redirect target).stuck = none := by
  induction nodes with
  | nil => exact ⟨rfl, fun node member => by cases member⟩
  | cons head tail ih =>
    rw [Nodes.redirect] at free ⊢
    obtain ⟨freeFirst, freeRest, result⟩ := Walk.join_free _ _ _ _ free
    obtain ⟨list, each⟩ := ih freeRest
    rw [result]
    refine ⟨by rw [toList, toList, list, List.map_cons], fun node member => ?_⟩
    cases member with
    | head => exact freeFirst
    | tail _ member => exact each node member

namespace Node

theorem entries?_redirect (node : Node) :
    (node.redirect target).result.entries? =
      node.entries?.map (fun entries => (entries.redirect target).result) := by
  cases node <;> rfl

theorem stuck_entries (node : Node) (free : (node.redirect target).stuck = none)
    (entries : Entries) (inner : node.entries? = some entries) :
    (entries.redirect target).stuck = none := by
  cases node with
  | inline style own => exact Option.some.inj inner ▸ free
  | table style own => exact Option.some.inj inner ▸ free
  | scalar margin value => cases inner
  | array style elements => cases inner
  | tables elements => cases inner

theorem child?_redirect (node : Node) (free : (node.redirect target).stuck = none) (step : Step)
    (child : Node) (found : (node.redirect target).result.child? step = some child) :
    ∃ original, node.child? step = some original ∧
      match step with
      | .key name => (original.walked target name).stuck = none ∧
          child = (original.walked target name).result
      | .index _ => (original.redirect target).stuck = none ∧
          child = (original.redirect target).result := by
  cases step with
  | key name =>
    rw [child?_key, entries?_redirect] at found
    cases inner : node.entries? with
    | none =>
      rw [inner] at found
      cases found
    | some entries =>
      have freeEntries := stuck_entries target node free entries inner
      obtain ⟨result, each⟩ := Entries.get?_redirect target name entries freeEntries
      rw [inner, Option.map_some, Option.bind_some, result] at found
      obtain ⟨original, there, same⟩ := Option.map_eq_some_iff.mp found
      refine ⟨original, ?_, each original there, same.symm⟩
      rw [child?_key, inner]
      exact there
  | index number =>
    have element (nodes : Nodes) (freeNodes : (nodes.redirect target).stuck = none)
        (there : (nodes.redirect target).result.toList[number]? = some child) :
        ∃ original, nodes.toList[number]? = some original ∧
          (original.redirect target).stuck = none ∧
          child = (original.redirect target).result := by
      obtain ⟨result, each⟩ := Nodes.to_list_redirect target nodes freeNodes
      rw [result, List.getElem?_map] at there
      obtain ⟨original, there, same⟩ := Option.map_eq_some_iff.mp there
      exact ⟨original, there, each original (List.mem_of_getElem? there), same.symm⟩
    cases node with
    | array style elements => exact element elements free found
    | tables elements => exact element elements free found
    | scalar margin value => cases found
    | inline style entries => cases found
    | table style entries => cases found

theorem walked_cases (name : String) (node : Node) (free : (node.walked target name).stuck = none) :
    (∃ entries reference, node.entries? = some entries ∧
      target.replacement? entries = some reference ∧
      (node.walked target name).result = reference) ∨
    (node.path? = none ∧ (node.redirect target).stuck = none ∧
      (node.walked target name).result = (node.redirect target).result) := by
  rw [walked, redirected?] at free ⊢
  cases inner : node.entries? with
  | none =>
    rw [inner] at free
    exact .inr ⟨by rw [path?, inner]; rfl, free, rfl⟩
  | some entries =>
    rw [inner] at free
    dsimp only at free ⊢
    by_cases carries : entries.contains "path" = true
    · rw [if_pos carries] at free ⊢
      cases replaced : target.replacement? entries with
      | none =>
        rw [replaced] at free
        cases free
      | some reference => exact .inl ⟨entries, reference, rfl, replaced, rfl⟩
    · rw [if_neg carries] at free ⊢
      refine .inr ⟨?_, free, rfl⟩
      rw [path?, inner, Option.bind_some]
      simpa [Entries.contains] using carries

theorem path?_redirect (node : Node) (free : (node.redirect target).stuck = none)
    (plain : node.path? = none) : (node.redirect target).result.path? = none := by
  rw [path?] at plain ⊢
  rw [entries?_redirect]
  cases inner : node.entries? with
  | none => rfl
  | some entries =>
    rw [inner] at plain
    have freeEntries := stuck_entries target node free entries inner
    rw [Option.map_some, Option.bind_some, (Entries.get?_redirect target "path" entries freeEntries).1,
      show entries.get? "path" = none from plain, Option.map_none]

end Node

def Rerooted (original redirected : Option Node) : Prop :=
  ∃ base path value, target = .checkout base ∧
    ((original.bind Node.path?).bind Node.string?) = some path ∧
    redirected.bind Node.path? = some value ∧ value.string? = some (base ++ "/" ++ path)

-- After the walk every entry with a `path` is a redirected one. The induction goes down the place;
-- inside a replaced table it ends, since a reference holds no table.
theorem Node.rerooted_of_redirect (place : List Step) (name : String) (node : Node)
    (free : (node.redirect target).stuck = none)
    (carries : (((node.redirect target).result.at? (place ++ [.key name])).bind
      Node.path?).isSome) :
    Rerooted target (node.at? (place ++ [.key name]))
      ((node.redirect target).result.at? (place ++ [.key name])) := by
  induction place generalizing node with
  | nil =>
    rw [List.nil_append, at?_single] at carries ⊢
    rw [at?_single]
    obtain ⟨value, carried⟩ := Option.isSome_iff_exists.mp carries
    obtain ⟨child, found, carried⟩ := Option.bind_eq_some_iff.mp carried
    obtain ⟨original, there, freeChild, rfl⟩ := child?_redirect target node free _ child found
    rw [there, found]
    obtain ⟨entries, reference, inner, replaced, result⟩ | ⟨plain, freeInner, result⟩ :=
      walked_cases target name original freeChild
    · rw [result] at carried ⊢
      obtain ⟨base, path, checkout, old, rfl⟩ :=
        target.path?_replacement? entries reference value replaced carried
      refine ⟨base, path, _, checkout, ?_, carried, rfl⟩
      rw [Option.bind_some, path?, inner]
      exact old
    · rw [result, path?_redirect target original freeInner plain] at carried
      cases carried
  | cons step place ih =>
    rw [List.cons_append, at?_cons] at carries ⊢
    rw [at?_cons]
    cases found : (node.redirect target).result.child? step with
    | none =>
      rw [found] at carries
      cases carries
    | some child =>
      rw [found] at carries
      obtain ⟨original, there, walk⟩ := child?_redirect target node free _ child found
      rw [there]
      rw [Option.bind_some] at carries ⊢
      rw [Option.bind_some]
      cases step with
      | index number =>
        obtain ⟨freeChild, rfl⟩ := walk
        exact ih original freeChild carries
      | key other =>
        obtain ⟨freeChild, rfl⟩ := walk
        obtain ⟨entries, reference, -, replaced, result⟩ | ⟨-, freeInner, result⟩ :=
          walked_cases target other original freeChild
        · obtain ⟨pairs, rfl⟩ := target.replacement?_eq_reference entries reference replaced
          have below : place ++ [Step.key name] ≠ [] := by simp
          obtain ⟨first, rest, split⟩ := List.exists_cons_of_ne_nil below
          rw [result, split, Target.path?_below_reference] at carries
          cases carries
        · rw [result] at carries ⊢
          exact ih original freeInner carries

end Redirect

namespace Entries

theorem get?_erase_all (names : List String) (entries : Entries) (name : String) :
    (entries.eraseAll names).1.get? name =
      if name ∈ names then none else entries.get? name := by
  induction names generalizing entries with
  | nil => simp [eraseAll]
  | cons first names ih =>
    rw [eraseAll]
    by_cases there : entries.contains first = true
    · rw [if_pos there]
      dsimp only
      rw [ih, get?_erase]
      by_cases hit : name = first <;> simp [hit]
    · have missing : entries.get? first = none := by simpa [contains] using there
      rw [if_neg there, ih]
      by_cases hit : name = first
      · simp [hit, missing]
      · simp [hit]

end Entries

def Node.without (names : List String) (node : Node) : Node :=
  match node.entries? with
  | some entries => node.withEntries (entries.eraseAll names).1
  | none => node

theorem Node.child?_without (names : List String) (node child : Node) (step : Step)
    (found : (node.without names).child? step = some child) : node.child? step = some child := by
  have kept (entries : Entries) (name : String)
      (there : (entries.eraseAll names).1.get? name = some child) :
      entries.get? name = some child := by
    rw [Entries.get?_erase_all] at there
    split at there
    · cases there
    · exact there
  cases node with
  | inline style entries =>
    cases step with
    | key name => exact kept entries name found
    | index number => cases found
  | table style entries =>
    cases step with
    | key name => exact kept entries name found
    | index number => cases found
  | scalar margin value => exact found
  | array style elements => exact found
  | tables elements => exact found

theorem Node.entries?_without (names : List String) (node : Node) :
    (node.without names).entries? =
      node.entries?.map (fun entries => (entries.eraseAll names).1) := by
  cases node <;> rfl

theorem Node.path?_without (names : List String) (node value : Node)
    (carried : (node.without names).path? = some value) : node.path? = some value := by
  rw [path?, ← child?_key] at carried ⊢
  exact child?_without names node value _ carried

namespace Document

theorem get?_drop_dependencies (names : List String) (document : Document) (name : String) :
    (document.dropDependencies names).1.root.get? name =
      if name = "dependencies" then (document.root.get? name).map (Node.without names)
      else document.root.get? name := by
  rw [dropDependencies]
  cases found : document.root.get? "dependencies" with
  | none =>
    by_cases hit : name = "dependencies"
    · simp [hit, found]
    · simp [hit]
  | some node =>
    rw [Option.bind_some]
    cases inner : node.entries? with
    | none =>
      by_cases hit : name = "dependencies"
      · simp [hit, found, Node.without, inner]
      · simp [hit]
    | some entries =>
      dsimp only
      rw [Entries.get?_modify]
      by_cases hit : name = "dependencies"
      · simp [hit, found, Node.without, inner]
      · simp [hit]

def cleaned (names : List String) (document : Document) : Document :=
  (document.blankPackage.dropDependencies names).1

theorem get?_cleaned (names : List String) (document : Document) (name : String) :
    (document.cleaned names).root.get? name =
      if name = "package" then some (.table .fresh .nil)
      else if name = "dependencies" then (document.root.get? name).map (Node.without names)
      else document.root.get? name := by
  have blank := Entries.get?_assign "package" name (.table .fresh .nil) document.root
  rw [cleaned, get?_drop_dependencies]
  change (if name = "dependencies" then
      ((document.root.assign "package" (.table .fresh .nil)).get? name).map (Node.without names)
    else (document.root.assign "package" (.table .fresh .nil)).get? name) = _
  rw [blank]
  by_cases package : name = "package"
  · simp [package]
  · simp [package]

theorem path?_at?_cleaned (names : List String) (document : Document) (place : List Step)
    (value : Node) (carried : ((document.cleaned names).at? place).bind Node.path? = some value)
    (below : place ≠ []) : (document.at? place).bind Node.path? = some value := by
  obtain ⟨step, rest, rfl⟩ := List.exists_cons_of_ne_nil below
  cases step with
  | index number => cases carried
  | key name =>
    rw [at?_key, get?_cleaned] at carried
    rw [at?_key]
    by_cases package : name = "package"
    · rw [if_pos package, Option.bind_some] at carried
      cases rest with
      | nil => cases carried
      | cons step rest => cases step <;> cases carried
    · rw [if_neg package] at carried
      by_cases dependencies : name = "dependencies"
      · rw [if_pos dependencies] at carried
        cases found : document.root.get? name with
        | none =>
          rw [found] at carried
          cases carried
        | some node =>
          rw [found] at carried
          rw [Option.map_some, Option.bind_some] at carried
          rw [Option.bind_some]
          cases rest with
          | nil => exact Node.path?_without names node value carried
          | cons step rest =>
            rw [Node.at?_cons] at carried ⊢
            cases child : (node.without names).child? step with
            | none =>
              rw [child] at carried
              cases carried
            | some inner =>
              rw [child] at carried
              rw [Node.child?_without names node inner step child]
              exact carried
      · rw [if_neg dependencies] at carried
        exact carried

end Document

-- The places that a fragment fills: a top-level value that is no table as a whole, and a table entry
-- by entry.
inductive Filled (fragment : Document) (merged : List String) : List Step → Prop where
  | value (name : String) (node : Node) (isMerged : name ∈ merged)
      (found : fragment.root.get? name = some node) (isValue : node.isTable = false) :
      Filled fragment merged [.key name]
  | entry (name key : String) (node value : Node) (isMerged : name ∈ merged)
      (found : fragment.root.get? name = some node)
      (child : node.child? (.key key) = some value) :
      Filled fragment merged [.key name, .key key]

def Copied (fragment document : Document) (merged : List String) (place : List Step) : Prop :=
  Filled fragment merged place ∧ ∃ node, fragment.at? place = some node ∧
    (document.at? place = some node ∨ document.at? place = some node.toValue)

theorem Node.adopt_cases (place node : Node) :
    place.adopt node = node ∨ place.adopt node = node.toValue := by
  cases place with
  | inline style entries => exact .inr rfl
  | scalar margin value => exact .inl rfl
  | array style elements => exact .inl rfl
  | table style entries => exact .inl rfl
  | tables elements => exact .inl rfl

theorem Node.child?_index_of_is_table (node : Node) (isTable : node.isTable = true) (number : Nat) :
    node.child? (.index number) = none := by
  cases node with
  | inline style entries => rfl
  | table style entries => rfl
  | scalar margin value => cases isTable
  | array style elements => cases isTable
  | tables elements => cases isTable

namespace Document

theorem copied_entry (document fragment : Document) (distinct : fragment.Distinct)
    (name : String) (node place : Node) (entries : Entries)
    (isMerged : name ∈ (document.overlay fragment).2.merged)
    (found : fragment.root.get? name = some node) (inner : node.entries? = some entries)
    (isTable : place.isTable = true)
    (there : (document.overlay fragment).1.root.get? name = some (Fragment.putAll entries place))
    (key : String) (added : Node) (member : entries.get? key = some added) :
    Copied fragment (document.overlay fragment).1 (document.overlay fragment).2.merged
      [.key name, .key key] := by
  have own : node.child? (.key key) = some added := by
    rw [Node.child?_key, inner]
    exact member
  have distinctEntries := Entries.names_nodup entries
    (Entries.distinct_entries? node (Entries.distinct_get? _ distinct name node found) entries inner)
  refine ⟨.entry name key node added isMerged found own, added, ?_, ?_⟩
  · rw [at?_key, found, Option.bind_some, Node.at?_single, own]
  · rw [at?_key, there, Option.bind_some, Node.at?_single,
      Fragment.child?_put_all entries distinctEntries place isTable, member]
    dsimp only
    obtain same | same := place.adopt_cases added
    · exact .inl (congrArg some same)
    · exact .inr (congrArg some same)

theorem at?_section (document : Document) (name : String) (node place : Node) (rest : List Step)
    (value : Node)
    (section_ : place = (document.root.get? name).getD (Fragment.emptySection node))
    (carried : (place.at? rest).bind Node.path? = some value) :
    (document.at? (.key name :: rest)).bind Node.path? = some value := by
  rw [at?_key]
  cases there : document.root.get? name with
  | some manifest =>
    rw [there, Option.getD_some] at section_
    rw [Option.bind_some, ← section_]
    exact carried
  | none =>
    rw [section_, there, Option.getD_none] at carried
    cases rest with
    | nil =>
      change (Fragment.emptySection node).path? = some value at carried
      rw [Fragment.path?_empty_section] at carried
      cases carried
    | cons step rest =>
      rw [Node.at?_cons, Fragment.child?_empty_section] at carried
      cases carried

theorem path?_at?_overlay (document fragment : Document) (distinct : fragment.Distinct)
    (place : List Step) (below : place ≠ []) (value : Node)
    (carried : ((document.overlay fragment).1.at? place).bind Node.path? = some value) :
    (∃ origin, origin <+: place ∧
      Copied fragment (document.overlay fragment).1 (document.overlay fragment).2.merged origin) ∨
    (∃ name, place = [.key name] ∧
      Copied fragment (document.overlay fragment).1 (document.overlay fragment).2.merged
        [.key name, .key "path"]) ∨
    (document.at? place).bind Node.path? = some value := by
  obtain ⟨step, rest, rfl⟩ := List.exists_cons_of_ne_nil below
  cases step with
  | index number => cases carried
  | key name =>
    rw [at?_key] at carried
    obtain same | ⟨node, isMerged, found, isValue, there⟩ |
      ⟨node, entries, place, isMerged, found, inner, section_, isTable, there⟩ :=
      overlay_cases document fragment distinct name
    · rw [same] at carried
      exact .inr (.inr carried)
    · refine .inl ⟨[.key name], ⟨rest, rfl⟩, .value name node isMerged found isValue, node, ?_,
        .inl ?_⟩
      · rw [at?_key, found]
        rfl
      · rw [at?_key, there]
        rfl
    · have copied := copied_entry document fragment distinct name node place entries isMerged found
        inner isTable there
      have distinctEntries := Entries.names_nodup entries (Entries.distinct_entries? node
        (Entries.distinct_get? _ distinct name node found) entries inner)
      have child := Fragment.child?_put_all entries distinctEntries place isTable
      have isTableAll := (Fragment.is_table_put_all entries place).trans isTable
      rw [there, Option.bind_some] at carried
      cases rest with
      | nil =>
        change (Fragment.putAll entries place).path? = some value at carried
        rw [Node.path?, ← Node.child?_key, child "path"] at carried
        cases member : entries.get? "path" with
        | some added => exact .inr (.inl ⟨name, rfl, copied "path" added member⟩)
        | none =>
          rw [member, Node.child?_key] at carried
          exact .inr (.inr (at?_section document name node place [] value section_ carried))
      | cons step rest =>
        rw [Node.at?_cons] at carried
        cases step with
        | index number =>
          rw [Node.child?_index_of_is_table _ isTableAll] at carried
          cases carried
        | key key =>
          rw [child key] at carried
          cases member : entries.get? key with
          | some added => exact .inl ⟨[.key name, .key key], ⟨rest, rfl⟩, copied key added member⟩
          | none =>
            rw [member] at carried
            exact .inr (.inr (at?_section document name node place _ value section_ carried))

theorem table_package_cleaned (names : List String) (document : Document) :
    (document.cleaned names).root.get? "package" = some (.table .fresh .nil) := by
  rw [get?_cleaned, if_pos rfl]

theorem missing_of_cleaned (names : List String) (document : Document) (entries : Entries)
    (found : ((document.cleaned names).root.get? "dependencies").bind Node.entries? = some entries)
    (name : String) (removed : name ∈ names) : entries.get? name = none := by
  rw [get?_cleaned, if_neg (by decide), if_pos rfl] at found
  cases there : document.root.get? "dependencies" with
  | none =>
    rw [there] at found
    cases found
  | some node =>
    rw [there, Option.map_some, Option.bind_some, Node.entries?_without] at found
    obtain ⟨old, -, rfl⟩ := Option.map_eq_some_iff.mp found
    rw [Entries.get?_erase_all, if_pos removed]

def packageEntries (document : Document) : List (Key × Node) :=
  match (document.root.get? "package").bind Node.entries? with
  | some entries => entries.toList.map fun entry => (.fresh entry.1.name, entry.2)
  | none => []

theorem overlay_package (document fragment : Document) (distinct : fragment.Distinct)
    (blank : document.root.get? "package" = some (.table .fresh .nil)) :
    ∃ style entries,
      (document.overlay fragment).1.root.get? "package" = some (.table style entries) ∧
      entries.toList = fragment.packageEntries := by
  have distinctNames := Entries.names_nodup fragment.root distinct
  rw [root_overlay, Fragment.get?_overlay_all _ _ distinctNames, packageEntries]
  cases found : fragment.root.get? "package" with
  | none => exact ⟨_, _, blank, rfl⟩
  | some node =>
    rw [blank]
    dsimp only
    rw [Fragment.landed, Option.bind_some]
    cases inner : node.entries? with
    | none => exact ⟨_, _, rfl, rfl⟩
    | some entries =>
      have distinctEntries := Entries.names_nodup entries (Entries.distinct_entries? node
        (Entries.distinct_get? _ distinct "package" node found) entries inner)
      obtain ⟨all, result, list⟩ := Fragment.put_all_new entries distinctEntries .fresh .nil
        (fun name _ member => by cases member)
      exact ⟨.fresh, all, congrArg some result, list⟩

theorem overlay_dependency (document fragment : Document) (distinct : fragment.Distinct)
    (name : String)
    (missing : ∀ entries, (document.root.get? "dependencies").bind Node.entries? = some entries →
      entries.get? name = none)
    (entries : Entries)
    (found : ((document.overlay fragment).1.root.get? "dependencies").bind Node.entries? =
      some entries) (there : entries.contains name = true) :
    ∃ own, (fragment.root.get? "dependencies").bind Node.entries? = some own ∧
      own.contains name = true := by
  obtain same | ⟨node, -, -, isValue, result⟩ |
    ⟨node, own, place, -, fragments, inner, section_, isTable, result⟩ :=
    overlay_cases document fragment distinct "dependencies"
  · rw [same] at found
    rw [Entries.contains, missing entries found] at there
    cases there
  · rw [result, Option.bind_some] at found
    rw [Node.isTable, found] at isValue
    cases isValue
  · refine ⟨own, by rw [fragments, Option.bind_some, inner], ?_⟩
    have distinctEntries := Entries.names_nodup own (Entries.distinct_entries? node
      (Entries.distinct_get? _ distinct _ node fragments) own inner)
    have child := Fragment.child?_put_all own distinctEntries place isTable name
    rw [result, Option.bind_some] at found
    rw [Node.child?_key, found, Option.bind_some] at child
    cases member : own.get? name with
    | some added => rw [Entries.contains, member, Option.isSome_some]
    | none =>
      rw [member, section_] at child
      rw [Entries.contains, child] at there
      cases old : document.root.get? "dependencies" with
      | none =>
        rw [old, Option.getD_none, Fragment.child?_empty_section] at there
        cases there
      | some manifest =>
        rw [old, Option.getD_some, Node.child?_key] at there
        cases fields : manifest.entries? with
        | none =>
          rw [fields] at there
          cases there
        | some before =>
          rw [fields, Option.bind_some, missing before (by rw [old, Option.bind_some, fields])] at there
          cases there

theorem stand_alone_of_free (document : Document) (target : Target) (fragment : Document)
    (removals : List String) (free : (document.liftWorkspace.1.redirect target).stuck = none) :
    document.standAlone target fragment removals =
      ((((document.liftWorkspace.1.redirect target).result.cleaned removals).overlay fragment).1,
        .ok ⟨document.liftWorkspace.2, (document.liftWorkspace.1.redirect target).replaced,
          ((document.liftWorkspace.1.redirect target).result.blankPackage.dropDependencies removals).2,
          (((document.liftWorkspace.1.redirect target).result.cleaned removals).overlay fragment).2⟩) := by
  rw [standAlone]
  dsimp only
  rw [free]
  rfl

theorem stand_alone_ok (document : Document) (target : Target) (fragment : Document)
    (removals : List String) (summary : Summary)
    (succeeds : (document.standAlone target fragment removals).2 = .ok summary) :
    (document.liftWorkspace.1.root.redirect target).stuck = none ∧
    (document.standAlone target fragment removals).1 =
      (((document.liftWorkspace.1.redirect target).result.cleaned removals).overlay fragment).1 ∧
    summary.fragment =
      (((document.liftWorkspace.1.redirect target).result.cleaned removals).overlay fragment).2 := by
  rw [standAlone] at succeeds ⊢
  dsimp only at succeeds ⊢
  cases stuck : (document.liftWorkspace.1.redirect target).stuck with
  | some key =>
    rw [stuck] at succeeds
    cases succeeds
  | none =>
    rw [stuck] at succeeds
    refine ⟨stuck, rfl, ?_⟩
    rw [← Except.ok.inj succeeds]
    rfl

-- In a finished manifest every entry `path` of a table under a key lies in what the fragment was
-- copied to, or leads into the checkout and is made of the one its table had once the workspace was
-- lifted. The package is what the fragment has for it. A removed dependency is there only if the
-- fragment has it.
theorem stand_alone_provenance (document : Document) (target : Target) (fragment : Document)
    (removals : List String) (distinct : fragment.Distinct) (final : Document) (summary : Summary)
    (succeeds : document.standAlone target fragment removals = (final, .ok summary)) :
    (∀ place name, ((final.at? (place ++ [.key name])).bind Node.path?).isSome = true →
      (∃ origin, origin <+: place ++ [.key name] ∧
        Copied fragment final summary.fragment.merged origin) ∨
      (place = [] ∧ Copied fragment final summary.fragment.merged [.key name, .key "path"]) ∨
      Rerooted target (document.liftWorkspace.1.at? (place ++ [.key name]))
        (final.at? (place ++ [.key name]))) ∧
    (∃ style entries, final.root.get? "package" = some (.table style entries) ∧
      entries.toList = fragment.packageEntries) ∧
    (∀ name ∈ removals, ∀ entries,
      (final.root.get? "dependencies").bind Node.entries? = some entries →
      entries.contains name = true →
      ∃ own, (fragment.root.get? "dependencies").bind Node.entries? = some own ∧
        own.contains name = true) := by
  obtain ⟨free, result, fates⟩ := stand_alone_ok document target fragment removals summary
    (congrArg Prod.snd succeeds)
  rw [succeeds] at result
  dsimp only at result
  subst result
  rw [fates]
  refine ⟨fun place name carries => ?_, ?_, fun name removed => ?_⟩
  · obtain ⟨value, carried⟩ := Option.isSome_iff_exists.mp carries
    have below : place ++ [Step.key name] ≠ [] := by simp
    obtain copied | ⟨top, single, copied⟩ | before :=
      path?_at?_overlay _ fragment distinct _ below value carried
    · exact .inl copied
    · rw [List.append_eq_singleton_iff] at single
      obtain ⟨root, same⟩ | ⟨-, none⟩ := single
      · obtain rfl : name = top := Step.key.inj (List.singleton_inj.mp same)
        exact .inr (.inl ⟨root, copied⟩)
      · cases none
    · refine .inr (.inr ?_)
      have redirected := path?_at?_cleaned removals _ _ value before below
      obtain ⟨base, path, own, checkout, old, found, string⟩ :=
        Node.rerooted_of_redirect target place name (.table .fresh document.liftWorkspace.1.root)
          free (Option.isSome_iff_exists.mpr ⟨value, redirected⟩)
      have same : own = value := Option.some.inj (found.symm.trans redirected)
      exact ⟨base, path, value, checkout, old, carried, same ▸ string⟩
  · exact overlay_package _ fragment distinct (table_package_cleaned removals _)
  · exact overlay_dependency _ fragment distinct name
      (fun entries found => missing_of_cleaned removals _ entries found name removed)

theorem stand_alone_provenance_lifted :
    ∃ document fragment final summary,
      parse? "[workspace.dependencies.a]\npath = 'x'\nversion = '1'\n" = some document ∧
      parse? "[dependencies]\nb.path = 'y'\n[package]\nname = 'n'\n" = some fragment ∧
      fragment.Distinct ∧
      document.standAlone (.checkout "/c") fragment ["a", "b"] = (final, .ok summary) ∧
      (∃ style entries, final.root.get? "package" = some (.table style entries) ∧
        entries.toList = fragment.packageEntries) ∧
      ∃ own, (fragment.root.get? "dependencies").bind Node.entries? = some own ∧
        own.contains "b" = true := by
  have runs : ((parse? "[workspace.dependencies.a]\npath = 'x'\nversion = '1'\n").bind
      fun document => (parse? "[dependencies]\nb.path = 'y'\n[package]\nname = 'n'\n").bind
      fun fragment =>
        let run := document.standAlone (.checkout "/c") fragment ["a", "b"]
        if fragment.Distinct then
          match run.2 with
          | .ok _ => ((run.1.root.get? "dependencies").bind Node.entries?).map
              (Entries.contains "b")
          | .error _ => none
        else none) = some true := by
    decide +kernel
  obtain ⟨document, read, runs⟩ := Option.bind_eq_some_iff.mp runs
  obtain ⟨fragment, readFragment, runs⟩ := Option.bind_eq_some_iff.mp runs
  dsimp only at runs
  obtain ⟨distinct, runs⟩ := Option.ite_none_right_eq_some.mp runs
  cases succeeds : (document.standAlone (.checkout "/c") fragment ["a", "b"]).2 with
  | error stuck =>
    rw [succeeds] at runs
    cases runs
  | ok summary =>
    rw [succeeds] at runs
    obtain ⟨entries, found, there⟩ := Option.map_eq_some_iff.mp runs
    have all := stand_alone_provenance document (.checkout "/c") fragment ["a", "b"] distinct _
      summary (Prod.ext rfl succeeds)
    exact ⟨document, fragment, _, summary, read, readFragment, distinct, Prod.ext rfl succeeds,
      all.2.1, all.2.2 "b" (by decide) entries found there⟩

end Document

end Reroot
