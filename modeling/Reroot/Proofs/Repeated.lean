import Reroot.Proofs.Calm

set_option autoImplicit false

namespace Reroot

def Node.Matches (first second : Node) : Prop :=
  first = second ∨ first.isTable = true ∧ second.isTable = true ∧
    ∀ name, first.child? (.key name) = second.child? (.key name)

theorem Node.Matches.rel_refl (slot : Option Node) : Option.Rel Node.Matches slot slot := by
  cases slot with
  | none => exact .none
  | some node => exact .some (.inl rfl)

theorem Entries.alike_of_get? (first second : Entries) (distinct : first.names.Nodup)
    (distinct' : second.names.Nodup)
    (each : ∀ name, Option.Rel (fun node same : Node => node.data.Alike same.data)
      (first.get? name) (second.get? name)) : first.data.Alike second.data := by
  constructor
  · rw [names_data, names_data, List.perm_ext_iff_of_nodup distinct distinct']
    intro name
    rw [mem_names_iff, mem_names_iff]
    have related := each name
    generalize first.get? name = slot, second.get? name = slot' at related
    cases related with
    | none => simp
    | some alike => simp
  · refine DataFields.within_of_get? _ _ (names_data first ▸ distinct) fun name data there => ?_
    rw [get?_data] at there ⊢
    obtain ⟨node, found, rfl⟩ := Option.map_eq_some_iff.mp there
    have related := each name
    rw [found] at related
    generalize second.get? name = slot at related
    cases related with
    | some alike => exact ⟨_, rfl, alike⟩

theorem Node.Matches.alike {first second : Node} (same : first.Matches second)
    (distinct : first.Distinct) (distinct' : second.Distinct) : first.data.Alike second.data := by
  rcases same with rfl | ⟨isTable, isTable', children⟩
  · exact first.data_alike distinct
  · obtain ⟨entries, inner⟩ := Option.isSome_iff_exists.mp isTable
    obtain ⟨entries', inner'⟩ := Option.isSome_iff_exists.mp isTable'
    have own := Entries.distinct_entries? first distinct entries inner
    have own' := Entries.distinct_entries? second distinct' entries' inner'
    have data : ∀ (node : Node) (entries : Entries), node.entries? = some entries →
        node.data = .object entries.data := by
      intro node entries inner
      cases node <;> cases inner <;> rfl
    rw [data first entries inner, data second entries' inner']
    refine Entries.alike_of_get? entries entries' (entries.names_nodup own) (entries'.names_nodup own')
      fun name => ?_
    have child := children name
    rw [Node.child?_key, Node.child?_key, inner, inner', Option.bind_some, Option.bind_some] at child
    rw [child]
    cases found : entries'.get? name with
    | none => exact .none
    | some node => exact .some (node.data_alike (Entries.distinct_get? entries' own' name node found))

theorem Entries.alike_of_matches (first second : Entries) (distinct : first.Distinct)
    (distinct' : second.Distinct)
    (each : ∀ name, Option.Rel Node.Matches (first.get? name) (second.get? name)) :
    first.data.Alike second.data := by
  refine alike_of_get? first second (first.names_nodup distinct) (second.names_nodup distinct')
    fun name => ?_
  have own := distinct_get? first distinct name
  have own' := distinct_get? second distinct' name
  have related := each name
  generalize first.get? name = slot, second.get? name = slot' at own own' related
  cases related with
  | none => exact .none
  | some same => exact .some (same.alike (own _ rfl) (own' _ rfl))

theorem Entries.erase_all_of_missing (names : List String) (entries : Entries)
    (missing : ∀ name ∈ names, entries.get? name = none) : entries.eraseAll names = (entries, []) := by
  induction names with
  | nil => rfl
  | cons name names ih =>
    have absent : ¬ entries.contains name = true := by
      simp [contains, missing name List.mem_cons_self]
    rw [eraseAll, if_neg absent]
    exact ih fun other member => missing other (List.mem_cons_of_mem _ member)

namespace Node

theorem without_of_missing (names : List String) (node : Node)
    (missing : ∀ name ∈ names, node.child? (.key name) = none) : node.without names = node := by
  cases node with
  | inline style entries =>
    change inline style (entries.eraseAll names).1 = _
    rw [Entries.erase_all_of_missing names entries missing]
  | table style entries =>
    change table style (entries.eraseAll names).1 = _
    rw [Entries.erase_all_of_missing names entries missing]
  | scalar margin value => rfl
  | array style elements => rfl
  | tables elements => rfl

theorem child?_key_without (names : List String) (node : Node) (name : String) :
    (node.without names).child? (.key name) =
      if name ∈ names then none else node.child? (.key name) := by
  rw [child?_key, child?_key, entries?_without]
  cases node.entries? with
  | none => simp
  | some entries => exact Entries.get?_erase_all names entries name

theorem without_without (names : List String) (node : Node) :
    (node.without names).without names = node.without names := by
  refine without_of_missing names _ fun name member => ?_
  rw [child?_key_without, if_pos member]

theorem without_nil (node : Node) : node.without [] = node :=
  without_of_missing [] node fun _ member => by cases member

theorem is_table_without (names : List String) (node : Node) :
    (node.without names).isTable = node.isTable := by
  rw [isTable, isTable, entries?_without, Option.isSome_map]

theorem adopt_without (names : List String) (place node : Node) :
    (place.without names).adopt node = place.adopt node := by
  cases place <;> rfl

end Node

namespace Fragment

theorem adopt_put_all (entries : Entries) (place node : Node) :
    (putAll entries place).adopt node = place.adopt node := by
  induction entries generalizing place with
  | nil => rfl
  | cons key value tail ih => rw [putAll, ih, adopt_put_entry]

theorem matches_put_all (names : List String) (entries : Entries) (distinct : entries.names.Nodup)
    (place : Node) (isTable : place.isTable = true) (rested : place.without names = place) :
    (putAll entries ((putAll entries place).without names)).Matches (putAll entries place) := by
  have isTableOnce : (putAll entries place).isTable = true := (is_table_put_all _ _).trans isTable
  have isTableLess : ((putAll entries place).without names).isTable = true :=
    (Node.is_table_without _ _).trans isTableOnce
  refine .inr ⟨(is_table_put_all _ _).trans isTableLess, isTableOnce, fun name => ?_⟩
  have once := child?_put_all entries distinct place isTable name
  rw [child?_put_all entries distinct _ isTableLess]
  cases found : entries.get? name with
  | some node =>
    rw [found] at once
    dsimp only
    rw [Node.adopt_without, adopt_put_all]
    exact once.symm
  | none =>
    rw [found] at once
    dsimp only
    rw [Node.child?_key_without]
    split
    · case isTrue removed =>
      rw [once, ← rested, Node.child?_key_without, if_pos removed]
    · rfl

theorem fill_fill (names : List String) (own there : Option Node)
    (distinct : ∀ node entries, own = some node → node.entries? = some entries → entries.names.Nodup)
    (rested : there.map (Node.without names) = there) :
    Option.Rel Node.Matches (fill own ((fill own there).map (Node.without names))) (fill own there) := by
  cases own with
  | none =>
    rw [fill, fill, rested]
    exact Node.Matches.rel_refl there
  | some node =>
    cases inner : node.entries? with
    | none =>
      rw [fill_value node inner, fill_value node inner]
      cases there with
      | none =>
        have still : node.without names = node := by rw [Node.without, inner]
        rw [Option.map_some, Option.getD_some, Option.getD_none, still]
        exact Node.Matches.rel_refl _
      | some place =>
        rw [Option.getD_some, rested]
        exact Node.Matches.rel_refl _
    | some entries =>
      by_cases isTable : (there.getD (emptySection node)).isTable = true
      · have settled : (there.getD (emptySection node)).without names =
            there.getD (emptySection node) := by
          cases there with
          | some place => exact Option.some.inj rested
          | none => exact Node.without_of_missing names _ fun _ _ => child?_empty_section node _
        have again : ((some ((putAll entries (there.getD (emptySection node))).without names)).getD
            (emptySection node)).isTable = true :=
          (Node.is_table_without names _).trans ((is_table_put_all entries _).trans isTable)
        rw [fill_section node entries inner there isTable, Option.map_some,
          fill_section node entries inner _ again]
        exact .some (matches_put_all names entries (distinct node entries rfl inner) _ isTable settled)
      · rw [fill_blocked node entries inner there isTable, rested,
          fill_blocked node entries inner there isTable]
        exact Node.Matches.rel_refl there

end Fragment

namespace Document

def removedBelow (names : List String) (name : String) : List String :=
  if name = "dependencies" then names else []

theorem get?_cleaned_of_ne (names : List String) (document : Document) (name : String)
    (other : name ≠ "package") : (document.cleaned names).root.get? name =
      (document.root.get? name).map (Node.without (removedBelow names name)) := by
  rw [get?_cleaned, if_neg other, removedBelow]
  split
  · rfl
  · rw [show Node.without [] = id from funext Node.without_nil, Option.map_id, id]

theorem get?_overlay_again (document fragment : Document) (names : List String)
    (distinct : fragment.Distinct) (name : String) :
    Option.Rel Node.Matches
      ((((document.cleaned names).overlay fragment).1.cleaned names |>.overlay fragment).1.root.get? name)
      (((document.cleaned names).overlay fragment).1.root.get? name) := by
  have distinct' : ∀ node entries, fragment.root.get? name = some node →
      node.entries? = some entries → entries.names.Nodup := fun node entries found inner =>
    Entries.names_nodup _ (Entries.distinct_entries? node
      (Entries.distinct_get? _ distinct name node found) entries inner)
  rw [get?_overlay _ _ distinct, get?_overlay _ _ distinct]
  by_cases package : name = "package"
  · subst package
    rw [table_package_cleaned, table_package_cleaned]
    exact Node.Matches.rel_refl _
  · rw [get?_cleaned_of_ne _ _ _ package, get?_overlay _ _ distinct, get?_cleaned_of_ne _ _ _ package]
    refine Fragment.fill_fill _ _ _ distinct' ?_
    rw [Option.map_map]
    congr 1
    funext node
    exact Node.without_without _ node

theorem plain_rerun (document fragment : Document) (target : Target) (removals : List String)
    (free : (document.redirect target).stuck = none) (distinct : fragment.Distinct)
    (plain : document.root.contains "workspace" = false)
    (plain' : fragment.root.contains "workspace" = false) :
    (((document.redirect target).result.cleaned removals).overlay fragment).1.root.contains
      "workspace" = false := by
  rw [Entries.contains, Option.isSome_eq_false_iff, Option.isNone_iff_eq_none] at plain plain' ⊢
  have walked := (Entries.get?_redirect target "workspace" document.root free).1
  rw [plain, Option.map_none] at walked
  rw [get?_overlay _ _ distinct, plain', Fragment.fill, get?_cleaned_of_ne _ _ _ (by decide)]
  exact congrArg (Option.map _) walked

-- A second run to the same revision finds no workspace and redirects nothing, and its manifest has
-- the data of the first one's.
theorem stand_alone_settles (document fragment : Document) (url rev : String) (removals : List String)
    (distinct : document.Distinct) (single : document.nestsWorkspace = false)
    (distinct' : fragment.Distinct) (plain : fragment.root.contains "workspace" = false)
    (pinned : fragment.Pinned) :
    ∃ once report again summary,
      document.standAlone (.revision url rev) fragment removals = (once, .ok report) ∧
      once.standAlone (.revision url rev) fragment removals = (again, .ok summary) ∧
      summary.workspace.keys = .none ∧ summary.redirected = [] ∧
      again.data.Alike once.data := by
  obtain ⟨free, calm⟩ := calm_redirect document.liftWorkspace.1
    (document.distinct_lift_workspace distinct) url rev
  have calmFragment := (Entries.calm_iff fragment.root).mpr ⟨distinct', pinned⟩
  have lifted := (contains_workspace_lift_workspace document).trans single
  have first := stand_alone_of_free document _ fragment removals free
  obtain ⟨once, isOnce⟩ : ∃ once, once =
    (((document.liftWorkspace.1.redirect (.revision url rev)).result.cleaned removals).overlay
      fragment).1 := ⟨_, rfl⟩
  have calmOnce : once.root.Calm := by
    rw [isOnce]
    exact Fragment.calm_overlay_all _ _ (calm_cleaned removals _ calm) calmFragment
  -- The second run has nothing to lift or redirect, so it cleans and lays the fragment over.
  have idle : once.liftWorkspace = (once, .absent) := by
    refine once.lift_workspace_of_missing ?_
    rw [isOnce]
    exact plain_rerun _ _ _ _ free distinct' lifted plain
  have still : once.redirect (.revision url rev) = .stay once := by
    rw [redirect, Entries.redirect_of_pinned _ _ ((Entries.calm_iff _).mp calmOnce).2]
    rfl
  have second := stand_alone_of_free once (.revision url rev) fragment removals
    (by rw [idle, still]; rfl)
  rw [idle] at second
  dsimp only at second
  rw [still] at second
  rw [← isOnce] at first
  refine ⟨once, _, _, _, first, second, rfl, rfl, ?_⟩
  have calmAgain : ((once.cleaned removals).overlay fragment).1.root.Calm :=
    Fragment.calm_overlay_all _ _ (calm_cleaned removals _ calmOnce) calmFragment
  refine Entries.alike_of_matches _ _ ((Entries.calm_iff _).mp calmAgain).1
    ((Entries.calm_iff _).mp calmOnce).1 fun name => ?_
  rw [isOnce]
  exact get?_overlay_again _ fragment removals distinct' name

theorem stand_alone_settles_brought_back :
    ∃ document fragment once report again summary,
      parse? "[workspace.dependencies]\na.path = 'x'\nc = '1'\n" = some document ∧
      parse? "[dependencies]\nc = '2'\n[package]\nname = 'n'\n" = some fragment ∧
      document.standAlone (.revision "u" "r") fragment ["c"] = (once, .ok report) ∧
      once.standAlone (.revision "u" "r") fragment ["c"] = (again, .ok summary) ∧
      summary.workspace.keys = .none ∧ summary.redirected = [] ∧
      again.data.Alike once.data := by
  have fits : (parse? "[workspace.dependencies]\na.path = 'x'\nc = '1'\n").map (fun document =>
      (decide document.Distinct, document.nestsWorkspace)) = some (true, false) := by decide +kernel
  have fits' : (parse? "[dependencies]\nc = '2'\n[package]\nname = 'n'\n").map (fun fragment =>
      (decide fragment.Distinct, fragment.root.contains "workspace", decide fragment.Pinned)) =
        some (true, false, true) := by decide +kernel
  obtain ⟨document, read, fits⟩ := Option.map_eq_some_iff.mp fits
  obtain ⟨fragment, read', fits'⟩ := Option.map_eq_some_iff.mp fits'
  simp only [Prod.mk.injEq, decide_eq_true_eq] at fits fits'
  obtain ⟨once, report, again, summary, runs⟩ := stand_alone_settles document fragment "u" "r" ["c"]
    fits.1 fits.2 fits'.1 fits'.2.1 fits'.2.2
  exact ⟨document, fragment, once, report, again, summary, read, read', runs⟩

end Document

end Reroot
