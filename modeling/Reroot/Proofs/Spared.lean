import Reroot.Manifest.Untouched
import Reroot.Proofs.Pinned

set_option autoImplicit false

namespace Reroot

theorem Node.line?_congr (style : TableStyle) (first second : Entries) (above : List Step)
    (name : String) (same : ∀ top, (above ++ [Step.key name]).head? = some (.key top) →
      first.keyed? top = second.keyed? top) :
    (table style first).line? above name = (table style second).line? above name := by
  cases above with
  | nil => rw [line?, line?, same name rfl]
  | cons step rest =>
    rw [line?_cons, line?_cons]
    cases step with
    | index number => rfl
    | key top =>
      have found : first.get? top = second.get? top := by
        rw [Entries.get?_eq_keyed?, Entries.get?_eq_keyed?, same top rfl]
      exact congrArg (Option.bind · _) found

theorem Node.line?_nil_iff (name : String) (node : Node) (line : Field) :
    node.line? [] name = some line ↔ ∃ style entries, node = table style entries ∧
      style.dotted = false ∧ entries.keyed? name = some (line.key, line.value) ∧ line.parents = [] ∧
      line.value.isValue = true := by
  constructor
  · intro there
    cases node with
    | table style entries =>
      rw [line?] at there
      split at there
      · cases there
      case isFalse single =>
        obtain ⟨⟨key, value⟩, found, there⟩ := Option.bind_eq_some_iff.mp there
        split at there
        · case isTrue isValue =>
          cases there
          exact ⟨style, entries, rfl, Bool.eq_false_iff.mpr single, found, rfl, isValue⟩
        · cases there
    | scalar margin value => cases there
    | array style elements => cases there
    | inline style entries => cases there
    | tables elements => cases there
  · rintro ⟨style, entries, rfl, single, found, parents, isValue⟩
    rw [line?, single, if_neg Bool.false_ne_true, found, Option.bind_some, if_pos isValue, ← parents]

namespace Workspace

theorem keyed?_lift (name : String) (root entries : Entries) (there : root.contains name = true) :
    (lift root entries).1.keyed? name = root.keyed? name := by
  induction entries generalizing root with
  | nil => rfl
  | cons key node tail ih =>
    rw [lift]
    split
    · exact ih root there
    · split
      · exact ih root there
      case isFalse missing =>
        have differs : name ≠ key.name := by
          rintro rfl
          exact missing there
        have still : (root.put key.name node).contains name = true := by
          rw [Entries.contains_put, there, Bool.or_true]
        exact (ih _ still).trans (Entries.keyed?_put _ _ differs node root)

theorem get?_lift (name : String) (node : Node) (root entries : Entries)
    (found : entries.get? name = some node)
    (kept : name ∉ (lift root entries).2.shadowed ++ (lift root entries).2.discarded) :
    (lift root entries).1.get? name = some node := by
  induction entries generalizing root with
  | nil => cases found
  | cons key value tail ih =>
    rw [Entries.get?] at found
    rw [lift] at kept ⊢
    by_cases shared : membershipKeys.contains key.name = true
    · rw [if_pos shared] at kept ⊢
      have differs : ¬ key.name = name := by
        rintro rfl
        simp at kept
      rw [if_neg differs] at found
      exact ih root found fun lost => kept <| List.mem_append.mpr <|
        (List.mem_append.mp lost).imp_right (List.mem_cons_of_mem _)
    · rw [if_neg shared] at kept ⊢
      by_cases there : root.contains key.name = true
      · rw [if_pos there] at kept ⊢
        have differs : ¬ key.name = name := by
          rintro rfl
          simp at kept
        rw [if_neg differs] at found
        exact ih root found fun lost => kept (List.mem_cons_of_mem _ lost)
      · rw [if_neg there] at kept ⊢
        by_cases same : key.name = name
        · rw [if_pos same] at found
          cases found
          subst same
          have moved := keyed?_lift key.name (root.put key.name node) tail (by simp [Entries.contains_put])
          rw [Entries.get?_eq_keyed?, moved, ← Entries.get?_eq_keyed?, Entries.get?_put, if_pos rfl]
        · rw [if_neg same] at found
          exact ih _ found kept

end Workspace

namespace Document

theorem keyed?_lift_workspace (document : Document) (name : String) (other : name ≠ "workspace")
    (there : document.root.contains name = true) :
    document.liftWorkspace.1.root.keyed? name = document.root.keyed? name := by
  have erased := Entries.keyed?_erase "workspace" name other document.root
  rw [liftWorkspace]
  cases document.root.get? "workspace" with
  | none => rfl
  | some found =>
    dsimp only
    cases found.underHeader? with
    | none => exact erased
    | some entries =>
      refine (Workspace.keyed?_lift name _ entries ?_).trans erased
      rw [Entries.contains_erase, there, Bool.and_true]
      exact decide_eq_true other

theorem get?_lift_workspace (document : Document) (style : TableStyle) (entries : Entries)
    (found : document.root.get? "workspace" = some (.table style entries)) (name : String) (node : Node)
    (inner : entries.get? name = some node) (kept : name ∉ document.liftWorkspace.2.keys.shadowed ++
      document.liftWorkspace.2.keys.discarded) :
    document.liftWorkspace.1.root.get? name = some node := by
  rw [liftWorkspace, found] at kept ⊢
  exact Workspace.get?_lift name node _ entries inner kept

end Document

theorem Entries.keyed?_redirect (target : Target) (name : String) (entries : Entries)
    (free : (entries.redirect target).stuck = none) :
    (entries.redirect target).result.keyed? name =
      (entries.keyed? name).map fun entry => (entry.1, (entry.2.walked target name).result) := by
  induction entries with
  | nil => rfl
  | cons key node tail ih =>
    rw [redirect] at free ⊢
    obtain ⟨-, freeRest, result⟩ := Walk.join_free _ _ _ _ free
    rw [result, keyed?, keyed?]
    split
    · case isTrue same =>
      subst same
      rfl
    · exact ih freeRest

section Redirect

variable (target : Target)

theorem Node.part?_redirect (step : Step) (node child : Node) (found : node.part? step = some child)
    (free : (node.redirect target).stuck = none)
    (plain : ∀ name, step = .key name → child.path? = none) :
    (child.redirect target).stuck = none ∧
      (node.redirect target).result.part? step = some (child.redirect target).result := by
  obtain ⟨name, style, entries, rfl, rfl, inner⟩ | ⟨number, elements, rfl, rfl, inner⟩ :=
    part?_cases step node child found
  · obtain ⟨result, each⟩ := Entries.get?_redirect target name entries free
    have walked := child.walked_of_plain target name (plain name rfl)
    have freeChild := each child inner
    rw [walked] at freeChild
    refine ⟨freeChild, ?_⟩
    change (entries.redirect target).result.get? name = _
    rw [result, inner, Option.map_some, walked]
  · obtain ⟨result, each⟩ := Nodes.to_list_redirect target elements free
    refine ⟨each child (List.mem_of_getElem? inner), ?_⟩
    change (elements.redirect target).result.toList[number]? = _
    rw [result, List.getElem?_map, inner, Option.map_some]

-- A line stays if no table on the way to it and none in its value has a `path`. The induction goes
-- down the way.
theorem Node.line?_redirect (above : List Step) (line : Field) (node : Node)
    (there : node.line? above line.key.name = some line) (clear : node.Clear (line.place above))
    (pinned : line.value.Pinned) (free : (node.redirect target).stuck = none) :
    (node.redirect target).result.line? above line.key.name = some line := by
  induction above generalizing node with
  | nil =>
    obtain ⟨style, entries, rfl, single, found, parents, isValue⟩ := (line?_nil_iff _ node line).mp there
    have inner : entries.get? line.key.name = some line.value := by
      rw [Entries.get?_eq_keyed?, found, Option.map_some]
    obtain ⟨plain, -⟩ := clear line.value inner
    have walked : (line.value.walked target line.key.name).result = line.value := by
      rw [walked_of_plain target _ _ plain, redirect_of_pinned target _ pinned]
      rfl
    refine (line?_nil_iff _ _ line).mpr ⟨style, _, rfl, single, ?_, parents, isValue⟩
    rw [Entries.keyed?_redirect target _ entries free, found, Option.map_some, walked]
  | cons step rest ih =>
    rw [line?_cons] at there ⊢
    obtain ⟨child, found, below⟩ := Option.bind_eq_some_iff.mp there
    have inner := node.child?_of_part? step child found
    have both : (∀ name, step = .key name → child.path? = none) ∧ child.Clear (line.place rest) := by
      cases step with
      | key name =>
        obtain ⟨plain, deeper⟩ := clear child inner
        exact ⟨fun _ _ => plain, deeper⟩
      | index number => exact ⟨nofun, clear child inner⟩
    obtain ⟨freeChild, result⟩ := node.part?_redirect target step child found free both.1
    rw [result, Option.bind_some]
    exact ih child below both.2 freeChild

end Redirect

theorem Node.table_of_line? (node : Node) (isTable : node.isTable = true) (above : List Step)
    (name : String) (line : Field) (there : node.line? above name = some line) :
    ∃ style entries, node = .table style entries := by
  cases node with
  | table style entries => exact ⟨style, entries, rfl⟩
  | inline style entries =>
    cases above with
    | nil => cases there
    | cons step rest => cases step <;> cases there
  | scalar margin value => cases isTable
  | array style elements => cases isTable
  | tables elements => cases isTable

theorem Document.line?_below (first second : Document) (above : List Step) (line : Field)
    (there : first.line? above line.key.name = some line)
    (kept : ∀ top key node, (line.place above).head? = some (.key top) →
      first.root.keyed? top = some (key, node) → ∃ new, second.root.keyed? top = some (key, new) ∧
        (line.place above = [.key top] → new = node) ∧
        ∀ rest, above = .key top :: rest → node.line? rest line.key.name = some line →
          new.line? rest line.key.name = some line) :
    second.line? above line.key.name = some line := by
  cases above with
  | nil =>
    obtain ⟨style, entries, same, single, found, parents, isValue⟩ :=
      (Node.line?_nil_iff _ _ line).mp there
    cases same
    obtain ⟨_, found', same, -⟩ := kept line.key.name _ _ rfl found
    rw [same rfl] at found'
    exact (Node.line?_nil_iff _ _ line).mpr ⟨_, _, rfl, single, found', parents, isValue⟩
  | cons step rest =>
    rw [line?, Node.line?_cons] at there ⊢
    obtain ⟨node, found, below⟩ := Option.bind_eq_some_iff.mp there
    cases step with
    | index number => cases found
    | key top =>
      have inner : first.root.get? top = some node := found
      rw [Entries.get?_eq_keyed?] at inner
      obtain ⟨⟨key, _⟩, entry, rfl⟩ := Option.map_eq_some_iff.mp inner
      obtain ⟨new, found', -, lines⟩ := kept top key _ rfl entry
      have inner' : Node.part? (.key top) (.table .fresh second.root) = some new := by
        change second.root.get? top = some new
        rw [Entries.get?_eq_keyed?, found', Option.map_some]
      rw [inner', Option.bind_some]
      exact lines rest rfl below

namespace Entries

theorem keyed?_erase_all (names : List String) (name : String) (entries : Entries)
    (kept : name ∉ (entries.eraseAll names).2) :
    (entries.eraseAll names).1.keyed? name = entries.keyed? name := by
  induction names generalizing entries with
  | nil => rfl
  | cons first names ih =>
    rw [eraseAll] at kept ⊢
    by_cases there : entries.contains first = true
    · rw [if_pos there] at kept ⊢
      obtain ⟨differs, later⟩ := not_or.mp (List.mem_cons.not.mp kept)
      exact (ih _ later).trans (keyed?_erase first name differs entries)
    · rw [if_neg there] at kept ⊢
      exact ih entries kept

theorem erase_all_of_none (names : List String) (entries : Entries)
    (none : (entries.eraseAll names).2 = []) : (entries.eraseAll names).1 = entries := by
  induction names generalizing entries with
  | nil => rfl
  | cons first names ih =>
    rw [eraseAll] at none ⊢
    by_cases there : entries.contains first = true
    · rw [if_pos there] at none
      cases none
    · rw [if_neg there] at none ⊢
      exact ih entries none

end Entries

namespace Step

theorem prefix_of_head (step : Step) (place : List Step) (head : place.head? = some step) :
    [step] <+: place := by
  cases place with
  | nil => cases head
  | cons first rest =>
    cases head
    exact List.cons_prefix_cons.mpr ⟨rfl, List.nil_prefix⟩

theorem meet_below (top below : String) (rest : List Step)
    (head : rest = [] ∨ rest.head? = some (.key below)) :
    Step.Meet [.key top, .key below] (.key top :: rest) := by
  rcases head with rfl | head
  · exact .inr (List.cons_prefix_cons.mpr ⟨rfl, List.nil_prefix⟩)
  · exact .inl (List.cons_prefix_cons.mpr ⟨rfl, prefix_of_head _ rest head⟩)

end Step

namespace Document

theorem line?_blank_package (document : Document) (above : List Step) (line : Field)
    (outside : ¬ [.key "package"] <+: line.place above) :
    document.blankPackage.line? above line.key.name = document.line? above line.key.name := by
  refine Node.line?_congr _ _ _ above line.key.name fun top head => ?_
  refine Entries.keyed?_assign "package" top ?_ _ _
  rintro rfl
  exact outside (Step.prefix_of_head _ _ head)

theorem line?_drop_dependencies (names : List String) (document : Document) (above : List Step)
    (line : Field) (there : document.line? above line.key.name = some line)
    (kept : ∀ name ∈ (document.dropDependencies names).2,
      ¬ Step.Meet [.key "dependencies", .key name] (line.place above)) :
    (document.dropDependencies names).1.line? above line.key.name = some line := by
  rw [dropDependencies] at kept ⊢
  cases looked : (document.root.get? "dependencies").bind Node.entries? with
  | none => exact there
  | some entries =>
    obtain ⟨node, found, inner⟩ := Option.bind_eq_some_iff.mp looked
    rw [looked] at kept
    dsimp only at kept
    refine line?_below document _ above line there fun top key other head entry => ?_
    dsimp only
    rw [Entries.keyed?_modify]
    by_cases hit : top = "dependencies"
    · subst hit
      have same : node = other := by
        rw [Entries.get?_eq_keyed?, entry] at found
        exact (Option.some.inj found).symm
      subst same
      rw [if_pos rfl, entry]
      refine ⟨_, rfl, fun single => ?_, fun rest way below => ?_⟩
      · have none : (entries.eraseAll names).2 = [] := by
          refine List.eq_nil_iff_forall_not_mem.mpr fun name removed => kept name removed ?_
          rw [single]
          exact Step.meet_below _ _ [] (.inl rfl)
        rw [Entries.erase_all_of_none names entries none]
        cases node <;> cases inner <;> rfl
      · obtain ⟨style, own, rfl⟩ := node.table_of_line? (by rw [Node.isTable, inner]; rfl) rest _ _ below
        cases inner
        refine (Node.line?_congr style _ _ rest line.key.name fun first next => ?_).trans below
        refine Entries.keyed?_erase_all names first entries fun removed => kept first removed ?_
        rw [Field.place, way, List.cons_append]
        exact Step.meet_below _ _ _ (.inr next)
    · rw [if_neg hit]
      exact ⟨other, entry, fun _ => rfl, fun _ _ below => below⟩

end Document

namespace Fragment

theorem keyed?_put_all (entries : Entries) (style : TableStyle) (base : Entries) :
    ∃ all, putAll entries (.table style base) = .table style all ∧
      ∀ name, name ∉ entries.names → all.keyed? name = base.keyed? name := by
  induction entries generalizing base with
  | nil => exact ⟨base, rfl, fun _ _ => rfl⟩
  | cons key node tail ih =>
    obtain ⟨all, result, same⟩ := ih (base.put key.name node)
    refine ⟨all, result, fun name missing => ?_⟩
    obtain ⟨differs, later⟩ := not_or.mp (List.mem_cons.not.mp missing)
    exact (same name later).trans (Entries.keyed?_put key.name name differs node base)

theorem keyed?_overlay_other (name other : String) (differs : other ≠ name) (node : Node)
    (root : Entries) : (overlay name node root).1.keyed? other = root.keyed? other := by
  have put := fun value : Node => Entries.keyed?_put name other differs value root
  rw [overlay]
  cases node.entries? with
  | none =>
    dsimp only
    split
    · rfl
    · exact put node
  | some entries =>
    have opened : (if root.contains name then root else root.put name (emptySection node)).keyed? other =
        root.keyed? other := by
      split
      · rfl
      · exact put _
    dsimp only
    generalize (if root.contains name = true then root else root.put name (emptySection node)) = there
      at opened ⊢
    split
    · rw [Entries.keyed?_modify, if_neg differs]
      exact opened
    · exact opened

theorem keyed?_overlay (name : String) (node : Node) (root : Entries) (key : Key) (place : Node)
    (there : root.keyed? name = some (key, place)) :
    (overlay name node root).1.keyed? name = (fill (some node) (some place)).map (key, ·) := by
  have found : root.get? name = some place := by rw [Entries.get?_eq_keyed?, there, Option.map_some]
  have contains : root.contains name = true := by rw [Entries.contains, found, Option.isSome_some]
  rw [overlay]
  cases inner : node.entries? with
  | none =>
    rw [fill_value node inner, Option.getD_some, Option.map_some]
    dsimp only
    rw [if_pos contains, there]
  | some entries =>
    dsimp only
    rw [if_pos contains, found, Option.map_some, Option.getD_some]
    by_cases isTable : place.isTable = true
    · rw [if_pos isTable, fill_section node entries inner (some place) isTable]
      dsimp only
      rw [Entries.keyed?_modify, if_pos rfl, there]
      rfl
    · rw [if_neg isTable, fill_blocked node entries inner (some place) isTable, there]
      rfl

theorem fill_some (own : Option Node) (place : Node) : ∃ new, fill own (some place) = some new := by
  cases own with
  | none => exact ⟨place, rfl⟩
  | some node =>
    cases inner : node.entries? with
    | none => exact ⟨place, fill_value node inner (some place)⟩
    | some entries =>
      by_cases isTable : place.isTable = true
      · exact ⟨_, fill_section node entries inner (some place) isTable⟩
      · exact ⟨place, fill_blocked node entries inner (some place) isTable⟩

theorem keyed?_overlay_all (root entries : Entries) (distinct : entries.names.Nodup) (name : String)
    (key : Key) (place : Node) (there : root.keyed? name = some (key, place)) :
    (overlayAll root entries).1.keyed? name =
      (fill (entries.get? name) (some place)).map (key, ·) := by
  induction entries generalizing root place with
  | nil => exact there
  | cons own node tail ih =>
    obtain ⟨fresh, distinctTail⟩ := List.nodup_cons.mp distinct
    rw [overlayAll, Entries.get?]
    dsimp only
    by_cases same : own.name = name
    · subst same
      have next := keyed?_overlay own.name node root key place there
      obtain ⟨new, filled⟩ := fill_some (some node) place
      rw [filled] at next
      rw [if_pos rfl, filled, ih _ distinctTail new next, (Entries.get?_eq_none_iff _ _).mpr fresh]
      rfl
    · have next := keyed?_overlay_other own.name name (Ne.symm same) node root
      rw [if_neg same, ih _ distinctTail place (next.trans there)]

end Fragment

namespace Document

theorem line?_overlay (document fragment : Document) (distinct : fragment.Distinct)
    (above : List Step) (line : Field) (there : document.line? above line.key.name = some line)
    (kept : ∀ name ∈ (document.overlay fragment).2.merged,
      ∀ entries ∈ (fragment.root.get? name).bind Node.entries?, ∀ key ∈ entries.names,
        ¬ Step.Meet [.key name, .key key] (line.place above)) :
    (document.overlay fragment).1.line? above line.key.name = some line := by
  have names := fragment.root.names_nodup distinct
  refine line?_below document _ above line there fun top key place head entry => ?_
  have found : document.root.get? top = some place := by
    rw [Entries.get?_eq_keyed?, entry, Option.map_some]
  have laid := Fragment.keyed?_overlay_all document.root fragment.root names top key place entry
  rw [root_overlay, laid]
  cases own : fragment.root.get? top with
  | none => exact ⟨place, rfl, fun _ => rfl, fun _ _ below => below⟩
  | some node =>
    cases inner : node.entries? with
    | none =>
      rw [Fragment.fill_value node inner]
      exact ⟨place, rfl, fun _ => rfl, fun _ _ below => below⟩
    | some entries =>
      by_cases isTable : place.isTable = true
      · have isMerged : top ∈ (document.overlay fragment).2.merged := by
          refine Fragment.mem_merged document.root fragment.root names top node own ?_
          rw [Fragment.landed, inner, found]
          dsimp only [Option.getD_some]
          rw [if_pos isTable]
        have apart := kept top isMerged entries (by rw [own, Option.bind_some, inner]; rfl)
        rw [Fragment.fill_section node entries inner (some place) isTable]
        refine ⟨_, rfl, fun single => ?_, fun rest way below => ?_⟩
        · cases entries with
          | nil => rfl
          | cons added value tail =>
            refine absurd ?_ (apart added.name List.mem_cons_self)
            rw [single]
            exact Step.meet_below _ _ [] (.inl rfl)
        · obtain ⟨style, base, rfl⟩ := place.table_of_line? isTable rest _ _ below
          obtain ⟨all, result, same⟩ := Fragment.keyed?_put_all entries style base
          rw [Option.getD_some, result]
          refine (Node.line?_congr style _ _ rest line.key.name fun first next => ?_).trans below
          refine same first fun member => apart first member ?_
          rw [Field.place, way, List.cons_append]
          exact Step.meet_below _ _ _ (.inr next)
      · rw [Fragment.fill_blocked node entries inner (some place) isTable]
        exact ⟨place, rfl, fun _ => rfl, fun _ _ below => below⟩

end Document

end Reroot
