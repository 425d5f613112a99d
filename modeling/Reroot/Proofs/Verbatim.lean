import Reroot.Proofs.Misfits
import Reroot.Proofs.Spared

set_option autoImplicit false

namespace Reroot

theorem Nodes.mem_sections (nodes : Nodes) (path : List Key) (part : Section) :
    part ∈ nodes.sections path ↔ ∃ node ∈ nodes.toList, part ∈ node.sections path true := by
  induction nodes with
  | nil => simp [sections, toList]
  | cons head tail ih => simp [sections, toList, ih]

theorem Node.exists_section (above : List Step) (line : Field) (node : Node)
    (there : node.line? above line.key.name = some line) (path : List Key) (isElement : Bool) :
    ∃ part ∈ node.sections path isElement, line ∈ part.entries.fields [] := by
  induction above generalizing node path isElement with
  | nil =>
    obtain ⟨style, entries, rfl, single, found, parents, isValue⟩ :=
      (line?_nil_iff _ node line).mp there
    refine ⟨⟨path, isElement, style, entries⟩, by simp [sections, single], ?_⟩
    obtain ⟨member, -⟩ := entries.mem_of_keyed? _ _ found
    refine (entries.mem_fields [] line).mpr ⟨_, member, ?_⟩
    rw [fields_of_is_value [] _ _ isValue, List.mem_singleton, ← parents]
  | cons step rest ih =>
    rw [line?_cons] at there
    obtain ⟨child, found, below⟩ := Option.bind_eq_some_iff.mp there
    obtain ⟨name, style, entries, rfl, rfl, inner⟩ | ⟨number, elements, rfl, rfl, inner⟩ :=
      part?_cases step node child found
    · rw [Entries.get?_eq_keyed?] at inner
      obtain ⟨⟨key, _⟩, entry, rfl⟩ := Option.map_eq_some_iff.mp inner
      obtain ⟨member, -⟩ := entries.mem_of_keyed? _ _ entry
      obtain ⟨part, inside, own⟩ := ih _ below (path ++ [key]) false
      refine ⟨part, ?_, own⟩
      rw [sections, List.mem_append]
      exact .inr ((entries.mem_sections path part).mpr ⟨_, member, inside⟩)
    · obtain ⟨part, inside, own⟩ := ih _ below path true
      refine ⟨part, ?_, own⟩
      rw [sections]
      exact (elements.mem_sections path part).mpr ⟨_, List.mem_of_getElem? inner, inside⟩

theorem Statement.infix_print_all (list : List Statement) (statement : Statement)
    (member : statement ∈ list) : ∃ isFirst, statement.text isFirst <:+: printAll list := by
  cases list with
  | nil => cases member
  | cons first rest =>
    rw [printAll]
    rcases List.mem_cons.mp member with rfl | later
    · exact ⟨true, [], rest.flatMap (text false), rfl⟩
    · have inside : statement.text false <:+: rest.flatMap (text false) := by
        rw [List.flatMap_def]
        exact List.infix_of_mem_flatten (List.mem_map_of_mem (f := text false) later)
      exact ⟨false, inside.trans (List.suffix_append _ _).isInfix⟩

theorem Node.clear_congr (style : TableStyle) (first second : Entries) (place : List Step)
    (same : ∀ top, place.head? = some (.key top) → first.get? top = second.get? top)
    (clear : Node.Clear place (.table style first)) : Node.Clear place (.table style second) := by
  cases place with
  | nil => trivial
  | cons step rest =>
    cases step with
    | index number => exact fun child found => by cases found
    | key top =>
      intro child found
      exact clear child ((same top rfl).trans found)

namespace Document

theorem infix_text (document : Document) (above : List Step) (line : Field)
    (there : document.line? above line.key.name = some line) : line.text <:+: document.text := by
  obtain ⟨part, inside, own⟩ := Node.exists_section above line _ there [] false
  have member : .field line ∈ document.root.statements := by
    rw [Entries.mem_statements]
    rcases List.mem_cons.mp inside with top | deeper
    · rw [top] at own
      exact .inl ⟨line, own, rfl⟩
    · refine .inr ⟨part, deeper, ?_⟩
      rw [Section.statements, List.mem_append]
      exact .inr (List.mem_map_of_mem own)
  obtain ⟨_, stands⟩ := Statement.infix_print_all _ _ member
  exact stands.trans (List.prefix_append _ _).isInfix

theorem contains_of_line? (document : Document) (above : List Step) (line : Field)
    (there : document.line? above line.key.name = some line) (top : String)
    (head : (line.place above).head? = some (.key top)) : document.root.contains top = true := by
  rw [Entries.contains]
  cases above with
  | nil =>
    obtain ⟨style, entries, same, -, found, -⟩ := (Node.line?_nil_iff _ _ line).mp there
    cases same
    cases head
    rw [Entries.get?_eq_keyed?, found]
    rfl
  | cons step rest =>
    cases head
    obtain ⟨child, found, -⟩ := Option.bind_eq_some_iff.mp there
    exact Option.isSome_iff_exists.mpr ⟨child, found⟩

theorem line?_lift_beside (document : Document) (above : List Step) (line : Field)
    (there : document.line? above line.key.name = some line)
    (outside : (line.place above).head? ≠ some (.key "workspace"))
    (clear : Node.Clear (line.place above) (.table .fresh document.root)) :
    document.liftWorkspace.1.line? above line.key.name = some line ∧
      Node.Clear (line.place above) (.table .fresh document.liftWorkspace.1.root) := by
  have same : ∀ top, (line.place above).head? = some (.key top) →
      document.liftWorkspace.1.root.keyed? top = document.root.keyed? top := by
    intro top head
    refine document.keyed?_lift_workspace top ?_ (document.contains_of_line? above line there top head)
    rintro rfl
    exact outside head
  refine ⟨?_, Node.clear_congr _ _ _ _ (fun top head => ?_) clear⟩
  · rw [← there]
    exact Node.line?_congr _ _ _ above line.key.name same
  · rw [Entries.get?_eq_keyed?, Entries.get?_eq_keyed?, same top head]

theorem line?_lift_below (document : Document) (name : String) (rest : List Step) (line : Field)
    (there : document.line? (.key "workspace" :: .key name :: rest) line.key.name = some line)
    (kept : name ∉ document.liftWorkspace.2.keys.shadowed ++ document.liftWorkspace.2.keys.discarded)
    (clear : Node.Clear (line.place (.key "workspace" :: .key name :: rest))
      (.table .fresh document.root)) :
    document.liftWorkspace.1.line? (.key name :: rest) line.key.name = some line ∧
      Node.Clear (line.place (.key name :: rest)) (.table .fresh document.liftWorkspace.1.root) := by
  rw [line?, Node.line?_cons] at there
  obtain ⟨found, here, there⟩ := Option.bind_eq_some_iff.mp there
  rw [Node.line?_cons] at there
  obtain ⟨child, inner, last⟩ := Option.bind_eq_some_iff.mp there
  cases found with
  | table style entries =>
    have moved := document.get?_lift_workspace style entries here name child inner kept
    constructor
    · rw [line?, Node.line?_cons]
      change (document.liftWorkspace.1.root.get? name).bind _ = some line
      rw [moved, Option.bind_some, last]
    · obtain ⟨-, deeper⟩ := clear _ here
      intro other same
      cases moved.symm.trans same
      exact deeper child inner
  | scalar margin value => cases inner
  | array style elements => cases inner
  | inline style entries => cases inner
  | tables elements => cases inner

theorem line?_lift_workspace (document : Document) (above : List Step) (line : Field)
    (there : document.line? above line.key.name = some line)
    (notWorkspace : line.place above ≠ [.key "workspace"]) (below : above ≠ [.key "workspace"])
    (headed : ∀ number, ¬ [.key "workspace", .index number] <+: above)
    (kept : ∀ name ∈ document.liftWorkspace.2.keys.shadowed ++ document.liftWorkspace.2.keys.discarded,
      ¬ [.key "workspace", .key name] <+: line.place above)
    (clear : Node.Clear (line.place above) (.table .fresh document.root)) :
    Step.lifted (line.place above) = line.place (Step.lifted above) ∧
      document.liftWorkspace.1.line? (Step.lifted above) line.key.name = some line ∧
      Node.Clear (line.place (Step.lifted above)) (.table .fresh document.liftWorkspace.1.root) := by
  by_cases inside : above.head? = some (.key "workspace")
  · rcases above with _ | ⟨first, _ | ⟨step, rest⟩⟩
    · cases inside
    · cases inside
      exact absurd rfl below
    · obtain rfl : first = .key "workspace" := Option.some.inj inside
      cases step with
      | index number => exact absurd ⟨rest, rfl⟩ (headed number)
      | key name =>
        have lost := fun member => kept name member ⟨rest ++ [.key line.key.name], rfl⟩
        rw [Step.lifted_cons]
        exact ⟨Step.lifted_cons _, document.line?_lift_below name rest line there lost clear⟩
  · have outside : (line.place above).head? ≠ some (.key "workspace") := by
      cases above with
      | nil =>
        intro same
        exact notWorkspace (congrArg (fun step => [step]) (Option.some.inj same))
      | cons step rest => exact inside
    rw [Step.lifted, Step.lifted, if_neg inside, if_neg outside]
    exact ⟨rfl, document.line?_lift_beside above line there outside clear⟩

theorem outside_lifted (place : List Step) (outside : ¬ [.key "package"] <+: place)
    (outside' : ¬ [.key "workspace", .key "package"] <+: place) :
    ¬ [.key "package"] <+: Step.lifted place := by
  rw [Step.lifted]
  split
  case isTrue inside =>
    cases place with
    | nil => exact outside
    | cons first rest =>
      obtain rfl : first = .key "workspace" := Option.some.inj inside
      exact fun deeper => outside' (List.cons_prefix_cons.mpr ⟨rfl, deeper⟩)
  · exact outside

-- A line that is not given up, redirected, removed or filled in, and not in an array of tables
-- `workspace`, which is dropped whole, is printed as it was.
theorem stand_alone_keeps_line (document fragment final : Document) (target : Target)
    (removals : List String) (summary : Summary) (distinct : fragment.Distinct)
    (succeeds : document.standAlone target fragment removals = (final, .ok summary))
    (above : List Step) (line : Field) (there : document.line? above line.key.name = some line)
    (untouched : document.Untouched fragment summary above line)
    (headed : ∀ number, ¬ [.key "workspace", .index number] <+: above) :
    final.line? (Step.lifted above) line.key.name = some line ∧
      line.text <:+: document.text ∧ line.text <:+: final.text := by
  obtain ⟨free, -, -⟩ := stand_alone_ok document target fragment removals summary
    (congrArg Prod.snd succeeds)
  rw [stand_alone_of_free document target fragment removals free] at succeeds
  obtain ⟨rfl, same⟩ := Prod.mk.inj succeeds
  obtain rfl := Except.ok.inj same
  obtain ⟨place, lifted, clear⟩ := document.line?_lift_workspace above line there untouched.notWorkspace
    untouched.belowWorkspace headed untouched.notLost untouched.clear
  have outside := outside_lifted _ untouched.outsidePackage untouched.outsideWorkspacePackage
  have notRemoved := untouched.notRemoved
  have notFilled := untouched.notFilled
  rw [place] at outside notRemoved notFilled
  have walked : (document.liftWorkspace.1.redirect target).result.line? (Step.lifted above)
      line.key.name = some line :=
    Node.line?_redirect target _ line _ lifted clear untouched.pinned free
  have blank := (line?_blank_package _ _ line outside).trans walked
  have cleaned := line?_drop_dependencies removals _ _ line blank notRemoved
  have laid := line?_overlay _ fragment distinct _ line cleaned notFilled
  exact ⟨laid, document.infix_text above line there, infix_text _ _ line laid⟩

theorem stand_alone_of_to_option (document : Document) (target : Target) (fragment : Document)
    (removals : List String) (summary : Summary)
    (run : (document.standAlone target fragment removals).2.toOption = some summary) :
    document.standAlone target fragment removals =
      ((document.standAlone target fragment removals).1, .ok summary) := by
  refine Prod.ext rfl ?_
  cases result : (document.standAlone target fragment removals).2 with
  | error stuck =>
    rw [result] at run
    cases run
  | ok own =>
    rw [result] at run
    cases run
    rfl

theorem stand_alone_keeps_line_lifted :
    ∃ document fragment final summary line,
      parse? "[workspace.lints.rust]\n# why\nrules = 'deny' # c\n[dependencies]\na.path = 'x'\n" =
        some document ∧
      parse? "[lints.clippy]\nall = 'warn'\n" = some fragment ∧
      document.standAlone (.checkout "/c") fragment ["a"] = (final, .ok summary) ∧
      line.text = "# why\nrules = 'deny' # c\n".toList ∧
      final.line? [.key "lints", .key "rust"] line.key.name = some line ∧
      line.text <:+: document.text ∧ line.text <:+: final.text := by
  have fits :
      ((parse? "[workspace.lints.rust]\n# why\nrules = 'deny' # c\n[dependencies]\na.path = 'x'\n").bind
        fun document => (parse? "[lints.clippy]\nall = 'warn'\n").bind fun fragment =>
        (document.standAlone (.checkout "/c") fragment ["a"]).2.toOption.bind fun summary =>
        (document.line? [.key "workspace", .key "lints", .key "rust"] "rules").map fun line =>
          (line.text, line.key.name, decide fragment.Distinct, decide (document.Untouched fragment summary
            [.key "workspace", .key "lints", .key "rust"] line))) =
      some ("# why\nrules = 'deny' # c\n".toList, "rules", true, true) := by decide +kernel
  obtain ⟨document, read, fits⟩ := Option.bind_eq_some_iff.mp fits
  obtain ⟨fragment, read', fits⟩ := Option.bind_eq_some_iff.mp fits
  obtain ⟨summary, run, fits⟩ := Option.bind_eq_some_iff.mp fits
  obtain ⟨line, there, fits⟩ := Option.map_eq_some_iff.mp fits
  simp only [Prod.mk.injEq, decide_eq_true_eq] at fits
  obtain ⟨text, name, distinct, untouched⟩ := fits
  have succeeds := stand_alone_of_to_option document _ fragment _ summary run
  rw [← name] at there
  have kept := stand_alone_keeps_line document fragment _ _ _ summary distinct succeeds _ line there
    untouched fun number => by simp
  exact ⟨document, fragment, _, summary, line, read, read', succeeds, text, kept⟩

-- An array of tables `workspace` is dropped with all its lines.
theorem stand_alone_drops_line :
    ∃ document fragment final summary line,
      parse? "[[workspace]]\n[workspace.a]\nb = 1 # c\n" = some document ∧
      parse? "" = some fragment ∧
      document.standAlone (.revision "u" "r") fragment [] = (final, .ok summary) ∧
      document.line? [.key "workspace", .index 0, .key "a"] line.key.name = some line ∧
      document.Untouched fragment summary [.key "workspace", .index 0, .key "a"] line ∧
      ¬ line.text <:+: final.text := by
  have fails : ((parse? "[[workspace]]\n[workspace.a]\nb = 1 # c\n").bind
      fun document => (parse? "").bind fun fragment =>
        (document.standAlone (.revision "u" "r") fragment []).2.toOption.bind fun summary =>
        (document.line? [.key "workspace", .index 0, .key "a"] "b").map fun line =>
          (line.key.name, decide (document.Untouched fragment summary
            [.key "workspace", .index 0, .key "a"] line),
            decide (line.text <:+: (document.standAlone (.revision "u" "r") fragment []).1.text))) =
      some ("b", true, false) := by decide +kernel
  obtain ⟨document, read, fails⟩ := Option.bind_eq_some_iff.mp fails
  obtain ⟨fragment, read', fails⟩ := Option.bind_eq_some_iff.mp fails
  obtain ⟨summary, run, fails⟩ := Option.bind_eq_some_iff.mp fails
  obtain ⟨line, there, fails⟩ := Option.map_eq_some_iff.mp fails
  simp only [Prod.mk.injEq, decide_eq_true_eq, decide_eq_false_iff_not] at fails
  obtain ⟨name, untouched, missing⟩ := fails
  rw [← name] at there
  exact ⟨document, fragment, _, summary, line, read, read',
    stand_alone_of_to_option document _ fragment _ summary run, there, untouched, missing⟩

end Document

end Reroot
