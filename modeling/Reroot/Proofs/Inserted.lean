import Reroot.Proofs.Braces
import Reroot.Proofs.Commented
import Reroot.Proofs.Redirected
import Reroot.Proofs.Replaced

set_option autoImplicit false

namespace Reroot

open Text

theorem Entries.exists_mem_of_get? (name : String) (entries : Entries) (node : Node)
    (found : entries.get? name = some node) : ∃ key, (key, node) ∈ entries.toList := by
  rw [get?_eq_keyed?] at found
  obtain ⟨⟨key, _⟩, there, rfl⟩ := Option.map_eq_some_iff.mp found
  exact ⟨key, (entries.mem_of_keyed? _ _ there).1⟩

theorem Entries.legible_to_list (site : Site) (entries : Entries) (legible : entries.Legible site) :
    ∀ entry ∈ entries.toList, entry.2.Legible site :=
  fun entry member => (((entries.legible_iff site).mp legible).2 entry member).2.2

theorem Nodes.infix_text (nodes : Nodes) (node : Node) (member : node ∈ nodes.toList) (isFirst : Bool) :
    node.text <:+: nodes.text isFirst := by
  induction nodes generalizing isFirst with
  | nil => cases member
  | cons head tail ih =>
    rw [text]
    rcases List.mem_cons.mp member with rfl | later
    · refine List.IsInfix.trans ?_ (List.prefix_append _ _).isInfix
      split
      · exact node.margin.infix_wrapped _ _ _
      · exact (node.margin.infix_wrapped _ _ _).trans (List.suffix_cons ',' _).isInfix
    · exact (ih later false).trans (List.suffix_append _ _).isInfix

theorem Field.Shows.infix_braces {shown : Text} {line : Field} (shows : line.Shows shown)
    (style : InlineStyle) (entries : Entries)
    (there : line ∈ entries.fields []) : shown <:+: (Node.inline style entries).text := by
  have written : line.written ∈ entries.written [] := by
    rw [Entries.written_eq]
    exact List.mem_map_of_mem there
  obtain ⟨isLast, printed⟩ := WrittenField.infix_print_all _ _ written
  exact ((shows.infix_print isLast).trans printed).trans (style.infix_enclose _).2

namespace Node

theorem shows_line (shown : Text) (node : Node) (whole : node.isValue = true)
    (inside : shown <:+: node.text) (parents : List Key) (key : Key) :
    ∃ line ∈ node.fields parents key, line.Shows shown := by
  refine ⟨⟨parents, key, node⟩, ?_, .inr fun before after => ?_⟩
  · rw [node.fields_of_is_value parents key whole]
    exact List.mem_singleton_self _
  · exact inside.trans (node.margin.infix_wrapped before after node.text)

section Value

variable (value : Node) (isValue : value.isValue = true)

include isValue

theorem shows_at (place : List Step) (site : Site) (node : Node) (legible : node.Legible site)
    (there : node.at? place = some value) :
    (node.isValue = true → value.text <:+: node.text) ∧
      (site ≠ .body → ∀ parents key, ∃ line ∈ node.fields parents key, line.Shows value.text) := by
  induction place generalizing site node with
  | nil =>
    cases there
    exact ⟨fun _ => List.infix_rfl, fun _ => value.shows_line _ isValue List.infix_rfl⟩
  | cons step rest ih =>
    obtain ⟨child, found, below⟩ := Option.bind_eq_some_iff.mp there
    cases node with
    | scalar margin own => cases step <;> cases found
    | array style elements =>
      cases step with
      | key name => cases found
      | index number =>
        have member : child ∈ elements.toList := List.mem_of_getElem? found
        have inner := elements.legible_to_list .element legible.2.2 child member
        have own := (ih .element child inner below).1 (child.is_value_of_element inner)
        have inside : value.text <:+: (array style elements).text :=
          (own.trans (elements.infix_text child member true)).trans (style.infix_enclose _ _).1
        exact ⟨fun _ => inside, fun _ => shows_line _ _ rfl inside⟩
    | inline style entries =>
      cases step with
      | index number => cases found
      | key name =>
        obtain ⟨key', member⟩ := entries.exists_mem_of_get? name child found
        rw [Node.Legible] at legible
        by_cases spread : style.dotted = true
        · rw [if_pos spread] at legible
          have inner := entries.legible_to_list _ legible.2.2 _ member
          refine ⟨fun whole => ?_, fun _ parents key => ?_⟩
          · simp [Node.isValue, spread] at whole
          · obtain ⟨line, inside, shown⟩ :=
              (ih _ child inner below).2 site.spread_ne_body (parents ++ [key]) key'
            rw [fields, if_pos spread]
            exact ⟨line, (entries.mem_fields _ line).mpr ⟨_, member, inside⟩, shown⟩
        · rw [if_neg spread] at legible
          have inner := entries.legible_to_list _ legible.2.2 _ member
          obtain ⟨line, there, shown⟩ := (ih .braces child inner below).2 (by decide) [] key'
          have inside := shown.infix_braces style entries
            ((entries.mem_fields [] line).mpr ⟨_, member, there⟩)
          exact ⟨fun _ => inside, fun _ => shows_line _ _ (by simpa [Node.isValue] using spread) inside⟩
    | table style entries =>
      exact ⟨fun whole => absurd whole Bool.false_ne_true, fun outside => absurd legible.1 outside⟩
    | tables elements =>
      exact ⟨fun whole => absurd whole Bool.false_ne_true, fun outside => absurd legible.1 outside⟩

theorem states_at (place : List Step) (node : Node) (legible : node.Legible .body)
    (there : node.at? place = some value) (parents path : List Key) (key : Key) (isElement : Bool) :
    (∃ line ∈ node.fields parents key, line.Shows value.text) ∨
      ∃ part ∈ node.sections (path ++ [key]) isElement, part.Shows value.text := by
  induction place generalizing node parents path key isElement with
  | nil =>
    cases there
    exact .inl (value.shows_line _ isValue List.infix_rfl parents key)
  | cons step rest ih =>
    cases node with
    | scalar margin own =>
      exact .inl (shows_line _ _ rfl ((shows_at value isValue _ .body _ legible there).1 rfl) parents key)
    | array style elements =>
      exact .inl (shows_line _ _ rfl ((shows_at value isValue _ .body _ legible there).1 rfl) parents key)
    | inline style entries =>
      -- Between braces and on dotted keys it makes no difference that tables could stand there.
      refine .inl ((shows_at value isValue _ .line (inline style entries) ?_ there).2 (by decide)
        parents key)
      rw [Node.Legible] at legible ⊢
      split at legible
      · next spread =>
        rw [if_pos spread]
        exact ⟨by decide, legible.2⟩
      · next single =>
        rw [if_neg single]
        exact legible
    | table style entries =>
      obtain ⟨child, found, below⟩ := Option.bind_eq_some_iff.mp there
      cases step with
      | index number => cases found
      | key name =>
        obtain ⟨key', member⟩ := entries.exists_mem_of_get? name child found
        have inner := entries.legible_to_list _ legible.2.2 _ member
        rw [fields, sections]
        by_cases spread : style.dotted = true
        · rw [if_pos spread, if_pos spread]
          rcases ih child inner below (parents ++ [key]) (path ++ [key]) key' false with
            ⟨line, inside, shown⟩ | ⟨part, inside, shown⟩
          · exact .inl ⟨line, (entries.mem_fields _ line).mpr ⟨_, member, inside⟩, shown⟩
          · exact .inr ⟨part, (entries.mem_sections _ part).mpr ⟨_, member, inside⟩, shown⟩
        · rw [if_neg spread, if_neg spread]
          refine .inr ?_
          rcases ih child inner below [] (path ++ [key]) key' false with
            ⟨line, inside, shown⟩ | ⟨part, inside, shown⟩
          · have own := (entries.mem_fields [] line).mpr ⟨_, member, inside⟩
            exact ⟨_, List.mem_cons_self, Section.shows_line _ _ line own shown⟩
          · have deeper := (entries.mem_sections _ part).mpr ⟨_, member, inside⟩
            exact ⟨part, List.mem_cons_of_mem _ deeper, shown⟩
    | tables elements =>
      obtain ⟨child, found, below⟩ := Option.bind_eq_some_iff.mp there
      cases step with
      | key name => cases found
      | index number =>
        have member : child ∈ elements.toList := List.mem_of_getElem? found
        obtain ⟨style, entries, rfl, single⟩ := child.table_of_is_section (legible.2.2.1 child member)
        have inner := elements.legible_to_list .body legible.2.2.2 _ member
        rcases ih _ inner below [] path key true with ⟨line, inside, -⟩ | ⟨part, inside, shown⟩
        · rw [fields, if_neg (by simp [single])] at inside
          cases inside
        · exact .inr ⟨part, (elements.mem_sections _ part).mpr ⟨_, member, inside⟩, shown⟩

end Value

end Node

def Reader.TakesString (value : String) (token rest : Text) : Prop :=
  ∀ depth, Reader.value depth (token ++ rest) =
    some (.scalar .unset (.string value (some token)), rest)

theorem Node.takes_string_of_string (value : String) (rest : Text) (ends : Quoted.Ends rest) :
    Reader.TakesString value (ofString value).text rest := by
  intro depth
  have text : (ofString value).text = (Scalar.string value none).text := rfl
  rw [text, value_of_scalar depth _ (Scalar.reads_string value)]
  exact Scalar.scalar_string value rest ends

theorem WrittenField.print_fresh (isLast : Bool) (name : String) (text : Text) :
    print isLast ⟨[], .fresh name, .unset, text⟩ = ' ' :: ((Key.fresh name).text ++
      (" = ".toList ++ (text ++ if isLast then [' '] else []))) := by
  simp [print, Key.pathText, Key.linked, Margin.wrap, Key.fresh, Margin.unset]

namespace Target

theorem text_revision (url rev : String) :
    (reference [("git", url), ("rev", rev)]).text = "\x7b git = ".toList ++ ((Node.ofString url).text ++
      (", rev = ".toList ++ ((Node.ofString rev).text ++ " \x7d".toList))) := by
  have first : (Key.fresh "git").text = "git".toList := by decide
  have second : (Key.fresh "rev").text = "rev".toList := by decide
  have shape : (reference [("git", url), ("rev", rev)]).text = '\x7b' ::
      (WrittenField.print false ⟨[], .fresh "git", .unset, (Node.ofString url).text⟩ ++ ',' ::
        WrittenField.print true ⟨[], .fresh "rev", .unset, (Node.ofString rev).text⟩) ++ ['\x7d'] := rfl
  rw [shape, WrittenField.print_fresh, WrittenField.print_fresh, first, second]
  simp

theorem text_checkout (path : String) :
    (reference [("path", path)]).text =
      "\x7b path = ".toList ++ ((Node.ofString path).text ++ " \x7d".toList) := by
  have only : (Key.fresh "path").text = "path".toList := by decide
  have shape : (reference [("path", path)]).text = '\x7b' ::
      WrittenField.print true ⟨[], .fresh "path", .unset, (Node.ofString path).text⟩ ++ ['\x7d'] := rfl
  rw [shape, WrittenField.print_fresh, only]
  simp

end Target

namespace Document

theorem infix_text_at (document : Document)
    (legible : document.root.Each fun _ node => node.Legible .body) (place : List Step) (value : Node)
    (isValue : value.isValue = true) (there : document.at? place = some value) :
    value.text <:+: document.text := by
  cases place with
  | nil =>
    cases there
    cases isValue
  | cons step rest =>
    cases step with
    | index number => cases there
    | key name =>
      rw [at?_key] at there
      obtain ⟨node, found, below⟩ := Option.bind_eq_some_iff.mp there
      obtain ⟨key, member⟩ := document.root.exists_mem_of_get? name node found
      exact document.infix_text_of_shown key node member value.text
        (Node.states_at value isValue rest node (legible _ member) below [] [] key false)

theorem legible_redirect (source : String) (document : Document) (read : parse? source = some document)
    (target : Target) :
    (document.redirect target).result.root.Each fun _ node => node.Legible .body := by
  obtain ⟨-, high, sound⟩ := sound_of_of_text? _ document read
  exact (document.root.each_redirect target _ sound.each fun _ _ holds => holds.walked target).imp
    fun _ _ holds => holds.legible

theorem distinct_of_parse? (source : String) (document : Document)
    (read : parse? source = some document) : document.Distinct := by
  obtain ⟨-, high, sound⟩ := sound_of_of_text? _ document read
  exact Entries.distinct_of_legible .body _ ((Entries.sound_iff _ _ _).mp sound).1

theorem text_redirect (source : String) (document : Document) (read : parse? source = some document)
    (target : Target) (free : (document.redirect target).stuck = none) :
    ∀ entry ∈ document.pathDependencies, ∃ reference before after,
      target.answer entry.node = some reference ∧
      (document.redirect target).result.at? entry.place = some reference ∧
      (document.redirect target).result.text = before ++ (reference.text ++ after) := by
  intro entry member
  obtain ⟨reference, answered, placed⟩ :=
    document.at?_redirect target (distinct_of_parse? source document read) free entry member
  have isValue : reference.isValue = true := by
    obtain ⟨entries, -, replaced⟩ := Option.bind_eq_some_iff.mp answered
    cases target with
    | revision url rev =>
      cases replaced
      rfl
    | checkout base =>
      obtain ⟨path, -, rfl⟩ := Option.map_eq_some_iff.mp replaced
      rfl
  obtain ⟨before, after, stands⟩ := infix_text_at _ (legible_redirect source document read target)
    entry.place reference isValue placed
  exact ⟨reference, before, after, answered, placed, by rw [← stands, List.append_assoc]⟩

-- A string is written as a token that is read back wherever no quote follows it. And in the text that
-- comes of redirecting, what each path dependency gave way to holds such tokens: of the two strings of
-- a revision, or of the path behind the base of a checkout.
theorem redirect_strings (source : String) (document : Document) (read : parse? source = some document) :
    (∀ value rest, Quoted.Ends rest → Reader.TakesString value (Node.ofString value).text rest) ∧
    (∀ url rev, ∀ entry ∈ document.pathDependencies, ∃ before after,
      (document.redirect (.revision url rev)).result.at? entry.place =
        some (Target.reference [("git", url), ("rev", rev)]) ∧
      (document.redirect (.revision url rev)).result.text =
        before ++ ("\x7b git = ".toList ++ ((Node.ofString url).text ++
          (", rev = ".toList ++ ((Node.ofString rev).text ++ (" \x7d".toList ++ after))))) ∧
      Reader.TakesString url (Node.ofString url).text
        (", rev = ".toList ++ ((Node.ofString rev).text ++ (" \x7d".toList ++ after))) ∧
      Reader.TakesString rev (Node.ofString rev).text (" \x7d".toList ++ after)) ∧
    ∀ base, (document.redirect (.checkout base)).stuck = none →
      ∀ entry ∈ document.pathDependencies, ∃ path before after,
        entry.path? = some path ∧
        (document.redirect (.checkout base)).result.at? entry.place =
          some (Target.reference [("path", base ++ "/" ++ path)]) ∧
        (document.redirect (.checkout base)).result.text =
          before ++ ("\x7b path = ".toList ++
            ((Node.ofString (base ++ "/" ++ path)).text ++ (" \x7d".toList ++ after))) ∧
        Reader.TakesString (base ++ "/" ++ path) (Node.ofString (base ++ "/" ++ path)).text
          (" \x7d".toList ++ after) := by
  have blank (rest : Text) : Quoted.Ends (' ' :: rest) := ⟨by simp [Quoted.Parts], by simp [Quoted.Parts]⟩
  have comma (rest : Text) : Quoted.Ends (',' :: rest) := ⟨by simp [Quoted.Parts], by simp [Quoted.Parts]⟩
  refine ⟨Node.takes_string_of_string, fun url rev entry member => ?_, fun base free entry member => ?_⟩
  · obtain ⟨reference, before, after, answered, placed, stands⟩ := text_redirect source document read
      (.revision url rev) (document.root.pinned_redirect url rev).1 entry member
    rw [Target.answer_revision url rev entry (of_decide_eq_true (List.mem_filter.mp member).2).1]
      at answered
    cases answered
    refine ⟨before, after, placed, ?_, Node.takes_string_of_string url _ (comma _),
      Node.takes_string_of_string rev _ (blank _)⟩
    rw [stands, Target.text_revision]
    simp only [List.append_assoc]
  · obtain ⟨reference, before, after, answered, placed, stands⟩ :=
      text_redirect source document read (.checkout base) free entry member
    rw [Target.answer_checkout] at answered
    obtain ⟨path, own, rfl⟩ := Option.map_eq_some_iff.mp answered
    refine ⟨path, before, after, own, placed, ?_, Node.takes_string_of_string _ _ (blank _)⟩
    rw [stands, Target.text_checkout]
    simp only [List.append_assoc]

theorem redirect_strings_quotes :
    ∃ document before after,
      parse? "[[x]]\ny = [\x7b a.path = 'p' \x7d]\n" = some document ∧
      (document.redirect (.revision "" "'''\"\"\"\"\r\n")).result.text =
        before ++ ("\x7b git = \"\", rev = ".toList ++
          ("\"\"\"\n'''\"\"\\\"\"\\r\n\"\"\"".toList ++ (" \x7d".toList ++ after))) ∧
      Reader.TakesString "'''\"\"\"\"\r\n" "\"\"\"\n'''\"\"\\\"\"\\r\n\"\"\"".toList
        (" \x7d".toList ++ after) := by
  have fits : (parse? "[[x]]\ny = [\x7b a.path = 'p' \x7d]\n").map
      (fun document => document.pathDependencies.map (·.key.name)) = some ["a"] := by
    decide +kernel
  obtain ⟨document, read, names⟩ := Option.map_eq_some_iff.mp fits
  obtain ⟨entry, rest, all, -⟩ := List.map_eq_cons_iff.mp names
  have member : entry ∈ document.pathDependencies := by
    rw [all]
    exact List.mem_cons_self
  obtain ⟨before, after, -, text, -, taken⟩ :=
    (redirect_strings _ document read).2.1 "" "'''\"\"\"\"\r\n" entry member
  have empty : (Node.ofString "").text = "\"\"".toList := by decide
  have token : (Node.ofString "'''\"\"\"\"\r\n").text =
      "\"\"\"\n'''\"\"\\\"\"\\r\n\"\"\"".toList := by
    decide +kernel
  rw [token] at text taken
  rw [empty] at text
  exact ⟨document, before, after, read, by rw [text]; simp, taken⟩

end Document

end Reroot
