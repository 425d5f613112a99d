import Reroot.Document.Comment
import Reroot.Document.Reader
import Reroot.Proofs.Calm
import Reroot.Proofs.Moved
import Reroot.Proofs.Verbatim

set_option autoImplicit false

namespace Reroot

open Text

namespace Text

theorem infix_of_mem_comments (inComment : Bool) (text comment : Text)
    (member : comment ∈ comments inComment text) : comment <:+: text := by
  induction text generalizing inComment with
  | nil => cases member
  | cons c rest ih =>
    have later : ∀ inComment, comment ∈ comments inComment rest → comment <:+: c :: rest :=
      fun inComment inside => (ih inComment inside).trans (List.suffix_cons c rest).isInfix
    rw [comments] at member
    split at member
    · exact later false member
    split at member
    · exact later true member
    split at member
    · rcases List.mem_cons.mp member with rfl | inside
      · exact ((List.prefix_cons_inj c).mpr (List.takeWhile_prefix _)).isInfix
      · exact later true inside
    · exact later false member

theorem comments_of_is_blanks (text : Text) (blanks : IsBlanks text) : comments false text = [] := by
  induction text with
  | nil => rfl
  | cons c rest ih =>
    obtain ⟨blank, more⟩ := List.forall_mem_cons.mp (List.all_eq_true.mp blanks)
    have plain : c ≠ '\n' ∧ c ≠ '#' := by
      rcases is_blank_cases blank with rfl | rfl <;> decide
    rw [comments, if_neg plain.1, if_neg Bool.false_ne_true, if_neg plain.2]
    exact ih (List.all_eq_true.mpr more)

end Text

namespace Margin

theorem infix_wrap (margin : Margin) (comment : Text) (member : comment ∈ margin.comments)
    (before after text : Text) : comment <:+: margin.wrap before after text := by
  rw [wrap]
  rcases List.mem_append.mp member with ahead | behind
  · cases found : margin.before with
    | none =>
      rw [found] at ahead
      cases ahead
    | some own =>
      rw [found] at ahead
      refine (infix_of_mem_comments _ _ _ ahead).trans ?_
      exact ((List.prefix_append _ _).trans (List.prefix_append _ _)).isInfix
  · cases found : margin.after with
    | none =>
      rw [found] at behind
      cases behind
    | some own =>
      rw [found] at behind
      exact (infix_of_mem_comments _ _ _ behind).trans (List.suffix_append _ _).isInfix

theorem infix_wrapped (margin : Margin) (before after text : Text) :
    text <:+: margin.wrap before after text := ⟨_, _, rfl⟩

theorem comments_of_blanks (margin : Margin) (fits : margin.Fits IsBlanks IsBlanks) :
    margin.comments = [] := by
  rw [comments, comments_of_is_blanks _ (fits.before_get_d [] rfl),
    comments_of_is_blanks _ (fits.after_get_d [] rfl), List.append_nil]

end Margin

theorem Key.comments_of_legible (key : Key) (legible : key.Legible) :
    key.comments = key.outer.comments := by
  rw [comments, key.inner.comments_of_blanks legible.2, List.append_nil]

theorem Key.comments_of_suits (site : Site) (key : Key) (node : Node) (legible : key.Legible)
    (suits : node.Suits site key) (spread : node.isValue = false) : key.comments = [] := by
  rw [key.comments_of_legible legible]
  cases node with
  | scalar margin value => cases spread
  | array style elements => cases spread
  | inline style entries =>
    rw [suits.2 (by simpa [Node.isValue] using spread)]
    rfl
  | table style entries => exact key.outer.comments_of_blanks suits.1
  | tables elements => exact key.outer.comments_of_blanks suits

def Field.Shows (comment : Text) (line : Field) : Prop :=
  comment ∈ line.key.outer.comments ∨
    ∀ before after, comment <:+: line.value.margin.wrap before after line.value.text

namespace Field.Shows

variable {comment : Text} {line : Field}

theorem infix_path_value (shown : line.Shows comment) (before after before' after' : Text) :
    comment <:+: Key.pathText before after line.parents line.key ++
      '=' :: line.value.margin.wrap before' after' line.value.text := by
  rcases shown with beside | inside
  · have path : comment <:+: Key.pathText before after line.parents line.key :=
      line.key.outer.infix_wrap comment beside _ _ _
    exact path.trans (List.prefix_append _ _).isInfix
  · exact (inside _ _).trans ((List.suffix_cons '=' _).trans (List.suffix_append _ _)).isInfix

theorem infix_text (shown : line.Shows comment) : comment <:+: line.text :=
  (shown.infix_path_value _ _ _ _).trans (List.prefix_append _ _).isInfix

theorem infix_print (shown : line.Shows comment) (isLast : Bool) :
    comment <:+: line.written.print isLast :=
  shown.infix_path_value _ _ _ _

end Field.Shows

theorem WrittenField.infix_print_all (list : List WrittenField) (field : WrittenField)
    (member : field ∈ list) : ∃ isLast, field.print isLast <:+: printAll list := by
  induction list with
  | nil => cases member
  | cons first rest ih =>
    cases rest with
    | nil =>
      obtain rfl := List.mem_singleton.mp member
      exact ⟨true, List.infix_rfl⟩
    | cons second rest =>
      have all : printAll (first :: second :: rest) =
        first.print false ++ ',' :: printAll (second :: rest) := rfl
      rw [all]
      rcases List.mem_cons.mp member with rfl | later
      · exact ⟨false, (List.prefix_append _ _).isInfix⟩
      · obtain ⟨isLast, inside⟩ := ih later
        exact ⟨isLast, inside.trans ((List.suffix_cons ',' _).trans (List.suffix_append _ _)).isInfix⟩

theorem Key.shows_comments (site : Site) (key : Key) (node : Node) (legible : key.Legible)
    (suits : node.Suits site key) (comment : Text) (member : comment ∈ key.comments)
    (parents : List Key) : ∃ line ∈ node.fields parents key, line.Shows comment := by
  cases isValue : node.isValue with
  | true =>
    rw [node.fields_of_is_value parents key isValue]
    rw [key.comments_of_legible legible] at member
    exact ⟨_, List.mem_singleton_self _, .inl member⟩
  | false =>
    rw [key.comments_of_suits site node legible suits isValue] at member
    cases member

theorem ArrayStyle.infix_enclose (style : ArrayStyle) (isEmpty : Bool) (elements : Text) :
    elements <:+: style.enclose isEmpty elements ∧ style.trailing <:+: style.enclose isEmpty elements := by
  constructor
  · exact (List.suffix_cons '[' elements).isInfix.trans
      ((List.prefix_append _ _).trans ((List.prefix_append _ _).trans (List.prefix_append _ _))).isInfix
  · exact (List.suffix_append _ _).isInfix.trans (List.prefix_append _ _).isInfix

theorem InlineStyle.infix_enclose (style : InlineStyle) (fields : List WrittenField) :
    style.preamble <:+: style.enclose fields ∧
      WrittenField.printAll fields <:+: style.enclose fields := by
  constructor
  · exact (List.suffix_cons '\x7b' _).isInfix.trans
      ((List.prefix_append _ _).trans (List.prefix_append _ _)).isInfix
  · exact (List.suffix_append _ _).isInfix.trans (List.prefix_append _ _).isInfix

mutual
theorem Node.shows_comments (site : Site) : (node : Node) → node.Legible site →
    ∀ comment ∈ node.comments,
      (node.isValue = true → ∀ before after, comment <:+: node.margin.wrap before after node.text) ∧
      (site ≠ .body → ∀ parents key, ∃ line ∈ node.fields parents key, line.Shows comment)
  | .scalar margin value, _, comment, member => by
    have inside : ∀ before after, comment <:+: margin.wrap before after value.text :=
      fun before after => margin.infix_wrap comment member before after value.text
    exact ⟨fun _ => inside, fun _ parents key => ⟨_, List.mem_singleton_self _, .inr inside⟩⟩
  | .array style elements, legible, comment, member => by
    have inside : ∀ before after,
        comment <:+: style.margin.wrap before after (Node.array style elements).text := by
      intro before after
      obtain ⟨within, trailing⟩ := style.infix_enclose elements.isEmpty (elements.text true)
      rcases List.mem_append.mp member with member | behind
      · rcases List.mem_append.mp member with around | inner
        · exact style.margin.infix_wrap comment around _ _ _
        · exact ((Nodes.shows_comments true elements legible.2.2 comment inner).trans within).trans
            (style.margin.infix_wrapped _ _ _)
      · exact ((infix_of_mem_comments _ _ _ behind).trans trailing).trans
          (style.margin.infix_wrapped _ _ _)
    exact ⟨fun _ => inside, fun _ parents key => ⟨_, List.mem_singleton_self _, .inr inside⟩⟩
  | .inline style entries, legible, comment, member => by
    rw [Node.Legible] at legible
    rw [Node.comments] at member
    by_cases spread : style.dotted = true
    · rw [if_pos spread] at legible member
      refine ⟨fun isValue => ?_, fun outside parents key => ?_⟩
      · simp [Node.isValue, spread] at isValue
      · rw [Node.fields, if_pos spread]
        exact Entries.shows_comments site.spread entries legible.2.2
          (by cases site <;> simp_all [Site.spread])
          comment member (parents ++ [key])
    · rw [if_neg spread] at legible member
      have inside : ∀ before after,
          comment <:+: style.margin.wrap before after (Node.inline style entries).text := by
        intro before after
        obtain ⟨preamble, within⟩ := style.infix_enclose (entries.written [])
        rcases List.mem_append.mp member with member | inner
        · rcases List.mem_append.mp member with around | behind
          · exact style.margin.infix_wrap comment around _ _ _
          · exact ((infix_of_mem_comments _ _ _ behind).trans preamble).trans
              (style.margin.infix_wrapped _ _ _)
        · obtain ⟨line, there, shown⟩ :=
            Entries.shows_comments .braces entries legible.2.2 nofun comment inner []
          have written : line.written ∈ entries.written [] := by
            rw [Entries.written_eq]
            exact List.mem_map_of_mem there
          obtain ⟨isLast, printed⟩ := WrittenField.infix_print_all _ _ written
          exact (((shown.infix_print isLast).trans printed).trans within).trans
            (style.margin.infix_wrapped _ _ _)
      refine ⟨fun _ => inside, fun _ parents key => ?_⟩
      rw [Node.fields, if_neg spread]
      exact ⟨_, List.mem_singleton_self _, .inr inside⟩
  | .table style entries, legible, comment, member => by
    exact ⟨nofun, fun outside => absurd legible.1 outside⟩
  | .tables elements, legible, comment, member => by
    exact ⟨nofun, fun outside => absurd legible.1 outside⟩
theorem Nodes.shows_comments (isFirst : Bool) : (nodes : Nodes) → nodes.Legible .element →
    ∀ comment ∈ nodes.comments, comment <:+: nodes.text isFirst
  | .nil, _, comment, member => by cases member
  | .cons head tail, legible, comment, member => by
    rw [Nodes.text]
    rcases List.mem_append.mp member with here | later
    · have first := (Node.shows_comments .element head legible.1 comment here).1
        (head.is_value_of_element legible.1)
      refine List.IsInfix.trans ?_ (List.prefix_append _ _).isInfix
      split
      · exact first [] []
      · exact (first [' '] []).trans (List.suffix_cons ',' _).isInfix
    · exact (Nodes.shows_comments false tail legible.2 comment later).trans
        (List.suffix_append _ _).isInfix
theorem Entries.shows_comments (site : Site) : (entries : Entries) → entries.Legible site →
    site ≠ .body → ∀ comment ∈ entries.comments, ∀ parents,
      ∃ line ∈ entries.fields parents, line.Shows comment
  | .nil, _, _, comment, member, parents => by cases member
  | .cons key node tail, legible, outside, comment, member, parents => by
    obtain ⟨-, read, suits, inner, later⟩ := legible
    rw [Entries.fields]
    rcases List.mem_append.mp member with member | behind
    · rcases List.mem_append.mp member with above | within
      · obtain ⟨line, there, shown⟩ :=
          key.shows_comments site node read suits comment above parents
        exact ⟨line, List.mem_append_left _ there, shown⟩
      · obtain ⟨line, there, shown⟩ :=
          (Node.shows_comments site node inner comment within).2 outside parents key
        exact ⟨line, List.mem_append_left _ there, shown⟩
    · obtain ⟨line, there, shown⟩ :=
        Entries.shows_comments site tail later outside comment behind parents
      exact ⟨line, List.mem_append_right _ there, shown⟩
end

def Section.Shows (comment : Text) (part : Section) : Prop :=
  ∃ statement ∈ part.statements, ∀ isFirst, comment <:+: statement.text isFirst

namespace Section

theorem shows_line (comment : Text) (part : Section) (line : Field)
    (there : line ∈ part.entries.fields []) (shown : line.Shows comment) : part.Shows comment :=
  ⟨.field line, List.mem_append_right _ (List.mem_map_of_mem there), fun _ => shown.infix_text⟩

theorem shows_header (comment : Text) (path : List Key) (key : Key) (isElement : Bool)
    (style : TableStyle) (entries : Entries) (own : style.implicit = false)
    (member : comment ∈ style.margin.comments) :
    Section.Shows comment ⟨path ++ [key], isElement, style, entries⟩ := by
  have header : header? ⟨path ++ [key], isElement, style, entries⟩ =
      some ⟨path, key, isElement, style.margin⟩ := by
    simp [header?, own]
  refine ⟨.header ⟨path, key, isElement, style.margin⟩, ?_, fun isFirst => ?_⟩
  · rw [statements, header]
    exact List.mem_cons_self
  · exact (style.margin.infix_wrap comment member _ _ _).trans (List.prefix_append _ _).isInfix

end Section

mutual
theorem Node.states_comments : (node : Node) → node.Legible .body → ∀ comment ∈ node.comments,
    ∀ parents path key isElement, (∃ line ∈ node.fields parents key, line.Shows comment) ∨
      ∃ part ∈ node.sections (path ++ [key]) isElement, part.Shows comment
  | .scalar margin value, legible, comment, member, parents, path, key, isElement =>
    .inl ⟨_, List.mem_singleton_self _,
      .inr ((Node.shows_comments .body (.scalar margin value) legible comment member).1 rfl)⟩
  | .array style elements, legible, comment, member, parents, path, key, isElement =>
    .inl ⟨_, List.mem_singleton_self _,
      .inr ((Node.shows_comments .body (.array style elements) legible comment member).1 rfl)⟩
  | .inline style entries, legible, comment, member, parents, path, key, isElement => by
    refine .inl ?_
    rw [Node.fields]
    split
    · case isTrue spread =>
      rw [Node.Legible, if_pos spread] at legible
      rw [Node.comments, if_pos spread] at member
      exact Entries.shows_comments .line entries legible.2.2 nofun comment member (parents ++ [key])
    · case isFalse single =>
      exact ⟨_, List.mem_singleton_self _, .inr ((Node.shows_comments .body (.inline style entries) legible
        comment member).1 (by simpa [Node.isValue] using single))⟩
  | .table style entries, ⟨_, _, legible⟩, comment, member, parents, path, key, isElement => by
    rw [Node.comments] at member
    rw [Node.fields, Node.sections]
    by_cases spread : style.dotted = true
    · rw [if_pos (by rw [spread]; rfl)] at member
      rw [if_pos spread, if_pos spread]
      exact Entries.states_comments entries legible comment member (parents ++ [key]) (path ++ [key])
    -- The lines of a table that is not dotted stand under its own header.
    · rw [if_neg spread, if_neg spread]
      refine .inr ?_
      rcases List.mem_append.mp member with around | inner
      · split at around
        · cases around
        · case isFalse written =>
          exact ⟨_, List.mem_cons_self,
            Section.shows_header comment path key isElement style entries (by simp_all) around⟩
      · rcases Entries.states_comments entries legible comment inner [] (path ++ [key]) with
          ⟨line, there, shown⟩ | ⟨part, there, shown⟩
        · exact ⟨_, List.mem_cons_self, Section.shows_line comment _ line there shown⟩
        · exact ⟨part, List.mem_cons_of_mem _ there, shown⟩
  | .tables elements, ⟨_, _, isSection, legible⟩, comment, member, parents, path, key, isElement =>
    .inr (Nodes.states_comments elements legible isSection comment member path key)
theorem Nodes.states_comments : (nodes : Nodes) → nodes.Legible .body →
    (∀ node ∈ nodes.toList, node.isSection = true) → ∀ comment ∈ nodes.comments, ∀ path key,
      ∃ part ∈ nodes.sections (path ++ [key]), part.Shows comment
  | .nil, _, _, comment, member, path, key => by cases member
  | .cons head tail, legible, isSection, comment, member, path, key => by
    obtain ⟨first, rest⟩ := List.forall_mem_cons.mp isSection
    rw [Nodes.sections]
    rcases List.mem_append.mp member with here | later
    · rcases Node.states_comments head legible.1 comment here [] path key true with
        ⟨line, there, -⟩ | ⟨part, there, shown⟩
      · obtain ⟨style, entries, rfl, single⟩ := head.table_of_is_section first
        rw [Node.fields, if_neg (by simp [single])] at there
        cases there
      · exact ⟨part, List.mem_append_left _ there, shown⟩
    · obtain ⟨part, there, shown⟩ :=
        Nodes.states_comments tail legible.2 rest comment later path key
      exact ⟨part, List.mem_append_right _ there, shown⟩
theorem Entries.states_comments : (entries : Entries) → entries.Legible .body →
    ∀ comment ∈ entries.comments, ∀ parents path,
      (∃ line ∈ entries.fields parents, line.Shows comment) ∨
        ∃ part ∈ entries.sections path, part.Shows comment
  | .nil, _, comment, member, parents, path => by cases member
  | .cons key node tail, ⟨_, read, suits, inner, later⟩, comment, member, parents, path => by
    rw [Entries.fields, Entries.sections]
    rcases List.mem_append.mp member with member | behind
    · rcases List.mem_append.mp member with above | within
      · obtain ⟨line, there, shown⟩ :=
          key.shows_comments .body node read suits comment above parents
        exact .inl ⟨line, List.mem_append_left _ there, shown⟩
      · rcases Node.states_comments node inner comment within parents path key false with
          ⟨line, there, shown⟩ | ⟨part, there, shown⟩
        · exact .inl ⟨line, List.mem_append_left _ there, shown⟩
        · exact .inr ⟨part, List.mem_append_left _ there, shown⟩
    · rcases Entries.states_comments tail later comment behind parents path with
        ⟨line, there, shown⟩ | ⟨part, there, shown⟩
      · exact .inl ⟨line, List.mem_append_right _ there, shown⟩
      · exact .inr ⟨part, List.mem_append_right _ there, shown⟩
end

namespace Document

theorem infix_text_of_shown (document : Document) (key : Key) (node : Node)
    (there : (key, node) ∈ document.root.toList) (shown : Text)
    (shows : (∃ line ∈ node.fields [] key, line.Shows shown) ∨
      ∃ part ∈ node.sections [key] false, part.Shows shown) : shown <:+: document.text := by
  have printed : ∃ statement ∈ document.root.statements, ∀ isFirst,
      shown <:+: statement.text isFirst := by
    rcases shows with ⟨line, inside, here⟩ | ⟨part, inside, statement, own, here⟩
    · refine ⟨.field line, (document.root.mem_statements _).mpr (.inl ⟨line, ?_, rfl⟩),
        fun _ => here.infix_text⟩
      exact (document.root.mem_fields [] line).mpr ⟨_, there, inside⟩
    · refine ⟨statement, (document.root.mem_statements _).mpr (.inr ⟨part, ?_, own⟩), here⟩
      exact (document.root.mem_sections [] part).mpr ⟨_, there, inside⟩
  obtain ⟨statement, stated, here⟩ := printed
  obtain ⟨isFirst, stands⟩ := Statement.infix_print_all _ statement stated
  exact ((here isFirst).trans stands).trans (List.prefix_append _ _).isInfix

theorem infix_text_of_comment (document : Document) (key : Key) (node : Node)
    (there : (key, node) ∈ document.root.toList) (legible : node.Legible .body) (comment : Text)
    (member : comment ∈ node.comments) : comment <:+: document.text :=
  document.infix_text_of_shown key node there comment
    (node.states_comments legible comment member [] [] key false)

theorem mem_lift_workspace (document : Document) (style : TableStyle) (entries : Entries)
    (found : document.root.get? "workspace" = some (.table style entries))
    (distinct : entries.names.Nodup) (key : Key) (node : Node) (member : (key, node) ∈ entries.toList)
    (moved : key.name ∈ document.liftWorkspace.2.keys.moved) :
    (.fresh key.name, node) ∈ document.liftWorkspace.1.root.toList := by
  rw [document.lift_workspace_of_section _ entries found rfl] at moved ⊢
  change key.name ∈ (Workspace.lift (document.root.erase "workspace") entries).2.moved at moved
  rw [Workspace.keys_lift _ entries distinct] at moved
  change _ ∈ (Workspace.lift (document.root.erase "workspace") entries).1.toList
  rw [Workspace.to_list_lift _ entries distinct]
  refine List.mem_append_right _ (List.mem_map.mpr ⟨_, List.mem_filter.mpr ⟨member, ?_⟩, rfl⟩)
  exact (List.mem_filter.mp moved).2

-- What moves up from a section `workspace` stands at the top as it was, under a key made anew. So the
-- comments in it are printed, and it has all those it had if its key had none of its own, which only
-- the key of a value can have.
theorem lift_workspace_comments (source : String) (document : Document)
    (read : parse? source = some document) (style : TableStyle) (entries : Entries)
    (found : document.root.get? "workspace" = some (.table style entries)) (key : Key) (node : Node)
    (member : (key, node) ∈ entries.toList)
    (moved : key.name ∈ document.liftWorkspace.2.keys.moved) :
    document.liftWorkspace.1.root.keyed? key.name = some (.fresh key.name, node) ∧
    (∀ comment ∈ node.comments, comment <:+: document.liftWorkspace.1.text) ∧
    (document.liftWorkspace.1.root.commentsOf key.name = entries.commentsOf key.name ↔
      key.comments = []) ∧
    (node.isValue = false → key.comments = []) := by
  obtain ⟨-, high, sound⟩ := sound_of_of_text? _ document read
  obtain ⟨legible, -, -⟩ := (Entries.sound_iff _ _ _).mp sound
  obtain ⟨_, _, holds⟩ := Entries.each_get? _ _ sound.each _ _ found
  have own := Entries.sound_of_holds holds
  have entry := own.each (key, node) member
  have there := document.mem_lift_workspace style entries found own.distinct key node member moved
  have distinct := document.distinct_lift_workspace (Entries.distinct_of_legible _ _ legible)
  have placed : document.liftWorkspace.1.root.keyed? key.name = some (.fresh key.name, node) :=
    Entries.keyed?_of_mem _ (Entries.names_nodup _ distinct) _ there
  refine ⟨placed, fun comment inside => ?_, ?_, fun spread => ?_⟩
  · exact infix_text_of_comment _ _ node there entry.legible comment inside
  · have before : entries.keyed? key.name = some (key, node) :=
      entries.keyed?_of_mem own.distinct _ member
    rw [Entries.commentsOf, Entries.commentsOf, placed, before]
    exact List.self_eq_append_left
  · exact key.comments_of_suits .body node entry.read entry.suits spread

theorem lift_workspace_comments_of_header :
    ∃ document style entries key node,
      parse? "[workspace]\nb = 1\n# head\n[workspace.a] # line\n# key\nx = [ # in\n 1 ] # end\n" =
        some document ∧
      document.root.get? "workspace" = some (.table style entries) ∧ (key, node) ∈ entries.toList ∧
      key.name = "a" ∧
      node.comments = ["# head", "# line", "# key", "# end", "# in"].map String.toList ∧
      (∀ comment ∈ node.comments, comment <:+: document.liftWorkspace.1.text) ∧
      document.liftWorkspace.1.root.commentsOf key.name = entries.commentsOf key.name := by
  have fits : ((parse?
      "[workspace]\nb = 1\n# head\n[workspace.a] # line\n# key\nx = [ # in\n 1 ] # end\n").bind
      fun document => (document.root.get? "workspace").bind fun node => node.entries?.bind
      fun entries => (entries.keyed? "a").map fun entry => (node.isSection,
        document.liftWorkspace.2.keys.moved, entry.1.comments, entry.2.comments)) =
      some (true, ["b", "a"], [], ["# head", "# line", "# key", "# end", "# in"].map String.toList) := by
    decide +kernel
  obtain ⟨document, read, fits⟩ := Option.bind_eq_some_iff.mp fits
  obtain ⟨node, found, fits⟩ := Option.bind_eq_some_iff.mp fits
  obtain ⟨entries, inner, fits⟩ := Option.bind_eq_some_iff.mp fits
  obtain ⟨⟨key, own⟩, there, fits⟩ := Option.map_eq_some_iff.mp fits
  simp only [Prod.mk.injEq] at fits
  obtain ⟨isSection, moved, plain, comments⟩ := fits
  obtain ⟨style, entries, rfl, -⟩ := node.table_of_is_section isSection
  cases inner
  obtain ⟨member, name⟩ := entries.mem_of_keyed? _ _ there
  obtain ⟨-, printed, same, -⟩ := lift_workspace_comments _ document read style entries found key own
    member (by rw [moved, show key.name = "a" from name]; decide)
  exact ⟨document, style, entries, key, own, read, found, member, name, comments, printed,
    same.mpr plain⟩

-- A comment above the key of a value is lost.
theorem lift_workspace_loses_comment :
    ∃ document style entries key node comment,
      parse? "[workspace]\n# why\na = 1\n" = some document ∧
      document.root.get? "workspace" = some (.table style entries) ∧ (key, node) ∈ entries.toList ∧
      key.name ∈ document.liftWorkspace.2.keys.moved ∧ comment ∈ entries.commentsOf key.name ∧
      document.liftWorkspace.1.text = "a = 1\n".toList ∧
      ¬ comment <:+: document.liftWorkspace.1.text := by
  have fails : ((parse? "[workspace]\n# why\na = 1\n").bind fun document =>
      (document.root.get? "workspace").bind fun node => node.entries?.bind fun entries =>
      (entries.keyed? "a").map fun _ => (node.isSection, document.liftWorkspace.2.keys.moved,
        entries.commentsOf "a", document.liftWorkspace.1.text)) =
      some (true, ["a"], ["# why".toList], "a = 1\n".toList) := by
    decide +kernel
  obtain ⟨document, read, fails⟩ := Option.bind_eq_some_iff.mp fails
  obtain ⟨node, found, fails⟩ := Option.bind_eq_some_iff.mp fails
  obtain ⟨entries, inner, fails⟩ := Option.bind_eq_some_iff.mp fails
  obtain ⟨⟨key, own⟩, there, fails⟩ := Option.map_eq_some_iff.mp fails
  simp only [Prod.mk.injEq] at fails
  obtain ⟨isSection, moved, comments, text⟩ := fails
  obtain ⟨style, entries, rfl, -⟩ := node.table_of_is_section isSection
  cases inner
  obtain ⟨member, name⟩ := entries.mem_of_keyed? _ _ there
  have name : key.name = "a" := name
  refine ⟨document, style, entries, key, own, "# why".toList, read, found, member, ?_, ?_, text, ?_⟩
  · rw [moved, name]
    decide
  · rw [name, comments]
    exact List.mem_singleton_self _
  · rw [text]
    decide +kernel

end Document

end Reroot
