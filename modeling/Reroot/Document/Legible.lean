import Reroot.Document.Distinct
import Reroot.Document.Printer
import Reroot.Proofs.Tokens

set_option autoImplicit false

namespace Reroot

open Text

def Margin.Fits (before after : Text → Prop) (margin : Margin) : Prop :=
  (∀ text, margin.before = some text → before text) ∧
    ∀ text, margin.after = some text → after text

inductive Site where
  | element
  | braces
  | line
  | body
deriving DecidableEq, Repr

namespace Site

def spread : Site → Site
  | body => line
  | site => site

def Around (site : Site) (margin : Margin) : Prop :=
  match site with
  | element => True
  | braces => margin.Fits IsGap IsGap
  | line | body => margin.Fits IsGap IsBlanks

def Beside (site : Site) (margin : Margin) : Prop :=
  match site with
  | element | braces => margin.Fits IsGap IsGap
  | line | body => margin.Fits IsBlanks IsTail

end Site

def Key.Legible (key : Key) : Prop := key.Reads ∧ key.inner.Fits IsBlanks IsBlanks

namespace Node

def isValue : Node → Bool
  | scalar _ _ | array _ _ => true
  | inline style _ => !style.dotted
  | table _ _ | tables _ => false

def isSection : Node → Bool
  | table style _ => !style.dotted
  | scalar _ _ | array _ _ | inline _ _ | tables _ => false

-- Whether the key of a node fits it: the text around it is printed around the path to a value or
-- between the brackets of a header. There is none if the node is spread over dotted keys.
def Suits (site : Site) (key : Key) : Node → Prop
  | scalar _ _ | array _ _ => site.Around key.outer
  | inline style _ => site.Around key.outer ∧ (style.dotted = true → key.outer = .unset)
  | table style _ =>
    key.outer.Fits IsBlanks IsBlanks ∧ (style.dotted = true → key.outer = .unset)
  | tables _ => key.outer.Fits IsBlanks IsBlanks

end Node

theorem Node.table_of_is_section (node : Node) (isSection : node.isSection = true) :
    ∃ style entries, node = .table style entries ∧ style.dotted = false := by
  cases node with
  | table style entries => exact ⟨style, entries, rfl, by simpa [Node.isSection] using isSection⟩
  | scalar margin value => cases isSection
  | array style elements => cases isSection
  | inline style entries => cases isSection
  | tables elements => cases isSection

mutual
def Node.Legible (site : Site) : Node → Prop
  | .scalar margin value => site.Beside margin ∧ value.Reads
  | .array style elements =>
    site.Beside style.margin ∧ IsGap style.trailing ∧ elements.Legible .element
  | .inline style entries =>
    if style.dotted then site ≠ .element ∧ entries ≠ .nil ∧ entries.Legible site.spread
    else site.Beside style.margin ∧ IsGap style.preamble ∧ entries.Legible .braces
  | .table style entries =>
    site = .body ∧ (style.dotted = true ∨ style.margin.Fits IsGap IsTail) ∧ entries.Legible .body
  | .tables elements =>
    site = .body ∧ elements ≠ .nil ∧ (∀ node ∈ elements.toList, node.isSection = true) ∧
      elements.Legible .body
def Nodes.Legible (site : Site) : Nodes → Prop
  | .nil => True
  | .cons head tail => head.Legible site ∧ tail.Legible site
def Entries.Legible (site : Site) : Entries → Prop
  | .nil => True
  | .cons key node tail => key.name ∉ tail.names ∧ key.Legible ∧ node.Suits site key ∧
      node.Legible site ∧ tail.Legible site
end

def Field.Legible (site : Site) (field : Field) : Prop :=
  (∀ key ∈ field.parents, key.Legible) ∧ field.key.Legible ∧ site.Around field.key.outer ∧
    field.value.isValue = true ∧ field.value.Legible site

def Header.Legible (header : Header) : Prop :=
  (∀ key ∈ header.parents, key.Legible) ∧ header.key.Legible ∧
    header.key.outer.Fits IsBlanks IsBlanks ∧ header.margin.Fits IsGap IsTail

def Statement.Legible : Statement → Prop
  | .field line => line.Legible .line
  | .header line => line.Legible

def Document.Legible (document : Document) : Prop :=
  document.root.Legible .body ∧ IsTail document.trailing

mutual
theorem Node.distinct_of_legible (site : Site) :
    (node : Node) → node.Legible site → node.Distinct
  | .scalar _ _, _ => trivial
  | .array _ elements, legible => elements.distinct_of_legible _ legible.2.2
  | .inline style entries, legible => by
    rw [Node.Legible] at legible
    split at legible
    · exact entries.distinct_of_legible _ legible.2.2
    · exact entries.distinct_of_legible _ legible.2.2
  | .table _ entries, legible => entries.distinct_of_legible _ legible.2.2
  | .tables elements, legible => elements.distinct_of_legible _ legible.2.2.2
theorem Nodes.distinct_of_legible (site : Site) :
    (nodes : Nodes) → nodes.Legible site → nodes.Distinct
  | .nil, _ => trivial
  | .cons head tail, legible =>
    ⟨head.distinct_of_legible site legible.1, tail.distinct_of_legible site legible.2⟩
theorem Entries.distinct_of_legible (site : Site) :
    (entries : Entries) → entries.Legible site → entries.Distinct
  | .nil, _ => trivial
  | .cons _ node tail, legible =>
    ⟨legible.1, node.distinct_of_legible site legible.2.2.2.1,
      tail.distinct_of_legible site legible.2.2.2.2⟩
end

namespace Margin

theorem fits_unset (before after : Text → Prop) : unset.Fits before after := by
  constructor <;> intro text found <;> cases found

theorem fits_around (before after : Text → Prop) (first second : Text) (fits : before first)
    (fits' : after second) : (around first second).Fits before after := by
  constructor <;> intro text found <;> cases found <;> assumption

theorem Fits.before_get_d {before after : Text → Prop} {margin : Margin}
    (fits : margin.Fits before after) (default : Text) (holds : before default) :
    before (margin.before.getD default) := by
  cases found : margin.before with
  | none => exact holds
  | some text => exact fits.1 text found

theorem Fits.after_get_d {before after : Text → Prop} {margin : Margin}
    (fits : margin.Fits before after) (default : Text) (holds : after default) :
    after (margin.after.getD default) := by
  cases found : margin.after with
  | none => exact holds
  | some text => exact fits.2 text found

end Margin

theorem Node.legible_spread (site : Site) (node : Node) (whole : node.isValue = true)
    (legible : node.Legible site) : node.Legible site.spread := by
  cases site with
  | element => exact legible
  | braces => exact legible
  | line => exact legible
  | body =>
    cases node with
    | scalar margin value => exact legible
    | array style elements => exact legible
    | inline style entries =>
      have single : style.dotted = false := by simpa [isValue] using whole
      rw [Node.Legible, if_neg (by simp [single])] at legible ⊢
      exact legible
    | table style entries => cases whole
    | tables elements => cases whole

theorem Site.around_spread (site : Site) (margin : Margin) (around : site.Around margin) :
    site.spread.Around margin := by
  cases site <;> exact around

theorem Site.spread_spread (site : Site) : site.spread.spread = site.spread := by
  cases site <;> rfl

mutual
theorem Node.legible_fields (site : Site) (parents : List Key) (key : Key)
    (legibleParents : ∀ parent ∈ parents, parent.Legible) (legibleKey : key.Legible) :
    (node : Node) → node.Suits site key → node.Legible site →
      ∀ field ∈ node.fields parents key, field.Legible site.spread
  | .scalar margin value, suits, legible => by
    intro field member
    rw [Node.fields, List.mem_singleton] at member
    subst member
    exact ⟨legibleParents, legibleKey, site.around_spread _ suits, rfl,
      Node.legible_spread site _ rfl legible⟩
  | .array style elements, suits, legible => by
    intro field member
    rw [Node.fields, List.mem_singleton] at member
    subst member
    exact ⟨legibleParents, legibleKey, site.around_spread _ suits, rfl,
      Node.legible_spread site _ rfl legible⟩
  | .inline style entries, suits, legible => by
    intro field member
    rw [Node.fields] at member
    by_cases dotted : style.dotted = true
    · rw [if_pos dotted] at member
      rw [Node.Legible, if_pos dotted] at legible
      have inner := Entries.legible_fields site.spread (parents ++ [key])
        (by simpa [or_imp, forall_and] using ⟨legibleParents, legibleKey⟩)
        entries legible.2.2 field member
      rwa [Site.spread_spread] at inner
    · rw [if_neg dotted, List.mem_singleton] at member
      subst member
      have value : (Node.inline style entries).isValue = true := by simpa [Node.isValue] using dotted
      exact ⟨legibleParents, legibleKey, site.around_spread _ suits.1, value,
        Node.legible_spread site _ value legible⟩
  | .table style entries, suits, legible => by
    intro field member
    rw [Node.fields] at member
    by_cases dotted : style.dotted = true
    · rw [if_pos dotted] at member
      obtain ⟨rfl, -, inner⟩ := legible
      exact Entries.legible_fields .body (parents ++ [key])
        (by simpa [or_imp, forall_and] using ⟨legibleParents, legibleKey⟩)
        entries inner field member
    · rw [if_neg dotted] at member
      cases member
  | .tables _, _, _ => by
    intro field member
    cases member
theorem Entries.legible_fields (site : Site) (parents : List Key)
    (legibleParents : ∀ parent ∈ parents, parent.Legible) :
    (entries : Entries) → entries.Legible site →
      ∀ field ∈ entries.fields parents, field.Legible site.spread
  | .nil, _ => by
    intro field member
    cases member
  | .cons key node tail, legible => by
    intro field member
    obtain ⟨-, legibleKey, suits, legibleNode, legibleTail⟩ := legible
    rw [Entries.fields, List.mem_append] at member
    rcases member with here | later
    · exact Node.legible_fields site parents key legibleParents legibleKey node suits legibleNode
        field here
    · exact Entries.legible_fields site parents legibleParents tail legibleTail field later
end

def Section.Legible (part : Section) : Prop :=
  (∀ key ∈ part.path, key.Legible) ∧
    (∀ key, part.path.getLast? = some key → key.outer.Fits IsBlanks IsBlanks) ∧
    part.style.margin.Fits IsGap IsTail ∧ part.entries.Legible .body

mutual
theorem Node.legible_sections (path : List Key) (key : Key) (isElement : Bool)
    (legiblePath : ∀ key ∈ path, key.Legible) (legibleKey : key.Legible) :
    (node : Node) → node.Suits .body key → node.Legible .body →
      ∀ part ∈ node.sections (path ++ [key]) isElement, part.Legible
  | .scalar _ _, _, _ | .array _ _, _, _ | .inline _ _, _, _ => by
    intro part member
    cases member
  | .table style entries, suits, legible => by
    intro part member
    have legibleAll : ∀ other ∈ path ++ [key], other.Legible := by
      simpa [or_imp, forall_and] using ⟨legiblePath, legibleKey⟩
    obtain ⟨-, margin, inner⟩ := legible
    rw [Node.sections, List.mem_append] at member
    rcases member with own | deeper
    · by_cases dotted : style.dotted = true
      · rw [if_pos dotted] at own
        cases own
      · rw [if_neg dotted, List.mem_singleton] at own
        subst own
        refine ⟨legibleAll, ?_, margin.resolve_left dotted, inner⟩
        intro last found
        rw [List.getLast?_concat] at found
        exact Option.some.inj found ▸ suits.1
    · exact Entries.legible_sections (path ++ [key]) legibleAll entries inner part deeper
  | .tables elements, suits, legible => by
    intro part member
    exact Nodes.legible_sections path key legiblePath legibleKey suits elements legible.2.2.1
      legible.2.2.2 part member
theorem Nodes.legible_sections (path : List Key) (key : Key)
    (legiblePath : ∀ key ∈ path, key.Legible) (legibleKey : key.Legible)
    (blank : key.outer.Fits IsBlanks IsBlanks) :
    (nodes : Nodes) → (∀ node ∈ nodes.toList, node.isSection = true) → nodes.Legible .body →
      ∀ part ∈ nodes.sections (path ++ [key]), part.Legible
  | .nil, _, _ => by
    intro part member
    cases member
  | .cons head tail, sections, legible => by
    intro part member
    rw [Nodes.sections, List.mem_append] at member
    rcases member with first | later
    · obtain ⟨style, entries, rfl, headed⟩ := head.table_of_is_section (sections _ List.mem_cons_self)
      have suits : (Node.table style entries).Suits .body key :=
        ⟨blank, fun dotted => by simp [headed] at dotted⟩
      exact Node.legible_sections path key true legiblePath legibleKey _ suits legible.1
        part first
    · exact Nodes.legible_sections path key legiblePath legibleKey blank tail
        (fun node member => sections node (List.mem_cons_of_mem _ member)) legible.2 part later
theorem Entries.legible_sections (path : List Key) (legiblePath : ∀ key ∈ path, key.Legible) :
    (entries : Entries) → entries.Legible .body →
      ∀ part ∈ entries.sections path, part.Legible
  | .nil, _ => by
    intro part member
    cases member
  | .cons key node tail, legible => by
    intro part member
    obtain ⟨-, legibleKey, suits, legibleNode, legibleTail⟩ := legible
    rw [Entries.sections, List.mem_append] at member
    rcases member with here | later
    · exact Node.legible_sections path key false legiblePath legibleKey node suits legibleNode
        part here
    · exact Entries.legible_sections path legiblePath tail legibleTail part later
end

namespace Section.Legible

variable {part : Section}

theorem legible_header (legible : part.Legible) (other : Section) (path : other.path = part.path)
    (style : other.style = part.style) : ∀ header ∈ other.header?, header.Legible := by
  obtain ⟨legiblePath, blank, margin, -⟩ := legible
  rw [← path] at legiblePath blank
  rw [← style] at margin
  intro header found
  obtain ⟨key, last, rfl⟩ := header?_eq_some found
  exact ⟨fun parent member => legiblePath parent (List.dropLast_subset _ member),
    legiblePath key (List.mem_of_getLast? last), blank key last, margin⟩

theorem legible_statements (legible : part.Legible) : ∀ statement ∈ part.statements, statement.Legible := by
  intro statement member
  rw [Section.statements, List.mem_append] at member
  rcases member with top | line
  · obtain ⟨header, found, rfl⟩ := List.mem_map.mp top
    exact legible.legible_header part rfl rfl header (Option.mem_toList.mp found)
  · obtain ⟨field, found, rfl⟩ := List.mem_map.mp line
    exact Entries.legible_fields .body [] (by simp) part.entries legible.2.2.2 field found

end Section.Legible

end Reroot
