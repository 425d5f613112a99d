import Mathlib.Data.List.Forall2
import Reroot.Document.Legible

set_option autoImplicit false

namespace Reroot

open Text

mutual
def Node.within (depth : Nat) : Node → Bool
  | .scalar _ _ => true
  | .array _ elements => decide (0 < depth) && elements.within (depth - 1)
  | .inline style entries =>
    if style.dotted then entries.within depth
    else decide (0 < depth) && entries.within (depth - 1) &&
      (entries.fields []).all fun field => decide (field.parents.length < Reader.limit)
  | .table _ entries => entries.within depth
  | .tables elements => elements.within depth
def Nodes.within (depth : Nat) : Nodes → Bool
  | .nil => true
  | .cons head tail => head.within depth && tail.within depth
def Entries.within (depth : Nat) : Entries → Bool
  | .nil => true
  | .cons _ node tail => node.within depth && tail.within depth
end

def Field.within (depth : Nat) (field : Field) : Bool :=
  decide (field.parents.length < Reader.limit) && field.value.within depth

mutual
theorem Node.within_fields (depth : Nat) (parents : List Key) (key : Key) :
    (node : Node) → node.within depth = true →
      ∀ field ∈ node.fields parents key, field.value.within depth = true
  | .scalar _ _, within, field, member
  | .array _ _, within, field, member => by
    rw [Node.fields, List.mem_singleton] at member
    rw [member]
    exact within
  | .inline style entries, within, field, member => by
    rw [Node.fields] at member
    by_cases dotted : style.dotted = true
    · rw [if_pos dotted] at member
      rw [Node.within, if_pos dotted] at within
      exact Entries.within_fields depth _ entries within field member
    · rw [if_neg dotted, List.mem_singleton] at member
      rw [member]
      exact within
  | .table style entries, within, field, member => by
    rw [Node.fields] at member
    by_cases dotted : style.dotted = true
    · rw [if_pos dotted] at member
      exact Entries.within_fields depth _ entries within field member
    · rw [if_neg dotted] at member
      cases member
  | .tables _, _, field, member => by cases member
theorem Entries.within_fields (depth : Nat) (parents : List Key) :
    (entries : Entries) → entries.within depth = true →
      ∀ field ∈ entries.fields parents, field.value.within depth = true
  | .nil, _, field, member => by cases member
  | .cons key node tail, within, field, member => by
    have both : node.within depth = true ∧ tail.within depth = true := by
      simpa [Entries.within] using within
    rw [Entries.fields, List.mem_append] at member
    rcases member with here | later
    · exact Node.within_fields depth parents key node both.1 field here
    · exact Entries.within_fields depth parents tail both.2 field later
end

structure Field.Says (field same : Field) : Prop where
  parents : same.parents.map (·.name) = field.parents.map (·.name)
  name : same.key.name = field.key.name
  data : same.value.data = field.value.data
  isValue : same.value.isValue = true

namespace Text

def EndsPath (rest : Text) : Prop :=
  EndsKey rest ∧ ∀ c, rest.head? = some c → isBlank c = false ∧ c ≠ '.'

theorem ends_path_cons (c : Char) (rest : Text) (stop : c = '=' ∨ c = ']' ∨ c = '\n' ∨ c = '#') :
    EndsPath (c :: rest) := by
  constructor
  · intro d found
    cases found
    rcases stop with rfl | rfl | rfl | rfl <;> decide
  · intro d found
    cases found
    rcases stop with rfl | rfl | rfl | rfl <;> decide

theorem ends_key_of_blanks (blanks rest : Text) (isBlanks : IsBlanks blanks) (ends : EndsKey rest) :
    EndsKey (blanks ++ rest) := by
  cases blanks with
  | nil => exact ends
  | cons c blanks =>
    intro d found
    cases found
    have blank : isBlank c = true := (Bool.and_eq_true_iff.mp isBlanks).1
    rcases is_blank_cases blank with rfl | rfl <;> decide

def isStop (c : Char) : Bool := c == ',' || c == ']' || c == '\x7d' || c == '\n'

theorem is_stop_cases {c : Char} (stop : isStop c = true) :
    c = ',' ∨ c = ']' ∨ c = '\x7d' ∨ c = '\n' := by
  simpa [isStop, or_assoc] using stop

theorem ends_scalar_of_is_tail (text rest : Text) (c : Char) (isTail : IsTail text)
    (stop : isStop c = true) : EndsScalar (text ++ c :: rest) := by
  -- No character that a gap begins with can stand in a value.
  have begins : ∀ (d : Char) (more : Text), IsTail (d :: more) →
      Reader.isAtom d = false ∧ d ≠ '"' ∧ d ≠ '\'' := by
    intro d more tail
    have shape : d = '\n' ∨ d = ' ' ∨ d = '\t' ∨ d = '#' := by
      by_contra other
      simp only [not_or] at other
      have solid : isBlank d = false := by simp [isBlank, other]
      simp [IsTail, gapEnd, other, solid] at tail
    rcases shape with rfl | rfl | rfl | rfl <;> decide
  have stops : Reader.isAtom c = false ∧ c ≠ '"' ∧ c ≠ '\'' := by
    rcases is_stop_cases stop with rfl | rfl | rfl | rfl <;> decide
  refine ⟨fun d found => ?_, fun d tail ahead => ?_⟩
  · cases text with
    | nil =>
      cases found
      exact stops
    | cons e text =>
      cases found
      exact begins d text isTail
  · cases text with
    | nil =>
      cases ahead
      exact absurd stop (by decide)
    | cons e text =>
      cases text with
      | nil =>
        cases ahead
        have none := stops.1
        by_contra digit
        simp [Reader.isAtom, Char.isAlphanum, digit] at none
      | cons f text =>
        cases ahead
        have more : IsTail (d :: text) := isTail
        have none := (begins d text more).1
        by_contra digit
        simp [Reader.isAtom, Char.isAlphanum, digit] at none

end Text

namespace Key

theorem linked_false (parents : List Key) (key : Key) :
    ∃ first ∈ parents ++ [key],
      linked false parents key = first.inner.before.getD [] ++ linked true parents key := by
  cases parents with
  | nil => exact ⟨key, by simp, by simp [linked]⟩
  | cons first rest => exact ⟨first, by simp, by simp [linked]⟩

theorem linked_head (parents : List Key) (key : Key)
    (legible : ∀ parent ∈ parents ++ [key], parent.Legible) :
    ∃ c tail, linked true parents key = c :: tail ∧ (c = '"' ∨ c = '\'' ∨ Spelling.isBare c = true) := by
  cases parents with
  | nil =>
    obtain ⟨c, tail, same, kind⟩ := (legible key (by simp)).1.exists_head
    exact ⟨c, tail, by simp [linked, same], kind⟩
  | cons first rest =>
    obtain ⟨c, tail, same, kind⟩ := (legible first (by simp)).1.exists_head
    exact ⟨c, _, by simp [linked, same]; rfl, kind⟩

theorem keys_from_linked (limit : Nat) (parents : List Key) (key : Key) (before after rest : Text)
    (legible : ∀ parent ∈ parents ++ [key], parent.Legible) (short : parents.length < limit)
    (blank : IsBlanks after) (ends : EndsPath rest) :
    ∃ parents' key', Reader.keysFrom limit before (linked true parents key ++ (after ++ rest)) =
        some (parents', key', after, rest) ∧
      parents'.map (·.name) = parents.map (·.name) ∧ key'.name = key.name := by
  induction parents generalizing limit before with
  | nil =>
    cases limit with
    | zero => cases short
    | succ limit =>
      have read := (legible key (by simp)).1 (after ++ rest) (ends_key_of_blanks _ _ blank ends.1)
      have parts := blanks_of_is_blanks after rest blank fun c found => (ends.2 c found).1
      refine ⟨[], { key with spelling := some key.text, outer := .unset, inner := .around before [] },
        ?_, rfl, rfl⟩
      simp only [linked, if_true, List.nil_append, Reader.keysFrom, read, parts,
        Option.bind_eq_bind, Option.bind_some]
      cases rest with
      | nil => rfl
      | cons c rest =>
        have other : c ≠ '.' := (ends.2 c rfl).2
        simp [other]
  | cons first parents ih =>
    cases limit with
    | zero => cases short
    | succ limit =>
      have legibleFirst := legible first (by simp)
      have legibleRest : ∀ parent ∈ parents ++ [key], parent.Legible :=
        fun parent member => legible parent (by simpa using .inr (by simpa using member))
      obtain ⟨next, member, spaced⟩ := linked_false parents key
      obtain ⟨c, tail, begins, kind⟩ := linked_head parents key legibleRest
      have behind : IsBlanks (first.inner.after.getD []) := legibleFirst.2.after_get_d [] rfl
      have ahead : IsBlanks (next.inner.before.getD []) :=
        (legibleRest next member).2.before_get_d [] rfl
      have dot : EndsKey ('.' :: (linked false parents key ++ (after ++ rest))) := by
        intro d found
        cases found
        decide
      have read := legibleFirst.1 _ (ends_key_of_blanks _ _ behind dot)
      have parts := blanks_of_is_blanks _ ('.' :: (linked false parents key ++ (after ++ rest))) behind
        fun d found => by cases found; rfl
      have solid : ∀ d, (linked true parents key ++ (after ++ rest)).head? = some d →
          isBlank d = false := by
        intro d found
        rw [begins] at found
        cases found
        have start := is_token_start_of_head kind
        simp only [isTokenStart, Bool.and_eq_true, Bool.not_eq_true'] at start
        exact start.1.1.1
      have onward := blanks_of_is_blanks _ _ ahead solid
      obtain ⟨parents', key', inner, names, name⟩ :=
        ih limit (next.inner.before.getD []) legibleRest (by simpa using short)
      refine ⟨⟨first.name, some first.text, .unset, .around before (first.inner.after.getD [])⟩ ::
        parents', key', ?_, by rw [List.map_cons, names]; rfl, name⟩
      simp only [linked, if_true, List.nil_append, List.append_assoc, List.cons_append,
        Reader.keysFrom, read, parts, Option.bind_eq_bind, Option.bind_some]
      rw [spaced, List.append_assoc, onward]
      simp only [inner, Option.bind_some]
      rfl

theorem path_linked (parents : List Key) (key : Key) (before after rest : Text)
    (legible : ∀ parent ∈ parents ++ [key], parent.Legible) (short : parents.length < Reader.limit)
    (blank : IsBlanks after) (ends : EndsPath rest) :
    ∃ parents' key', Reader.path before (linked true parents key ++ (after ++ rest)) =
        some (parents', key', rest) ∧
      parents'.map (·.name) = parents.map (·.name) ∧ key'.name = key.name ∧
      key'.outer.after = some after := by
  obtain ⟨parents', key', read, names, name⟩ :=
    keys_from_linked Reader.limit parents key [] after rest legible short blank ends
  refine ⟨parents', { key' with outer := .around before after }, ?_, names, name, rfl⟩
  rw [Reader.path, read]
  rfl

end Key

namespace Reader

theorem elements_close (value : Scan Node) (bound : Nat) (hasComma : Bool)
    (source before rest : Text) (space : gap source = some (before, ']' :: rest)) :
    elements value (bound + 1) hasComma source = some (.nil, hasComma, before, rest) := by
  rw [elements, space]
  rfl

theorem elements_last (value : Scan Node) (bound : Nat) (hasComma : Bool)
    (source before after part rest : Text) (c : Char) (node : Node)
    (space : gap source = some (before, c :: part)) (other : c ≠ ']')
    (read : value (c :: part) = some (node, after ++ ']' :: rest)) (isGap : IsGap after) :
    elements value (bound + 1) hasComma source =
      some (.cons (node.withMargin (.around before after)) .nil, false, [], rest) := by
  have closes := gap_of_is_gap after (']' :: rest) isGap (starts_token_cons _ _ rfl)
  simp [elements, space, other, read, closes]

theorem elements_more (value : Scan Node) (bound : Nat) (hasComma more : Bool)
    (source before after part tail trailing rest : Text) (c : Char) (node : Node) (nodes : Nodes)
    (space : gap source = some (before, c :: part)) (other : c ≠ ']')
    (read : value (c :: part) = some (node, after ++ ',' :: tail)) (isGap : IsGap after)
    (readTail : elements value bound true tail = some (nodes, more, trailing, rest)) :
    elements value (bound + 1) hasComma source =
      some (.cons (node.withMargin (.around before after)) nodes, more, trailing, rest) := by
  have closes := gap_of_is_gap after (',' :: tail) isGap (starts_token_cons _ _ rfl)
  simp [elements, space, other, read, closes, readTail]

theorem fields_close (value : Scan Node) (bound : Nat) (source before rest : Text)
    (space : gap source = some (before, '\x7d' :: rest)) :
    fields value (bound + 1) source = some ([], before, rest) := by
  rw [fields, space]
  rfl

theorem fields_last (value : Scan Node) (bound : Nat)
    (source before between before' after part part' tail rest : Text) (c : Char)
    (parents : List Key) (key : Key) (node : Node)
    (space : gap source = some (before, c :: part)) (other : c ≠ '\x7d')
    (readPath : path before (c :: part) = some (parents, key, between ++ '=' :: tail))
    (isBetween : IsGap between) (space' : gap tail = some (before', part'))
    (read : value part' = some (node, after ++ '\x7d' :: rest)) (isAfter : IsGap after) :
    fields value (bound + 1) source = some ([⟨parents,
      { key with outer := .around before (key.outer.after.getD [] ++ between) },
      node.withMargin (.around before' after)⟩], [], rest) := by
  have equals := gap_of_is_gap between ('=' :: tail) isBetween (starts_token_cons _ _ rfl)
  have closes := gap_of_is_gap after ('\x7d' :: rest) isAfter (starts_token_cons _ _ rfl)
  simp [fields, space, other, readPath, equals, space', read, closes]

theorem fields_comma (value : Scan Node) (bound : Nat)
    (source before between before' after part part' tail more : Text) (c : Char)
    (parents : List Key) (key : Key) (node : Node)
    (space : gap source = some (before, c :: part)) (other : c ≠ '\x7d')
    (readPath : path before (c :: part) = some (parents, key, between ++ '=' :: tail))
    (isBetween : IsGap between) (space' : gap tail = some (before', part'))
    (read : value part' = some (node, after ++ ',' :: more)) (isAfter : IsGap after) :
    fields value (bound + 1) source = (fields value bound more).map fun (others, preamble, rest) =>
      (⟨parents, { key with outer := .around before (key.outer.after.getD [] ++ between) },
        node.withMargin (.around before' after)⟩ :: others, preamble, rest) := by
  have equals := gap_of_is_gap between ('=' :: tail) isBetween (starts_token_cons _ _ rfl)
  have closes := gap_of_is_gap after (',' :: more) isAfter (starts_token_cons _ _ rfl)
  cases later : fields value bound more <;>
    simp [fields, space, other, readPath, equals, space', read, closes, later]

end Reader

namespace Node

def ReadsBy (value : Scan Node) (node : Node) : Prop :=
  ∀ rest, EndsScalar rest → ∃ same : Node, same.data = node.data ∧ same.isValue = true ∧
    value (node.text ++ rest) = some (same, rest)

theorem is_value_with_margin (margin : Margin) (node : Node) :
    (node.withMargin margin).isValue = node.isValue := by
  cases node <;> rfl

theorem text_head (site : Site) (node : Node) (isValue : node.isValue = true)
    (legible : node.Legible site) :
    ∃ c tail, node.text = c :: tail ∧ isTokenStart c = true ∧ c ≠ ']' := by
  cases node with
  | scalar margin value =>
    obtain ⟨c, tail, same, kind⟩ := legible.2.exists_head
    refine ⟨c, tail, same, ?_⟩
    rcases kind with rfl | rfl | atom
    · decide
    · decide
    · constructor
      · by_contra other
        have cases' : isBlank c = true ∨ c = '#' ∨ c = '\n' ∨ c = '\r' := by
          simpa [isTokenStart, or_iff_not_imp_left] using other
        rcases cases' with blank | rfl | rfl | rfl
        · rcases is_blank_cases blank with rfl | rfl <;> exact absurd atom (by decide)
        · exact absurd atom (by decide)
        · exact absurd atom (by decide)
        · exact absurd atom (by decide)
      · rintro rfl
        exact absurd atom (by decide)
  | array style elements => exact ⟨'[', _, rfl, rfl, by decide⟩
  | inline style entries => exact ⟨'\x7b', _, rfl, rfl, by decide⟩
  | table style entries => cases isValue
  | tables elements => cases isValue

theorem is_value_of_element (node : Node) (legible : node.Legible .element) : node.isValue = true := by
  cases node with
  | scalar margin value => rfl
  | array style elements => rfl
  | inline style entries =>
    rw [Node.Legible] at legible
    split at legible
    · exact absurd rfl legible.1
    · case isFalse single => simpa [isValue] using single
  | table style entries => cases legible.1
  | tables elements => cases legible.1

theorem margin_of_legible (site : Site) (node : Node) (isValue : node.isValue = true)
    (legible : node.Legible site) : site.Beside node.margin := by
  cases node with
  | scalar margin value => exact legible.1
  | array style elements => exact legible.1
  | inline style entries =>
    have single : ¬ style.dotted = true := by simpa [Node.isValue] using isValue
    rw [Node.Legible, if_neg single] at legible
    exact legible.1
  | table style entries => cases isValue
  | tables elements => cases isValue

theorem front_text (value : Scan Node) (node : Node) (legible : node.Legible .element)
    (reads : node.ReadsBy value) (lead after more : Text) (stop : Char) (isLead : IsGap lead)
    (isAfter : IsTail after) (isStop : isStop stop = true) :
    ∃ before c part same,
      gap (node.margin.before.getD lead ++ (node.text ++ (after ++ stop :: more))) =
        some (before, c :: part) ∧ c ≠ ']' ∧
      value (c :: part) = some (same, after ++ stop :: more) ∧ same.data = node.data := by
  have isValue := node.is_value_of_element legible
  have beside : node.margin.Fits IsGap IsGap := node.margin_of_legible .element isValue legible
  have before : IsGap (node.margin.before.getD lead) := beside.before_get_d lead isLead
  obtain ⟨c, text, begins, start, other⟩ := node.text_head .element isValue legible
  obtain ⟨same, data, -, read⟩ := reads (after ++ stop :: more)
    (ends_scalar_of_is_tail _ _ stop isAfter isStop)
  rw [begins] at read
  refine ⟨node.margin.before.getD lead, c, _, same, ?_, other, read, data⟩
  rw [gap_of_is_gap _ _ before (by rw [begins]; exact starts_token_cons _ _ start), begins]
  rfl

end Node

namespace Nodes

def inside (isFirst : Bool) : Nodes → Text
  | nil => []
  | cons head tail =>
    head.margin.wrap (if isFirst then [] else [' ']) [] head.text ++ tail.text false

theorem text_true (nodes : Nodes) : nodes.text true = nodes.inside true := by
  cases nodes with
  | nil => rfl
  | cons head tail => rfl

theorem text_false (head : Node) (tail : Nodes) :
    (cons head tail).text false = ',' :: (cons head tail).inside false := rfl

theorem elements_text (value : Scan Node) (trailing rest : Text) (comma : Bool)
    (isGap : IsGap trailing) (nodes : Nodes) (isFirst hasComma : Bool) (bound : Nat)
    (legible : nodes.Legible .element) (reads : ∀ node ∈ nodes.toList, node.ReadsBy value)
    (enough : nodes.toList.length < bound) :
    ∃ same : Nodes, same.data = nodes.data ∧ ∃ more behind,
      Reader.elements value bound hasComma (nodes.inside isFirst ++
        ((if comma && !nodes.isEmpty then [','] else []) ++ (trailing ++ ']' :: rest))) =
        some (same, more, behind, rest) := by
  have closes := gap_of_is_gap trailing (']' :: rest) isGap (starts_token_cons _ _ rfl)
  induction nodes generalizing isFirst hasComma bound with
  | nil =>
    obtain ⟨bound, rfl⟩ : ∃ less, bound = less + 1 := ⟨bound - 1, by omega⟩
    refine ⟨.nil, rfl, hasComma, trailing, ?_⟩
    simpa [inside, isEmpty] using
      Reader.elements_close value bound hasComma (trailing ++ ']' :: rest) trailing rest closes
  | cons head tail ih =>
    obtain ⟨bound, rfl⟩ : ∃ less, bound = less + 1 := ⟨bound - 1, by omega⟩
    obtain ⟨legibleHead, legibleTail⟩ := legible
    have beside : head.margin.Fits IsGap IsGap :=
      head.margin_of_legible .element (head.is_value_of_element legibleHead) legibleHead
    have after : IsGap (head.margin.after.getD []) := beside.after_get_d [] rfl
    have lead : IsGap (if isFirst then [] else [' ']) := by cases isFirst <;> rfl
    have readsTail : ∀ node ∈ tail.toList, node.ReadsBy value :=
      fun node member => reads node (List.mem_cons_of_mem _ member)
    have front := fun after more stop => head.front_text value legibleHead
      (reads head List.mem_cons_self) (if isFirst then [] else [' ']) after more stop lead
    cases tail with
    | nil =>
      cases comma with
      | false =>
        have behind : IsGap (head.margin.after.getD [] ++ trailing) := after.append isGap
        obtain ⟨before, c, part, same, space, other, read, data⟩ := front _ rest ']' behind.is_tail rfl
        have whole := Reader.elements_last value bound hasComma _ before _ part rest c same space other
          read behind
        refine ⟨_, ?_, false, [], Eq.trans ?_ whole⟩
        · simp [data, Nodes.data, Node.data_with_margin]
        · simp [inside, Nodes.text, Margin.wrap, List.append_assoc]
      | true =>
        obtain ⟨none, nothing, more, trailing', readTail⟩ :=
          ih true true bound trivial readsTail (by simpa [toList] using enough)
        obtain ⟨before, c, part, same, space, other, read, data⟩ :=
          front _ (trailing ++ ']' :: rest) ',' after.is_tail rfl
        have whole := Reader.elements_more value bound hasComma more _ before _ part _ trailing' rest c
          same none space other read after (by simpa [inside, isEmpty] using readTail)
        refine ⟨_, ?_, more, trailing', Eq.trans ?_ whole⟩
        · simp [data, nothing, Nodes.data, Node.data_with_margin]
        · simp [inside, Nodes.text, Margin.wrap, isEmpty, List.append_assoc]
    | cons next tail =>
      obtain ⟨others, dataTail, more, trailing', readTail⟩ :=
        ih false true bound legibleTail readsTail (by simpa [toList] using enough)
      obtain ⟨before, c, part, same, space, other, read, data⟩ := front _ _ ',' after.is_tail rfl
      have whole := Reader.elements_more value bound hasComma more _ before _ part _ trailing' rest c
        same others space other read after readTail
      refine ⟨_, ?_, more, trailing', Eq.trans ?_ whole⟩
      · simp [data, dataTail, Nodes.data, Node.data_with_margin]
      · rw [inside, text_false]
        simp [Margin.wrap, isEmpty, List.append_assoc]

end Nodes

def Field.written (field : Field) : WrittenField :=
  ⟨field.parents, field.key, field.value.margin, field.value.text⟩

mutual
theorem Node.written_eq (parents : List Key) (key : Key) :
    (node : Node) → node.written parents key = (node.fields parents key).map Field.written
  | .scalar _ _ => rfl
  | .array _ _ => rfl
  | .inline style entries => by
    rw [Node.written, Node.fields]
    split
    · exact Entries.written_eq _ entries
    · rfl
  | .table style entries => by
    rw [Node.written, Node.fields]
    split
    · exact Entries.written_eq _ entries
    · rfl
  | .tables _ => rfl
theorem Entries.written_eq (parents : List Key) :
    (entries : Entries) → entries.written parents = (entries.fields parents).map Field.written
  | .nil => rfl
  | .cons key node tail => by
    rw [Entries.written, Entries.fields, List.map_append, Node.written_eq parents key node,
      Entries.written_eq parents tail]
end

theorem Field.path_text (field : Field) (legible : field.Legible .braces)
    (short : field.parents.length < Reader.limit) (before rest : Text) :
    ∃ parents key between, IsGap between ∧
      Reader.path before (Key.linked true field.parents field.key ++
        (field.key.outer.after.getD [' '] ++ '=' :: rest)) = some (parents, key, between ++ '=' :: rest) ∧
      parents.map (·.name) = field.parents.map (·.name) ∧ key.name = field.key.name := by
  obtain ⟨legibleParents, legibleKey, around, -, -⟩ := legible
  have isGap : IsGap (field.key.outer.after.getD [' ']) := around.after_get_d [' '] rfl
  obtain ⟨space, more, same, blank, isMore, head⟩ := isGap.split_blanks
  have ends : EndsPath (more ++ '=' :: rest) := by
    cases more with
    | nil => exact ends_path_cons '=' rest (.inl rfl)
    | cons d more => exact ends_path_cons d _ (.inr (.inr (head d rfl)))
  obtain ⟨parents, key, read, names, name, -⟩ := Key.path_linked field.parents field.key before space
    (more ++ '=' :: rest) (by simpa [or_imp, forall_and] using ⟨legibleParents, legibleKey⟩)
    short blank ends
  refine ⟨parents, key, more, isMore, ?_, names, name⟩
  rw [same, List.append_assoc]
  exact read

theorem Field.front_text (value : Scan Node) (field : Field) (legible : field.Legible .braces)
    (short : field.parents.length < Reader.limit) (reads : field.value.ReadsBy value)
    (lead after more : Text) (stop : Char) (isLead : IsGap lead) (isAfter : IsTail after)
    (isStop : isStop stop = true) :
    ∃ before between before' part part' tail c parents key node,
      gap (lead ++ (field.key.outer.before.getD [' '] ++
        (Key.linked true field.parents field.key ++ (field.key.outer.after.getD [' '] ++ '=' ::
          (field.value.margin.before.getD [' '] ++ (field.value.text ++ (after ++ stop :: more))))))) =
        some (before, c :: part) ∧ c ≠ '\x7d' ∧
      Reader.path before (c :: part) = some (parents, key, between ++ '=' :: tail) ∧
      IsGap between ∧ gap tail = some (before', part') ∧
      value part' = some (node, after ++ stop :: more) ∧
      parents.map (·.name) = field.parents.map (·.name) ∧ key.name = field.key.name ∧
      node.data = field.value.data ∧ node.isValue = true := by
  obtain ⟨legibleParents, legibleKey, around, isValue, legibleValue⟩ := id legible
  have beside : field.value.margin.Fits IsGap IsGap :=
    field.value.margin_of_legible .braces isValue legibleValue
  have before : IsGap (lead ++ field.key.outer.before.getD [' ']) :=
    isLead.append (Margin.Fits.before_get_d around [' '] rfl)
  have before' : IsGap (field.value.margin.before.getD [' ']) := beside.before_get_d [' '] rfl
  obtain ⟨c, text, begins, kind⟩ := Key.linked_head field.parents field.key
    (by simpa [or_imp, forall_and] using ⟨legibleParents, legibleKey⟩)
  have other : c ≠ '\x7d' := by
    rintro rfl
    exact absurd kind (by decide)
  obtain ⟨d, text', begins', start', -⟩ := field.value.text_head .braces isValue legibleValue
  obtain ⟨node, data, isValue', read⟩ := reads (after ++ stop :: more)
    (ends_scalar_of_is_tail _ _ stop isAfter isStop)
  obtain ⟨parents, key, between, isBetween, readPath, names, name⟩ :=
    field.path_text legible short (lead ++ field.key.outer.before.getD [' '])
      (field.value.margin.before.getD [' '] ++ (field.value.text ++ (after ++ stop :: more)))
  rw [begins, List.cons_append] at readPath
  refine ⟨_, between, _, _, _, _, c, parents, key, node, ?_, other, readPath, isBetween,
    gap_of_is_gap _ _ before' ?_, read, names, name, data, isValue'⟩
  · rw [← List.append_assoc, begins, List.cons_append]
    exact gap_of_is_gap _ _ before (starts_token_cons _ _ (Key.is_token_start_of_head kind))
  · rw [begins']
    exact starts_token_cons _ _ start'

theorem fields_text (value : Scan Node) (rest : Text) (list : List Field) (lead : Text) (bound : Nat)
    (isGap : IsGap lead) (legible : ∀ field ∈ list, field.Legible .braces)
    (short : ∀ field ∈ list, field.parents.length < Reader.limit)
    (reads : ∀ field ∈ list, field.value.ReadsBy value) (enough : list.length < bound) :
    ∃ same, List.Forall₂ Field.Says list same ∧ ∃ preamble,
      Reader.fields value bound
        (lead ++ (WrittenField.printAll (list.map Field.written) ++ '\x7d' :: rest)) =
        some (same, preamble, rest) := by
  induction list generalizing lead bound with
  | nil =>
    obtain ⟨bound, rfl⟩ : ∃ less, bound = less + 1 := ⟨bound - 1, by omega⟩
    refine ⟨[], .nil, lead, ?_⟩
    exact Reader.fields_close value bound _ lead rest
      (gap_of_is_gap lead _ isGap (starts_token_cons _ _ rfl))
  | cons field list ih =>
    obtain ⟨bound, rfl⟩ : ∃ less, bound = less + 1 := ⟨bound - 1, by omega⟩
    have legibleField := legible field List.mem_cons_self
    have beside : field.value.margin.Fits IsGap IsGap :=
      field.value.margin_of_legible .braces legibleField.2.2.2.1 legibleField.2.2.2.2
    cases list with
    | nil =>
      have after : IsGap (field.value.margin.after.getD [' ']) := beside.after_get_d [' '] rfl
      obtain ⟨before, between, before', part, part', tail, c, parents, key, node, space, other,
        readPath, isBetween, space', read, names, name, data, isValue⟩ :=
        field.front_text value legibleField (short field List.mem_cons_self)
          (reads field List.mem_cons_self) lead _ rest '\x7d' isGap after.is_tail rfl
      have whole := Reader.fields_last value bound _ before between before' _ part part' tail rest c
        parents key node space other readPath isBetween space' read after
      refine ⟨_, ?_, [], Eq.trans ?_ whole⟩
      · refine .cons ⟨names, name, ?_, ?_⟩ .nil
        · rw [Node.data_with_margin, data]
        · rw [Node.is_value_with_margin, isValue]
      · simp [Field.written, WrittenField.printAll, WrittenField.print, Key.pathText, Margin.wrap]
    | cons next list =>
      have after : IsGap (field.value.margin.after.getD []) := beside.after_get_d [] rfl
      obtain ⟨others, alike, preamble, readMore⟩ := ih [] bound rfl
        (fun field member => legible field (List.mem_cons_of_mem _ member))
        (fun field member => short field (List.mem_cons_of_mem _ member))
        (fun field member => reads field (List.mem_cons_of_mem _ member))
        (by simpa using enough)
      obtain ⟨before, between, before', part, part', tail, c, parents, key, node, space, other,
        readPath, isBetween, space', read, names, name, data, isValue⟩ :=
        field.front_text value legibleField (short field List.mem_cons_self)
          (reads field List.mem_cons_self) lead _ _ ',' isGap after.is_tail rfl
      have whole := Reader.fields_comma value bound _ before between before' _ part part' tail _ c
        parents key node space other readPath isBetween space' read after
      rw [List.nil_append] at readMore
      rw [readMore] at whole
      refine ⟨_, ?_, preamble, Eq.trans ?_ whole⟩
      · refine .cons ⟨names, name, ?_, ?_⟩ alike
        · rw [Node.data_with_margin, data]
        · rw [Node.is_value_with_margin, isValue]
      · simp [Field.written, WrittenField.printAll, WrittenField.print, Key.pathText, Margin.wrap]

end Reroot
