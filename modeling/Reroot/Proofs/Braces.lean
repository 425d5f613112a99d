import Reroot.Proofs.Values

set_option autoImplicit false

namespace Reroot

namespace Entries

def join : Entries → Entries → Entries
  | nil, second => second
  | cons key node tail, second => cons key node (tail.join second)

theorem join_nil (entries : Entries) : entries.join nil = entries := by
  induction entries with
  | nil => rfl
  | cons key node tail ih => rw [join, ih]

theorem append_join (key : Key) (node : Node) (first second : Entries) :
    (first.append key node).join second = first.join (cons key node second) := by
  induction first with
  | nil => rfl
  | cons other value tail ih => rw [append, join, join, ih]

theorem names_append (key : Key) (node : Node) (entries : Entries) :
    (entries.append key node).names = entries.names ++ [key.name] := by
  induction entries with
  | nil => rfl
  | cons other value tail ih => rw [append, names, names, ih, List.cons_append]

theorem alter?_missing (key : Key) (change : Option Node → Option Node) (entries : Entries)
    (missing : key.name ∉ entries.names) :
    entries.alter? key change = (change none).map (entries.append key ·) := by
  induction entries with
  | nil => rfl
  | cons other value tail ih =>
    have differs : ¬ other.name = key.name := fun same => missing (same ▸ List.mem_cons_self)
    have rest : key.name ∉ tail.names := fun member => missing (List.mem_cons_of_mem _ member)
    rw [alter?, if_neg differs, ih rest, Option.map_map]
    rfl

theorem alter?_append (key last : Key) (change : Option Node → Option Node) (node : Node)
    (entries : Entries) (same : last.name = key.name) (missing : key.name ∉ entries.names) :
    (entries.append last node).alter? key change =
      (change (some node)).map (entries.append last ·) := by
  induction entries with
  | nil =>
    rw [append, alter?, if_pos same]
    rfl
  | cons other value tail ih =>
    have differs : ¬ other.name = key.name := fun same => missing (same ▸ List.mem_cons_self)
    have rest : key.name ∉ tail.names := fun member => missing (List.mem_cons_of_mem _ member)
    rw [append, alter?, if_neg differs, ih rest, Option.map_map]
    rfl

def enter? (deeper : Bool) (field : Field) (style : InlineStyle) (entries : Entries) :
    Option Entries :=
  entries.descendInline?
    (fun style => add? (deeper || !field.parents.isEmpty) style.dotted field.key field.value)
    field.parents style

end Entries

def Field.below (parents : List Key) (field : Field) : Field :=
  { field with parents := parents ++ field.parents }

def Field.inner (field : Field) : Field := { field with parents := field.parents.tail }

namespace Entries

theorem enter?_cons (deeper : Bool) (field : Field) (first : Key) (rest : List Key)
    (parents : field.parents = first :: rest) (style : InlineStyle) (entries : Entries) :
    entries.enter? deeper field style = entries.alter? first fun found =>
      match found with
      | none => (nil.enter? true field.inner .ofDottedKey).map (.inline .ofDottedKey)
      | some (.inline style inner) =>
        if style.implicit then (inner.enter? true field.inner style).map (.inline style) else none
      | some _ => none := by
  simp only [enter?, Field.inner, parents, List.tail_cons, List.isEmpty_cons, Bool.not_false,
    Bool.or_true, Bool.true_or]
  rfl

theorem foldl_m_enter?_append (deeper : Bool) (style : InlineStyle) (last : Key) (before : Entries)
    (missing : last.name ∉ before.names) (list : List Field)
    (below : ∀ field ∈ list, ∃ first rest, field.parents = first :: rest ∧ first.name = last.name)
    (inside : Entries) :
    list.foldlM (fun entries field => entries.enter? deeper field style)
        (before.append last (.inline .ofDottedKey inside)) =
      Option.map (fun inside => before.append last (.inline .ofDottedKey inside))
        ((list.map Field.inner).foldlM
          (fun entries field => entries.enter? true field .ofDottedKey) inside) := by
  induction list generalizing inside with
  | nil => rfl
  | cons field list ih =>
    obtain ⟨first, rest, parents, name⟩ := below field List.mem_cons_self
    have step := enter?_cons deeper field first rest parents style
      (before.append last (.inline .ofDottedKey inside))
    rw [alter?_append first last _ _ before name.symm (name ▸ missing)] at step
    dsimp only at step
    rw [if_pos (show InlineStyle.ofDottedKey.implicit = true from rfl), Option.map_map] at step
    rw [List.foldlM_cons, step, List.map_cons, List.foldlM_cons]
    cases inside.enter? true field.inner .ofDottedKey with
    | none => rfl
    | some inside =>
      exact ih (fun field member => below field (List.mem_cons_of_mem _ member)) inside

end Entries

mutual
theorem Node.fields_below (before parents : List Key) (key : Key) :
    (node : Node) →
      node.fields (before ++ parents) key = (node.fields parents key).map (Field.below before)
  | .scalar _ _ => rfl
  | .array _ _ => rfl
  | .inline style entries => by
    rw [Node.fields, Node.fields]
    split
    · rw [List.append_assoc, Entries.fields_below before (parents ++ [key]) entries]
    · rfl
  | .table style entries => by
    rw [Node.fields, Node.fields]
    split
    · rw [List.append_assoc, Entries.fields_below before (parents ++ [key]) entries]
    · rfl
  | .tables _ => rfl
theorem Entries.fields_below (before parents : List Key) :
    (entries : Entries) →
      entries.fields (before ++ parents) = (entries.fields parents).map (Field.below before)
  | .nil => rfl
  | .cons key node tail => by
    rw [Entries.fields, Entries.fields, List.map_append, Node.fields_below before parents key node,
      Entries.fields_below before parents tail]
end

theorem Entries.fields_single (key : Key) (entries : Entries) :
    entries.fields [key] = (entries.fields []).map (Field.below [key]) :=
  entries.fields_below [key] []

theorem forall₂_split {α β : Type} {R : α → β → Prop} (first second : List α) (list : List β)
    (related : List.Forall₂ R (first ++ second) list) :
    ∃ front back, list = front ++ back ∧ List.Forall₂ R first front ∧
      List.Forall₂ R second back := by
  refine ⟨list.take first.length, list.drop first.length, (List.take_append_drop _ _).symm, ?_, ?_⟩
  · exact (List.forall₂_take_append _ _ _ related.flip).flip
  · exact (List.forall₂_drop_append _ _ _ related.flip).flip

theorem Field.says_below (key : Key) (list same : List Field)
    (alike : List.Forall₂ Field.Says (list.map (Field.below [key])) same) :
    (∀ field ∈ same, ∃ first rest, field.parents = first :: rest ∧ first.name = key.name) ∧
      List.Forall₂ Field.Says list (same.map Field.inner) := by
  induction list generalizing same with
  | nil =>
    cases alike
    exact ⟨by simp, .nil⟩
  | cons field list ih =>
    rw [List.map_cons] at alike
    cases alike with
    | @cons _ other _ same first alike =>
      obtain ⟨below, inner⟩ := ih same alike
      have names := first.parents
      simp only [Field.below, List.cons_append, List.nil_append, List.map_cons] at names
      obtain ⟨head, rest, parents, headName, restNames⟩ := List.map_eq_cons_iff.mp names
      refine ⟨?_, .cons ⟨?_, first.name, first.data, first.isValue⟩ inner⟩
      · intro field member
        rcases List.mem_cons.mp member with rfl | member
        · exact ⟨head, rest, parents, headName⟩
        · exact below field member
      · simp only [Field.inner, parents, List.tail_cons]
        exact restNames

mutual
theorem Node.fields_ne_nil (site : Site) (parents : List Key) (key : Key) :
    (node : Node) → site ≠ .body → node.Legible site → node.fields parents key ≠ []
  | .scalar _ _, _, _ => by simp [Node.fields]
  | .array _ _, _, _ => by simp [Node.fields]
  | .inline style entries, other, legible => by
    rw [Node.fields]
    split
    · case isTrue dotted =>
      rw [Node.Legible, if_pos dotted] at legible
      refine Entries.fields_ne_nil site.spread _ entries ?_ legible.2.1 legible.2.2
      cases site <;> simp [Site.spread]
    · simp
  | .table _ _, other, legible => absurd legible.1 other
  | .tables _, other, legible => absurd legible.1 other
theorem Entries.fields_ne_nil (site : Site) (parents : List Key) :
    (entries : Entries) → site ≠ .body → entries ≠ .nil → entries.Legible site →
      entries.fields parents ≠ []
  | .nil, _, some', _ => absurd rfl some'
  | .cons key node tail, other, _, legible => by
    rw [Entries.fields]
    have first := Node.fields_ne_nil site parents key node other legible.2.2.2.1
    simp [first]
end

theorem Entries.enter_single (deeper : Bool) (style : InlineStyle) (styled : style.dotted = deeper)
    (key : Key) (node : Node) (list : List Field)
    (alike : List.Forall₂ Field.Says [⟨[], key, node⟩] list) (before : Entries)
    (missing : key.name ∉ before.names) :
    ∃ key' node', key'.name = key.name ∧ node'.data = node.data ∧
      list.foldlM (fun entries field => entries.enter? deeper field style) before =
        some (before.append key' node') := by
  cases alike with
  | @cons _ field _ _ first alike =>
    cases alike
    have parents : field.parents = [] := List.map_eq_nil_iff.mp first.parents
    have contains : before.contains field.key.name = false := by
      rw [Bool.eq_false_iff, ne_eq, contains_iff_mem_names, first.name]
      exact missing
    refine ⟨field.key, field.value, first.name, first.data, ?_⟩
    have step : before.enter? deeper field style = some (before.append field.key field.value) := by
      simp [enter?, parents, descendInline?, add?, styled, contains]
    rw [List.foldlM_cons, step]
    rfl

mutual
theorem Node.enter_fields (deeper : Bool) (style : InlineStyle) (styled : style.dotted = deeper)
    (key : Key) :
    (node : Node) → node.Legible .braces → ∀ list : List Field,
      List.Forall₂ Field.Says (node.fields [] key) list → ∀ before : Entries,
      key.name ∉ before.names → ∃ key' node', key'.name = key.name ∧ node'.data = node.data ∧
        list.foldlM (fun entries field => entries.enter? deeper field style) before =
          some (before.append key' node')
  | .scalar margin value, _, list, alike, before, missing =>
    Entries.enter_single deeper style styled key _ list alike before missing
  | .array inner elements, _, list, alike, before, missing =>
    Entries.enter_single deeper style styled key _ list alike before missing
  | .inline inner entries, legible, list, alike, before, missing => by
    rw [Node.fields] at alike
    by_cases dotted : inner.dotted = true
    · rw [if_pos dotted, List.nil_append, Entries.fields_single] at alike
      rw [Node.Legible, if_pos dotted] at legible
      obtain ⟨below, alike'⟩ := Field.says_below key _ list alike
      obtain ⟨out, data, fold⟩ := Entries.enter_fields true .ofDottedKey rfl entries legible.2.2
        (list.map Field.inner) alike' .nil (by simp [Entries.names])
      rw [Entries.join] at fold
      -- The first line makes the table, the others find it at the end.
      cases list with
      | nil =>
        have none := List.forall₂_nil_right_iff.mp alike'
        exact absurd none (Entries.fields_ne_nil .braces [] entries (by decide) legible.2.1
          legible.2.2)
      | cons field list =>
        obtain ⟨first, rest, parents, name⟩ := below field List.mem_cons_self
        have missing' : first.name ∉ before.names := name ▸ missing
        have step := Entries.enter?_cons deeper field first rest parents style before
        rw [Entries.alter?_missing first _ before missing', Option.map_map] at step
        rw [List.map_cons, List.foldlM_cons] at fold
        obtain ⟨inside, made, fold⟩ := Option.bind_eq_some_iff.mp fold
        rw [made, Option.map_some] at step
        have onward := Entries.foldl_m_enter?_append deeper style first before missing' list
          (fun field member => by
            obtain ⟨other, rest, parents, same⟩ := below field (List.mem_cons_of_mem _ member)
            exact ⟨other, rest, parents, same.trans name.symm⟩) inside
        refine ⟨first, .inline .ofDottedKey out, name, by rw [Node.data, Node.data, data], ?_⟩
        rw [List.foldlM_cons, step]
        refine onward.trans ?_
        rw [fold]
        rfl
    · rw [if_neg dotted] at alike
      exact Entries.enter_single deeper style styled key _ list alike before missing
  | .table _ _, legible, _, _, _, _ => by cases legible.1
  | .tables _, legible, _, _, _, _ => by cases legible.1
theorem Entries.enter_fields (deeper : Bool) (style : InlineStyle) (styled : style.dotted = deeper) :
    (entries : Entries) → entries.Legible .braces → ∀ list : List Field,
      List.Forall₂ Field.Says (entries.fields []) list → ∀ before : Entries,
      (∀ name ∈ entries.names, name ∉ before.names) → ∃ out : Entries, out.data = entries.data ∧
        list.foldlM (fun entries field => entries.enter? deeper field style) before =
          some (before.join out)
  | .nil, _, list, alike, before, _ => by
    cases alike
    exact ⟨.nil, rfl, by rw [Entries.join_nil]; rfl⟩
  | .cons key node tail, legible, list, alike, before, fresh => by
    obtain ⟨single, -, -, legibleNode, legibleTail⟩ := legible
    rw [Entries.fields] at alike
    obtain ⟨first, rest, rfl, alikeFirst, alikeRest⟩ := forall₂_split _ _ _ alike
    obtain ⟨key', node', name, data, foldFirst⟩ := Node.enter_fields deeper style styled key node
      legibleNode first alikeFirst before (fresh key.name List.mem_cons_self)
    have fresh' : ∀ name ∈ tail.names, name ∉ (before.append key' node').names := by
      intro other member
      rw [Entries.names_append, List.mem_append, List.mem_singleton, name, not_or]
      refine ⟨fresh other (List.mem_cons_of_mem _ member), ?_⟩
      rintro rfl
      exact single member
    obtain ⟨out, dataTail, foldRest⟩ := Entries.enter_fields deeper style styled tail legibleTail rest
      alikeRest (before.append key' node') fresh'
    refine ⟨.cons key' node' out, by simp [Entries.data, name, data, dataTail], ?_⟩
    rw [List.foldlM_append, foldFirst]
    refine foldRest.trans ?_
    rw [Entries.append_join]
end

theorem Entries.of_fields?_fields (entries : Entries) (legible : entries.Legible .braces)
    (list : List Field) (alike : List.Forall₂ Field.Says (entries.fields []) list) :
    ∃ out : Entries, out.data = entries.data ∧ Entries.ofFields? list = some out := by
  obtain ⟨out, data, fold⟩ := Entries.enter_fields false .fresh rfl entries legible list alike .nil
    (by simp [Entries.names])
  refine ⟨out, data, fold⟩

namespace Node

theorem value_of_scalar (depth : Nat) (scalar : Scalar) (reads : scalar.Reads) (rest : Text) :
    Reader.value depth (scalar.text ++ rest) = Reader.scalar (scalar.text ++ rest) := by
  obtain ⟨c, tail, same, kind⟩ := reads.exists_head
  have other : c ≠ '[' ∧ c ≠ '\x7b' := by
    constructor
    · rintro rfl
      exact absurd kind (by decide)
    · rintro rfl
      exact absurd kind (by decide)
  cases depth with
  | zero => rfl
  | succ depth => simp [same, Reader.value, other]

end Node

theorem Nodes.within_to_list (depth : Nat) (nodes : Nodes) (within : nodes.within depth = true) :
    ∀ node ∈ nodes.toList, node.within depth = true := by
  induction nodes with
  | nil => simp [toList]
  | cons head tail ih =>
    have both : head.within depth = true ∧ tail.within depth = true := by
      simpa [Nodes.within] using within
    intro node member
    rcases List.mem_cons.mp member with rfl | member
    · exact both.1
    · exact ih both.2 node member

theorem Nodes.legible_to_list (site : Site) (nodes : Nodes) (legible : nodes.Legible site) :
    ∀ node ∈ nodes.toList, node.Legible site := by
  induction nodes with
  | nil => simp [toList]
  | cons head tail ih =>
    intro node member
    rcases List.mem_cons.mp member with rfl | member
    · exact legible.1
    · exact ih legible.2 node member

theorem Nodes.length_le_text (nodes : Nodes) : nodes.toList.length ≤ (nodes.text false).length := by
  induction nodes with
  | nil => exact Nat.le_refl 0
  | cons head tail ih =>
    simp only [toList, text, Bool.false_eq_true, if_false, List.length_cons, List.length_append]
    omega

theorem Nodes.length_le_inside (isFirst : Bool) (nodes : Nodes) :
    nodes.toList.length ≤ (nodes.inside isFirst).length + 1 := by
  cases nodes with
  | nil => exact Nat.zero_le _
  | cons head tail =>
    have count := tail.length_le_text
    simp only [toList, inside, List.length_cons, List.length_append]
    omega

theorem WrittenField.length_le_print_all (list : List WrittenField) :
    list.length ≤ (printAll list).length := by
  induction list with
  | nil => exact Nat.le_refl 0
  | cons field list ih =>
    cases list with
    | nil =>
      simp only [printAll, print, List.length_cons, List.length_append, List.length_nil]
      omega
    | cons next list =>
      simp only [printAll, List.length_append, List.length_cons] at ih ⊢
      omega

theorem Node.reads_array (depth : Nat) (site : Site) (style : ArrayStyle) (elements : Nodes)
    (legible : (Node.array style elements).Legible site)
    (readsAll : ∀ node ∈ elements.toList, node.ReadsBy (Reader.value depth)) :
    (Node.array style elements).ReadsBy (Reader.value (depth + 1)) := by
  intro rest ends
  obtain ⟨-, isGap, legibleElements⟩ := legible
  obtain ⟨same, data, more, behind, read⟩ := Nodes.elements_text (Reader.value depth)
    style.trailing rest style.finalComma isGap elements true false
    ((elements.inside true ++ ((if style.finalComma && !elements.isEmpty then [','] else []) ++
      (style.trailing ++ ']' :: rest))).length + 1) legibleElements readsAll (by
        have count := elements.length_le_inside true
        simp only [List.length_append, List.length_cons]
        omega)
  refine ⟨.array ⟨.unset, behind, more⟩ same, by rw [Node.data, Node.data, data], rfl, ?_⟩
  have shape : (Node.array style elements).text ++ rest = '[' :: (elements.inside true ++
      ((if style.finalComma && !elements.isEmpty then [','] else []) ++
        (style.trailing ++ ']' :: rest))) := by
    simp [Node.text, ArrayStyle.enclose, Nodes.text_true]
  rw [shape, Reader.value, read]
  rfl

theorem Node.reads_inline (depth : Nat) (style : InlineStyle) (entries : Entries)
    (isGap : Text.IsGap style.preamble) (legible : entries.Legible .braces)
    (short : ∀ field ∈ entries.fields [], field.parents.length < Reader.limit)
    (readsAll : ∀ field ∈ entries.fields [], field.value.ReadsBy (Reader.value depth)) :
    (Node.inline style entries).ReadsBy (Reader.value (depth + 1)) := by
  intro rest ends
  obtain ⟨list, alike, preamble, read⟩ := fields_text (Reader.value depth) rest
    (entries.fields []) style.preamble
    ((style.preamble ++ (WrittenField.printAll ((entries.fields []).map Field.written) ++
      '\x7d' :: rest)).length + 1) isGap (entries.legible_fields .braces [] (by simp) legible) short
    readsAll (by
      have count := WrittenField.length_le_print_all ((entries.fields []).map Field.written)
      simp only [List.length_append, List.length_cons, List.length_map] at count ⊢
      omega)
  obtain ⟨same, data, built⟩ := entries.of_fields?_fields legible list alike
  refine ⟨.inline ⟨.unset, preamble, false, false⟩ same, by rw [Node.data, Node.data, data], rfl, ?_⟩
  have shape : (Node.inline style entries).text ++ rest = '\x7b' :: (style.preamble ++
      (WrittenField.printAll ((entries.fields []).map Field.written) ++ '\x7d' :: rest)) := by
    simp [Node.text, InlineStyle.enclose, Entries.written_eq]
  rw [shape, Reader.value, read]
  simp only [Option.bind_eq_bind, Option.bind_some, built]
  rfl

theorem Node.reads_of_legible (depth : Nat) (site : Site) (node : Node) (isValue : node.isValue = true)
    (legible : node.Legible site) (within : node.within depth = true) :
    node.ReadsBy (Reader.value depth) := by
  induction depth generalizing node site with
  | zero =>
    cases node with
    | scalar margin value =>
      intro rest ends
      obtain ⟨same, data, read⟩ := legible.2 rest ends
      exact ⟨.scalar .unset same, data, rfl, read⟩
    | array style elements => cases within
    | inline style entries =>
      have single : ¬ style.dotted = true := by simpa [Node.isValue] using isValue
      rw [Node.within, if_neg single] at within
      cases within
    | table style entries => cases isValue
    | tables elements => cases isValue
  | succ depth ih =>
    cases node with
    | scalar margin value =>
      intro rest ends
      obtain ⟨same, data, read⟩ := legible.2 rest ends
      refine ⟨.scalar .unset same, data, rfl, ?_⟩
      rw [Node.text, value_of_scalar (depth + 1) value legible.2, read]
    | array style elements =>
      have legibleAll := elements.legible_to_list _ legible.2.2
      have withinAll := elements.within_to_list depth (by simpa [Node.within] using within)
      exact Node.reads_array depth site style elements legible fun node member =>
        ih .element node (node.is_value_of_element (legibleAll node member)) (legibleAll node member)
          (withinAll node member)
    | inline style entries =>
      have single : ¬ style.dotted = true := by simpa [Node.isValue] using isValue
      rw [Node.Legible, if_neg single] at legible
      rw [Node.within, if_neg single] at within
      have limits : entries.within depth = true ∧
          ∀ field ∈ entries.fields [], field.parents.length < Reader.limit := by
        simpa using within
      have legibleAll := entries.legible_fields .braces [] (by simp) legible.2.2
      have withinAll := entries.within_fields depth [] limits.1
      exact Node.reads_inline depth style entries legible.2.1 legible.2.2 limits.2 fun field member =>
        ih .braces field.value (legibleAll field member).2.2.2.1 (legibleAll field member).2.2.2.2
          (withinAll field member)
    | table style entries => cases isValue
    | tables elements => cases isValue

end Reroot
