import Reroot.Document.Reader
import Reroot.Proofs.Kept

set_option autoImplicit false

namespace Reroot

open Text

def Key.IsParent (key : Key) : Prop := key.Legible ∧ key.outer = .unset

def Field.IsRead (site : Site) (field : Field) : Prop :=
  field.Legible site ∧ ∀ key ∈ field.parents, key.outer = .unset

namespace Reader

theorem keys_from_legible (limit : Nat) (before source : Text) (blank : IsBlanks before)
    (parents : List Key) (key : Key) (after rest : Text)
    (read : keysFrom limit before source = some (parents, key, after, rest)) :
    (∀ parent ∈ parents, parent.IsParent) ∧ key.Legible ∧ IsBlanks after := by
  induction limit generalizing before source parents key after rest with
  | zero => cases read
  | succ limit ih =>
    obtain ⟨⟨first, rest'⟩, taken, read⟩ := Option.bind_eq_some_iff.mp read
    obtain ⟨reads, outer, -⟩ := Key.reads_of_simple_key source first rest' taken
    have blankAfter := is_blanks_blanks rest'
    dsimp only at read
    split at read
    · obtain ⟨⟨others, last, outside, behind⟩, deeper, read⟩ := Option.bind_eq_some_iff.mp read
      obtain ⟨each, legible, isBlanks⟩ := ih _ _ (is_blanks_blanks _) _ _ _ _ deeper
      cases read
      refine ⟨?_, legible, isBlanks⟩
      intro parent member
      rcases List.mem_cons.mp member with rfl | later
      · exact ⟨⟨reads, Margin.fits_around _ _ _ _ blank blankAfter⟩, outer⟩
      · exact each parent later
    · cases read
      exact ⟨by simp, ⟨reads, Margin.fits_around _ _ _ _ blank rfl⟩, blankAfter⟩

theorem path_legible (before source : Text) (parents : List Key) (key : Key) (rest : Text)
    (read : path before source = some (parents, key, rest)) :
    (∀ parent ∈ parents, parent.IsParent) ∧ key.Legible ∧
      ∃ after, key.outer = .around before after ∧ IsBlanks after := by
  obtain ⟨⟨others, last, after, behind⟩, taken, read⟩ := Option.bind_eq_some_iff.mp read
  obtain ⟨each, legible, blank⟩ := keys_from_legible _ [] _ rfl _ _ _ _ taken
  cases read
  exact ⟨each, legible, after, rfl, blank⟩

theorem path_source (before source : Text) (result : List Key × Key × Text)
    (read : path before source = some result) : source ≠ [] := by
  rintro rfl
  cases read

def Sound (value : Scan Node) : Prop :=
  ∀ source node rest, value source = some (node, rest) → source ≠ [] ∧ node.Whole

theorem elements_legible (value : Scan Node) (sound : Sound value) (bound : Nat) (hasComma : Bool)
    (source : Text) (nodes : Nodes) (comma : Bool) (trailing rest : Text)
    (read : elements value bound hasComma source = some (nodes, comma, trailing, rest)) :
    nodes.Legible .element ∧ IsGap trailing := by
  induction bound generalizing hasComma source nodes comma trailing rest with
  | zero => cases read
  | succ bound ih =>
    obtain ⟨⟨before, behind⟩, opens, read⟩ := Option.bind_eq_some_iff.mp read
    have isGap := is_gap_of_gap _ _ _ opens
    dsimp only at read
    split at read
    · cases read
      exact ⟨trivial, isGap (List.cons_ne_nil _ _)⟩
    · obtain ⟨⟨node, behind⟩, inner, read⟩ := Option.bind_eq_some_iff.mp read
      obtain ⟨some', whole⟩ := sound _ _ _ inner
      obtain ⟨⟨after, behind⟩, closes, read⟩ := Option.bind_eq_some_iff.mp read
      have isGap' := is_gap_of_gap _ _ _ closes
      have legible : behind ≠ [] → (node.withMargin (.around before after)).Legible .element :=
        fun more => whole.legible .element _ (Margin.fits_around _ _ _ _ (isGap some') (isGap' more))
      dsimp only at read
      split at read
      · cases read
        exact ⟨⟨legible (List.cons_ne_nil _ _), trivial⟩, is_gap_nil⟩
      · obtain ⟨⟨others, finalComma, trailing, behind⟩, more, read⟩ := Option.bind_eq_some_iff.mp read
        cases read
        obtain ⟨each, isTrailing⟩ := ih _ _ _ _ _ _ more
        exact ⟨⟨legible (List.cons_ne_nil _ _), each⟩, isTrailing⟩
      · cases read

theorem fields_legible (value : Scan Node) (sound : Sound value) (bound : Nat) (source : Text)
    (parts : List Field) (preamble rest : Text)
    (read : fields value bound source = some (parts, preamble, rest)) :
    (∀ field ∈ parts, field.IsRead .braces) ∧ IsGap preamble := by
  induction bound generalizing source parts preamble rest with
  | zero => cases read
  | succ bound ih =>
    obtain ⟨⟨before, behind⟩, opens, read⟩ := Option.bind_eq_some_iff.mp read
    have isGap := is_gap_of_gap _ _ _ opens
    dsimp only at read
    split at read
    · cases read
      exact ⟨by simp, isGap (List.cons_ne_nil _ _)⟩
    · obtain ⟨⟨parents, key, behind⟩, taken, read⟩ := Option.bind_eq_some_iff.mp read
      have around := isGap (path_source _ _ _ taken)
      obtain ⟨each, legibleKey, beside, outer, blank⟩ := path_legible _ _ _ _ _ taken
      obtain ⟨⟨more, behind⟩, spaced, read⟩ := Option.bind_eq_some_iff.mp read
      have isGap' := is_gap_of_gap _ _ _ spaced
      dsimp only at read
      split at read
      · obtain ⟨⟨space, behind⟩, opens', read⟩ := Option.bind_eq_some_iff.mp read
        obtain ⟨⟨node, behind⟩, inner, read⟩ := Option.bind_eq_some_iff.mp read
        obtain ⟨some', whole⟩ := sound _ _ _ inner
        obtain ⟨⟨after, behind⟩, closes, read⟩ := Option.bind_eq_some_iff.mp read
        have isSpace := is_gap_of_gap _ _ _ opens' some'
        have isAfter := is_gap_of_gap _ _ _ closes
        have isMore := isGap' (List.cons_ne_nil _ _)
        have field : behind ≠ [] → Field.IsRead .braces ⟨parents,
            { key with outer := .around before (key.outer.after.getD [] ++ more) },
            node.withMargin (.around space after)⟩ := by
          intro more'
          refine ⟨⟨fun parent member => (each parent member).1, legibleKey, ?_, ?_, ?_⟩,
            fun parent member => (each parent member).2⟩
          · rw [outer]
            exact Margin.fits_around _ _ _ _ around (blank.is_gap.append isMore)
          · cases node <;> exact whole.isValue
          · exact whole.legible .braces _ (Margin.fits_around _ _ _ _ isSpace (isAfter more'))
        dsimp only at read
        split at read
        · cases read
          exact ⟨by simpa using field (List.cons_ne_nil _ _), is_gap_nil⟩
        · obtain ⟨⟨others, preamble, behind⟩, later, read⟩ := Option.bind_eq_some_iff.mp read
          cases read
          obtain ⟨eachLater, isPreamble⟩ := ih _ _ _ _ later
          refine ⟨fun other member => ?_, isPreamble⟩
          rcases List.mem_cons.mp member with rfl | member
          · exact field (List.cons_ne_nil _ _)
          · exact eachLater other member
        · cases read
      · cases read

end Reader

namespace Entries

theorem legible_descend_inline? (change : InlineStyle → Entries → Option Entries)
    (kept : ∀ style entries out, entries.Legible .braces → change style entries = some out →
      out.Legible .braces ∧ out ≠ nil)
    (path : List Key) (each : ∀ key ∈ path, key.IsParent) (style : InlineStyle) (entries out : Entries)
    (legible : entries.Legible .braces)
    (changed : entries.descendInline? change path style = some out) :
    out.Legible .braces ∧ out ≠ nil := by
  induction path generalizing style entries out with
  | nil => exact kept style entries out legible changed
  | cons key path ih =>
    rw [descendInline?] at changed
    refine ⟨?_, alter?_ne_nil key _ entries out changed⟩
    have inner := ih fun other member => each other (List.mem_cons_of_mem _ member)
    obtain ⟨distinct, all⟩ := (legible_iff _ _).mp legible
    refine (legible_iff _ _).mpr ⟨nodup_alter? key _ entries out distinct changed, ?_⟩
    refine each_alter? _ _ (fun _ _ => id) key _ (fun node made => ?_) (fun other node new here made => ?_)
      entries out all changed
    · obtain ⟨rest, deeper, rfl⟩ := Option.map_eq_some_iff.mp made
      obtain ⟨legibleRest, some'⟩ := inner _ nil _ trivial deeper
      obtain ⟨legibleKey, unset⟩ := each key List.mem_cons_self
      exact ⟨legibleKey, Node.suits_unset _ _ _ unset, by simp, some', legibleRest⟩
    · obtain ⟨legibleKey, suits, legibleNode⟩ := here
      cases node with
      | inline own entries =>
        dsimp only at made
        split at made
        · obtain ⟨rest, deeper, rfl⟩ := Option.map_eq_some_iff.mp made
          refine ⟨legibleKey, suits, ?_⟩
          rw [Node.Legible] at legibleNode ⊢
          split
          · case isTrue dotted =>
            rw [if_pos dotted] at legibleNode
            obtain ⟨legibleRest, some'⟩ := inner _ _ _ legibleNode.2.2 deeper
            exact ⟨legibleNode.1, some', legibleRest⟩
          · case isFalse plain =>
            rw [if_neg plain] at legibleNode
            exact ⟨legibleNode.1, legibleNode.2.1, (inner _ _ _ legibleNode.2.2 deeper).1⟩
        · cases made
      | scalar margin value => cases made
      | array style elements => cases made
      | table style entries => cases made
      | tables elements => cases made

theorem legible_of_fields? (parts : List Field) (each : ∀ field ∈ parts, field.IsRead .braces)
    (out : Entries) (made : ofFields? parts = some out) : out.Legible .braces := by
  refine foldl_m_keeps (·.Legible .braces) _ parts (fun field member before after legible added => ?_)
    nil out trivial made
  obtain ⟨⟨parents, key, around, isValue, value⟩, outer⟩ := each field member
  refine (legible_descend_inline? _ (fun style entries out legible added => ?_) field.parents
    (fun key member => ⟨parents key member, outer key member⟩) _ before after legible added).1
  exact ⟨legible_add? .braces _ _ _ _ _ _ legible
    ⟨key, field.value.suits_of_is_value .braces field.key isValue around, value⟩ added,
    add?_ne_nil _ _ _ _ _ _ added⟩

end Entries

namespace Reader

open Text

theorem scalar_nil : scalar [] = none := by decide

theorem scalar_whole (source rest : Text) (node : Node) (read : scalar source = some (node, rest)) :
    source ≠ [] ∧ node.Whole := by
  refine ⟨?_, ?_⟩
  · rintro rfl
    rw [scalar_nil] at read
    cases read
  · obtain ⟨value, rfl, reads⟩ := Scalar.reads_of_scalar source rest node read
    exact ⟨rfl, fun site margin beside => ⟨beside, reads⟩⟩

theorem value_sound (depth : Nat) : Sound (value depth) := by
  induction depth with
  | zero => exact fun source node rest read => scalar_whole source rest node read
  | succ depth ih =>
    intro source node rest read
    unfold value at read
    split at read
    · obtain ⟨⟨nodes, comma, trailing, behind⟩, inner, read⟩ := Option.bind_eq_some_iff.mp read
      cases read
      obtain ⟨each, isTrailing⟩ := elements_legible _ ih _ _ _ _ _ _ _ inner
      exact ⟨List.cons_ne_nil _ _, rfl, fun site margin beside => ⟨beside, isTrailing, each⟩⟩
    · obtain ⟨⟨parts, preamble, behind⟩, inner, read⟩ := Option.bind_eq_some_iff.mp read
      obtain ⟨entries, made, read⟩ := Option.bind_eq_some_iff.mp read
      cases read
      obtain ⟨each, isPreamble⟩ := fields_legible _ ih _ _ _ _ _ inner
      refine ⟨List.cons_ne_nil _ _, rfl, fun site margin beside => ?_⟩
      exact ⟨beside, isPreamble, Entries.legible_of_fields? parts each entries made⟩
    · exact scalar_whole source rest node read

end Reader

def Statement.IsRead : Statement → Prop
  | .field line => line.IsRead .line
  | .header line => line.Legible ∧ ∀ key ∈ line.parents, key.outer = .unset

namespace Reader

theorem header_is_read (isElement : Bool) (before source : Text) (isGap : IsGap before)
    (statement : Statement) (rest : Text)
    (read : header isElement before source = some (statement, rest)) : statement.IsRead := by
  obtain ⟨⟨parents, key, behind⟩, taken, read⟩ := Option.bind_eq_some_iff.mp read
  obtain ⟨behind', after, ends, rfl⟩ : ∃ behind' after, restOfLine behind' = some (after, rest) ∧
      statement = .header ⟨parents, key, isElement, .around before after⟩ := by
    dsimp only at read
    split at read
    · obtain ⟨line, -, read⟩ := Option.bind_eq_some_iff.mp read
      obtain ⟨⟨after, end'⟩, ends, read⟩ := Option.bind_eq_some_iff.mp read
      cases read
      exact ⟨line, after, ends, rfl⟩
    · obtain ⟨line, -, read⟩ := Option.bind_eq_some_iff.mp read
      obtain ⟨⟨after, end'⟩, ends, read⟩ := Option.bind_eq_some_iff.mp read
      cases read
      exact ⟨line, after, ends, rfl⟩
    · cases read
  obtain ⟨each, legibleKey, beside, outer, blank⟩ := path_legible _ _ _ _ _ taken
  refine ⟨⟨fun parent member => (each parent member).1, legibleKey, ?_, ?_⟩,
    fun parent member => (each parent member).2⟩
  · dsimp only
    rw [outer]
    exact Margin.fits_around _ _ _ _ (is_blanks_blanks source) blank
  · exact Margin.fits_around _ _ _ _ isGap (is_tail_of_rest_of_line _ _ _ ends)

theorem field_is_read (before source : Text) (isGap : IsGap before) (statement : Statement)
    (rest : Text) (read : field before source = some (statement, rest)) : statement.IsRead := by
  obtain ⟨⟨parents, key, behind⟩, taken, read⟩ := Option.bind_eq_some_iff.mp read
  obtain ⟨each, legibleKey, beside, outer, blank⟩ := path_legible _ _ _ _ _ taken
  dsimp only at read
  split at read
  · obtain ⟨⟨node, behind⟩, inner, read⟩ := Option.bind_eq_some_iff.mp read
    obtain ⟨⟨after, behind⟩, ends, read⟩ := Option.bind_eq_some_iff.mp read
    cases read
    obtain ⟨-, whole⟩ := value_sound _ _ _ _ inner
    refine ⟨⟨fun parent member => (each parent member).1, legibleKey, ?_, ?_, ?_⟩,
      fun parent member => (each parent member).2⟩
    · dsimp only
      rw [outer]
      exact Margin.fits_around _ _ _ _ isGap blank
    · cases node <;> exact whole.isValue
    · exact whole.legible .line _
        (Margin.fits_around _ _ _ _ (is_blanks_blanks _) (is_tail_of_rest_of_line _ _ _ ends))
  · cases read

theorem statement_is_read (before source : Text) (isGap : IsGap before) (statement : Statement)
    (rest : Text) (read : Reader.statement before source = some (statement, rest)) :
    statement.IsRead := by
  unfold Reader.statement at read
  split at read
  · exact header_is_read true before _ isGap statement rest read
  · exact header_is_read false before _ isGap statement rest read
  · exact field_is_read before source isGap statement rest read

theorem statements_is_read (bound : Nat) (source : Text) (list : List Statement) (trailing : Text)
    (read : statements bound source = some (list, trailing)) :
    (∀ statement ∈ list, statement.IsRead) ∧ IsTail trailing := by
  induction bound generalizing source list trailing with
  | zero => cases read
  | succ bound ih =>
    obtain ⟨⟨before, behind⟩, opens, read⟩ := Option.bind_eq_some_iff.mp read
    cases behind with
    | nil =>
      cases read
      exact ⟨by simp, is_tail_of_gap _ _ _ opens⟩
    | cons c behind =>
      have some' := List.cons_ne_nil c behind
      obtain ⟨⟨first, behind⟩, here, read⟩ := Option.bind_eq_some_iff.mp read
      obtain ⟨⟨others, trailing⟩, later, read⟩ := Option.bind_eq_some_iff.mp read
      cases read
      obtain ⟨each, isTail⟩ := ih _ _ _ later
      refine ⟨fun statement member => ?_, isTail⟩
      rcases List.mem_cons.mp member with rfl | member
      · exact statement_is_read before _ (is_gap_of_gap _ _ _ opens some') _ _ here
      · exact each statement member

end Reader

end Reroot
