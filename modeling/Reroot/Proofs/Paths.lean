import Mathlib.Data.List.Infix
import Reroot.Disk.Change

set_option autoImplicit false

namespace Reroot.Path

theorem pieces_cons (c : Char) (rest first : Text) (others : List Text) (other : c ≠ '/')
    (inner : pieces rest = first :: others) : pieces (c :: rest) = (c :: first) :: others := by
  rw [pieces, inner]
  exact other

theorem pieces_ne_nil (path : Text) : pieces path ≠ [] := by
  cases path with
  | nil => simp [pieces]
  | cons c path =>
    by_cases slash : c = '/'
    · simp [slash, pieces]
    · cases inner : pieces path with
      | nil => simp [pieces, inner]
      | cons first others => simp [pieces_cons c path first others slash inner]

theorem pieces_solid (piece : Text) (solid : '/' ∉ piece) : pieces piece = [piece] := by
  induction piece with
  | nil => rfl
  | cons c piece ih =>
    rw [List.mem_cons, not_or] at solid
    exact pieces_cons c piece piece [] (Ne.symm solid.1) (ih solid.2)

theorem pieces_append (piece rest : Text) (solid : '/' ∉ piece) :
    pieces (piece ++ '/' :: rest) = piece :: pieces rest := by
  induction piece with
  | nil => rfl
  | cons c piece ih =>
    rw [List.mem_cons, not_or] at solid
    exact pieces_cons c (piece ++ '/' :: rest) piece _ (Ne.symm solid.1) (ih solid.2)

theorem solid_of_mem_pieces (path : Text) : ∀ piece ∈ pieces path, '/' ∉ piece := by
  induction path with
  | nil => simp [pieces]
  | cons c path ih =>
    by_cases slash : c = '/'
    · rw [slash, pieces]
      intro piece member
      rcases List.mem_cons.mp member with rfl | later
      · exact List.not_mem_nil
      · exact ih piece later
    · cases inner : pieces path with
      | nil => exact absurd inner (pieces_ne_nil path)
      | cons first others =>
        rw [inner] at ih
        rw [pieces_cons c path first others slash inner]
        intro piece member
        rcases List.mem_cons.mp member with rfl | later
        · rw [List.mem_cons, not_or]
          exact ⟨Ne.symm slash, ih first List.mem_cons_self⟩
        · exact ih piece (List.mem_cons_of_mem _ later)

theorem pieces_intercalate (first : Text) (others : List Text)
    (solid : ∀ piece ∈ first :: others, '/' ∉ piece) :
    pieces (['/'].intercalate (first :: others)) = first :: others := by
  induction others generalizing first with
  | nil => simpa using pieces_solid first (solid first List.mem_cons_self)
  | cons second others ih =>
    have later := ih second fun piece member => solid piece (List.mem_cons_of_mem _ member)
    rw [List.intercalate_cons_cons, List.append_assoc, List.singleton_append,
      pieces_append first _ (solid first List.mem_cons_self), later]

theorem is_absolute_eq (path first : Text) (rest : List Text) (whole : pieces path = first :: rest) :
    isAbsolute path = (first.isEmpty && !rest.isEmpty) := by
  cases path with
  | nil =>
    cases whole
    rfl
  | cons c path =>
    by_cases slash : c = '/'
    · rw [slash, pieces] at whole
      obtain ⟨rfl, rfl⟩ := List.cons.inj whole
      cases inner : pieces path with
      | nil => exact absurd inner (pieces_ne_nil path)
      | cons second others => simp [isAbsolute, slash]
    · cases inner : pieces path with
      | nil => exact absurd inner (pieces_ne_nil path)
      | cons own others =>
        rw [pieces_cons c path own others slash inner] at whole
        obtain ⟨rfl, rfl⟩ := List.cons.inj whole
        simp [isAbsolute, slash]

def Component.Reads (isFirst : Bool) (step : Component) : Prop :=
  '/' ∉ step.text ∧ ofPiece? isFirst step.text = some step

theorem Component.Reads.text_ne_nil {isFirst : Bool} {step : Component} (reads : step.Reads isFirst) :
    step.text ≠ [] := by
  intro empty
  rw [Component.Reads, empty] at reads
  cases reads.2

theorem Component.reads_of_piece (isFirst : Bool) (piece : Text) (step : Component)
    (solid : '/' ∉ piece) (read : ofPiece? isFirst piece = some step) : step.Reads isFirst := by
  have text : step.text = piece := by
    unfold ofPiece? at read
    split at read
    · cases read
    · split at read
      · case isTrue dot =>
        split at read
        · cases read
          exact (beq_iff_eq.mp dot).symm
        · cases read
      · split at read
        · case isTrue dots =>
          cases read
          exact (beq_iff_eq.mp dots).symm
        · cases read
          rfl
  rw [Component.Reads, text]
  exact ⟨solid, read⟩

inductive Steps : List Component → Prop where
  | none : Steps []
  | absolute (rest : List Component) (each : ∀ step ∈ rest, step.Reads false) : Steps (.root :: rest)
  | relative (first : Component) (rest : List Component) (reads : first.Reads true)
      (each : ∀ step ∈ rest, step.Reads false) : Steps (first :: rest)

theorem steps_components (path : Text) : Steps (components path) := by
  have solid := solid_of_mem_pieces path
  have inner : ∀ rest : List Text, (∀ piece ∈ rest, '/' ∉ piece) →
      ∀ step ∈ rest.filterMap (Component.ofPiece? false), step.Reads false := by
    intro rest solid step member
    obtain ⟨piece, there, read⟩ := List.mem_filterMap.mp member
    exact Component.reads_of_piece false piece step (solid piece there) read
  rw [components]
  cases shape : pieces path with
  | nil => exact .none
  | cons first rest =>
    rw [shape] at solid
    have each := inner rest fun piece member => solid piece (List.mem_cons_of_mem _ member)
    by_cases absolute : isAbsolute path = true
    · simp only [absolute, if_true]
      exact .absolute _ each
    · simp only [absolute]
      cases read : Component.ofPiece? true first with
      | some step =>
        exact .relative step _
          (Component.reads_of_piece true first step (solid first List.mem_cons_self) read) each
      | none =>
        -- Only the empty path has no first step.
        have empty : first = [] := by
          by_contra some'
          simp only [Component.ofPiece?, List.isEmpty_iff, some', if_false] at read
          split at read
          · cases read
          · split at read <;> cases read
        have alone : rest = [] := by
          rw [is_absolute_eq path first rest shape, empty] at absolute
          simpa using absolute
        rw [alone]
        exact .none

theorem Steps.take {steps : List Component} (isSteps : Steps steps) (count : Nat) :
    Steps (steps.take count) := by
  cases count with
  | zero => exact .none
  | succ count =>
    cases isSteps with
    | none => exact .none
    | absolute rest each => exact .absolute _ fun step member => each step (List.mem_of_mem_take member)
    | relative first rest reads each =>
      exact .relative first _ reads fun step member => each step (List.mem_of_mem_take member)

theorem filter_map_text (rest : List Component) (each : ∀ step ∈ rest, step.Reads false) :
    (rest.map Component.text).filterMap (Component.ofPiece? false) = rest := by
  rw [List.filterMap_map]
  exact (List.filterMap_congr fun step member => (each step member).2).trans List.filterMap_some

theorem pieces_of_components (steps : List Component) (isSteps : Steps steps) (some : steps ≠ [])
    (more : steps ≠ [.root]) : pieces (ofComponents steps) = steps.map Component.text := by
  have solid : ∀ piece ∈ steps.map Component.text, '/' ∉ piece := by
    intro piece member
    obtain ⟨step, there, rfl⟩ := List.mem_map.mp member
    cases isSteps with
    | none => cases there
    | absolute rest each =>
      rcases List.mem_cons.mp there with rfl | later
      · exact List.not_mem_nil
      · exact (each step later).1
    | relative first rest reads each =>
      rcases List.mem_cons.mp there with rfl | later
      · exact reads.1
      · exact (each step later).1
  rw [ofComponents, if_neg (by simpa using more)]
  cases steps with
  | nil => exact absurd rfl some
  | cons first rest => exact pieces_intercalate first.text (rest.map Component.text) solid

theorem components_of_components (steps : List Component) (isSteps : Steps steps) :
    components (ofComponents steps) = steps := by
  by_cases empty : steps = []
  · rw [empty]
    rfl
  by_cases root : steps = [.root]
  · rw [root]
    rfl
  have parts := pieces_of_components steps isSteps empty root
  cases isSteps with
  | none => exact absurd rfl empty
  | absolute rest each =>
    rw [List.map_cons] at parts
    have absolute : isAbsolute (ofComponents (.root :: rest)) = true := by
      rw [is_absolute_eq _ _ _ parts]
      cases rest with
      | nil => exact absurd rfl root
      | cons second rest => rfl
    rw [components, parts]
    dsimp only
    rw [if_pos absolute, filter_map_text rest each]
    rfl
  | relative first rest reads each =>
    rw [List.map_cons] at parts
    have relative : isAbsolute (ofComponents (first :: rest)) = false := by
      rw [is_absolute_eq _ _ _ parts]
      simp [reads.text_ne_nil]
    rw [components, parts]
    dsimp only
    rw [relative, reads.2, filter_map_text rest each]
    rfl

theorem is_prefix_self (path : Text) : IsPrefix path path := List.prefix_refl _

theorem is_prefix_of_mem_ancestors (path first : Text) (member : first ∈ ancestors path) :
    IsPrefix first path := by
  obtain ⟨count, -, rfl⟩ := List.mem_map.mp member
  rw [IsPrefix, components_of_components _ ((steps_components path).take count)]
  exact List.take_prefix count _

end Reroot.Path
