import Reroot.Proofs.Files

set_option autoImplicit false

namespace Reroot

namespace Path

def Component.move? : Component → Option Text
  | root | here => none
  | up => some ['.', '.']
  | name text => some text

theorem move_of_piece (isFirst : Bool) (piece : Text) :
    (Component.ofPiece? isFirst piece).bind Component.move? =
      if piece.isEmpty || piece == ['.'] then none else some piece := by
  unfold Component.ofPiece?
  by_cases empty : piece.isEmpty = true
  · simp [empty]
  · by_cases dot : piece = ['.']
    · cases isFirst <;> simp [dot, Component.move?]
    · by_cases dots : piece = ['.', '.'] <;> simp [empty, dot, dots, Component.move?]

theorem of_piece_ne_root (isFirst : Bool) (piece : Text) :
    Component.ofPiece? isFirst piece ≠ some .root := by
  unfold Component.ofPiece?
  by_cases empty : piece.isEmpty = true
  · simp [empty]
  · by_cases dot : piece = ['.']
    · cases isFirst <;> simp [dot]
    · by_cases dots : piece = ['.', '.'] <;> simp [empty, dot, dots]

theorem filter_map_moves (isFirst : Bool) (rest : List Text) :
    (rest.filterMap (Component.ofPiece? isFirst)).filterMap Component.move? =
      rest.filter fun piece => !piece.isEmpty && piece != ['.'] := by
  rw [List.filterMap_filterMap]
  induction rest with
  | nil => rfl
  | cons piece rest ih =>
    rw [List.filterMap_cons, move_of_piece, ih]
    by_cases empty : piece.isEmpty = true
    · simp [empty]
    · by_cases dot : piece = ['.'] <;> simp [empty, dot]

theorem components_eq (path : Text) : ∃ first rest, pieces path = first :: rest ∧
    components path = (if isAbsolute path then [.root]
      else [first].filterMap (Component.ofPiece? true)) ++ rest.filterMap (Component.ofPiece? false) := by
  cases whole : pieces path with
  | nil => exact absurd whole (pieces_ne_nil path)
  | cons first rest =>
    refine ⟨first, rest, rfl, ?_⟩
    rw [components, whole]
    cases made : Component.ofPiece? true first <;> simp [made]

theorem moves_eq (path : Text) : moves path = (components path).filterMap Component.move? := by
  obtain ⟨first, rest, whole, steps⟩ := components_eq path
  have split : first :: rest = [first] ++ rest := rfl
  rw [moves, steps, whole, split, List.filterMap_append, filter_map_moves, List.filter_append]
  by_cases absolute : isAbsolute path = true
  · have empty : first = [] := by
      rw [is_absolute_eq path first rest whole, Bool.and_eq_true, List.isEmpty_iff] at absolute
      exact absolute.1
    simp [absolute, empty, Component.move?]
  · rw [if_neg absolute, filter_map_moves]

theorem is_absolute_iff (path : Text) :
    isAbsolute path = true ↔ (components path).head? = some .root := by
  obtain ⟨first, rest, -, steps⟩ := components_eq path
  rw [steps]
  by_cases absolute : isAbsolute path = true
  · simp [absolute]
  · refine iff_of_false absolute fun found => ?_
    rw [if_neg absolute] at found
    rcases List.mem_append.mp (List.mem_of_head? found) with here | later
    · obtain ⟨piece, -, made⟩ := List.mem_filterMap.mp here
      exact of_piece_ne_root true piece made
    · obtain ⟨piece, -, made⟩ := List.mem_filterMap.mp later
      exact of_piece_ne_root false piece made

theorem Component.Reads.exists_move {step : Component} (reads : step.Reads false) :
    ∃ move, step.move? = some move := by
  cases step with
  | root | here => cases reads.2
  | up => exact ⟨_, rfl⟩
  | name text => exact ⟨text, rfl⟩

theorem Component.Reads.not_dot {step : Component} (reads : step.Reads false) : step.text ≠ ['.'] := by
  intro dot
  rw [Component.Reads, dot] at reads
  cases reads.2

theorem Steps.reads_tail {steps : List Component} (isSteps : Steps steps) :
    ∀ step ∈ steps.tail, step.Reads false := by
  cases isSteps with
  | none => simp
  | absolute rest each => exact each
  | relative first rest reads each => exact each

theorem Steps.moves_drop_last {steps : List Component} (isSteps : Steps steps) :
    steps.dropLast.filterMap Component.move? = (steps.filterMap Component.move?).dropLast := by
  have behind := isSteps.reads_tail
  rcases List.eq_nil_or_concat steps with rfl | ⟨front, last, rfl⟩
  · rfl
  · cases front with
    | nil => cases move : last.move? <;> simp [move]
    | cons first front =>
      obtain ⟨move, moves⟩ := (behind last (by simp)).exists_move
      rw [List.concat_eq_append, List.dropLast_concat, List.filterMap_append]
      simp [moves]

theorem Steps.last_reads {front : List Component} {last : Component}
    (isSteps : Steps (front ++ [last])) (more : front ++ [last] ≠ [.root]) :
    last.Reads false ∨ last.Reads true ∧ front = [] := by
  cases front with
  | nil =>
    cases isSteps with
    | absolute rest each => exact absurd rfl more
    | relative first rest reads each => exact .inr ⟨reads, rfl⟩
  | cons first front => exact .inl (isSteps.reads_tail last (by simp))

theorem of_components_ne_empty (steps : List Component) (isSteps : Steps steps) (some : steps ≠ []) :
    String.ofList (ofComponents steps) ≠ "" := by
  intro empty
  have whole := components_of_components steps isSteps
  rw [String.ofList_eq_empty_iff.mp empty] at whole
  exact some whole.symm

def above (steps : List Component) : List Text :=
  ((List.range steps.length).reverse.filter (· != 0)).map fun count => ofComponents (steps.take count)

theorem above_concat (front : List Component) (last : Component) :
    above (front ++ [last]) = if front = [] then [] else ofComponents front :: above front := by
  have counts : (List.range (front ++ [last]).length).reverse =
      front.length :: (List.range front.length).reverse := by
    rw [List.length_append, List.length_singleton, List.range_succ, List.reverse_append]
    rfl
  by_cases empty : front = []
  · simp [above, empty]
  · rw [above, counts, List.filter_cons_of_pos (by simpa using empty), List.map_cons, List.take_left,
      if_neg empty, above]
    refine congrArg _ (List.map_congr_left fun count member => ?_)
    have short : count < front.length := by simpa using List.mem_of_mem_filter member
    rw [List.take_append_of_le_length short.le]

theorem ends_in_dot_of_components (steps : List Component) (isSteps : Steps steps)
    (ends : endsInDot (ofComponents steps) = true) : steps = [.here] := by
  have some : steps ≠ [] := by
    rintro rfl
    cases ends
  have more : steps ≠ [.root] := by
    rintro rfl
    cases ends
  rw [endsInDot, pieces_of_components steps isSteps some more, beq_iff_eq] at ends
  rcases List.eq_nil_or_concat steps with rfl | ⟨front, last, rfl⟩
  · exact absurd rfl some
  · rw [List.concat_eq_append] at isSteps more ends ⊢
    have reads := isSteps.last_reads more
    have named : last.text ≠ [] := by
      rcases reads with reads | ⟨reads, -⟩
      · exact reads.text_ne_nil
      · exact reads.text_ne_nil
    have dot : last.text = ['.'] := by
      simpa [List.filter_append, named] using ends
    rcases reads with reads | ⟨reads, rfl⟩
    · exact absurd dot reads.not_dot
    · rw [Component.Reads, dot] at reads
      exact congrArg (fun step => [step]) (Option.some.inj reads.2).symm

end Path

namespace Disk

theorem walk_filter (disk : Disk) (start : Place) (pieces : List Text) :
    disk.walk start (pieces.filter (· != ['.'])) = disk.walk start pieces := by
  induction pieces generalizing start with
  | nil => rfl
  | cons piece pieces ih =>
    by_cases here : piece = ['.']
    · rw [List.filter_cons_of_neg (by simp [here]), ih, here]
      rfl
    · rw [List.filter_cons_of_pos (by simpa using here), walk, walk]
      simp only [ih]

def land (place : Place) : List Text → Place
  | [] => place
  | piece :: rest =>
    if piece == ['.', '.'] then land place.dropLast rest
    else land (place ++ [String.ofList piece]) rest

theorem passed_append (start : Place) (first second : List Text) :
    passed start (first ++ second) = passed start first ++ passed (land start first) second := by
  induction first generalizing start with
  | nil => rfl
  | cons piece first ih =>
    rw [List.cons_append, passed, passed, land]
    by_cases up : (piece == ['.', '.']) = true
    · rw [if_pos up, if_pos up, if_pos up, ih]
    · rw [if_neg up, if_neg up, if_neg up, ih, List.cons_append]

theorem walk_cases (disk : Disk) (start : Place) (moves : List Text) (noDots : ['.'] ∉ moves) :
    (∀ place ∈ passed start moves, disk.item? place = some .folder) ∧
      disk.walk start moves = .ok (land start moves) ∨
    ∃ place ∈ passed start moves,
      disk.item? place = none ∧ disk.walk start moves = .error .missing ∨
      (∃ content, disk.item? place = some (.file content)) ∧
        disk.walk start moves = .error .notFolder := by
  induction moves generalizing start with
  | nil => exact .inl ⟨by simp [passed], rfl⟩
  | cons piece moves ih =>
    rw [List.mem_cons, not_or] at noDots
    have here : ¬(piece == ['.']) = true := by simpa using Ne.symm noDots.1
    rw [walk, if_neg here, passed, land]
    by_cases up : (piece == ['.', '.']) = true
    · rw [if_pos up, if_pos up, if_pos up]
      exact ih start.dropLast noDots.2
    · rw [if_neg up, if_neg up, if_neg up]
      dsimp only
      cases next : disk.item? (start ++ [String.ofList piece]) with
      | none => exact .inr ⟨_, List.mem_cons_self, .inl ⟨next, rfl⟩⟩
      | some item =>
        cases item with
        | file content => exact .inr ⟨_, List.mem_cons_self, .inr ⟨⟨content, next⟩, rfl⟩⟩
        | folder =>
          rcases ih (start ++ [String.ofList piece]) noDots.2 with ⟨folders, led⟩ | ⟨place, there, halt⟩
          · exact .inl ⟨List.forall_mem_cons.mpr ⟨next, folders⟩, led⟩
          · exact .inr ⟨place, List.mem_cons_of_mem _ there, halt⟩

def ahead (disk : Disk) (path : String) : List Place :=
  passed (disk.start path) (if Path.endsInDot path.toList then Path.moves path.toList
    else (Path.moves path.toList).dropLast)

theorem resolve_cases (disk : Disk) (path : String) (nonempty : path ≠ "") :
    (∃ place ∈ disk.ahead path,
      disk.item? place = none ∧ disk.resolve path = .error .missing ∨
      (∃ content, disk.item? place = some (.file content)) ∧
        disk.resolve path = .error .notFolder) ∨
    (∀ place ∈ disk.ahead path, disk.item? place = some .folder) ∧
      ((∃ place, disk.resolve path = .ok (.folder place) ∧ disk.way path = disk.ahead path) ∨
      ∃ parent name asFolder, disk.resolve path = .ok (.named parent name asFolder) ∧
        disk.way path = disk.ahead path ++ [parent ++ [name]]) := by
  have parts : Path.moves path.toList =
      ((Path.pieces path.toList).filter (!·.isEmpty)).filter (· != ['.']) := by
    rw [List.filter_filter, Path.moves]
    simp only [Bool.and_comm]
  rw [resolve, way, ahead, Path.endsInDot, parts, start]
  generalize (if Path.isAbsolute path.toList = true then [] else disk.working) = start
  cases last : ((Path.pieces path.toList).filter (!·.isEmpty)).getLast? with
  | none =>
    rw [List.getLast?_eq_none_iff.mp last]
    exact .inr ⟨by simp [passed], .inl ⟨[], by simp [nonempty], rfl⟩⟩
  | some piece =>
    obtain ⟨before, split⟩ := List.getLast?_eq_some_iff.mp last
    rw [split, List.dropLast_concat, List.filter_append, ← disk.walk_filter start before]
    have walked := disk.walk_cases start (before.filter (· != ['.'])) (by simp)
    generalize before.filter (· != ['.']) = before at walked
    by_cases dot : piece = ['.']
    · have same : before ++ [piece].filter (· != ['.']) = before := by simp [dot]
      rw [if_pos (by simp [dot]), same]
      rcases walked with ⟨folders, led⟩ | ⟨place, there, ⟨none, halt⟩ | ⟨file, halt⟩⟩
      · exact .inr ⟨folders, .inl ⟨land start before, by simp [led, dot], rfl⟩⟩
      · exact .inl ⟨place, there, .inl ⟨none, by rw [halt]⟩⟩
      · exact .inl ⟨place, there, .inr ⟨file, by rw [halt]⟩⟩
    · have same : before ++ [piece].filter (· != ['.']) = before ++ [piece] := by simp [dot]
      rw [if_neg (by simp [dot]), same, List.dropLast_concat, passed_append]
      rcases walked with ⟨folders, led⟩ | ⟨place, there, ⟨none, halt⟩ | ⟨file, halt⟩⟩
      · refine .inr ⟨folders, ?_⟩
        by_cases up : piece = ['.', '.']
        · exact .inl ⟨(land start before).dropLast, by simp [led, up], by simp [passed, up]⟩
        · exact .inr ⟨land start before, String.ofList piece, path.toList.getLast? == some '/',
            by simp [led, dot, up], by simp [passed, up]⟩
      · exact .inl ⟨place, there, .inl ⟨none, by rw [halt]⟩⟩
      · exact .inl ⟨place, there, .inr ⟨file, by rw [halt]⟩⟩

theorem mem_passed_of_drop_last (start : Place) (moves : List Text) :
    ∀ place ∈ passed start moves.dropLast, place ∈ passed start moves := by
  intro place member
  rcases List.eq_nil_or_concat moves with rfl | ⟨front, last, rfl⟩
  · exact member
  · rw [List.concat_eq_append] at member ⊢
    rw [List.dropLast_concat] at member
    rw [passed_append]
    exact List.mem_append_left _ member

theorem mem_way_of_ahead (disk : Disk) (path : String) :
    ∀ place ∈ disk.ahead path, place ∈ disk.way path := by
  intro place member
  rw [ahead] at member
  split at member
  · exact member
  · exact mem_passed_of_drop_last _ _ place member

theorem is_folder_iff (disk : Disk) (path : String) (nonempty : path ≠ "") :
    disk.isFolder path = true ↔ ∀ place ∈ disk.way path, disk.item? place = some .folder := by
  rw [isFolder]
  rcases disk.resolve_cases path nonempty with ⟨place, there, halt⟩ | ⟨folders, leads⟩
  · have other : disk.item? place ≠ some .folder := by
      rcases halt with ⟨none, -⟩ | ⟨⟨content, file⟩, -⟩
      · simp [none]
      · simp [file]
    refine iff_of_false ?_ fun folders => other (folders place (disk.mem_way_of_ahead path place there))
    rcases halt with ⟨-, halt⟩ | ⟨-, halt⟩
    · simp [halt]
    · simp [halt]
  · rcases leads with ⟨place, led, same⟩ | ⟨parent, name, asFolder, led, more⟩
    · rw [led, same]
      exact iff_of_true rfl folders
    · rw [led, more, List.forall_mem_append, List.forall_mem_singleton]
      exact ⟨fun own => ⟨folders, beq_iff_eq.mp own⟩, fun all => beq_iff_eq.mpr all.2⟩

structure Made (places : List Place) (before after : Disk) : Prop where
  working : after.working = before.working
  item : ∀ place, after.item? place = if place ∈ places then some .folder else before.item? place

theorem made_of_folders (places : List Place) (disk : Disk)
    (folders : ∀ place ∈ places, disk.item? place = some .folder) : Made places disk disk := by
  refine ⟨rfl, fun place => ?_⟩
  by_cases member : place ∈ places
  · rw [if_pos member, folders place member]
  · rw [if_neg member]

def Free (disk : Disk) (places : List Place) : Prop :=
  ∀ place ∈ places, ∀ content, disk.item? place ≠ some (.file content)

theorem free_iff (disk : Disk) (places : List Place) : disk.Free places ↔
    ∀ place ∈ places, disk.item? place = some .folder ∨ disk.item? place = none := by
  refine forall₂_congr fun place _ => ?_
  cases disk.item? place with
  | none => simp
  | some item => cases item <;> simp

structure Ready (disk : Disk) (path : String) : Prop where
  ahead : ∀ place ∈ disk.ahead path, disk.item? place = some .folder
  free : disk.Free (disk.way path)

theorem make_folder_cases (disk : Disk) (path : String) (nonempty : path ≠ "") :
    (∃ place ∈ disk.ahead path, disk.item? place = none) ∧
      disk.makeFolder path = .error .missing ∨
    (∃ place ∈ disk.way path, ∃ content, disk.item? place = some (.file content)) ∧
      (∃ fault, fault ≠ .missing ∧ disk.makeFolder path = .error fault) ∨
    disk.Ready path ∧ (disk.isFolder path = true ∧ disk.makeFolder path = .error .taken ∨
      ∃ after, disk.makeFolder path = .ok after ∧ Made (disk.way path) disk after) := by
  rw [is_folder_iff disk path nonempty, makeFolder]
  rcases disk.resolve_cases path nonempty with ⟨place, there, halt⟩ | ⟨folders, leads⟩
  · rcases halt with ⟨none, halt⟩ | ⟨⟨content, file⟩, halt⟩
    · exact .inl ⟨⟨place, there, none⟩, by rw [halt]⟩
    · exact .inr (.inl ⟨⟨place, disk.mem_way_of_ahead path place there, content, file⟩, .notFolder,
        by simp, by rw [halt]⟩)
  · rcases leads with ⟨place, led, same⟩ | ⟨parent, name, asFolder, led, more⟩
    · have ready : disk.Ready path := by
        refine ⟨folders, fun place member content => ?_⟩
        rw [folders place (same ▸ member)]
        simp
      exact .inr (.inr ⟨ready, .inl ⟨same ▸ folders, by rw [led]⟩⟩)
    · rw [led]
      dsimp only
      cases there : disk.item? (parent ++ [name]) with
      | none =>
        have ready : disk.Ready path := by
          refine ⟨folders, fun place member content => ?_⟩
          rcases List.mem_append.mp (more ▸ member) with before | own
          · simp [folders place before]
          · simp [List.mem_singleton.mp own, there]
        refine .inr (.inr ⟨ready, .inr ⟨_, rfl, rfl, fun place => ?_⟩⟩)
        rw [item?_set _ _ _ _ (by simp), more]
        by_cases own : place = parent ++ [name]
        · simp [own]
        · by_cases before : place ∈ disk.ahead path
          · simp [own, before, folders place before]
          · simp [own, before]
      | some item =>
        cases item with
        | file content =>
          exact .inr (.inl ⟨⟨parent ++ [name], by simp [more], content, there⟩, .taken, by simp, rfl⟩)
        | folder =>
          have all : ∀ place ∈ disk.way path, disk.item? place = some .folder := by
            rw [more, List.forall_mem_append, List.forall_mem_singleton]
            exact ⟨folders, there⟩
          have ready : disk.Ready path := by
            refine ⟨folders, fun place member content => ?_⟩
            simp [all place member]
          exact .inr (.inr ⟨ready, .inl ⟨all, rfl⟩⟩)

theorem ensure_folder_cases (disk : Disk) (path : String) (nonempty : path ≠ "") :
    (∃ after, disk.ensureFolder path = .ok after ∧ disk.Ready path ∧ Made (disk.way path) disk after) ∨
    ∃ fault, disk.ensureFolder path = .error fault ∧ ¬disk.Ready path := by
  rw [ensureFolder]
  rcases disk.make_folder_cases path nonempty with ⟨⟨place, there, none⟩, halt⟩ |
    ⟨⟨place, there, content, file⟩, fault, -, halt⟩ | ⟨ready, ⟨isFolder, taken⟩ | ⟨after, made, item⟩⟩
  · have unready : ¬disk.Ready path := by
      intro ready
      simp [ready.ahead place there] at none
    have missing : ¬disk.isFolder path = true := by
      intro isFolder
      have folders := (is_folder_iff disk path nonempty).mp isFolder
      simp [folders place (disk.mem_way_of_ahead path place there)] at none
    rw [halt]
    exact .inr ⟨.missing, if_neg missing, unready⟩
  · have unready : ¬disk.Ready path := fun ready => ready.free place there content file
    have blocked : ¬disk.isFolder path = true := by
      intro isFolder
      simp [(is_folder_iff disk path nonempty).mp isFolder place there] at file
    rw [halt]
    exact .inr ⟨fault, if_neg blocked, unready⟩
  · rw [taken]
    exact .inl ⟨disk, if_pos isFolder, ready,
      made_of_folders _ disk ((is_folder_iff disk path nonempty).mp isFolder)⟩
  · rw [made]
    exact .inl ⟨after, rfl, ready, item⟩

-- A result that is without fault just if nothing stands against it, and then has the folders.
def Makes (places : List Place) (disk : Disk) (ready : Prop) (result : Disk × Option Fault) : Prop :=
  (result.2 = none ↔ ready) ∧ (result.2 = none → Made places disk result.1)

-- What is ahead of a path is a folder from the start, or is made on the way upwards.
def Within (disk : Disk) (path : String) (places : List Place) : Prop :=
  (∀ place ∈ disk.ahead path, disk.item? place = some .folder ∨
    disk.item? place = none ∧ place ∈ places) ∧ disk.Free (disk.way path)

section Made

variable {places : List Place} {before middle after : Disk}

theorem Made.way_eq (made : Made places before after) (path : String) :
    after.way path = before.way path := by
  rw [way, way, start, start, made.working]

theorem Made.ahead_eq (made : Made places before after) (path : String) :
    after.ahead path = before.ahead path := by
  rw [ahead, ahead, start, start, made.working]

theorem Made.trans {others : List Place} (first : Made places before middle)
    (second : Made others middle after) (inside : ∀ place ∈ places, place ∈ others) :
    Made others before after := by
  refine ⟨second.working.trans first.working, fun place => ?_⟩
  rw [second.item, first.item]
  by_cases member : place ∈ others
  · rw [if_pos member, if_pos member]
  · rw [if_neg member, if_neg member, if_neg fun there => member (inside place there)]

theorem within_iff_ready (path : String) (made : Made places before after) (free : before.Free places) :
    before.Within path places ↔ after.Ready path := by
  constructor
  · intro within
    refine ⟨fun place member => ?_, fun place member content => ?_⟩
    · rw [made.item]
      rcases within.1 place (made.ahead_eq path ▸ member) with folder | ⟨-, there⟩
      · simp [folder]
      · simp [there]
    · rw [made.item]
      by_cases there : place ∈ places
      · simp [there]
      · rw [if_neg there]
        exact within.2 place (made.way_eq path ▸ member) content
  · intro ready
    refine ⟨fun place member => ?_, fun place member content => ?_⟩
    · have folder := ready.ahead place ((made.ahead_eq path).symm ▸ member)
      by_cases there : place ∈ places
      · exact ((before.free_iff places).mp free place there).imp_right fun missing => ⟨missing, there⟩
      · rw [made.item, if_neg there] at folder
        exact .inl folder
    · by_cases there : place ∈ places
      · exact free place there content
      · have clear := ready.free place ((made.way_eq path).symm ▸ member) content
        rwa [made.item, if_neg there] at clear

end Made

theorem makes_make_upwards (disk : Disk) (path : String) (nonempty : path ≠ "") (above : List String)
    (places : List Place)
    (upper : Makes places disk (disk.Free places) (disk.makeUpwards above))
    (inside : ∀ place ∈ places, place ∈ disk.ahead path) :
    Makes (disk.way path) disk (disk.Within path places) (disk.makeUpwards (path :: above)) := by
  rcases disk.make_folder_cases path nonempty with ⟨-, halt⟩ |
    ⟨⟨place, there, content, file⟩, fault, other, halt⟩ | ⟨ready, ⟨isFolder, taken⟩ | ⟨after, made, item⟩⟩
  · rw [makeUpwards, halt]
    obtain ⟨clear, made⟩ := upper
    dsimp only
    cases outcome : (disk.makeUpwards above).2 with
    | some fault =>
      have blocked : ¬disk.Free places := fun free => by simpa [outcome] using clear.mpr free
      have unready : ¬disk.Within path places := fun within =>
        blocked fun place member => within.2 place (disk.mem_way_of_ahead path place (inside place member))
      exact ⟨iff_of_false (by simp) unready, fun none => by cases none⟩
    | none =>
      have upper := made outcome
      rw [Makes, within_iff_ready path upper (clear.mp outcome)]
      have step := (disk.makeUpwards above).1.ensure_folder_cases path nonempty
      rw [upper.way_eq path] at step
      rcases step with ⟨after, ensured, ready, made⟩ | ⟨fault, ensured, unready⟩
      · simp only [ensured]
        exact ⟨iff_of_true trivial ready, fun _ => upper.trans made fun place member =>
          disk.mem_way_of_ahead path place (inside place member)⟩
      · simp only [ensured]
        exact ⟨iff_of_false (by simp) unready, fun none => by cases none⟩
  · have blocked : ¬disk.isFolder path = true := by
      intro isFolder
      simp [(is_folder_iff disk path nonempty).mp isFolder place there] at file
    have unready : ¬disk.Within path places := fun within => within.2 place there content file
    rw [make_upwards_of_error disk path above fault halt other, if_neg blocked]
    exact ⟨iff_of_false (by simp) unready, fun none => by cases none⟩
  · rw [make_upwards_of_error disk path above .taken taken (by simp), if_pos isFolder]
    have all := (is_folder_iff disk path nonempty).mp isFolder
    exact ⟨iff_of_true rfl ⟨fun place member => .inl (ready.ahead place member), ready.free⟩,
      fun _ => made_of_folders _ disk all⟩
  · rw [makeUpwards, made]
    exact ⟨iff_of_true rfl ⟨fun place member => .inl (ready.ahead place member), ready.free⟩,
      fun _ => item⟩

theorem within_iff_free (disk : Disk) (path : String) (places : List Place)
    (same : disk.ahead path = places) : disk.Within path places ↔ disk.Free (disk.way path) := by
  refine ⟨fun within => within.2, fun free => ⟨fun place member => ?_, free⟩⟩
  have clear := (disk.free_iff _).mp free place (disk.mem_way_of_ahead path place member)
  exact clear.imp_right fun missing => ⟨missing, same ▸ member⟩

def origin (disk : Disk) (steps : List Path.Component) : Place :=
  if steps.head? = some .root then [] else disk.working

theorem start_eq (disk : Disk) (path : String) :
    disk.start path = disk.origin (Path.components path.toList) := by
  simp only [start, origin, Path.is_absolute_iff]

theorem start_of_components (disk : Disk) (steps : List Path.Component) (isSteps : Path.Steps steps) :
    disk.start (String.ofList (Path.ofComponents steps)) = disk.origin steps := by
  rw [start_eq, String.toList_ofList, Path.components_of_components steps isSteps]

theorem way_of_components (disk : Disk) (steps : List Path.Component) (isSteps : Path.Steps steps) :
    disk.way (String.ofList (Path.ofComponents steps)) =
      passed (disk.origin steps) (steps.filterMap Path.Component.move?) := by
  rw [way, disk.start_of_components steps isSteps, String.toList_ofList, Path.moves_eq,
    Path.components_of_components steps isSteps]

theorem ahead_of_components (disk : Disk) (steps : List Path.Component) (isSteps : Path.Steps steps) :
    disk.ahead (String.ofList (Path.ofComponents steps)) =
      passed (disk.origin steps) (steps.dropLast.filterMap Path.Component.move?) := by
  rw [ahead, disk.start_of_components steps isSteps, String.toList_ofList, Path.moves_eq,
    Path.components_of_components steps isSteps, isSteps.moves_drop_last]
  by_cases ends : Path.endsInDot (Path.ofComponents steps) = true
  · rw [if_pos ends, Path.ends_in_dot_of_components steps isSteps ends]
    rfl
  · rw [if_neg ends]

theorem makes_above (disk : Disk) (steps : List Path.Component) (isSteps : Path.Steps steps) :
    let places := passed (disk.origin steps) (steps.dropLast.filterMap Path.Component.move?)
    Makes places disk (disk.Free places)
      (disk.makeUpwards ((Path.above steps).map String.ofList)) := by
  have nothing : Makes [] disk (disk.Free []) (disk.makeUpwards []) :=
    ⟨iff_of_true rfl (by simp [Free]), fun _ => made_of_folders [] disk (by simp)⟩
  induction steps using List.reverseRecOn with
  | nil => exact nothing
  | append_singleton front last ih =>
    dsimp only
    rw [Path.above_concat, List.dropLast_concat]
    by_cases empty : front = []
    · rw [empty]
      exact nothing
    · have isFront : Path.Steps front := by
        simpa using isSteps.take front.length
      have upper := ih isFront
      have same := disk.ahead_of_components front isFront
      have own := disk.way_of_components front isFront
      have origin : disk.origin (front ++ [last]) = disk.origin front := by
        rw [Disk.origin, Disk.origin, List.head?_append_of_ne_nil front empty]
      have nonempty := Path.of_components_ne_empty front isFront empty
      have made := disk.makes_make_upwards _ nonempty _ _ upper fun place member => same ▸ member
      rw [Makes, disk.within_iff_free _ _ same, own] at made
      rw [if_neg empty, origin, List.map_cons]
      exact made

-- A folder can be made just if no file is on the way, and all that is on the way is made with it.
theorem makes_make_folders (disk : Disk) (path : String) :
    Makes (disk.way path) disk
      (∀ place ∈ disk.way path, disk.item? place = some .folder ∨
        disk.item? place = none ∧ place ∈ disk.makable path) (disk.makeFolders path) := by
  by_cases nonempty : path = ""
  · rw [nonempty]
    have none : disk.way "" = [] := rfl
    rw [none]
    exact ⟨iff_of_true rfl (by simp), fun _ => made_of_folders [] disk (by simp)⟩
  · have isSteps := Path.steps_components path.toList
    have upper := disk.makes_above _ isSteps
    rw [isSteps.moves_drop_last, ← Path.moves_eq, ← disk.start_eq path] at upper
    have inside : ∀ place ∈ passed (disk.start path) (Path.moves path.toList).dropLast,
        place ∈ disk.ahead path := by
      intro place member
      rw [ahead]
      split
      · exact mem_passed_of_drop_last _ _ place member
      · exact member
    have made := disk.makes_make_upwards path nonempty _ _ upper inside
    have ready : disk.Within path (passed (disk.start path) (Path.moves path.toList).dropLast) ↔
        ∀ place ∈ disk.way path, disk.item? place = some .folder ∨
          disk.item? place = none ∧ place ∈ disk.makable path := by
      by_cases ends : Path.endsInDot path.toList = true
      · rw [Within, makable, ahead, if_pos ends, if_pos ends]
        refine and_iff_left_of_imp fun all => (disk.free_iff _).mpr fun place member => ?_
        exact (all place member).imp_right And.left
      · rw [disk.within_iff_free path _ (by rw [ahead, if_neg ends]), free_iff, makable, if_neg ends]
        exact forall₂_congr fun place member => or_congr_right (and_iff_left member).symm
    rw [makeFolders, if_neg (by simpa using nonempty)]
    rw [Makes, ready] at made
    exact made

theorem make_folder_of_is_folder (disk : Disk) (path : String) (isFolder : disk.isFolder path = true) :
    disk.makeFolder path = .error .taken := by
  unfold Disk.isFolder at isFolder
  unfold makeFolder
  cases led : disk.resolve path with
  | error fault =>
    rw [led] at isFolder
    cases isFolder
  | ok spot =>
    rw [led] at isFolder
    cases spot with
    | folder place => rfl
    | named parent name asFolder =>
      have there : disk.item? (parent ++ [name]) = some .folder := by simpa using isFolder
      simp [there]

section Made

variable (disk : Disk) (path : String) (made : (disk.makeFolders path).2 = none)

include made

theorem item_make_folders (place : Place) : (disk.makeFolders path).1.item? place =
    if place ∈ disk.way path then some .folder else disk.item? place :=
  ((disk.makes_make_folders path).2 made).item place

theorem is_folder_of_make_folders (nonempty : path ≠ "") :
    ∀ folder ∈ path :: (Path.ancestors path.toList).map String.ofList,
      (disk.makeFolders path).1.isFolder folder = true := by
  have whole := (disk.makes_make_folders path).2 made
  have folders : ∀ place ∈ disk.way path, (disk.makeFolders path).1.item? place = some .folder := by
    intro place member
    rw [whole.item, if_pos member]
  intro folder member
  rcases List.mem_cons.mp member with rfl | above
  · rw [is_folder_iff _ folder nonempty, whole.way_eq]
    exact folders
  · obtain ⟨first, there, rfl⟩ := List.mem_map.mp above
    obtain ⟨count, counted, rfl⟩ := List.mem_map.mp there
    have positive : count ≠ 0 := by simpa using (List.mem_filter.mp counted).2
    have isSteps := Path.steps_components path.toList
    have some : (Path.components path.toList).take count ≠ [] := by
      have short : count < (Path.components path.toList).length := by
        simpa using (List.mem_filter.mp counted).1
      simpa [positive] using List.ne_nil_of_length_pos (Nat.zero_lt_of_lt short)
    have origin : disk.origin ((Path.components path.toList).take count) = disk.start path := by
      rw [start_eq, Disk.origin, Disk.origin, List.head?_take, if_neg positive]
    rw [is_folder_iff _ _ (Path.of_components_ne_empty _ (isSteps.take count) some), whole.way_eq,
      disk.way_of_components _ (isSteps.take count), origin]
    intro place passes
    apply folders
    rw [way, Path.moves_eq, ← List.take_append_drop count (Path.components path.toList),
      List.filterMap_append, passed_append]
    exact List.mem_append_left _ passes

theorem make_folders_again :
    (disk.makeFolders path).1.makeFolders path = ((disk.makeFolders path).1, none) := by
  by_cases empty : path = ""
  · rw [empty]
    rfl
  · have isFolder := disk.is_folder_of_make_folders path made empty path List.mem_cons_self
    rw [makeFolders.eq_def (disk.makeFolders path).1, if_neg (by simpa using empty),
      make_upwards_of_error _ path _ _ (make_folder_of_is_folder _ path isFolder) (by simp),
      if_pos isFolder]

end Made

end Disk

end Reroot
