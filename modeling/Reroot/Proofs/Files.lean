import Reroot.Proofs.Paths

set_option autoImplicit false

namespace Reroot.Disk

theorem lookup_store (place other : Place) (item : Item) (items : List (Place × Item)) :
    (store place item items).lookup other = if other = place then some item else items.lookup other := by
  induction items with
  | nil =>
    by_cases same : other = place
    · simp [store, same]
    · simp [store, same, List.lookup_cons, beq_false_of_ne same]
  | cons entry items ih =>
    obtain ⟨first, old⟩ := entry
    by_cases here : first = place
    · subst here
      by_cases same : other = first
      · simp [store, same]
      · simp [store, same, List.lookup_cons, beq_false_of_ne same]
    · rw [store, if_neg here]
      by_cases found : other = first
      · subst found
        simp [here]
      · rw [List.lookup_cons, List.lookup_cons, beq_false_of_ne found, ih]

theorem item?_set (disk : Disk) (place other : Place) (item : Item) (named : place ≠ []) :
    (disk.set place item).item? other = if other = place then some item else disk.item? other := by
  by_cases root : other = []
  · rw [item?, if_pos root, item?, if_pos root, if_neg (root ▸ named.symm)]
  · rw [item?, if_neg root, item?, if_neg root, set, lookup_store]

section Stay

variable {before after : Disk}

theorem walk_of_stay
    (stay : ∀ place, before.item? place = some .folder → after.item? place = some .folder)
    (start : Place) (pieces : List Text) (target : Place) (led : before.walk start pieces = .ok target) :
    after.walk start pieces = .ok target := by
  induction pieces generalizing start with
  | nil => exact led
  | cons piece pieces ih =>
    rw [walk] at led ⊢
    by_cases here : (piece == ['.']) = true
    · rw [if_pos here] at led ⊢
      exact ih start led
    · rw [if_neg here] at led ⊢
      by_cases up : (piece == ['.', '.']) = true
      · rw [if_pos up] at led ⊢
        exact ih start.dropLast led
      · rw [if_neg up] at led ⊢
        dsimp only at led ⊢
        cases next : before.item? (start ++ [String.ofList piece]) with
        | none =>
          rw [next] at led
          cases led
        | some item =>
          rw [next] at led
          cases item with
          | file content => cases led
          | folder =>
            rw [stay _ next]
            exact ih _ led

theorem resolve_of_stay (working : after.working = before.working)
    (stay : ∀ place, before.item? place = some .folder → after.item? place = some .folder)
    (path : String) (spot : Spot) (led : before.resolve path = .ok spot) :
    after.resolve path = .ok spot := by
  unfold resolve at led ⊢
  rw [working]
  dsimp only at led ⊢
  cases last : ((Path.pieces path.toList).filter (!·.isEmpty)).getLast? with
  | none => simpa only [last] using led
  | some piece =>
    rw [last] at led
    dsimp only at led ⊢
    cases walked : before.walk (if Path.isAbsolute path.toList then [] else before.working)
        ((Path.pieces path.toList).filter (!·.isEmpty)).dropLast with
    | error fault =>
      rw [walked] at led
      cases led
    | ok parent =>
      rw [walked] at led
      rw [walk_of_stay stay _ _ parent walked]
      exact led

theorem place?_of_stay (working : after.working = before.working)
    (stay : ∀ place, before.item? place = some .folder → after.item? place = some .folder)
    (path : String) (place : Place) (led : before.place? path = some place) :
    after.place? path = some place := by
  unfold place? at led ⊢
  cases spot : before.resolve path with
  | error fault =>
    rw [spot] at led
    cases led
  | ok spot' =>
    rw [spot] at led
    rw [resolve_of_stay working stay path spot' spot]
    exact led

end Stay

structure Grows (paths : List String) (before after : Disk) : Prop where
  working : after.working = before.working
  keeps : ∀ place, Keeps paths before after place

section Grows

variable {paths : List String} {before middle after : Disk}

theorem Grows.refl (paths : List String) (disk : Disk) : Grows paths disk disk :=
  ⟨rfl, fun _ => .inl rfl⟩

theorem Keeps.stay {place : Place} (keeps : Keeps paths before after place)
    (folder : before.item? place = some .folder) : after.item? place = some .folder := by
  rcases keeps with same | ⟨missing, -⟩
  · rw [same, folder]
  · rw [missing] at folder
    cases folder

theorem Keeps.follow {place : Place} (keeps : Keeps paths before middle place)
    (working : after.working = middle.working)
    (stay : ∀ place, middle.item? place = some .folder → after.item? place = some .folder)
    (same : after.item? place = middle.item? place) : Keeps paths before after place := by
  rcases keeps with kept | ⟨missing, made, path, member, first, isPrefix, led⟩
  · exact .inl (same.trans kept)
  · exact .inr ⟨missing, same.trans made, path, member, first, isPrefix,
      place?_of_stay working stay first place led⟩

theorem Grows.trans (first : Grows paths before middle) (second : Grows paths middle after) :
    Grows paths before after := by
  refine ⟨second.working.trans first.working, fun place => ?_⟩
  rcases second.keeps place with same | ⟨missing, made, path, member, start, isPrefix, led⟩
  · exact (first.keeps place).follow second.working (fun place folder =>
      (second.keeps place).stay folder) same
  · rcases first.keeps place with kept | ⟨-, folder, -⟩
    · exact .inr ⟨kept ▸ missing, made, path, member, start, isPrefix, led⟩
    · rw [missing] at folder
      cases folder

theorem Grows.widen {others : List String} (grows : Grows paths before after)
    (within : ∀ path ∈ paths, ∃ other ∈ others, Path.IsPrefix path.toList other.toList) :
    Grows others before after := by
  refine ⟨grows.working, fun place => ?_⟩
  rcases grows.keeps place with same | ⟨missing, made, path, member, first, isPrefix, led⟩
  · exact .inl same
  · obtain ⟨other, there, further⟩ := within path member
    exact .inr ⟨missing, made, other, there, first, isPrefix.trans further, led⟩

end Grows

theorem make_folder_ok (disk after : Disk) (path : String) (made : disk.makeFolder path = .ok after) :
    ∃ parent name asFolder, disk.resolve path = .ok (.named parent name asFolder) ∧
      disk.item? (parent ++ [name]) = none ∧ after = disk.set (parent ++ [name]) .folder := by
  unfold makeFolder at made
  cases led : disk.resolve path with
  | error fault =>
    rw [led] at made
    cases made
  | ok spot =>
    rw [led] at made
    cases spot with
    | folder place => cases made
    | named parent name asFolder =>
      dsimp only at made
      by_cases taken : (disk.item? (parent ++ [name])).isSome = true
      · rw [if_pos taken] at made
        cases made
      · rw [if_neg taken] at made
        cases made
        exact ⟨parent, name, asFolder, rfl, by simpa using taken, rfl⟩

theorem grows_make_folder (disk after : Disk) (path : String) (made : disk.makeFolder path = .ok after) :
    Grows [path] disk after := by
  obtain ⟨parent, name, asFolder, led, missing, rfl⟩ := disk.make_folder_ok after path made
  have found := fun place => item?_set disk (parent ++ [name]) place .folder (by simp)
  have stay : ∀ place, disk.item? place = some .folder →
      (disk.set (parent ++ [name]) .folder).item? place = some .folder := by
    intro place folder
    rw [found]
    by_cases here : place = parent ++ [name]
    · rw [if_pos here]
    · rw [if_neg here, folder]
  have working : (disk.set (parent ++ [name]) .folder).working = disk.working := rfl
  refine ⟨working, fun place => ?_⟩
  by_cases here : place = parent ++ [name]
  · have leads : disk.place? path = some place := by rw [place?, led, here]
    exact .inr ⟨here ▸ missing, by rw [found, if_pos here], path, List.mem_singleton_self path, path,
      Path.is_prefix_self path.toList, place?_of_stay working stay path place leads⟩
  · exact .inl (by rw [found, if_neg here])

theorem grows_ensure_folder (disk after : Disk) (path : String)
    (made : disk.ensureFolder path = .ok after) : Grows [path] disk after := by
  unfold ensureFolder at made
  cases fresh : disk.makeFolder path with
  | ok folder =>
    rw [fresh] at made
    cases made
    exact grows_make_folder disk _ path fresh
  | error fault =>
    rw [fresh] at made
    dsimp only at made
    by_cases there : disk.isFolder path = true
    · rw [if_pos there] at made
      cases made
      exact .refl [path] disk
    · rw [if_neg there] at made
      cases made

theorem make_upwards_of_error (disk : Disk) (path : String) (above : List String) (fault : Fault)
    (failed : disk.makeFolder path = .error fault) (other : fault ≠ .missing) :
    disk.makeUpwards (path :: above) = (disk, if disk.isFolder path then none else some fault) := by
  rw [makeUpwards, failed]
  cases fault with
  | missing => exact absurd rfl other
  | taken | notFolder | isFolder | notText | stopped => rfl

theorem grows_make_upwards (disk : Disk) (paths : List String) :
    Grows paths disk (disk.makeUpwards paths).1 := by
  induction paths with
  | nil => exact .refl [] disk
  | cons path above ih =>
    have own : ∀ {before after : Disk}, Grows [path] before after → Grows (path :: above) before after :=
      fun grows => grows.widen fun other member =>
        ⟨path, List.mem_cons_self, List.mem_singleton.mp member ▸ Path.is_prefix_self path.toList⟩
    have upper : Grows (path :: above) disk (disk.makeUpwards above).1 :=
      ih.widen fun other member =>
        ⟨other, List.mem_cons_of_mem path member, Path.is_prefix_self other.toList⟩
    cases fresh : disk.makeFolder path with
    | ok after =>
      rw [makeUpwards, fresh]
      exact own (grows_make_folder disk after path fresh)
    | error fault =>
      by_cases missing : fault = .missing
      · rw [makeUpwards, fresh, missing]
        dsimp only
        cases outcome : (disk.makeUpwards above).2 with
        | some fault => exact upper
        | none =>
          cases ensured : (disk.makeUpwards above).1.ensureFolder path with
          | error fault => exact upper
          | ok after => exact upper.trans (own (grows_ensure_folder _ after path ensured))
      · rw [make_upwards_of_error disk path above fault fresh missing]
        exact .refl _ disk

theorem grows_make_folders (disk : Disk) (path : String) :
    Grows [path] disk (disk.makeFolders path).1 := by
  rw [makeFolders]
  by_cases empty : path.isEmpty = true
  · rw [if_pos empty]
    exact .refl [path] disk
  · rw [if_neg empty]
    apply (grows_make_upwards disk _).widen
    intro other member
    refine ⟨path, List.mem_singleton_self path, ?_⟩
    rcases List.mem_cons.mp member with rfl | upper
    · exact Path.is_prefix_self other.toList
    · obtain ⟨first, there, rfl⟩ := List.mem_map.mp upper
      rw [String.toList_ofList]
      exact Path.is_prefix_of_mem_ancestors path.toList first there

-- What a write leaves once the file is open: some content in the file, and nothing else changed.
structure Puts (path : String) (place : Place) (content : Content) (before after : Disk) : Prop where
  working : after.working = before.working
  stay : ∀ place, before.item? place = some .folder → after.item? place = some .folder
  free : before.item? place ≠ some .folder
  led : ∃ parent name, after.resolve path = .ok (.named parent name false) ∧ place = parent ++ [name]
  here : after.item? place = some (.file content)
  elsewhere : ∀ other, other ≠ place → after.item? other = before.item? other

theorem puts_of_set (disk : Disk) (path : String) (parent : Place) (name : String) (content : Content)
    (led : disk.resolve path = .ok (.named parent name false))
    (free : disk.item? (parent ++ [name]) ≠ some .folder) :
    Puts path (parent ++ [name]) content disk (disk.set (parent ++ [name]) (.file content)) := by
  have found := fun place => item?_set disk (parent ++ [name]) place (.file content) (by simp)
  have stay : ∀ place, disk.item? place = some .folder →
      (disk.set (parent ++ [name]) (.file content)).item? place = some .folder := by
    intro place folder
    have other : place ≠ parent ++ [name] := by
      rintro rfl
      exact free folder
    rw [found, if_neg other, folder]
  have working : (disk.set (parent ++ [name]) (.file content)).working = disk.working := rfl
  refine ⟨working, stay, free, ⟨parent, name, resolve_of_stay working stay path _ led, rfl⟩, ?_, ?_⟩
  · rw [found, if_pos rfl]
  · intro other different
    rw [found, if_neg different]

theorem write_text_cases (disk : Disk) (path text : String) (storage : Storage) :
    (∃ fault, disk.writeText path text storage = (disk, some fault)) ∨
    (∃ after, disk.writeText path text storage = (after, none) ∧
      ∃ place, Puts path place (.text text) disk after) ∨
    ∃ after stop, disk.writeText path text storage = (after, some (.stopped stop)) ∧
      ∃ place count, storage.stop? place text.toUTF8.data.toList = some (count, stop) ∧
        Puts path place (.ofBytes (text.toUTF8.data.toList.take count)) disk after := by
  rw [writeText]
  cases led : disk.resolve path with
  | error fault => exact .inl ⟨fault, rfl⟩
  | ok spot =>
    cases spot with
    | folder place => exact .inl ⟨.isFolder, rfl⟩
    | named parent name asFolder =>
      dsimp only
      by_cases taken : (asFolder || disk.item? (parent ++ [name]) == some .folder) = true
      · exact .inl ⟨.isFolder, if_pos taken⟩
      · rw [if_neg taken]
        rw [Bool.not_eq_true, Bool.or_eq_false_iff, beq_eq_false_iff_ne] at taken
        have puts := fun content => disk.puts_of_set path parent name content (taken.1 ▸ led) taken.2
        cases stopped : storage.stop? (parent ++ [name]) text.toUTF8.data.toList with
        | none => exact .inr (.inl ⟨_, rfl, parent ++ [name], puts (.text text)⟩)
        | some stop => exact .inr (.inr ⟨_, stop.2, rfl, parent ++ [name], stop.1, stopped, puts _⟩)

section Puts

variable {path : String} {place : Place} {content : Content} {before after : Disk}

theorem Puts.leads (puts : Puts path place content before after) : after.place? path = some place := by
  obtain ⟨parent, name, led, rfl⟩ := puts.led
  rw [place?, led]

theorem Puts.keeps {paths : List String} {start : Disk} (puts : Puts path place content before after)
    (grows : Grows paths start before) (other : Place) (different : other ≠ place) :
    Keeps paths start after other :=
  (grows.keeps other).follow puts.working puts.stay (puts.elsewhere other different)

theorem Puts.folder_iff (puts : Puts path place content before after) (other : Place) :
    after.item? other = some .folder ↔ before.item? other = some .folder := by
  by_cases here : other = place
  · simp [here, puts.here, puts.free]
  · rw [puts.elsewhere other here]

end Puts

end Reroot.Disk
