import Reroot.Proofs.Replaced
import Reroot.Proofs.Staged

set_option autoImplicit false

namespace Reroot

namespace Path

def steps (path : Text) : List Component := (pieces path).filterMap (Component.ofPiece? false)

theorem pieces_append_slash (folder path : Text) :
    pieces (folder ++ '/' :: path) = pieces folder ++ pieces path := by
  induction folder with
  | nil => rfl
  | cons c folder ih =>
    by_cases slash : c = '/'
    · subst slash
      exact congrArg (List.cons []) ih
    · obtain ⟨first, rest, whole, -⟩ := components_eq folder
      rw [whole, List.cons_append] at ih
      rw [List.cons_append, pieces_cons c _ _ _ slash ih, pieces_cons c _ _ _ slash whole]
      rfl

theorem components_slash (path : Text) : components ('/' :: path) = .root :: steps path := rfl

theorem components_below (folder path : Text) (some' : folder ≠ []) :
    components (folder ++ '/' :: path) = components folder ++ steps path := by
  obtain ⟨first, rest, whole, -⟩ := components_eq folder
  obtain ⟨c, tail, rfl⟩ := List.exists_cons_of_ne_nil some'
  have same : isAbsolute (c :: tail ++ '/' :: path) = isAbsolute (c :: tail) := rfl
  rw [components, components, pieces_append_slash, whole, same]
  exact (congrArg _ (List.filterMap_append ..)).trans (List.append_assoc ..).symm

theorem components_join (folder path : Text) (some' : folder ≠ []) (relative : isAbsolute path = false) :
    components (join folder path) = components folder ++ steps path := by
  have taken : ¬ (isAbsolute path || folder.isEmpty) = true := by simp [relative, some']
  rw [join, if_neg taken]
  split
  · next slash =>
    obtain ⟨above, rfl⟩ := List.getLast?_eq_some_iff.mp (beq_iff_eq.mp slash)
    rw [List.append_assoc, List.singleton_append]
    by_cases root : above = []
    · subst root
      exact components_slash path
    · rw [components_below above path root, components_below above [] root]
      exact congrArg (· ++ steps path) (List.append_nil _).symm
  · exact components_below folder path some'

theorem join_nil (path : Text) : join [] path = path := by
  rw [join, List.isEmpty_nil, Bool.or_true, if_pos rfl]

theorem components_slash_ne (path : Text) (relative : isAbsolute path = false) :
    components ('/' :: path) ≠ components path := by
  intro same
  have absolute := (is_absolute_iff path).mpr (by rw [← same, components_slash]; rfl)
  rw [relative] at absolute
  cases absolute

end Path

theorem Path.components_behind_iff (base path : String) (relative : isAbsolute path.toList = false) :
    components (base ++ "/" ++ path).toList = components (join base.toList path.toList) ↔ base ≠ "" := by
  have emitted : (base ++ "/" ++ path).toList = base.toList ++ '/' :: path.toList := by simp
  rw [emitted, Ne, ← String.toList_eq_nil_iff]
  constructor
  · intro same empty
    rw [empty, join_nil] at same
    exact components_slash_ne _ relative same
  · intro some'
    rw [components_below _ _ some', components_join _ _ some' relative]

namespace Document

-- Each path dependency sent to a checkout gets a path that leads where its own led from the folder of
-- the checkout: behind the steps to the manifest that is read there, but for the manifest's name. Only
-- where the checkout is named by the empty path is it another one.
theorem redirect_beside_manifest (root : String) (document : Document) (distinct : document.Distinct)
    (free : (document.redirect (Source.checkout root).target).stuck = none) :
    ∀ entry ∈ document.pathDependencies, ∃ path emitted,
      entry.path? = some path ∧
      (document.redirect (Source.checkout root).target).result.at? entry.place =
        some (Target.reference [("path", emitted)]) ∧
      (Path.isAbsolute path.toList = false →
        (Path.components emitted.toList = Path.components (Path.join root.toList path.toList) ↔
          root ≠ "")) ∧
      (root ≠ "" → ∃ folder,
        Path.components (Source.checkout root).manifestPath.toList =
          folder ++ [.name manifestFile.toList] ∧
        Path.components emitted.toList = folder ++ Path.steps path.toList) := by
  intro entry member
  obtain ⟨reference, answered, placed⟩ := document.at?_redirect _ distinct free entry member
  rw [Source.target, Target.answer_checkout] at answered
  obtain ⟨path, own, rfl⟩ := Option.map_eq_some_iff.mp answered
  refine ⟨path, root ++ "/" ++ path, own, placed, Path.components_behind_iff root path, fun named => ?_⟩
  have some' : root.toList ≠ [] := mt String.toList_eq_nil_iff.mp named
  refine ⟨Path.components root.toList, ?_, ?_⟩
  · rw [Source.manifestPath, String.toList_ofList, Path.components_join _ _ some' (by decide)]
    exact congrArg _ (by decide)
  · rw [String.toList_append, String.toList_append, List.append_assoc]
    exact Path.components_below _ _ some'

theorem redirect_beside_manifest_slash :
    ∃ document entry path emitted,
      parse? "[dependencies]\na = \x7b path = \"./../b\", version = '1' \x7d\n" = some document ∧
      entry ∈ document.pathDependencies ∧ entry.path? = some path ∧ path = "./../b" ∧
      (document.redirect (Source.checkout "../c/").target).result.at? entry.place =
        some (Target.reference [("path", emitted)]) ∧
      Path.components emitted.toList = Path.components (Path.join "../c/".toList path.toList) := by
  have fits : (parse? "[dependencies]\na = \x7b path = \"./../b\", version = '1' \x7d\n").map
      (fun document => (decide document.Distinct,
        (document.redirect (Source.checkout "../c/").target).stuck,
        document.pathDependencies.map Entry.path?)) = some (true, none, [some "./../b"]) := by
    decide +kernel
  obtain ⟨document, read, fits⟩ := Option.map_eq_some_iff.mp fits
  simp only [Prod.mk.injEq, decide_eq_true_eq] at fits
  obtain ⟨distinct, free, paths⟩ := fits
  obtain ⟨entry, rest, all, own, -⟩ := List.map_eq_cons_iff.mp paths
  have member : entry ∈ document.pathDependencies := by
    rw [all]
    exact List.mem_cons_self
  obtain ⟨path, emitted, found, placed, same, -⟩ :=
    redirect_beside_manifest "../c/" document distinct free entry member
  obtain rfl : path = "./../b" := Option.some.inj (found.symm.trans own)
  exact ⟨document, entry, _, emitted, read, member, found, rfl, placed,
    (same (by decide)).mpr (by decide)⟩

-- The manifest in the working folder is read, and its dependency sent to the root of the disk.
theorem redirect_leaves_folder :
    (Source.checkout "").manifestPath = "Cargo.toml" ∧
    (∃ document, parse? "[dependencies]\na = \x7b path = \"sdk\" \x7d\n" = some document ∧
      (document.redirect (Source.checkout "").target).result.text =
        "[dependencies]\na = \x7b path = \"/sdk\" \x7d\n".toList) ∧
    Path.components "/sdk".toList ≠ Path.components (Path.join "".toList "sdk".toList) := by
  refine ⟨by decide, ?_, by decide⟩
  have fits : (parse? "[dependencies]\na = \x7b path = \"sdk\" \x7d\n").map
      (fun document => (document.redirect (Source.checkout "").target).result.text) =
      some "[dependencies]\na = \x7b path = \"/sdk\" \x7d\n".toList := by
    decide +kernel
  exact Option.map_eq_some_iff.mp fits

end Document

end Reroot
