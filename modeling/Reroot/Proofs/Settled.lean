import Reroot.Manifest.Passes
import Reroot.Proofs.Merged
import Reroot.Proofs.Redirected

set_option autoImplicit false

namespace Reroot

open Text

inductive Node.Settled (low high : Nat) (key : Key) : Node → Prop where
  | holds (node : Node) (holds : node.Holds low high key) : Settled low high key node
  | moved (node : Node) (read : key.Legible) (unset : key.outer = .unset)
      (legible : node.Legible .braces) : Settled low high key node
  | spent (style : InlineStyle) (dotted : style.dotted = true) :
      Settled low high key (.inline style .nil)

structure Entries.Settled (low high : Nat) (entries : Entries) : Prop where
  distinct : entries.names.Nodup
  each : entries.Each (Node.Settled low high)

structure Document.Settled (low high : Nat) (document : Document) : Prop where
  trailing : IsTail document.trailing
  root : document.root.Settled low high

theorem Entries.legible_erase (site : Site) (name : String) (entries : Entries)
    (legible : entries.Legible site) : (entries.erase name).Legible site := by
  obtain ⟨distinct, each⟩ := (legible_iff _ _).mp legible
  refine (legible_iff _ _).mpr ⟨?_, each_erase _ name entries each⟩
  rw [names_erase]
  exact distinct.filter _

theorem Node.legible_unmargined (node : Node) (legible : node.Legible .braces) :
    (node.withMargin .unset).Legible .braces := by
  cases node with
  | scalar margin value => exact ⟨Site.beside_unset _, legible.2⟩
  | array style elements => exact ⟨Site.beside_unset _, legible.2⟩
  | inline style entries =>
    rw [Node.Legible] at legible
    rw [withMargin, Node.Legible]
    by_cases dotted : style.dotted = true
    · rw [if_pos dotted] at legible ⊢
      exact legible
    · rw [if_neg dotted] at legible ⊢
      exact ⟨Site.beside_unset _, legible.2⟩
  | table style entries => cases legible.1
  | tables elements => cases legible.1

theorem Entries.to_list_unbraced (entries : Entries) : entries.unbraced.toList =
    entries.toList.map fun entry => (entry.1.bare, entry.2.withMargin .unset) := by
  induction entries with
  | nil => rfl
  | cons key node tail ih => rw [unbraced, toList, toList, List.map_cons, ih]

section Node

variable {low high : Nat} {key : Key} {node : Node}

theorem Node.Holds.holds_fresh (holds : node.Holds low high key) (name : String) :
    node.Holds low high (.fresh name) :=
  ⟨Key.legible_fresh name, Node.suits_unset _ _ _ rfl, holds.legible, holds.spans, holds.native⟩

theorem Node.settled_unbraced (entries : Entries) (legible : entries.Legible .braces) :
    ∀ entry ∈ entries.unbraced.toList, entry.2.Settled low high (.fresh entry.1.name) := by
  intro entry member
  rw [Entries.to_list_unbraced] at member
  obtain ⟨own, there, rfl⟩ := List.mem_map.mp member
  obtain ⟨-, -, inside⟩ := ((Entries.legible_iff _ _).mp legible).2 own there
  exact .moved _ (Key.legible_fresh _) rfl (own.2.legible_unmargined inside)

theorem Node.Settled.under_header (settled : node.Settled low high key) (entries : Entries)
    (found : node.underHeader? = some entries) :
    ∀ entry ∈ entries.toList, entry.2.Settled low high (.fresh entry.1.name) := by
  cases settled with
  | holds _ holds =>
    cases node with
    | table style inner =>
      cases found
      intro entry member
      exact .holds _ (((Entries.sound_of_holds holds).each entry member).holds_fresh entry.1.name)
    | inline style inner =>
      cases found
      have legible := holds.legible
      rw [Node.Legible, if_neg (by simpa [Node.Native] using holds.native)] at legible
      exact Node.settled_unbraced inner legible.2.2
    | scalar margin value => cases found
    | array style elements => cases found
    | tables elements => cases found
  | moved _ read unset legible =>
    cases node with
    | inline style inner =>
      cases found
      rw [Node.Legible] at legible
      split at legible
      · exact Node.settled_unbraced inner legible.2.2
      · exact Node.settled_unbraced inner legible.2.2
    | scalar margin value => cases found
    | array style elements => cases found
    | table style inner => cases legible.1
    | tables elements => cases found
  | spent style dotted =>
    cases found
    exact fun entry member => by cases member

theorem Node.Settled.walked (settled : node.Settled low high key) (target : Target) :
    (node.walked target key.name).result.Settled low high key := by
  cases settled with
  | holds _ holds => exact .holds _ (holds.walked target)
  | moved _ read unset legible =>
    refine .moved _ read unset ?_
    exact node.walked_keeps target key.name (Node.Legible .braces) legible
      (Node.legible_redirect target .braces node legible)
      fun pairs distinct => Target.legible_reference pairs distinct .braces
  | spent style dotted => exact .spent style dotted

theorem Node.Settled.erase (settled : node.Settled low high key) (entries : Entries)
    (inner : node.entries? = some entries) (name : String) :
    (node.withEntries (entries.erase name)).Settled low high key := by
  cases settled with
  | holds _ holds =>
    refine .holds _ ?_
    cases node with
    | table style own =>
      cases inner
      exact holds.table le_rfl (Entries.sound_erase (Entries.sound_of_holds holds) name)
    | inline style own =>
      cases inner
      have single : ¬ style.dotted = true := by simpa [Node.Native] using holds.native
      have legible := holds.legible
      rw [Node.Legible, if_neg single] at legible
      refine ⟨holds.read, holds.suits, ?_, trivial, holds.native⟩
      rw [Node.withEntries, Node.Legible, if_neg single]
      exact ⟨legible.1, legible.2.1, Entries.legible_erase .braces name _ legible.2.2⟩
    | scalar margin value => cases inner
    | array style elements => cases inner
    | tables elements => cases inner
  | moved _ read unset legible =>
    cases node with
    | inline style own =>
      cases inner
      rw [Node.Legible] at legible
      by_cases dotted : style.dotted = true
      · rw [if_pos dotted] at legible
        by_cases last : entries.erase name = .nil
        · rw [Node.withEntries, last]
          exact .spent style dotted
        · refine .moved _ read unset ?_
          rw [Node.withEntries, Node.Legible, if_pos dotted]
          exact ⟨legible.1, last, Entries.legible_erase .braces name _ legible.2.2⟩
      · rw [if_neg dotted] at legible
        refine .moved _ read unset ?_
        rw [Node.withEntries, Node.Legible, if_neg dotted]
        exact ⟨legible.1, legible.2.1, Entries.legible_erase .braces name _ legible.2.2⟩
    | table style own => cases legible.1
    | scalar margin value => cases inner
    | array style elements => cases inner
    | tables elements => cases inner
  | spent style dotted =>
    cases inner
    exact .spent style dotted

theorem Node.Settled.erase_all (settled : node.Settled low high key) (entries : Entries)
    (inner : node.entries? = some entries) (names : List String) :
    (node.withEntries (entries.eraseAll names).1).Settled low high key := by
  induction names generalizing node entries with
  | nil =>
    have same : node.withEntries entries = node := by
      cases node <;> cases inner <;> rfl
    exact same.symm ▸ settled
  | cons name names ih =>
    rw [Entries.eraseAll]
    split
    · have next := ih (settled.erase entries inner name) (entries.erase name)
        (by cases node <;> cases inner <;> rfl)
      cases node <;> exact next
    · exact ih settled entries inner

end Node

namespace Workspace

theorem settled_lift {low high : Nat} (entries root : Entries) (settled : root.Settled low high)
    (each : ∀ entry ∈ entries.toList, entry.2.Settled low high (.fresh entry.1.name)) :
    (lift root entries).1.Settled low high := by
  induction entries generalizing root with
  | nil => exact settled
  | cons key node tail ih =>
    have later := fun entry member => each entry (List.mem_cons_of_mem _ member)
    rw [lift]
    split
    · exact ih root settled later
    · split
      · exact ih root settled later
      · exact ih _ ⟨Entries.nodup_put _ _ _ settled.distinct,
          Entries.each_put _ _ _ _ settled.each (each (key, node) List.mem_cons_self)⟩ later

end Workspace

namespace Document

variable {low high : Nat} {document : Document}

theorem Settled.lift_workspace (settled : document.Settled low high) :
    document.liftWorkspace.1.Settled low high := by
  rw [Document.liftWorkspace]
  cases found : document.root.get? "workspace" with
  | none => exact settled
  | some node =>
    obtain ⟨key, -, here⟩ := Entries.each_get? _ _ settled.root.each _ _ found
    have rest : (document.root.erase "workspace").Settled low high := by
      refine ⟨?_, Entries.each_erase _ _ _ settled.root.each⟩
      rw [Entries.names_erase]
      exact settled.root.distinct.filter _
    dsimp only
    cases inner : node.underHeader? with
    | none => exact ⟨settled.trailing, rest⟩
    | some entries =>
      exact ⟨settled.trailing, Workspace.settled_lift entries _ rest (here.under_header entries inner)⟩

theorem Settled.redirect (settled : document.Settled low high) (target : Target) :
    (document.redirect target).result.Settled low high := by
  refine ⟨settled.trailing, ?_, ?_⟩
  · exact (document.root.names_redirect target).symm ▸ settled.root.distinct
  · exact document.root.each_redirect target _ settled.root.each fun key node here => here.walked target

theorem Settled.drop_dependencies (settled : document.Settled low high) (names : List String) :
    (document.dropDependencies names).1.Settled low high := by
  rw [Document.dropDependencies]
  cases inner : (document.root.get? "dependencies").bind Node.entries? with
  | none => exact settled
  | some entries =>
    obtain ⟨node, found, inner⟩ := Option.bind_eq_some_iff.mp inner
    refine ⟨settled.trailing, ?_, ?_⟩
    · exact (Entries.names_modify _ _ _).symm ▸ settled.root.distinct
    · refine Entries.each_modify _ _ (fun _ _ => id) _ _ _ settled.root.each
        fun key other _ there here => ?_
      cases there.symm.trans found
      exact here.erase_all entries inner names

theorem Settled.run_pass (settled : document.Settled low high) (pass : Pass) (out : Document)
    (run : pass.run? document = some out) : out.Settled low high := by
  cases pass with
  | lift =>
    cases run
    exact settled.lift_workspace
  | redirect target =>
    rw [Pass.run?] at run
    split at run
    · cases run
    · cases run
      exact settled.redirect target
  | drop names =>
    cases run
    exact settled.drop_dependencies names

theorem Settled.run_all (settled : document.Settled low high) (passes : List Pass) (out : Document)
    (run : Pass.runAll? passes document = some out) : out.Settled low high := by
  refine foldl_m_keeps (·.Settled low high) _ passes (fun pass _ before after settled first => ?_)
    document out settled run
  exact settled.run_pass pass after first

theorem settled_of_parse? (source : String) (document : Document) (read : parse? source = some document) :
    ∃ high, document.Settled 0 high := by
  obtain ⟨isTail, high, sound⟩ := sound_of_of_text? _ document read
  exact ⟨high, isTail, sound.distinct, sound.each.imp fun _ _ holds => .holds _ holds⟩

end Document

end Reroot
