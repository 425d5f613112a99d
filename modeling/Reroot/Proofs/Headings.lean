import Mathlib.Data.List.Sort
import Reroot.Proofs.Outline

set_option autoImplicit false

namespace Reroot

open Outline

namespace Section

theorem place_eq (part : Nat × Section) (list : List (Nat × Section)) :
    place part list = list.orderedInsert (fun first second => first.1 ≤ second.1) part := by
  induction list with
  | nil => rfl
  | cons next rest ih => rw [place, List.orderedInsert_cons, ih]

theorem arranged_eq (list : List (Nat × Section)) :
    arranged list = list.insertionSort (fun first second => first.1 ≤ second.1) := by
  induction list with
  | nil => rfl
  | cons part rest ih => rw [arranged, List.insertionSort_cons, place_eq, ih]

theorem mem_arranged (part : Nat × Section) (list : List (Nat × Section)) :
    part ∈ arranged list ↔ part ∈ list := by
  rw [arranged_eq, List.mem_insertionSort]

theorem pairwise_arranged (list : List (Nat × Section)) :
    (arranged list).Pairwise (fun first second => first.1 ≤ second.1) := by
  induction list with
  | nil => exact .nil
  | cons part rest ih =>
    rw [arranged, place_eq]
    have total : Std.Total fun first second : Nat × Section => first.1 ≤ second.1 :=
      ⟨fun first second => Nat.le_total first.1 second.1⟩
    have trans : IsTrans (Nat × Section) fun first second => first.1 ≤ second.1 :=
      ⟨fun _ _ _ => Nat.le_trans⟩
    exact ih.orderedInsert part _

theorem arranged_map (change : Section → Section) (list : List (Nat × Section)) :
    arranged (list.map fun part => (part.1, change part.2)) =
      (arranged list).map fun part => (part.1, change part.2) := by
  rw [arranged_eq, arranged_eq]
  exact (List.map_insertionSort (fun first second : Nat × Section => first.1 ≤ second.1)
    (fun first second : Nat × Section => first.1 ≤ second.1) (fun part => (part.1, change part.2))
    list fun _ _ _ _ => Iff.rfl).symm

theorem place_of_le (part : Nat × Section) (list : List (Nat × Section))
    (least : ∀ other ∈ list, part.1 ≤ other.1) : place part list = part :: list := by
  cases list with
  | nil => rfl
  | cons next rest => rw [place, if_pos (least next List.mem_cons_self)]

theorem place_append (part : Nat × Section) (first second : List (Nat × Section))
    (least : ∀ other ∈ second, part.1 ≤ other.1) :
    place part (first ++ second) = place part first ++ second := by
  induction first with
  | nil => exact place_of_le part second least
  | cons next rest ih =>
    rw [List.cons_append, place, place, ih]
    split <;> rfl

theorem arranged_append (first second : List (Nat × Section))
    (less : ∀ part ∈ first, ∀ other ∈ second, part.1 ≤ other.1) :
    arranged (first ++ second) = arranged first ++ arranged second := by
  induction first with
  | nil => rfl
  | cons part rest ih =>
    rw [List.cons_append, arranged, arranged, ih fun part member =>
      less part (List.mem_cons_of_mem _ member)]
    refine place_append part _ _ fun other member => ?_
    exact less part List.mem_cons_self other ((mem_arranged _ _).mp member)

theorem place_split (part : Nat × Section) (list : List (Nat × Section))
    (sorted : list.Pairwise (fun first second => first.1 ≤ second.1)) :
    ∃ before after, place part list = before ++ part :: after ∧ list = before ++ after ∧
      (∀ other ∈ before, other.1 < part.1) ∧ ∀ other ∈ after, part.1 ≤ other.1 := by
  induction list with
  | nil => exact ⟨[], [], rfl, rfl, by simp, by simp⟩
  | cons next rest ih =>
    obtain ⟨least, sortedRest⟩ := List.pairwise_cons.mp sorted
    rw [place]
    split
    · case isTrue first =>
      refine ⟨[], next :: rest, rfl, rfl, by simp, fun other member => ?_⟩
      rcases List.mem_cons.mp member with rfl | later
      · exact first
      · exact Nat.le_trans first (least other later)
    · case isFalse greater =>
      obtain ⟨before, after, shape, rfl, less, more⟩ := ih sortedRest
      refine ⟨next :: before, after, by rw [shape]; rfl, rfl, ?_, more⟩
      simpa using ⟨Nat.lt_of_not_le greater, by simpa using less⟩

theorem filter_place (keep : Nat × Section → Bool) (part : Nat × Section)
    (list : List (Nat × Section))
    (sorted : list.Pairwise (fun first second => first.1 ≤ second.1)) :
    (place part list).filter keep =
      if keep part then place part (list.filter keep) else list.filter keep := by
  induction list with
  | nil => cases kept : keep part <;> simp [place, kept]
  | cons next rest ih =>
    obtain ⟨least, sortedRest⟩ := List.pairwise_cons.mp sorted
    rw [place]
    split
    · case isTrue first =>
      have front : place part ((next :: rest).filter keep) = part :: (next :: rest).filter keep := by
        refine place_of_le _ _ fun other member => ?_
        rcases List.mem_cons.mp (List.mem_filter.mp member).1 with rfl | later
        · exact first
        · exact Nat.le_trans first (least other later)
      rw [front, List.filter_cons]
    · case isFalse greater =>
      rw [List.filter_cons, List.filter_cons, ih sortedRest]
      cases keep next <;> cases keep part <;> simp [place, greater]

theorem filter_arranged (keep : Nat × Section → Bool) (list : List (Nat × Section)) :
    (arranged list).filter keep = arranged (list.filter keep) := by
  induction list with
  | nil => rfl
  | cons part rest ih =>
    rw [arranged, filter_place keep part _ (pairwise_arranged rest), ih, List.filter_cons]
    cases keep part <;> rfl

def carried (last : Nat) : List Section → Nat
  | [] => last
  | part :: rest => carried (part.style.position.getD last) rest

theorem numbered_append (last : Nat) (first second : List Section) :
    numbered last (first ++ second) = numbered last first ++ numbered (carried last first) second := by
  induction first generalizing last with
  | nil => rfl
  | cons part rest ih =>
    rw [List.cons_append, numbered, numbered, ih]
    rfl

theorem map_numbered (last : Nat) (list : List Section) : (numbered last list).map (·.2) = list := by
  induction list generalizing last with
  | nil => rfl
  | cons first rest ih => rw [numbered, List.map_cons, ih]

theorem mem_of_mem_numbered (last : Nat) (list : List Section) (part : Nat × Section)
    (member : part ∈ numbered last list) : part.2 ∈ list := by
  rw [← map_numbered last list]
  exact List.mem_map_of_mem member

theorem numbered_between (last low high : Nat) (list : List Section) (start : low ≤ last ∧ last ≤ high)
    (between : ∀ part ∈ list, ∀ position, part.style.position = some position →
      low ≤ position ∧ position ≤ high) :
    (∀ part ∈ numbered last list, low ≤ part.1 ∧ part.1 ≤ high) ∧
      low ≤ carried last list ∧ carried last list ≤ high := by
  induction list generalizing last with
  | nil => exact ⟨by simp [numbered], start⟩
  | cons part rest ih =>
    have here : low ≤ part.style.position.getD last ∧ part.style.position.getD last ≤ high := by
      cases found : part.style.position with
      | none => exact start
      | some position => exact between part List.mem_cons_self position found
    obtain ⟨later, finish⟩ := ih _ here fun other member => between other (List.mem_cons_of_mem _ member)
    refine ⟨fun other member => ?_, finish⟩
    rw [numbered, List.mem_cons] at member
    rcases member with rfl | member
    · exact here
    · exact later other member

def inside (key : Key) (part : Section) : Section := { part with path := key :: part.path }

theorem numbered_inside (key : Key) (last : Nat) (list : List Section) :
    numbered last (list.map (inside key)) =
      (numbered last list).map fun part => (part.1, part.2.inside key) := by
  induction list generalizing last with
  | nil => rfl
  | cons part rest ih =>
    rw [List.map_cons, numbered, numbered, ih]
    rfl

end Section

mutual
theorem Node.sections_cons (key : Key) (path : List Key) (isElement : Bool) : (node : Node) →
    node.sections (key :: path) isElement = (node.sections path isElement).map (Section.inside key)
  | .scalar _ _ | .array _ _ | .inline _ _ => rfl
  | .table style entries => by
    rw [Node.sections, Node.sections, List.map_append, Entries.sections_cons key path entries]
    split <;> rfl
  | .tables elements => Nodes.sections_cons key path elements
theorem Nodes.sections_cons (key : Key) (path : List Key) : (nodes : Nodes) →
    nodes.sections (key :: path) = (nodes.sections path).map (Section.inside key)
  | .nil => rfl
  | .cons head tail => by
    rw [Nodes.sections, Nodes.sections, List.map_append, Node.sections_cons key path true head,
      Nodes.sections_cons key path tail]
theorem Entries.sections_cons (key : Key) (path : List Key) : (entries : Entries) →
    entries.sections (key :: path) = (entries.sections path).map (Section.inside key)
  | .nil => rfl
  | .cons first node tail => by
    rw [Entries.sections, Entries.sections, List.map_append, Entries.sections_cons key path tail,
      List.cons_append, Node.sections_cons key (path ++ [first]) false node]
end

theorem Entries.sections_here (key : Key) (node : Node) (tail : Entries) :
    (cons key node tail).sections [] =
      (node.sections [] false).map (Section.inside key) ++ tail.sections [] := by
  rw [Entries.sections, List.nil_append, Node.sections_cons]

namespace Section

def heading? (part : Nat × Section) : Option (List String × Act) :=
  if shows part.2.isElement part.2.style part.2.entries then
    some (part.2.path.map (·.name), .opens part.2.isElement part.2.entries.lines)
  else none

def headings (list : List (Nat × Section)) : Outline := (arranged list).filterMap heading?

theorem headers_headings (list : List (Nat × Section)) : Headers (headings list) := by
  intro part member
  obtain ⟨own, -, found⟩ := List.mem_filterMap.mp member
  rw [heading?] at found
  split at found
  · cases found
    rfl
  · cases found

def leads (name : String) (part : Nat × Section) : Bool :=
  part.2.path.head?.map (·.name) == some name

theorem under_headings_eq (name : String) (list : List (Nat × Section)) :
    under name (headings list) = under name (headings (list.filter (leads name))) := by
  rw [headings, headings, ← filter_arranged, under, under, List.filterMap_filterMap,
    List.filterMap_filterMap, List.filterMap_filter]
  refine List.filterMap_congr fun part _ => ?_
  cases leading : leads name part with
  | true => rfl
  | false =>
    rw [heading?, if_neg Bool.false_ne_true]
    split
    · cases path : part.2.path with
      | nil => rfl
      | cons key path =>
        have differs : ¬ key.name = name := by simpa [leads, path] using leading
        simp [differs]
    · rfl

theorem headings_inside (key : Key) (list : List (Nat × Section)) :
    headings (list.map fun part => (part.1, part.2.inside key)) =
      (headings list).map fun part => (key.name :: part.1, part.2) := by
  rw [headings, arranged_map, headings, List.filterMap_map, List.map_filterMap]
  refine List.filterMap_congr fun part _ => ?_
  rw [Function.comp, heading?, heading?]
  cases shown : shows part.2.isElement part.2.style part.2.entries <;> simp [inside, shown]

end Section

theorem Outline.under_map_cons (name : String) (outline : Outline) :
    under name (outline.map fun part => (name :: part.1, part.2)) = outline := by
  rw [under, List.filterMap_map]
  exact (List.filterMap_congr fun part _ => by simp).trans List.filterMap_some

end Reroot
