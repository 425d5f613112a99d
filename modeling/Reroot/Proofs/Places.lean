import Mathlib.Data.List.Nodup
import Reroot.Document.Said
import Reroot.Proofs.Outermost

set_option autoImplicit false

namespace Reroot

theorem Nodes.to_list_modify (change : Node → Node) (number : Nat) (nodes : Nodes) :
    (nodes.modify change number).toList = nodes.toList.modify number change := by
  induction nodes generalizing number with
  | nil => rw [modify, toList, List.modify_nil]
  | cons head tail ih =>
    cases number with
    | zero => rfl
    | succ number => rw [modify, toList, ih, toList, List.modify_succ_cons]

namespace Node

theorem child?_modify_child (change : Node → Node) (step other : Step) (node : Node) :
    (node.modifyChild change step).child? other =
      if step = other then (node.child? step).map change else node.child? other := by
  cases step with
  | key name =>
    cases other with
    | key name' =>
      cases node <;> simp [modifyChild, child?, Entries.get?_modify, eq_comm]
    | index number => cases node <;> rfl
  | index number =>
    cases other with
    | key name => cases node <;> rfl
    | index number' =>
      cases node <;>
        simp only [modifyChild, child?, Nodes.to_list_modify, List.getElem?_modify, Step.index.injEq] <;>
        split <;> simp_all

theorem at?_set_at_same (new old : Node) (place : List Step) (node : Node)
    (there : node.at? place = some old) : (setAt new place node).at? place = some new := by
  induction place generalizing node with
  | nil => rfl
  | cons step rest ih =>
    obtain ⟨child, found, below⟩ := Option.bind_eq_some_iff.mp there
    rw [at?_cons, setAt, child?_modify_child, if_pos rfl, found]
    exact ih child below

theorem at?_set_at_of_apart (new : Node) (place other : List Step) (node : Node)
    (apart : ¬ Step.Meet place other) : (setAt new place node).at? other = node.at? other := by
  induction place generalizing node other with
  | nil => exact absurd (.inl List.nil_prefix) apart
  | cons step rest ih =>
    cases other with
    | nil => exact absurd (.inr List.nil_prefix) apart
    | cons step' rest' =>
      rw [at?_cons, at?_cons, setAt, child?_modify_child]
      split
      · next same =>
        subst same
        have deeper : ¬ Step.Meet rest rest' := by
          simpa [Step.Meet, List.cons_prefix_cons] using apart
        cases node.child? step with
        | none => rfl
        | some child => exact ih rest' child deeper
      · rfl

end Node

mutual
theorem Node.at?_of_mem_below : (node : Node) → node.Distinct →
    ∀ entry ∈ node.entriesBelow, node.at? entry.place = some entry.node
  | .scalar _ _, _, entry, member => by cases member
  | .array _ elements, distinct, entry, member => by
    obtain ⟨index, rest, place, found⟩ := Nodes.at?_of_mem_below 0 elements distinct entry member
    rw [place, Nat.zero_add]
    exact found
  | .inline _ entries, distinct, entry, member => by
    obtain ⟨name, rest, place, found⟩ := Entries.at?_of_mem_below entries distinct entry member
    rw [place]
    exact found
  | .table _ entries, distinct, entry, member => by
    obtain ⟨name, rest, place, found⟩ := Entries.at?_of_mem_below entries distinct entry member
    rw [place]
    exact found
  | .tables elements, distinct, entry, member => by
    obtain ⟨index, rest, place, found⟩ := Nodes.at?_of_mem_below 0 elements distinct entry member
    rw [place, Nat.zero_add]
    exact found
theorem Nodes.at?_of_mem_below (number : Nat) : (nodes : Nodes) → nodes.Distinct →
    ∀ entry ∈ nodes.entriesBelow number, ∃ index rest, entry.place = .index (number + index) :: rest ∧
      nodes.toList[index]?.bind (Node.at? rest) = some entry.node
  | .nil, _, entry, member => by cases member
  | .cons head tail, distinct, entry, member => by
    rcases List.mem_append.mp member with here | later
    · obtain ⟨inner, own, rfl⟩ := List.mem_map.mp here
      exact ⟨0, inner.place, rfl, Node.at?_of_mem_below head distinct.1 inner own⟩
    · obtain ⟨index, rest, place, found⟩ :=
        Nodes.at?_of_mem_below (number + 1) tail distinct.2 entry later
      exact ⟨index + 1, rest, by rw [place, Nat.add_right_comm, Nat.add_assoc], found⟩
theorem Entries.at?_of_mem_below : (entries : Entries) → entries.Distinct →
    ∀ entry ∈ entries.entriesBelow, ∃ name rest, entry.place = .key name :: rest ∧
      (entries.get? name).bind (Node.at? rest) = some entry.node
  | .nil, _, entry, member => by cases member
  | .cons key node tail, ⟨missing, distinct, distinctTail⟩, entry, member => by
    have first : (Entries.cons key node tail).get? key.name = some node := by
      rw [Entries.get?, if_pos rfl]
    rw [Entries.entriesBelow, List.cons_append, List.mem_cons, List.mem_append] at member
    rcases member with rfl | here | later
    · refine ⟨key.name, [], rfl, ?_⟩
      rw [first]
      rfl
    · obtain ⟨inner, own, rfl⟩ := List.mem_map.mp here
      refine ⟨key.name, inner.place, rfl, ?_⟩
      rw [first]
      exact Node.at?_of_mem_below node distinct inner own
    · obtain ⟨name, rest, place, found⟩ := Entries.at?_of_mem_below tail distinctTail entry later
      obtain ⟨child, there, -⟩ := Option.bind_eq_some_iff.mp found
      have present : name ∈ tail.names := (Entries.mem_names_iff name tail).mpr ⟨child, there⟩
      have other : ¬ key.name = name := fun same => missing (same ▸ present)
      refine ⟨name, rest, place, ?_⟩
      rwa [Entries.get?, if_neg other]
end

theorem Entry.nodup_below (step : Step) (all : List Entry) (nodup : (all.map place).Nodup) :
    ((all.map (below step)).map place).Nodup := by
  have places : (all.map (below step)).map place = (all.map place).map (step :: ·) := by
    rw [List.map_map, List.map_map]
    rfl
  rw [places]
  exact List.Nodup.map List.cons_injective nodup

theorem Entry.nodup_append (first second : List Entry) (apart : Apart first second)
    (nodup : (first.map place).Nodup) (nodup' : (second.map place).Nodup) :
    ((first ++ second).map place).Nodup := by
  rw [List.map_append]
  refine List.nodup_append.mpr ⟨nodup, nodup', ?_⟩
  rw [List.forall_mem_map]
  intro entry here
  rw [List.forall_mem_map]
  exact fun other later same => apart entry here other later (.inl (same ▸ List.prefix_rfl))

mutual
theorem Node.nodup_places : (node : Node) → node.Distinct → (node.entriesBelow.map Entry.place).Nodup
  | .scalar _ _, _ => List.nodup_nil
  | .array _ elements, distinct => Nodes.nodup_places 0 elements distinct
  | .inline _ entries, distinct => Entries.nodup_places entries distinct
  | .table _ entries, distinct => Entries.nodup_places entries distinct
  | .tables elements, distinct => Nodes.nodup_places 0 elements distinct
theorem Nodes.nodup_places (number : Nat) : (nodes : Nodes) → nodes.Distinct →
    ((nodes.entriesBelow number).map Entry.place).Nodup
  | .nil, _ => List.nodup_nil
  | .cons head tail, distinct =>
    Entry.nodup_append _ _ (Nodes.apart_below number head tail)
      (Entry.nodup_below _ _ (Node.nodup_places head distinct.1))
      (Nodes.nodup_places (number + 1) tail distinct.2)
theorem Entries.nodup_places : (entries : Entries) → entries.Distinct →
    (entries.entriesBelow.map Entry.place).Nodup
  | .nil, _ => List.nodup_nil
  | .cons key node tail, ⟨missing, distinct, distinctTail⟩ => by
    refine Entry.nodup_append _ _ (Entries.apart_below key node tail missing) ?_
      (Entries.nodup_places tail distinctTail)
    refine List.nodup_cons.mpr ⟨?_, Entry.nodup_below _ _ (Node.nodup_places node distinct)⟩
    rw [List.map_map, List.mem_map]
    rintro ⟨entry, -, same⟩
    exact entry.place_ne_nil ((List.cons_inj_right _).mp same)
end

namespace Document

theorem path_dependencies_apart (document : Document) (distinct : document.Distinct) :
    document.pathDependencies.Pairwise fun entry other => ¬ Step.Meet entry.place other.place := by
  have single := List.pairwise_map.mp (document.root.nodup_places distinct)
  refine (single.filter _).imp_of_mem fun {entry other} here there differs => ?_
  obtain ⟨member, lowest⟩ := List.mem_filter.mp here
  obtain ⟨member', lowest'⟩ := List.mem_filter.mp there
  rintro (lies | lies)
  · exact differs ((of_decide_eq_true lowest').2 entry member (of_decide_eq_true lowest).1 lies)
  · exact differs ((of_decide_eq_true lowest).2 other member' (of_decide_eq_true lowest').1 lies).symm

theorem at?_set_at (place : List Step) (below : place ≠ []) (new : Node) (document : Document)
    (other : List Step) : (document.setAt place new).at? other =
      (Node.setAt new place (.table .fresh document.root)).at? other := by
  obtain ⟨step, rest, rfl⟩ := List.exists_cons_of_ne_nil below
  cases step <;> rfl

theorem at?_set_at_of_apart (entry : Entry) (new : Node) (document : Document) (place : List Step)
    (apart : ¬ Step.Meet entry.place place) :
    (document.setAt entry.place new).at? place = document.at? place := by
  rw [at?_set_at _ entry.place_ne_nil]
  exact Node.at?_set_at_of_apart _ _ _ _ apart

theorem at?_replace_all_of_apart (entries : List Entry) (new : Entry → Node) (document : Document)
    (place : List Step) (apart : ∀ entry ∈ entries, ¬ Step.Meet entry.place place) :
    (document.replaceAll entries new).at? place = document.at? place := by
  induction entries generalizing document with
  | nil => rfl
  | cons entry rest ih =>
    obtain ⟨first, others⟩ := List.forall_mem_cons.mp apart
    exact (ih _ others).trans (at?_set_at_of_apart entry (new entry) document place first)

theorem at?_replace_all_of_mem (entries : List Entry) (new : Entry → Node) (document : Document)
    (apart : entries.Pairwise fun entry other => ¬ Step.Meet entry.place other.place)
    (there : ∀ entry ∈ entries, document.at? entry.place = some entry.node) :
    ∀ entry ∈ entries, (document.replaceAll entries new).at? entry.place = some (new entry) := by
  induction entries generalizing document with
  | nil => exact fun entry member => by cases member
  | cons first rest ih =>
    obtain ⟨ahead, later⟩ := List.pairwise_cons.mp apart
    refine List.forall_mem_cons.mpr ⟨?_, ih _ later fun entry member => ?_⟩
    -- The later ones are apart from the first, so what it put there stays.
    · refine (at?_replace_all_of_apart rest new _ first.place fun entry member meet =>
        ahead entry member meet.symm).trans ?_
      rw [at?_set_at _ first.place_ne_nil]
      exact Node.at?_set_at_same _ _ _ _ (there first List.mem_cons_self)
    · rw [at?_set_at_of_apart first (new first) document entry.place (ahead entry member)]
      exact there entry (List.mem_cons_of_mem _ member)

theorem at?_replace_all (document : Document) (distinct : document.Distinct) (entries : List Entry)
    (among : entries.Sublist document.pathDependencies) (new : Entry → Node) :
    (∀ entry ∈ entries, (document.replaceAll entries new).at? entry.place = some (new entry)) ∧
    ∀ place, (∀ entry ∈ entries, ¬ Step.Meet entry.place place) →
      (document.replaceAll entries new).at? place = document.at? place := by
  refine ⟨at?_replace_all_of_mem entries new document ?_ fun entry member => ?_,
    fun place apart => at?_replace_all_of_apart entries new document place apart⟩
  · exact (document.path_dependencies_apart distinct).sublist among
  · exact Node.at?_of_mem_below (.table .fresh document.root) distinct entry
      (List.mem_of_mem_filter (among.subset member))

end Document

end Reroot
