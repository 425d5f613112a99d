import Reroot.Document.Distinct
import Reroot.Manifest.PathDependencies
import Reroot.Manifest.Untouched

set_option autoImplicit false

namespace Reroot

namespace Entry

def Apart (first second : List Entry) : Prop :=
  ∀ entry ∈ first, ∀ other ∈ second, ¬ Step.Meet entry.place other.place

theorem not_prefix_of_head (entry other : Entry) (differs : entry.place.head? ≠ other.place.head?) :
    ¬ entry.place <+: other.place := by
  rintro ⟨rest, same⟩
  obtain ⟨step, further, own⟩ := List.exists_cons_of_ne_nil entry.place_ne_nil
  rw [← same, own] at differs
  exact differs rfl

theorem apart_of_heads (first second : List Entry)
    (differ : ∀ entry ∈ first, ∀ other ∈ second, entry.place.head? ≠ other.place.head?) :
    Apart first second := by
  rintro entry member other member' (lies | lies)
  · exact not_prefix_of_head _ _ (differ entry member other member') lies
  · exact not_prefix_of_head _ _ (Ne.symm (differ entry member other member')) lies

theorem outermost_append (first second : List Entry) (apart : Apart first second) :
    outermost (first ++ second) = outermost first ++ outermost second := by
  rw [outermost, List.filter_append]
  congr 1
  · refine List.filter_congr fun entry member => decide_eq_decide.mpr (and_congr_right fun _ => ?_)
    refine ⟨fun all outer own => all outer (List.mem_append_left _ own), fun all outer there => ?_⟩
    rcases List.mem_append.mp there with own | other
    · exact all outer own
    · exact fun _ lies => absurd (.inr lies) (apart entry member outer other)
  · refine List.filter_congr fun entry member => decide_eq_decide.mpr (and_congr_right fun _ => ?_)
    refine ⟨fun all outer own => all outer (List.mem_append_right _ own), fun all outer there => ?_⟩
    rcases List.mem_append.mp there with other | own
    · exact fun _ lies => absurd (.inl lies) (apart outer other entry member)
    · exact all outer own

theorem outermost_below (step : Step) (all : List Entry) :
    outermost (all.map (below step)) = (outermost all).map (below step) := by
  rw [outermost, List.filter_map, outermost]
  refine congrArg (List.map _) (List.filter_congr fun entry _ => decide_eq_decide.mpr ?_)
  refine and_congr_right fun _ => ?_
  rw [List.forall_mem_map]
  refine forall₂_congr fun outer _ => imp_congr_right fun _ => ?_
  rw [place_below, place_below, List.cons_prefix_cons, and_iff_right rfl, List.cons_inj_right]

theorem outermost_entry (key : Key) (node : Node) (all : List Entry) :
    outermost (⟨[], key, node⟩ :: all.map (below (.key key.name))) =
      if node.path?.isSome then [⟨[], key, node⟩] else (outermost all).map (below (.key key.name)) := by
  have deeper : ∀ entry : Entry, (entry.below (.key key.name)).place ≠ [.key key.name] :=
    fun entry same => entry.place_ne_nil (List.cons_inj_right _ |>.mp same)
  by_cases carries : node.path?.isSome = true
  · have top : Outermost (⟨[], key, node⟩ :: all.map (below (.key key.name))) ⟨[], key, node⟩ := by
      refine ⟨carries, List.forall_mem_cons.mpr ⟨fun _ _ => rfl, ?_⟩⟩
      rw [List.forall_mem_map]
      intro entry _ _ lies
      exact absurd (List.cons_prefix_cons.mp lies).2 fun empty =>
        entry.place_ne_nil (List.prefix_nil.mp empty)
    have hidden : (all.map (below (.key key.name))).filter
        (Outermost (⟨[], key, node⟩ :: all.map (below (.key key.name)))) = [] := by
      rw [List.filter_eq_nil_iff, List.forall_mem_map]
      intro entry _ lowest
      have lies : [Step.key key.name] <+: (entry.below (.key key.name)).place :=
        List.cons_prefix_cons.mpr ⟨rfl, List.nil_prefix⟩
      have same := (of_decide_eq_true lowest).2 ⟨[], key, node⟩ List.mem_cons_self carries lies
      exact deeper entry same.symm
    rw [if_pos carries, outermost, List.filter_cons_of_pos (by simpa using top), hidden]
  · have plain : ¬ Outermost (⟨[], key, node⟩ :: all.map (below (.key key.name))) ⟨[], key, node⟩ :=
      fun lowest => carries lowest.1
    rw [if_neg carries, ← outermost_below, outermost, outermost,
      List.filter_cons_of_neg (by simpa using plain)]
    refine List.filter_congr fun entry _ => decide_eq_decide.mpr (and_congr_right fun _ => ?_)
    rw [List.forall_mem_cons]
    exact and_iff_right fun carries' => absurd carries' carries

end Entry

theorem Entries.head_of_mem_below (entries : Entries) (entry : Entry)
    (member : entry ∈ entries.entriesBelow) :
    ∃ name ∈ entries.names, entry.place.head? = some (.key name) := by
  induction entries with
  | nil => cases member
  | cons key node tail ih =>
    rw [entriesBelow, List.cons_append, List.mem_cons, List.mem_append] at member
    rcases member with rfl | here | later
    · exact ⟨key.name, List.mem_cons_self, rfl⟩
    · obtain ⟨inner, -, rfl⟩ := List.mem_map.mp here
      exact ⟨key.name, List.mem_cons_self, rfl⟩
    · obtain ⟨name, there, head⟩ := ih later
      exact ⟨name, List.mem_cons_of_mem _ there, head⟩

theorem Nodes.head_of_mem_below (nodes : Nodes) (number : Nat) (entry : Entry)
    (member : entry ∈ nodes.entriesBelow number) :
    ∃ index, number ≤ index ∧ entry.place.head? = some (.index index) := by
  induction nodes generalizing number with
  | nil => cases member
  | cons head tail ih =>
    rw [entriesBelow, List.mem_append] at member
    rcases member with here | later
    · obtain ⟨inner, -, rfl⟩ := List.mem_map.mp here
      exact ⟨number, Nat.le_refl _, rfl⟩
    · obtain ⟨index, above, head⟩ := ih (number + 1) later
      exact ⟨index, Nat.le_of_succ_le above, head⟩

theorem Entries.apart_below (key : Key) (node : Node) (tail : Entries)
    (missing : key.name ∉ tail.names) :
    Entry.Apart (⟨[], key, node⟩ :: node.entriesBelow.map (.below (.key key.name)))
      tail.entriesBelow := by
  refine Entry.apart_of_heads _ _ fun entry here other later => ?_
  obtain ⟨name, member, head⟩ := tail.head_of_mem_below other later
  have first : entry.place.head? = some (.key key.name) := by
    rcases List.mem_cons.mp here with rfl | inside
    · rfl
    · obtain ⟨inner, -, rfl⟩ := List.mem_map.mp inside
      rfl
  rw [first, head]
  intro same
  cases same
  exact missing member

theorem Nodes.apart_below (number : Nat) (head : Node) (tail : Nodes) :
    Entry.Apart (head.entriesBelow.map (.below (.index number)))
      (tail.entriesBelow (number + 1)) := by
  refine Entry.apart_of_heads _ _ fun entry here other later => ?_
  obtain ⟨inner, -, rfl⟩ := List.mem_map.mp here
  obtain ⟨index, above, there⟩ := tail.head_of_mem_below (number + 1) other later
  rw [there, Entry.place_below]
  intro same
  cases same
  exact absurd above (Nat.not_succ_le_self _)

theorem Entries.outermost_cons (key : Key) (node : Node) (tail : Entries)
    (missing : key.name ∉ tail.names) :
    Entry.outermost (cons key node tail).entriesBelow =
      (if node.path?.isSome then [⟨[], key, node⟩]
        else (Entry.outermost node.entriesBelow).map (.below (.key key.name))) ++
      Entry.outermost tail.entriesBelow := by
  rw [entriesBelow, Entry.outermost_append _ _ (apart_below key node tail missing),
    Entry.outermost_entry]

theorem Nodes.outermost_cons (number : Nat) (head : Node) (tail : Nodes) :
    Entry.outermost ((cons head tail).entriesBelow number) =
      (Entry.outermost head.entriesBelow).map (.below (.index number)) ++
      Entry.outermost (tail.entriesBelow (number + 1)) := by
  rw [entriesBelow, Entry.outermost_append _ _ (apart_below number head tail), Entry.outermost_below]

end Reroot
