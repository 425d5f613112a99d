import Reroot.Document.Reader
import Reroot.Proofs.Outermost
import Reroot.Proofs.Pinned
import Reroot.Proofs.Places

set_option autoImplicit false

namespace Reroot

namespace Walk

variable {α β γ : Type} (answer : Node → Option Node)

def replacing (set : List Step → Node → α → α) : List Entry → α → Walk α
  | [], whole => .stay whole
  | entry :: rest, whole =>
    match answer entry.node with
    | none => ⟨whole, [], some entry.key.name⟩
    | some node =>
      let walk := replacing set rest (set entry.place node whole)
      ⟨walk.result, entry.key.name :: walk.replaced, walk.stuck⟩

theorem replacing_append (set : List Step → Node → α → α) (first second : List Entry) (whole : α) :
    replacing answer set (first ++ second) whole =
      if (replacing answer set first whole).stuck.isSome then replacing answer set first whole
      else
        let walk := replacing answer set second (replacing answer set first whole).result
        ⟨walk.result, (replacing answer set first whole).replaced ++ walk.replaced, walk.stuck⟩ := by
  induction first generalizing whole with
  | nil => rfl
  | cons entry rest ih =>
    rw [List.cons_append, replacing, replacing]
    cases answer entry.node with
    | none => rfl
    | some node =>
      dsimp only
      rw [ih]
      split <;> rfl

theorem replacing_within (inner : List Step → Node → α → α) (outer : List Step → Node → β → β)
    (embed : α → β) (view : Entry → Entry) (entries : List Entry)
    (seen : ∀ entry, (view entry).key = entry.key ∧ (view entry).node = entry.node)
    (sets : ∀ entry ∈ entries, ∀ node part,
      outer (view entry).place node (embed part) = embed (inner entry.place node part)) (part : α) :
    replacing answer outer (entries.map view) (embed part) =
      (replacing answer inner entries part).map embed := by
  induction entries generalizing part with
  | nil => rfl
  | cons entry rest ih =>
    rw [List.map_cons, replacing, replacing, (seen entry).1, (seen entry).2]
    cases answer entry.node with
    | none => rfl
    | some node =>
      dsimp only
      rw [sets entry List.mem_cons_self node part,
        ih (fun other member => sets other (List.mem_cons_of_mem _ member))]
      rfl

theorem replacing_inside (inner : List Step → Node → α → α) (outer : List Step → Node → β → β)
    (embed : α → β) (entries : List Entry)
    (sets : ∀ entry ∈ entries, ∀ node part,
      outer entry.place node (embed part) = embed (inner entry.place node part)) (part : α) :
    replacing answer outer entries (embed part) = (replacing answer inner entries part).map embed := by
  have within := replacing_within answer inner outer embed id entries (fun _ => ⟨rfl, rfl⟩) sets part
  rwa [List.map_id] at within

theorem replacing_join (set : List Step → Node → γ → γ) (f : α → β → γ) (first second : List Entry)
    (walk : Walk α) (unchanged : β) (rest : Walk β) (whole : γ)
    (begins : replacing answer set first whole = walk.map (f · unchanged))
    (goes : ∀ part, replacing answer set second (f part unchanged) = rest.map (f part)) :
    replacing answer set (first ++ second) whole = join f walk unchanged rest := by
  rw [replacing_append, begins, join]
  change (if walk.stuck.isSome then _ else _) = _
  split
  · rfl
  · dsimp only [map]
    rw [goes]
    rfl

theorem replacing_of_answered (set : List Step → Node → α → α) (new : Entry → Node)
    (entries : List Entry) (answered : ∀ entry ∈ entries, answer entry.node = some (new entry))
    (whole : α) : replacing answer set entries whole =
      ⟨entries.foldl (fun whole entry => set entry.place (new entry) whole) whole,
        entries.map (·.key.name), none⟩ := by
  induction entries generalizing whole with
  | nil => rfl
  | cons entry rest ih =>
    rw [replacing, answered entry List.mem_cons_self]
    dsimp only
    rw [ih fun other member => answered other (List.mem_cons_of_mem _ member)]
    rfl

theorem replacing_of_refused (set : List Step → Node → α → α) (new : Entry → Node)
    (done rest : List Entry) (stuck : Entry)
    (answered : ∀ entry ∈ done, answer entry.node = some (new entry))
    (refused : answer stuck.node = none) (whole : α) :
    replacing answer set (done ++ stuck :: rest) whole =
      ⟨done.foldl (fun whole entry => set entry.place (new entry) whole) whole,
        done.map (·.key.name), some stuck.key.name⟩ := by
  rw [replacing_append, replacing_of_answered answer set new done answered]
  dsimp only
  rw [if_neg (by simp), replacing, refused]
  simp

theorem answered_of_free (set : List Step → Node → α → α) (entries : List Entry) (whole : α)
    (free : (replacing answer set entries whole).stuck = none) :
    ∀ entry ∈ entries, ∃ node, answer entry.node = some node := by
  induction entries generalizing whole with
  | nil => exact List.forall_mem_nil _
  | cons entry rest ih =>
    rw [replacing] at free
    cases answered : answer entry.node with
    | none =>
      rw [answered] at free
      cases free
    | some node =>
      rw [answered] at free
      exact List.forall_mem_cons.mpr ⟨⟨node, answered⟩, ih _ free⟩

end Walk

def Nodes.setFrom (number : Nat) (new : Node) : List Step → Nodes → Nodes
  | .index index :: rest, nodes => nodes.modify (Node.setAt new rest) (index - number)
  | _, nodes => nodes

section Inner

variable (new : Node) (place : List Step) (below : place ≠ [])

include below

theorem Node.set_at_inline (style : InlineStyle) (entries : Entries) :
    Node.setAt new place (.inline style entries) = .inline style (entries.setAt new place) := by
  obtain ⟨step, rest, rfl⟩ := List.exists_cons_of_ne_nil below
  cases step <;> rfl

theorem Node.set_at_table (style : TableStyle) (entries : Entries) :
    Node.setAt new place (.table style entries) = .table style (entries.setAt new place) := by
  obtain ⟨step, rest, rfl⟩ := List.exists_cons_of_ne_nil below
  cases step <;> rfl

theorem Node.set_at_array (style : ArrayStyle) (elements : Nodes) :
    Node.setAt new place (.array style elements) = .array style (elements.setFrom 0 new place) := by
  obtain ⟨step, rest, rfl⟩ := List.exists_cons_of_ne_nil below
  cases step <;> rfl

theorem Node.set_at_tables (elements : Nodes) :
    Node.setAt new place (.tables elements) = .tables (elements.setFrom 0 new place) := by
  obtain ⟨step, rest, rfl⟩ := List.exists_cons_of_ne_nil below
  cases step <;> rfl

end Inner

theorem Entries.set_at_head (new : Node) (rest : List Step) (key : Key) (node : Node) (tail : Entries) :
    (cons key node tail).setAt new (.key key.name :: rest) = cons key (Node.setAt new rest node) tail :=
  if_pos rfl

theorem Entries.set_at_tail (new : Node) (place : List Step) (key : Key) (node : Node) (tail : Entries)
    (other : place.head? ≠ some (.key key.name)) :
    (cons key node tail).setAt new place = cons key node (tail.setAt new place) := by
  cases place with
  | nil => rfl
  | cons step rest =>
    cases step with
    | index number => rfl
    | key name => exact if_neg fun same => other (by rw [same]; rfl)

theorem Nodes.set_from_head (number : Nat) (new : Node) (rest : List Step) (head : Node) (tail : Nodes) :
    (cons head tail).setFrom number new (.index number :: rest) =
      cons (Node.setAt new rest head) tail := by
  rw [setFrom, Nat.sub_self]
  rfl

theorem Nodes.set_from_tail (number index : Nat) (new : Node) (place : List Step) (head : Node)
    (tail : Nodes) (first : place.head? = some (.index index)) (above : number + 1 ≤ index) :
    (cons head tail).setFrom number new place =
      cons head (tail.setFrom (number + 1) new place) := by
  cases place with
  | nil => cases first
  | cons step rest =>
    cases first
    have less : index - number = (index - (number + 1)) + 1 := by omega
    rw [setFrom, setFrom, less, modify]

def Target.answer (target : Target) (node : Node) : Option Node :=
  node.entries?.bind target.replacement?

theorem Node.walked_of_path (target : Target) (name : String) (node : Node)
    (carries : node.path?.isSome = true) : node.walked target name =
      match target.answer node with
      | none => ⟨node, [], some name⟩
      | some reference => ⟨reference, [name], none⟩ := by
  rw [walked, redirected?, Target.answer]
  rw [path?] at carries
  cases inner : node.entries? with
  | none =>
    rw [inner] at carries
    cases carries
  | some entries =>
    rw [inner, Option.bind_some] at carries
    rw [Option.bind_some]
    dsimp only
    rw [Entries.contains, if_pos carries]
    cases target.replacement? entries <;> rfl

theorem Entries.head_of_mem_outermost (entries : Entries) (entry : Entry)
    (member : entry ∈ Entry.outermost entries.entriesBelow) :
    ∃ name ∈ entries.names, entry.place.head? = some (.key name) :=
  entries.head_of_mem_below entry (List.mem_of_mem_filter member)

theorem Nodes.head_of_mem_outermost (nodes : Nodes) (number : Nat) (entry : Entry)
    (member : entry ∈ Entry.outermost (nodes.entriesBelow number)) :
    ∃ index, number ≤ index ∧ entry.place.head? = some (.index index) :=
  nodes.head_of_mem_below number entry (List.mem_of_mem_filter member)

section Walk

variable (target : Target)

mutual
theorem Node.redirect_eq_replacing : (node : Node) → node.Distinct → node.redirect target =
    Walk.replacing target.answer (fun place new => Node.setAt new place)
      (Entry.outermost node.entriesBelow) node
  | .scalar _ _, _ => rfl
  | .array style elements, distinct => by
    rw [Node.redirect, Nodes.redirect_eq_replacing 0 elements distinct]
    exact (Walk.replacing_inside target.answer _ _ (Node.array style) _
      fun entry _ new part => Node.set_at_array new _ entry.place_ne_nil style part) elements |>.symm
  | .inline style entries, distinct => by
    rw [Node.redirect, Entries.redirect_eq_replacing entries distinct]
    exact (Walk.replacing_inside target.answer _ _ (Node.inline style) _
      fun entry _ new part => Node.set_at_inline new _ entry.place_ne_nil style part) entries |>.symm
  | .table style entries, distinct => by
    rw [Node.redirect, Entries.redirect_eq_replacing entries distinct]
    exact (Walk.replacing_inside target.answer _ _ (Node.table style) _
      fun entry _ new part => Node.set_at_table new _ entry.place_ne_nil style part) entries |>.symm
  | .tables elements, distinct => by
    rw [Node.redirect, Nodes.redirect_eq_replacing 0 elements distinct]
    exact (Walk.replacing_inside target.answer _ _ Node.tables _
      fun entry _ new part => Node.set_at_tables new _ entry.place_ne_nil part) elements |>.symm
theorem Nodes.redirect_eq_replacing (number : Nat) : (nodes : Nodes) → nodes.Distinct →
    nodes.redirect target =
      Walk.replacing target.answer (fun place new nodes => nodes.setFrom number new place)
        (Entry.outermost (nodes.entriesBelow number)) nodes
  | .nil, _ => rfl
  | .cons head tail, distinct => by
    have first := Node.redirect_eq_replacing head distinct.1
    have later := Nodes.redirect_eq_replacing (number + 1) tail distinct.2
    rw [Nodes.redirect, Nodes.outermost_cons]
    refine (Walk.replacing_join _ _ _ _ _ _ _ _ _ ?_ fun part => ?_).symm
    · rw [first]
      exact Walk.replacing_within target.answer _ _ (Nodes.cons · tail) (.below (.index number)) _
        (fun _ => ⟨rfl, rfl⟩)
        (fun entry _ new node => Nodes.set_from_head number new entry.place node tail) head
    -- Places in the tail are numbered from one above, so that none of them leads into the head.
    · rw [later]
      refine Walk.replacing_inside target.answer _ _ (Nodes.cons part) _
        (fun entry member new rest => ?_) tail
      obtain ⟨index, above, begins⟩ := tail.head_of_mem_outermost (number + 1) entry member
      exact Nodes.set_from_tail number index new entry.place part rest begins above
theorem Entries.redirect_eq_replacing : (entries : Entries) → entries.Distinct →
    entries.redirect target =
      Walk.replacing target.answer (fun place new entries => entries.setAt new place)
        (Entry.outermost entries.entriesBelow) entries
  | .nil, _ => rfl
  | .cons key node tail, distinct => by
    obtain ⟨missing, distinctNode, distinctTail⟩ := distinct
    have inner := Node.redirect_eq_replacing node distinctNode
    have later := Entries.redirect_eq_replacing tail distinctTail
    change Walk.join (Entries.cons key) (node.walked target key.name) tail (tail.redirect target) = _
    rw [Entries.outermost_cons key node tail missing]
    refine (Walk.replacing_join _ _ _ _ _ _ _ _ _ ?_ fun part => ?_).symm
    · split
      · next carries =>
        rw [node.walked_of_path target key.name carries, Walk.replacing]
        cases target.answer node with
        | none => rfl
        | some reference =>
          exact congrArg (Walk.mk · [key.name] none) (Entries.set_at_head reference [] key node tail)
      · next plain =>
        rw [node.walked_of_plain target key.name (Option.not_isSome_iff_eq_none.mp plain), inner]
        exact Walk.replacing_within target.answer _ _ (Entries.cons key · tail) (.below (.key key.name)) _
          (fun _ => ⟨rfl, rfl⟩)
          (fun entry _ new node => Entries.set_at_head new entry.place key node tail) node
    -- Without a second entry of the name, no place in the tail leads into this one.
    · rw [later]
      refine Walk.replacing_inside target.answer _ _ (Entries.cons key part) _
        (fun entry member new rest => ?_) tail
      obtain ⟨name, present, begins⟩ := tail.head_of_mem_outermost entry member
      refine Entries.set_at_tail new entry.place key part rest fun same => missing ?_
      rw [begins] at same
      cases same
      exact present
end

end Walk

theorem Target.answer_revision (url rev : String) (entry : Entry) (carries : entry.hasPath = true) :
    (revision url rev).answer entry.node = some (reference [("git", url), ("rev", rev)]) := by
  obtain ⟨value, found⟩ := Option.isSome_iff_exists.mp carries
  obtain ⟨entries, inner, -⟩ := Option.bind_eq_some_iff.mp found
  rw [answer, inner]
  rfl

theorem Target.answer_checkout (base : String) (entry : Entry) :
    (checkout base).answer entry.node =
      entry.path?.map fun path => reference [("path", base ++ "/" ++ path)] := by
  rw [answer, Entry.path?, Node.path?]
  cases entry.node.entries? <;> rfl

namespace Document

theorem redirect_eq_replacing (target : Target) (document : Document) (distinct : document.Distinct) :
    document.redirect target = Walk.replacing target.answer (fun place new => setAt place new)
      document.pathDependencies document := by
  rw [redirect, document.root.redirect_eq_replacing target distinct]
  exact (Walk.replacing_inside target.answer (fun place new root => root.setAt new place)
    (fun place new => setAt place new) ({ document with root := · }) _ (fun _ _ _ _ => rfl)
    document.root).symm

theorem at?_redirect (target : Target) (document : Document) (distinct : document.Distinct)
    (free : (document.redirect target).stuck = none) :
    ∀ entry ∈ document.pathDependencies, ∃ reference, target.answer entry.node = some reference ∧
      (document.redirect target).result.at? entry.place = some reference := by
  rw [document.redirect_eq_replacing target distinct] at free ⊢
  have answered := Walk.answered_of_free _ _ _ _ free
  have made : ∀ entry ∈ document.pathDependencies,
      target.answer entry.node = some ((target.answer entry.node).getD entry.node) := by
    intro entry member
    obtain ⟨reference, found⟩ := answered entry member
    rw [found, Option.getD_some]
  rw [Walk.replacing_of_answered _ _ _ _ made]
  obtain ⟨placed, -⟩ := document.at?_replace_all distinct _ (List.Sublist.refl _)
    fun entry => (target.answer entry.node).getD entry.node
  exact fun entry member => ⟨_, made entry member, placed entry member⟩

-- What redirecting does: with a revision every path dependency gives way to a reference to it. With a
-- checkout so does every one where all have a string as their `path`, and otherwise those before the
-- first that has none, whose key is reported.
theorem redirect_path_dependencies (document : Document) (distinct : document.Distinct) :
    (∀ url rev, document.redirect (.revision url rev) =
      ⟨document.replaceAll document.pathDependencies fun _ =>
          Target.reference [("git", url), ("rev", rev)],
        document.pathDependencies.map (·.key.name), none⟩) ∧
    (∀ (base : String) (path : Entry → String),
      (∀ entry ∈ document.pathDependencies, entry.path? = some (path entry)) →
      document.redirect (.checkout base) =
        ⟨document.replaceAll document.pathDependencies fun entry =>
            Target.reference [("path", base ++ "/" ++ path entry)],
          document.pathDependencies.map (·.key.name), none⟩) ∧
    ∀ (base : String) (path : Entry → String) (done rest : List Entry) (stuck : Entry),
      document.pathDependencies = done ++ stuck :: rest →
      (∀ entry ∈ done, entry.path? = some (path entry)) → stuck.path? = none →
      document.redirect (.checkout base) =
        ⟨document.replaceAll done fun entry => Target.reference [("path", base ++ "/" ++ path entry)],
          done.map (·.key.name), some stuck.key.name⟩ := by
  refine ⟨fun url rev => ?_, fun base path strings => ?_, fun base path done rest stuck list strings
    none => ?_⟩
  · rw [document.redirect_eq_replacing _ distinct]
    refine Walk.replacing_of_answered _ _ _ _ (fun entry member => ?_) document
    exact Target.answer_revision url rev entry (of_decide_eq_true (List.mem_filter.mp member).2).1
  · rw [document.redirect_eq_replacing _ distinct]
    refine Walk.replacing_of_answered _ _ _ _ (fun entry member => ?_) document
    rw [Target.answer_checkout, strings entry member]
    rfl
  · rw [document.redirect_eq_replacing _ distinct, list]
    refine Walk.replacing_of_refused _ _ _ _ _ _ (fun entry member => ?_) ?_ document
    · rw [Target.answer_checkout, strings entry member]
      rfl
    · rw [Target.answer_checkout, none]
      rfl

theorem redirect_path_dependencies_of_elements :
    ∃ document other done stuck rest,
      parse? "[[a]]\npath = ''\nx = \x7b y.path = 'p', z = [\x7bk.path = 1\x7d] \x7d\nq.path = 'r'\n"
        = some document ∧
      document.pathDependencies = done ++ stuck :: rest ∧
      done.map Entry.place = [[.key "a", .index 0, .key "x", .key "y"]] ∧
      (document.redirect (.revision "u" "r")).replaced = ["y", "k", "q"] ∧
      document.redirect (.checkout "base") =
        ⟨document.replaceAll done fun entry =>
          Target.reference [("path", "base" ++ "/" ++ entry.path?.getD "")], ["y"], some "k"⟩ ∧
      parse? "[d]\na.path = 'p'\n" = some other ∧
      other.redirect (.checkout "base") =
        ⟨other.replaceAll other.pathDependencies fun entry =>
          Target.reference [("path", "base" ++ "/" ++ entry.path?.getD "")], ["a"], none⟩ := by
  have fits : (parse? "[[a]]\npath = ''\nx = \x7b y.path = 'p', z = [\x7bk.path = 1\x7d] \x7d\nq.path = 'r'\n").map
      (fun document => (decide document.Distinct, document.pathDependencies.map fun entry =>
        (entry.place, entry.key.name, entry.path?))) =
      some (true, [([.key "a", .index 0, .key "x", .key "y"], "y", some "p"),
        ([.key "a", .index 0, .key "x", .key "z", .index 0, .key "k"], "k", none),
        ([.key "a", .index 0, .key "q"], "q", some "r")]) := by
    decide +kernel
  have fits' : (parse? "[d]\na.path = 'p'\n").map
      (fun document => (decide document.Distinct, document.pathDependencies.map fun entry =>
        (entry.key.name, entry.path?))) = some (true, [("a", some "p")]) := by
    decide +kernel
  obtain ⟨document, read, fits⟩ := Option.map_eq_some_iff.mp fits
  obtain ⟨other, read', fits'⟩ := Option.map_eq_some_iff.mp fits'
  simp only [Prod.mk.injEq, decide_eq_true_eq] at fits fits'
  obtain ⟨revision, -, refused⟩ := document.redirect_path_dependencies fits.1
  obtain ⟨-, answered, -⟩ := other.redirect_path_dependencies fits'.1
  obtain ⟨first, more, all, ofFirst, list⟩ := List.map_eq_cons_iff.mp fits.2
  obtain ⟨stuck, rest, rfl, ofStuck, list⟩ := List.map_eq_cons_iff.mp list
  obtain ⟨third, none, rfl, ofThird, list⟩ := List.map_eq_cons_iff.mp list
  obtain ⟨only, none', all', ofOnly, list'⟩ := List.map_eq_cons_iff.mp fits'.2
  obtain rfl := List.map_eq_nil_iff.mp list
  obtain rfl := List.map_eq_nil_iff.mp list'
  simp only [Prod.mk.injEq] at ofFirst ofStuck ofThird ofOnly
  have done := refused "base" (fun entry => entry.path?.getD "") [first] [third] stuck all
    (by simp [ofFirst]) ofStuck.2.2
  have whole := answered "base" (fun entry => entry.path?.getD "") (by simp [all', ofOnly])
  refine ⟨document, other, [first], stuck, [third], read, all, by simp [ofFirst], ?_, ?_, read', ?_⟩
  · simp [revision, all, ofFirst, ofStuck, ofThird]
  · rw [done]
    simp [ofFirst, ofStuck]
  · rw [whole]
    simp [all', ofOnly]

end Document

end Reroot
