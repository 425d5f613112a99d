import Reroot.Document.Reader
import Reroot.Document.Reordered
import Reroot.Proofs.Calm
import Reroot.Proofs.Replaced
import Reroot.Proofs.Spared

set_option autoImplicit false

namespace Reroot

namespace Entries

theorem perm_erase (name : String) (entries : Entries) (distinct : entries.names.Nodup)
    (entry : Key × Node) (found : entries.keyed? name = some entry) :
    (entry :: (entries.erase name).toList).Perm entries.toList := by
  induction entries with
  | nil => cases found
  | cons key node tail ih =>
    obtain ⟨missing, distinctTail⟩ := List.nodup_cons.mp distinct
    rw [keyed?] at found
    rw [erase]
    split at found
    · case isTrue same =>
      cases found
      subst same
      rw [if_pos rfl, erase_of_missing _ _ missing, toList]
    · case isFalse differs =>
      rw [if_neg differs, toList, toList]
      exact (List.Perm.swap _ _ _).trans ((ih distinctTail found).cons _)

theorem reordered_iff (entries other : Entries) (distinct : other.names.Nodup) :
    entries.Reordered other ↔ ∃ list, list.Perm other.toList ∧
      List.Forall₂ (fun entry same => same.1 = entry.1 ∧ entry.2.Reordered same.2)
        entries.toList list := by
  induction entries generalizing other with
  | nil =>
    constructor
    · intro reordered
      cases reordered
      exact ⟨[], .nil, .nil⟩
    · rintro ⟨list, perm, each⟩
      cases each
      cases other with
      | nil => rfl
      | cons key node tail => cases perm.length_eq
  | cons key node tail ih =>
    have distinct' : (other.erase key.name).names.Nodup := by
      rw [names_erase]
      exact distinct.filter _
    constructor
    · rintro ⟨⟨same, found, inner⟩, later⟩
      obtain ⟨list, perm, each⟩ := (ih _ distinct').mp later
      exact ⟨(key, same) :: list,
        (perm.cons _).trans (other.perm_erase key.name distinct _ found), .cons ⟨rfl, inner⟩ each⟩
    · rintro ⟨list, perm, each⟩
      rw [toList] at each
      obtain ⟨same, rest, ⟨rfl, inner⟩, later, rfl⟩ := List.forall₂_cons_left_iff.mp each
      have found := other.keyed?_of_mem distinct same (perm.subset List.mem_cons_self)
      have left := (perm.trans (other.perm_erase same.1.name distinct same found).symm).cons_inv
      exact ⟨⟨same.2, found, inner⟩, (ih _ distinct').mpr ⟨rest, left, later⟩⟩

end Entries

namespace Walk

variable {α β γ : Type}

theorem join_free_iff (f : α → β → γ) (first : Walk α) (unchanged : β) (rest : Walk β) :
    (join f first unchanged rest).stuck = none ↔ first.stuck = none ∧ rest.stuck = none := by
  refine ⟨fun free => ?_, fun ⟨free, freeRest⟩ => ?_⟩
  · obtain ⟨freeFirst, freeRest, -⟩ := join_free f first unchanged rest free
    exact ⟨freeFirst, freeRest⟩
  · rw [join_of_free _ _ _ _ free]
    exact freeRest

-- Walks that come to their ends together, and then have replaced the same keys in some order and
-- have results that are alike.
structure Agrees (alike : α → α → Prop) (first second : Walk α) : Prop where
  free : first.stuck = none ↔ second.stuck = none
  ended : first.stuck = none →
    first.replaced.Perm second.replaced ∧ alike first.result second.result

theorem Agrees.map {alike : α → α → Prop} {alike' : β → β → Prop} {first second : Walk α}
    (agrees : Agrees alike first second) (f : α → β)
    (kept : ∀ own other, alike own other → alike' (f own) (f other)) :
    Agrees alike' (first.map f) (second.map f) :=
  ⟨agrees.free, fun free => ⟨(agrees.ended free).1, kept _ _ (agrees.ended free).2⟩⟩

theorem Agrees.join {alike : α → α → Prop} {alike' : β → β → Prop} {alike'' : γ → γ → Prop}
    {first second : Walk α} {rest other : Walk β} (agrees : Agrees alike first second)
    (agrees' : Agrees alike' rest other) (f : α → β → γ) (unchanged unchanged' : β)
    (kept : ∀ own own' more more', alike own own' → alike' more more' →
      alike'' (f own more) (f own' more')) :
    Agrees alike'' (Walk.join f first unchanged rest) (Walk.join f second unchanged' other) := by
  refine ⟨by rw [join_free_iff, join_free_iff, agrees.free, agrees'.free], fun free => ?_⟩
  obtain ⟨freeFirst, freeRest⟩ := (join_free_iff _ _ _ _).mp free
  obtain ⟨perm, related⟩ := agrees.ended freeFirst
  obtain ⟨perm', related'⟩ := agrees'.ended freeRest
  rw [join_of_free _ _ _ _ freeFirst, join_of_free _ _ _ _ (agrees.free.mp freeFirst)]
  exact ⟨perm.append perm', kept _ _ _ _ related related'⟩

theorem stuck_replacing (answer : Node → Option Node) (set : List Step → Node → α → α)
    (entries : List Entry) (whole : α) (name : String)
    (stuck : (replacing answer set entries whole).stuck = some name) :
    ∃ entry ∈ entries, entry.key.name = name ∧ answer entry.node = none := by
  induction entries generalizing whole with
  | nil => cases stuck
  | cons entry rest ih =>
    rw [replacing] at stuck
    cases answered : answer entry.node with
    | none =>
      rw [answered] at stuck
      exact ⟨entry, List.mem_cons_self, Option.some.inj stuck, answered⟩
    | some node =>
      rw [answered] at stuck
      obtain ⟨other, member, refused⟩ := ih _ stuck
      exact ⟨other, List.mem_cons_of_mem _ member, refused⟩

end Walk

section Order

variable (target : Target)

theorem Target.reordered_replacement? (entries : Entries) (node : Node)
    (replaced : target.replacement? entries = some node) : node.Reordered node := by
  cases target with
  | revision url rev =>
    cases replaced
    exact ⟨_, rfl, ⟨_, rfl, rfl⟩, ⟨_, rfl, rfl⟩, rfl⟩
  | checkout base =>
    obtain ⟨path, -, rfl⟩ := Option.map_eq_some_iff.mp replaced
    exact ⟨_, rfl, ⟨_, rfl, rfl⟩, rfl⟩

namespace Entries

theorem erase_redirect (name : String) (entries : Entries)
    (free : (entries.redirect target).stuck = none) :
    (entries.redirect target).result.erase name = ((entries.erase name).redirect target).result := by
  induction entries with
  | nil => rfl
  | cons key node tail ih =>
    rw [redirect_cons_eq] at free ⊢
    obtain ⟨freeNode, freeTail, result⟩ := Walk.join_free _ _ _ _ free
    rw [result, erase, erase]
    split
    · exact ih freeTail
    · rw [redirect_cons_eq, Walk.join_of_free _ _ _ _ freeNode, ih freeTail]

theorem redirect_apart (name : String) (entries : Entries) (distinct : entries.names.Nodup)
    (node : Node) (found : entries.get? name = some node) :
    ((entries.redirect target).stuck = none ↔
      (node.walked target name).stuck = none ∧ ((entries.erase name).redirect target).stuck = none) ∧
    ((entries.redirect target).stuck = none → (entries.redirect target).replaced.Perm
      ((node.walked target name).replaced ++ ((entries.erase name).redirect target).replaced)) := by
  induction entries with
  | nil => cases found
  | cons key value tail ih =>
    obtain ⟨missing, distinctTail⟩ := List.nodup_cons.mp distinct
    rw [get?] at found
    rw [redirect_cons_eq, Walk.join_free_iff, erase]
    split at found
    · case isTrue same =>
      cases found
      subst same
      rw [if_pos rfl, erase_of_missing _ _ missing]
      refine ⟨.rfl, fun free => ?_⟩
      rw [Walk.join_of_free _ _ _ _ free.1]
    · case isFalse differs =>
      obtain ⟨free, perm⟩ := ih distinctTail found
      rw [if_neg differs, redirect_cons_eq, Walk.join_free_iff, free]
      refine ⟨and_left_comm, fun free' => ?_⟩
      obtain ⟨freeValue, freeNode, freeRest⟩ := free'
      rw [Walk.join_of_free _ _ _ _ freeValue, Walk.join_of_free _ _ _ _ freeValue]
      exact ((perm (free.mpr ⟨freeNode, freeRest⟩)).append_left _).trans
        (List.perm_append_comm_assoc _ _ _)

end Entries

theorem Node.Reordered.string? {node other : Node} (reordered : node.Reordered other) :
    other.string? = node.string? := by
  cases node with
  | scalar margin value =>
    cases reordered
    rfl
  | array style elements =>
    obtain ⟨elements', rfl, -⟩ := reordered
    rfl
  | inline style entries =>
    obtain ⟨entries', rfl, -⟩ := reordered
    rfl
  | table style entries =>
    obtain ⟨entries', rfl, -⟩ := reordered
    rfl
  | tables elements =>
    obtain ⟨elements', rfl, -⟩ := reordered
    rfl

theorem Node.Reordered.entries? {node other : Node} (reordered : node.Reordered other) :
    Option.Rel Entries.Reordered node.entries? other.entries? := by
  cases node with
  | scalar margin value =>
    cases reordered
    exact .none
  | array style elements =>
    obtain ⟨elements', rfl, -⟩ := reordered
    exact .none
  | inline style entries =>
    obtain ⟨entries', rfl, inner⟩ := reordered
    exact .some inner
  | table style entries =>
    obtain ⟨entries', rfl, inner⟩ := reordered
    exact .some inner
  | tables elements =>
    obtain ⟨elements', rfl, -⟩ := reordered
    exact .none

theorem Entries.Reordered.string? {entries other : Entries} (reordered : entries.Reordered other)
    (name : String) : (other.get? name).map Node.string? = (entries.get? name).map Node.string? := by
  induction entries generalizing other with
  | nil =>
    cases reordered
    rfl
  | cons key node tail ih =>
    obtain ⟨⟨same, found, inner⟩, later⟩ := reordered
    by_cases hit : key.name = name
    · subst hit
      rw [get?, if_pos rfl, get?_eq_keyed?, found, Option.map_some, Option.map_some, Option.map_some,
        inner.string?]
    · rw [get?, if_neg hit, ← ih later, get?_erase, if_neg (Ne.symm hit)]

theorem Target.replacement?_reordered {entries other : Entries} (reordered : entries.Reordered other) :
    target.replacement? other = target.replacement? entries := by
  cases target with
  | revision url rev => rfl
  | checkout base =>
    have same : (other.get? "path").bind Node.string? = (entries.get? "path").bind Node.string? := by
      have flat := congrArg (Option.bind · id) (reordered.string? "path")
      rwa [Option.bind_map, Option.bind_map] at flat
    rw [replacement?, same, ← replacement?]

theorem Node.walked_reordered (name : String) {node other : Node} (reordered : node.Reordered other)
    (inner : (node.redirect target).Agrees Node.Reordered (other.redirect target)) :
    (node.walked target name).Agrees Node.Reordered (other.walked target name) := by
  have tables := reordered.entries?
  rw [walked, walked, redirected?, redirected?]
  cases found : node.entries? with
  | none =>
    rw [found] at tables
    cases found' : other.entries? with
    | none => exact inner
    | some entries' =>
      rw [found'] at tables
      cases tables
  | some entries =>
    rw [found] at tables
    cases found' : other.entries? with
    | none =>
      rw [found'] at tables
      cases tables
    | some entries' =>
      rw [found', Option.rel_some_some] at tables
      have carries : entries'.contains "path" = entries.contains "path" := by
        rw [Entries.contains, Entries.contains, ← Option.isSome_map, tables.string?, Option.isSome_map]
      dsimp only
      rw [carries, target.replacement?_reordered tables]
      split
      · cases replaced : target.replacement? entries with
        | none => exact ⟨.rfl, fun free => by cases free⟩
        | some reference =>
          exact ⟨.rfl, fun _ => ⟨.rfl, target.reordered_replacement? entries reference replaced⟩⟩
      · exact inner

mutual
theorem Node.redirect_reordered : (node other : Node) → node.Reordered other → other.Distinct →
    (node.redirect target).Agrees Node.Reordered (other.redirect target)
  | .scalar margin value, other, reordered, _ => by
    cases reordered
    exact ⟨.rfl, fun _ => ⟨.rfl, rfl⟩⟩
  | .array style elements, other, reordered, distinct => by
    obtain ⟨elements', rfl, inner⟩ := reordered
    exact (Nodes.redirect_reordered elements elements' inner distinct).map _
      fun _ all related => ⟨all, rfl, related⟩
  | .inline style entries, other, reordered, distinct => by
    obtain ⟨entries', rfl, inner⟩ := reordered
    exact (Entries.redirect_reordered entries entries' inner distinct).map _
      fun _ all related => ⟨all, rfl, related⟩
  | .table style entries, other, reordered, distinct => by
    obtain ⟨entries', rfl, inner⟩ := reordered
    exact (Entries.redirect_reordered entries entries' inner distinct).map _
      fun _ all related => ⟨all, rfl, related⟩
  | .tables elements, other, reordered, distinct => by
    obtain ⟨elements', rfl, inner⟩ := reordered
    exact (Nodes.redirect_reordered elements elements' inner distinct).map _
      fun _ all related => ⟨all, rfl, related⟩
theorem Nodes.redirect_reordered : (nodes other : Nodes) → nodes.Reordered other → other.Distinct →
    (nodes.redirect target).Agrees Nodes.Reordered (other.redirect target)
  | .nil, other, reordered, _ => by
    cases reordered
    exact ⟨.rfl, fun _ => ⟨.rfl, rfl⟩⟩
  | .cons head tail, other, reordered, distinct => by
    obtain ⟨head', tail', rfl, inner, later⟩ := reordered
    exact (Node.redirect_reordered head head' inner distinct.1).join
      (Nodes.redirect_reordered tail tail' later distinct.2) _ _ _
      fun _ first _ rest related related' => ⟨first, rest, rfl, related, related'⟩
theorem Entries.redirect_reordered : (entries other : Entries) → entries.Reordered other →
    other.Distinct → (entries.redirect target).Agrees Entries.Reordered (other.redirect target)
  | .nil, other, reordered, _ => by
    cases reordered
    exact ⟨.rfl, fun _ => ⟨.rfl, rfl⟩⟩
  | .cons key node tail, other, reordered, distinct => by
    obtain ⟨⟨same, found, inner⟩, later⟩ := reordered
    have there : other.get? key.name = some same := by
      rw [Entries.get?_eq_keyed?, found]
      rfl
    have here := node.walked_reordered target key.name inner
      (Node.redirect_reordered node same inner (other.distinct_get? distinct key.name same there))
    have rest := Entries.redirect_reordered tail (other.erase key.name) later
      (other.distinct_erase key.name distinct)
    -- The other walk comes to this entry elsewhere; what it does there and over the rest is the same.
    obtain ⟨apart, perm⟩ :=
      other.redirect_apart target key.name (other.names_nodup distinct) same there
    rw [Entries.redirect_cons_eq]
    refine ⟨by rw [Walk.join_free_iff, here.free, rest.free, apart], fun free => ?_⟩
    obtain ⟨freeNode, freeTail⟩ := (Walk.join_free_iff _ _ _ _).mp free
    have freeOther := apart.mpr ⟨here.free.mp freeNode, rest.free.mp freeTail⟩
    obtain ⟨first, related⟩ := here.ended freeNode
    obtain ⟨later, related'⟩ := rest.ended freeTail
    rw [Walk.join_of_free _ _ _ _ freeNode]
    refine ⟨(first.append later).trans (perm freeOther).symm, ⟨_, ?_, related⟩, ?_⟩
    · rw [other.keyed?_redirect target key.name freeOther, found]
      rfl
    · rwa [other.erase_redirect target key.name freeOther]
end

end Order

namespace Document

theorem stuck_redirect (document : Document) (distinct : document.Distinct) (target : Target)
    (name : String) (stuck : (document.redirect target).stuck = some name) :
    ∃ entry ∈ document.pathDependencies, entry.key.name = name ∧ entry.path? = none := by
  rw [document.redirect_eq_replacing target distinct] at stuck
  obtain ⟨entry, member, key, refused⟩ := Walk.stuck_replacing _ _ _ _ name stuck
  refine ⟨entry, member, key, ?_⟩
  cases target with
  | revision url rev =>
    rw [Target.answer_revision url rev entry (of_decide_eq_true (List.mem_filter.mp member).2).1] at refused
    cases refused
  | checkout base => exact Option.map_eq_none_iff.mp (Target.answer_checkout base entry ▸ refused)

-- With the entries of its tables in another order a document is redirected all the same: the walk comes
-- to its end or does not, replaces as many tables, of the same keys, and leaves a document with its
-- entries in another order. Where it gets stuck, each of the two stops at a path dependency of its
-- document whose `path` is no string.
theorem redirect_of_reordered (target : Target) (document other : Document)
    (reordered : document.Reordered other) (distinct : document.Distinct)
    (distinct' : other.Distinct) :
    ((document.redirect target).stuck = none ↔ (other.redirect target).stuck = none) ∧
    ((document.redirect target).stuck = none →
      (document.redirect target).replaced.Perm (other.redirect target).replaced ∧
      (document.redirect target).result.Reordered (other.redirect target).result) ∧
    (∀ name, (document.redirect target).stuck = some name →
      ∃ entry ∈ document.pathDependencies, entry.key.name = name ∧ entry.path? = none) ∧
    ∀ name, (other.redirect target).stuck = some name →
      ∃ entry ∈ other.pathDependencies, entry.key.name = name ∧ entry.path? = none := by
  obtain ⟨trailing, entries⟩ := reordered
  obtain ⟨free, ended⟩ := document.root.redirect_reordered target other.root entries distinct'
  refine ⟨free, fun own => ?_, fun name => document.stuck_redirect distinct target name,
    fun name => other.stuck_redirect distinct' target name⟩
  obtain ⟨perm, related⟩ := ended own
  exact ⟨perm, trailing, related⟩

theorem redirect_of_reordered_at_depth :
    ∃ document other first second,
      parse? "p=1\nq=[\x7bx.path='a',y.path='b'\x7d]\n[z]\nk.path=''\nl=\x7bpath='',m=1\x7d\n" =
        some document ∧
      parse? "q=[\x7by.path='b',x.path='a'\x7d]\np=1\n[z]\nl=\x7bm=1,path=''\x7d\nk.path=''\n" =
        some other ∧
      (document.redirect (.checkout "base")).replaced = ["x", "y", "k", "l"] ∧
      (other.redirect (.checkout "base")).stuck = none ∧
      (other.redirect (.checkout "base")).replaced.Perm ["x", "y", "k", "l"] ∧
      (document.redirect (.checkout "base")).result.Reordered
        (other.redirect (.checkout "base")).result ∧
      parse? "a.path=1\nb.path=2\n" = some first ∧ parse? "b.path=2\na.path=1\n" = some second ∧
      (first.redirect (.checkout "base")).stuck = some "a" ∧
      (second.redirect (.checkout "base")).stuck = some "b" ∧
      (∃ entry ∈ first.pathDependencies, entry.key.name = "a" ∧ entry.path? = none) ∧
      ∃ entry ∈ second.pathDependencies, entry.key.name = "b" ∧ entry.path? = none := by
  have fits : ((parse?
        "p=1\nq=[\x7bx.path='a',y.path='b'\x7d]\n[z]\nk.path=''\nl=\x7bpath='',m=1\x7d\n").bind
      fun document => (parse?
        "q=[\x7by.path='b',x.path='a'\x7d]\np=1\n[z]\nl=\x7bm=1,path=''\x7d\nk.path=''\n").map
      fun other => (decide (document.Reordered other), decide document.Distinct, decide other.Distinct,
        (document.redirect (.checkout "base")).replaced,
        (document.redirect (.checkout "base")).stuck)) =
      some (true, true, true, ["x", "y", "k", "l"], none) := by
    decide +kernel
  have fits' : ((parse? "a.path=1\nb.path=2\n").bind fun first =>
      (parse? "b.path=2\na.path=1\n").map fun second => (decide (first.Reordered second),
        decide first.Distinct, decide second.Distinct, (first.redirect (.checkout "base")).stuck,
        (second.redirect (.checkout "base")).stuck)) =
      some (true, true, true, some "a", some "b") := by
    decide +kernel
  obtain ⟨document, read, fits⟩ := Option.bind_eq_some_iff.mp fits
  obtain ⟨other, read', fits⟩ := Option.map_eq_some_iff.mp fits
  obtain ⟨first, ofFirst, fits'⟩ := Option.bind_eq_some_iff.mp fits'
  obtain ⟨second, ofSecond, fits'⟩ := Option.map_eq_some_iff.mp fits'
  simp only [Prod.mk.injEq, decide_eq_true_eq] at fits fits'
  obtain ⟨reordered, distinct, distinct', replaced, free⟩ := fits
  obtain ⟨swapped, single, single', stuck, stuck'⟩ := fits'
  obtain ⟨same, ended, -⟩ :=
    redirect_of_reordered (.checkout "base") document other reordered distinct distinct'
  obtain ⟨perm, result⟩ := ended free
  obtain ⟨-, -, named, named'⟩ :=
    redirect_of_reordered (.checkout "base") first second swapped single single'
  exact ⟨document, other, first, second, read, read', replaced, same.mp free, replaced ▸ perm.symm,
    result, ofFirst, ofSecond, stuck, stuck', named "a" stuck, named' "b" stuck'⟩

end Document

end Reroot
