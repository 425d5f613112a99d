import Reroot.Proofs.Assembled
import Reroot.Proofs.Provenance
import Reroot.Proofs.Strings

set_option autoImplicit false

namespace Reroot

open Text

theorem Walk.result_join {α β γ : Type} (f : α → β → γ) (first : Walk α) (unchanged : β) (rest : Walk β) :
    (Walk.join f first unchanged rest).result = f first.result unchanged ∨
      (Walk.join f first unchanged rest).result = f first.result rest.result := by
  rw [join]
  split
  · exact .inl rfl
  · exact .inr rfl

theorem Target.legible_reference (pairs : List (String × String)) (distinct : (pairs.map (·.1)).Nodup)
    (site : Site) : (Target.reference pairs).Legible site := by
  refine ⟨site.beside_unset, is_gap_nil, ?_⟩
  induction pairs with
  | nil => trivial
  | cons pair pairs ih =>
    obtain ⟨missing, distinctTail⟩ := List.nodup_cons.mp distinct
    refine ⟨?_, Key.legible_fresh pair.1, Node.suits_unset _ _ _ rfl,
      ⟨Site.beside_unset _, Scalar.reads_string pair.2⟩, ih distinctTail⟩
    have names : ∀ pairs : List (String × String), (pairs.foldr (fun pair entries =>
        Entries.cons (.fresh pair.1) (.ofString pair.2) entries) Entries.nil).names =
          pairs.map (·.1) := by
      intro pairs
      induction pairs with
      | nil => rfl
      | cons pair pairs ih => exact congrArg (List.cons pair.1) ih
    exact names pairs ▸ missing

namespace Node

theorem walked_forms (target : Target) (name : String) (node : Node) :
    (node.walked target name).result = node ∨
      (node.walked target name).result = (node.redirect target).result ∨
      node.isTable = true ∧ ∃ pairs : List (String × String), (pairs.map (·.1)).Nodup ∧
        (node.walked target name).result = Target.reference pairs := by
  rw [walked, redirected?, isTable]
  cases inner : node.entries? with
  | none => exact .inr (.inl rfl)
  | some entries =>
    dsimp only
    by_cases carries : entries.contains "path" = true
    · rw [if_pos carries]
      cases target with
      | revision url rev => exact .inr (.inr ⟨rfl, _, by simp, rfl⟩)
      | checkout base =>
        rw [Target.replacement?]
        cases (entries.get? "path").bind string? with
        | none => exact .inl rfl
        | some path => exact .inr (.inr ⟨rfl, _, by simp, rfl⟩)
    · rw [if_neg carries]
      exact .inr (.inl rfl)

theorem walked_keeps (target : Target) (name : String) (holds : Node → Prop) (node : Node)
    (own : holds node) (searched : holds (node.redirect target).result)
    (replaced : ∀ pairs : List (String × String), (pairs.map (·.1)).Nodup →
      holds (Target.reference pairs)) : holds (node.walked target name).result := by
  rcases node.walked_forms target name with same | same | ⟨-, pairs, distinct, same⟩
  · rwa [same]
  · rwa [same]
  · rw [same]
    exact replaced pairs distinct

theorem around_of_is_table (site : Site) (key : Key) (node : Node) (isTable : node.isTable = true)
    (suits : node.Suits site key) : site.Around key.outer := by
  cases node with
  | inline style entries => exact suits.1
  | table style entries =>
    obtain ⟨before, after⟩ := suits.1
    cases site with
    | element => trivial
    | braces =>
      exact ⟨fun text found => (before text found).is_gap, fun text found => (after text found).is_gap⟩
    | line => exact ⟨fun text found => (before text found).is_gap, after⟩
    | body => exact ⟨fun text found => (before text found).is_gap, after⟩
  | scalar margin value => cases isTable
  | array style elements => cases isTable
  | tables elements => cases isTable

theorem suits_redirect (target : Target) (site : Site) (key : Key) (node : Node)
    (suits : node.Suits site key) : (node.redirect target).result.Suits site key := by
  cases node <;> exact suits

theorem suits_walked (target : Target) (site : Site) (key : Key) (node : Node)
    (suits : node.Suits site key) : (node.walked target key.name).result.Suits site key := by
  rcases node.walked_forms target key.name with same | searched | ⟨isTable, pairs, -, replaced⟩
  · rwa [same]
  · rw [searched]
    exact node.suits_redirect target site key suits
  · rw [replaced]
    exact ⟨node.around_of_is_table site key isTable suits, fun dotted => by cases dotted⟩

end Node

theorem Nodes.is_section_redirect (target : Target) (nodes : Nodes)
    (each : ∀ node ∈ nodes.toList, node.isSection = true) :
    ∀ node ∈ (nodes.redirect target).result.toList, node.isSection = true := by
  induction nodes with
  | nil => exact each
  | cons head tail ih =>
    have first : (head.redirect target).result.isSection = true := by
      have isSection := each head List.mem_cons_self
      cases head <;> exact isSection
    have later := ih fun node member => each node (List.mem_cons_of_mem _ member)
    rw [Nodes.redirect]
    rcases Walk.result_join Nodes.cons (head.redirect target) tail (tail.redirect target) with
      stuck | whole
    · rw [stuck]
      exact List.forall_mem_cons.mpr ⟨first, fun node member => each node (List.mem_cons_of_mem _ member)⟩
    · rw [whole]
      exact List.forall_mem_cons.mpr ⟨first, later⟩

theorem Nodes.redirect_ne_nil (target : Target) (nodes : Nodes) (some' : nodes ≠ .nil) :
    (nodes.redirect target).result ≠ .nil := by
  cases nodes with
  | nil => exact absurd rfl some'
  | cons head tail =>
    rw [Nodes.redirect]
    rcases Walk.result_join Nodes.cons (head.redirect target) tail (tail.redirect target) with
      same | same <;> rw [same] <;> simp

namespace Entries

theorem redirect_cons (target : Target) (key : Key) (node : Node) (tail : Entries) :
    ((cons key node tail).redirect target).result = cons key (node.walked target key.name).result tail ∨
      ((cons key node tail).redirect target).result =
        cons key (node.walked target key.name).result (tail.redirect target).result := by
  rw [redirect]
  exact Walk.result_join (cons key) _ _ _

theorem names_redirect (target : Target) (entries : Entries) :
    (entries.redirect target).result.names = entries.names := by
  induction entries with
  | nil => rfl
  | cons key node tail ih =>
    rcases redirect_cons target key node tail with stuck | whole
    · rw [stuck, names, names]
    · rw [whole, names, names, ih]

theorem redirect_ne_nil (target : Target) (entries : Entries) (some' : entries ≠ nil) :
    (entries.redirect target).result ≠ nil := by
  cases entries with
  | nil => exact absurd rfl some'
  | cons key node tail =>
    rcases redirect_cons target key node tail with same | same <;> rw [same] <;> simp

theorem each_redirect (target : Target) (holds : Key → Node → Prop) (entries : Entries)
    (each : entries.Each holds)
    (kept : ∀ key node, holds key node → holds key (node.walked target key.name).result) :
    (entries.redirect target).result.Each holds := by
  induction entries with
  | nil => exact each
  | cons key node tail ih =>
    obtain ⟨here, later⟩ := (each_cons _ _ _ _).mp each
    rcases redirect_cons target key node tail with stuck | whole
    · rw [stuck]
      exact (each_cons _ _ _ _).mpr ⟨kept key node here, later⟩
    · rw [whole]
      exact (each_cons _ _ _ _).mpr ⟨kept key node here, ih later⟩

end Entries

section Kept

variable (target : Target)

mutual
theorem Node.legible_redirect (site : Site) : (node : Node) → node.Legible site →
    (node.redirect target).result.Legible site
  | .scalar _ _, legible => legible
  | .array _ elements, legible =>
    ⟨legible.1, legible.2.1, Nodes.legible_redirect .element elements legible.2.2⟩
  | .inline style entries, legible => by
    change (Node.inline style (entries.redirect target).result).Legible site
    rw [Node.Legible] at legible ⊢
    by_cases dotted : style.dotted = true
    · rw [if_pos dotted] at legible ⊢
      exact ⟨legible.1, entries.redirect_ne_nil target legible.2.1,
        Entries.legible_redirect site.spread entries legible.2.2⟩
    · rw [if_neg dotted] at legible ⊢
      exact ⟨legible.1, legible.2.1, Entries.legible_redirect .braces entries legible.2.2⟩
  | .table _ entries, legible =>
    ⟨legible.1, legible.2.1, Entries.legible_redirect .body entries legible.2.2⟩
  | .tables elements, legible =>
    ⟨legible.1, elements.redirect_ne_nil target legible.2.1,
      elements.is_section_redirect target legible.2.2.1,
      Nodes.legible_redirect .body elements legible.2.2.2⟩
theorem Nodes.legible_redirect (site : Site) : (nodes : Nodes) → nodes.Legible site →
    (nodes.redirect target).result.Legible site
  | .nil, legible => legible
  | .cons head tail, legible => by
    have first := Node.legible_redirect site head legible.1
    rw [Nodes.redirect]
    rcases Walk.result_join Nodes.cons (head.redirect target) tail (tail.redirect target) with
      stuck | whole
    · rw [stuck]
      exact ⟨first, legible.2⟩
    · rw [whole]
      exact ⟨first, Nodes.legible_redirect site tail legible.2⟩
theorem Entries.legible_redirect (site : Site) : (entries : Entries) → entries.Legible site →
    (entries.redirect target).result.Legible site
  | .nil, legible => legible
  | .cons key node tail, legible => by
    obtain ⟨missing, legibleKey, suits, legibleNode, legibleTail⟩ := legible
    have first := node.walked_keeps target key.name (Node.Legible site) legibleNode
      (Node.legible_redirect site node legibleNode)
      fun pairs distinct => Target.legible_reference pairs distinct site
    have suits' := node.suits_walked target site key suits
    rcases Entries.redirect_cons target key node tail with stuck | whole
    · rw [stuck]
      exact ⟨missing, legibleKey, suits', first, legibleTail⟩
    · rw [whole]
      exact ⟨by rwa [Entries.names_redirect], legibleKey, suits', first,
        Entries.legible_redirect site tail legibleTail⟩
end

mutual
theorem Node.spans_redirect (low high : Nat) : (node : Node) → node.Spans low high →
    (node.redirect target).result.Spans low high
  | .scalar _ _, _ | .array _ _, _ | .inline _ _, _ => trivial
  | .table _ entries, spans => ⟨spans.1, Entries.spans_redirect low high entries spans.2⟩
  | .tables elements, spans => Nodes.spans_redirect low high elements spans
theorem Nodes.spans_redirect (low high : Nat) : (nodes : Nodes) → nodes.Spans low high →
    (nodes.redirect target).result.Spans low high
  | .nil, _ => trivial
  | .cons (.table style entries) tail, spans => by
    obtain ⟨own, last, isOwn, above, less, below, inner, rest⟩ := spans
    have inner' := Entries.spans_redirect own last entries inner
    have rest' := Nodes.spans_redirect last high tail rest
    rw [Nodes.redirect]
    rcases Walk.result_join Nodes.cons ((Node.table style entries).redirect target) tail
      (tail.redirect target) with stuck | whole
    · rw [stuck]
      exact ⟨own, last, isOwn, above, less, below, inner', rest⟩
    · rw [whole]
      exact ⟨own, last, isOwn, above, less, below, inner', rest'⟩
  | .cons (.scalar _ _) _, spans | .cons (.array _ _) _, spans | .cons (.inline _ _) _, spans
  | .cons (.tables _) _, spans => spans.elim
theorem Entries.spans_redirect (low high : Nat) : (entries : Entries) → entries.Spans low high →
    (entries.redirect target).result.Spans low high
  | .nil, _ => trivial
  | .cons key node tail, spans => by
    have first := node.walked_keeps target key.name (Node.Spans low high) spans.1
      (Node.spans_redirect low high node spans.1) fun _ _ => trivial
    rcases Entries.redirect_cons target key node tail with stuck | whole
    · rw [stuck]
      exact ⟨first, spans.2⟩
    · rw [whole]
      exact ⟨first, Entries.spans_redirect low high tail spans.2⟩
end

mutual
theorem Node.native_redirect : (node : Node) → node.Native → (node.redirect target).result.Native
  | .scalar _ _, _ | .array _ _, _ => trivial
  | .inline _ _, native => native
  | .table _ entries, native => Entries.native_redirect entries native
  | .tables elements, native => Nodes.native_redirect elements native
theorem Nodes.native_redirect : (nodes : Nodes) → nodes.Native →
    (nodes.redirect target).result.Native
  | .nil, _ => trivial
  | .cons head tail, native => by
    have first := Node.native_redirect head native.1
    rw [Nodes.redirect]
    rcases Walk.result_join Nodes.cons (head.redirect target) tail (tail.redirect target) with
      stuck | whole
    · rw [stuck]
      exact ⟨first, native.2⟩
    · rw [whole]
      exact ⟨first, Nodes.native_redirect tail native.2⟩
theorem Entries.native_redirect : (entries : Entries) → entries.Native →
    (entries.redirect target).result.Native
  | .nil, _ => trivial
  | .cons key node tail, native => by
    have first := node.walked_keeps target key.name Node.Native native.1
      (Node.native_redirect node native.1) fun _ _ => rfl
    rcases Entries.redirect_cons target key node tail with stuck | whole
    · rw [stuck]
      exact ⟨first, native.2⟩
    · rw [whole]
      exact ⟨first, Entries.native_redirect tail native.2⟩
end

theorem Node.Holds.walked {low high : Nat} {key : Key} {node : Node} (holds : node.Holds low high key) :
    (node.walked target key.name).result.Holds low high key := by
  refine ⟨holds.read, node.suits_walked target .body key holds.suits, ?_, ?_, ?_⟩
  · exact node.walked_keeps target key.name (Node.Legible .body) holds.legible
      (Node.legible_redirect target .body node holds.legible)
      fun pairs distinct => Target.legible_reference pairs distinct .body
  · exact node.walked_keeps target key.name (Node.Spans low high) holds.spans
      (Node.spans_redirect target low high node holds.spans) fun _ _ => trivial
  · exact node.walked_keeps target key.name Node.Native holds.native
      (Node.native_redirect target node holds.native) fun _ _ => rfl

end Kept

end Reroot
