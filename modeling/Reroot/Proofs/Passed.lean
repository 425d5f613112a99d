import Reroot.Proofs.Misfits
import Reroot.Proofs.Settled

set_option autoImplicit false

namespace Reroot

open Text

namespace Entries

theorem node_of_is_spent (node : Node) (spent : node.isSpent = true) :
    ∃ style : InlineStyle, node = .inline style .nil ∧ style.dotted = true := by
  cases node with
  | inline style entries =>
    cases entries with
    | nil => exact ⟨style, rfl, spent⟩
    | cons key node tail => cases spent
  | scalar margin value => cases spent
  | array style elements => cases spent
  | table style entries => cases spent
  | tables elements => cases spent

theorem names_unspent (entries : Entries) : entries.unspent.names.Sublist entries.names := by
  induction entries with
  | nil => exact .slnil
  | cons key node tail ih =>
    rw [unspent]
    split
    · exact .cons _ ih
    · exact .cons_cons _ ih

theorem mem_unspent (entries : Entries) (entry : Key × Node) (member : entry ∈ entries.unspent.toList) :
    entry ∈ entries.toList ∧ ¬ entry.2.isSpent = true := by
  induction entries with
  | nil => cases member
  | cons key node tail ih =>
    rw [unspent] at member
    split at member
    · exact (ih member).imp_left (List.mem_cons_of_mem _)
    · case isFalse solid =>
      rcases List.mem_cons.mp member with rfl | later
      · exact ⟨List.mem_cons_self, solid⟩
      · exact (ih later).imp_left (List.mem_cons_of_mem _)

theorem fields_unspent (entries : Entries) (parents : List Key) :
    entries.unspent.fields parents = entries.fields parents := by
  induction entries with
  | nil => rfl
  | cons key node tail ih =>
    rw [unspent]
    split
    · case isTrue spent =>
      obtain ⟨style, rfl, dotted⟩ := node_of_is_spent node spent
      rw [ih, fields, Node.fields, if_pos dotted]
      rfl
    · rw [fields, fields, ih]

theorem sections_unspent (entries : Entries) (path : List Key) :
    entries.unspent.sections path = entries.sections path := by
  induction entries with
  | nil => rfl
  | cons key node tail ih =>
    rw [unspent]
    split
    · case isTrue spent =>
      obtain ⟨style, rfl, -⟩ := node_of_is_spent node spent
      exact ih
    · rw [sections, sections, ih]

theorem statements_unspent (root : Entries) : root.unspent.statements = root.statements := by
  rw [statements_blocks, statements_blocks, blocks, blocks, fields_unspent, sections_unspent]

theorem judged_of_mixed {low high : Nat} (root : Entries) (each : root.Each (Node.Mixed low high)) :
    ∀ statement ∈ root.statements, statement.Judged :=
  each_statement _ root (fun entry there => (each entry there).judged_fields [] (by simp))
    fun entry there part inside statement member =>
      .legible _ (((each entry there).legible_sections [] (by simp) part inside).legible_statements
        statement member)

end Entries

namespace Node

variable {low high : Nat} {key : Key} {node : Node}

theorem Settled.mixed (settled : node.Settled low high key) (solid : ¬ node.isSpent = true) :
    node.Mixed low high key := by
  cases settled with
  | holds _ holds => exact .inl holds.stands
  | moved _ read unset legible => exact .inr ⟨read, unset, legible⟩
  | spent style dotted => exact absurd dotted solid

theorem Mixed.stands_of_straight (mixed : node.Mixed low high key) (straight : ∀ line ∈ node.fields [] key,
    IsBlanks (line.value.margin.before.getD []) ∧
      (line.parents ≠ [] → IsBlanks (line.key.outer.after.getD []))) : node.Stands low high key := by
  rcases mixed with stands | ⟨read, unset, inside⟩
  · exact stands
  · have suits := fun site => node.suits_unset site key unset
    exact ⟨read, suits .body, node.legible_joined key (suits .braces) inside straight,
      (node.bare_of_line .braces (by simp) low high inside).1⟩

end Node

namespace Document

variable {low high : Nat} {document : Document}

theorem Settled.mixed (settled : document.Settled low high) :
    document.root.unspent.names.Nodup ∧ document.root.unspent.Each (Node.Mixed low high) := by
  refine ⟨document.root.names_unspent.nodup settled.root.distinct, fun entry member => ?_⟩
  obtain ⟨there, solid⟩ := document.root.mem_unspent entry member
  exact (settled.root.each entry there).mixed solid

def unspent (document : Document) : Document := { document with root := document.root.unspent }

theorem text_unspent (document : Document) : document.unspent.text = document.text := by
  rw [text, unspent, Entries.statements_unspent, text]

theorem within_unspent (document : Document) : document.unspent.within = document.within := by
  rw [within, unspent, Entries.statements_unspent, within]

theorem orderly_unspent (document : Document) : document.unspent.Orderly ↔ document.Orderly := by
  rw [Orderly, unspent, Entries.sections_unspent, Orderly]

theorem Settled.rereads (settled : document.Settled 0 high) (within : document.within = true)
    (straight : document.Straight) (orderly : document.Orderly) :
    ∃ reread, ofText? document.text = some reread ∧ document.told.Alike reread.data := by
  obtain ⟨distinct, mixed⟩ := settled.mixed
  have all : document.root.unspent.Each (Node.Stands 0 high) := by
    intro entry member
    obtain ⟨there, -⟩ := document.root.mem_unspent entry member
    exact (mixed entry member).stands_of_straight fun line inside =>
      straight line ((Entries.mem_fields _ _ _).mpr ⟨entry, there, inside⟩)
  have stands : document.unspent.Stands high := ⟨settled.trailing, distinct, all⟩
  have reads := stands.rereads (document.within_unspent.trans within)
    (document.orderly_unspent.mpr orderly)
  rwa [text_unspent] at reads

theorem Settled.orderly_of_reads (settled : document.Settled 0 high) (within : document.within = true)
    (reread : Document) (reads : ofText? document.text = some reread) :
    document.Straight ∧ document.Orderly := by
  obtain ⟨distinct, mixed⟩ := settled.mixed
  have within' := document.within_unspent.trans within
  have reads' : ofText? document.unspent.text = some reread := by rw [text_unspent, reads]
  have statements := document.unspent.legible_of_reads reread settled.trailing
    (Entries.judged_of_mixed _ mixed) within' reads'
  have lines : ∀ line ∈ document.root.unspent.fields [],
      IsBlanks (line.value.margin.before.getD []) ∧ IsBlanks (line.key.outer.after.getD []) := by
    intro line member
    exact Node.straight_of_line line
      (statements (.field line) ((Entries.mem_statements _ _).mpr (.inl ⟨line, member, rfl⟩)))
  have all : document.root.unspent.Each (Node.Stands 0 high) := fun entry member =>
    (mixed entry member).stands fun line inside =>
      lines line ((Entries.mem_fields _ _ _).mpr ⟨entry, member, inside⟩)
  have stands : document.unspent.Stands high := ⟨settled.trailing, distinct, all⟩
  refine ⟨fun line member => ?_, document.orderly_unspent.mp (stands.orderly within' reread reads')⟩
  rw [← Entries.fields_unspent] at member
  exact (lines line member).imp_right fun after _ => after

-- Whatever passes are made over a manifest, its text says the same if no line at the top ends beside
-- its equals sign and no header comes before one it has to follow, and else is no text of a document.
theorem run_all_rereads (manifest : String) (document out : Document) (passes : List Pass)
    (read : parse? manifest = some document) (run : Pass.runAll? passes document = some out)
    (within : out.within = true) :
    (out.Straight ∧ out.Orderly →
      ∃ reread, parse? out.render = some reread ∧ out.told.Alike reread.data) ∧
    ((parse? out.render).isSome = true → out.Straight ∧ out.Orderly) := by
  obtain ⟨high, settled⟩ := settled_of_parse? manifest document read
  have after := settled.run_all passes out run
  rw [parse?, render, String.toList_ofList]
  refine ⟨fun fits => after.rereads within fits.1 fits.2, fun reads => ?_⟩
  obtain ⟨reread, reads⟩ := Option.isSome_iff_exists.mp reads
  exact after.orderly_of_reads within reread reads

theorem run_all_rereads_spent :
    ∃ document out reread : Document,
      parse? "workspace = \x7b dependencies.b = 1, x.a.path = 'p' \x7d\n[c.d]\npath = 'y'\n" =
        some document ∧
      Pass.runAll? [.lift, .redirect (.checkout "/r"), .drop ["b"]] document = some out ∧
      out.root.names = ["c", "dependencies", "x"] ∧
      parse? out.render = some reread ∧ out.told.Alike reread.data := by
  have fits : ((parse? "workspace = \x7b dependencies.b = 1, x.a.path = 'p' \x7d\n[c.d]\npath = 'y'\n").bind
      fun document => (Pass.runAll? [.lift, .redirect (.checkout "/r"), .drop ["b"]] document).map fun out =>
        (out.root.names, out.within, decide out.Straight, decide out.Orderly)) =
      some (["c", "dependencies", "x"], true, true, true) := by decide +kernel
  obtain ⟨document, read, fits⟩ := Option.bind_eq_some_iff.mp fits
  obtain ⟨out, run, fits⟩ := Option.map_eq_some_iff.mp fits
  simp only [Prod.mk.injEq, decide_eq_true_eq] at fits
  obtain ⟨reread, parsed, alike⟩ :=
    (run_all_rereads _ document out _ read run fits.2.1).1 fits.2.2
  exact ⟨document, out, reread, read, run, fits.1, parsed, alike⟩

-- A line end beside an equals sign that comes from between braces, headers that end up before one
-- that they have to follow, and headers that do so from the start.
theorem run_all_unreadable :
    ([("workspace = \x7b a.b =\n 1 \x7d\n", [.lift]),
      ("[workspace.b.c]\n[workspace]\nb.e.f = 1\n[workspace.b.e.g]\n[z]\n", [.lift]),
      ("[a.z]\n[a]\nt.v = 1\n[a.t.s.k]\npath = 'x'\n", [.redirect (.revision "u" "r")]),
      ("[[a.y]]\n[a.b.c]\n[a]\nb.e.f = 1\n[a.b.e.g]\n[[a.y]]\n", [])] :
        List (String × List Pass)).map (fun run =>
        (parse? run.1).bind fun document => (Pass.runAll? run.2 document).map fun out =>
          (out.within, (parse? out.render).isSome)) =
      [some (true, false), some (true, false), some (true, false), some (true, false)] := by
  decide +kernel

end Document

end Reroot
