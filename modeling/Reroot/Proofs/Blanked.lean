import Reroot.Manifest.Passes
import Reroot.Proofs.Measured

set_option autoImplicit false

namespace Reroot

open Text

theorem Margin.Fits.fits_blanks {before after : Text → Prop} {margin : Margin}
    (fits : margin.Fits before after)
    (bare : IsBlanks (margin.before.getD [])) : margin.Fits IsBlanks after := by
  refine ⟨fun text found => ?_, fits.2⟩
  rwa [found] at bare

namespace Node

variable {low high : Nat} {key : Key} {node : Node}

theorem Suits.outer_fits (suits : node.Suits .body key) : key.outer.Fits IsGap IsBlanks := by
  cases node with
  | scalar margin value => exact suits
  | array style elements => exact suits
  | inline style entries => exact suits.1
  | table style entries => exact ⟨fun text found => (suits.1.1 text found).is_gap, suits.1.2⟩
  | tables elements => exact ⟨fun text found => (suits.1 text found).is_gap, suits.2⟩

theorem holds_empty (read : key.Legible) (fits : key.outer.Fits IsBlanks IsBlanks) :
    (table .fresh .nil).Holds low high key where
  read := read
  suits := ⟨fits, fun dotted => by cases dotted⟩
  legible := ⟨rfl, .inr (Margin.fits_unset _ _), trivial⟩
  spans := ⟨fun _ placed => (by cases placed), trivial⟩
  native := trivial

inductive Blanked (low high : Nat) (key : Key) : Node → Prop where
  | holds (node : Node) (holds : node.Holds low high key) : Blanked low high key node
  | empty (read : key.Legible) (lead : key.outer.Fits IsGap IsBlanks) :
      Blanked low high key (.table .fresh .nil)

theorem Blanked.legible_fields (blanked : node.Blanked low high key) :
    ∀ line ∈ node.fields [] key, line.Legible .line := by
  cases blanked with
  | holds _ holds => exact holds.stands.legible_fields [] (by simp)
  | empty read lead => exact fun line member => by cases member

theorem Blanked.judged_sections (blanked : node.Blanked low high key) : ∀ part ∈ node.sections [key] false,
    ∀ statement ∈ part.statements, statement.Judged := by
  intro part member statement inside
  cases blanked with
  | holds _ holds =>
    have legible := node.legible_sections [] key false (by simp) holds.read holds.suits holds.legible
    exact .legible _ ((legible part member).legible_statements statement inside)
  | empty read lead =>
    cases List.mem_singleton.mp member
    cases List.mem_singleton.mp inside
    by_cases bare : IsBlanks (key.outer.before.getD [])
    · exact .legible _ ⟨by simp, read, lead.fits_blanks bare, Margin.fits_unset _ _⟩
    · exact .broken _ ⟨Margin.fits_unset _ _, lead.before_get_d [] rfl, bare⟩

end Node

namespace Document

variable {low high : Nat} {document : Document}

theorem blanked_blank_package (sound : document.root.Sound low high) :
    document.blankPackage.root.Each (Node.Blanked low high) :=
  Entries.each_assign (Node.Holds low high) _ "package" _ document.root sound.each
    (fun _ node holds => .holds node holds)
    (.empty (Key.legible_fresh "package") (Margin.fits_unset _ _))
    fun _ _ _ holds => .empty holds.read holds.suits.outer_fits

theorem judged_blank_package (sound : document.root.Sound low high) :
    ∀ statement ∈ document.blankPackage.root.statements, statement.Judged :=
  Entries.each_statement _ _
    (fun entry there line inside =>
      .legible _ ((blanked_blank_package sound entry there).legible_fields line inside))
    fun entry there => (blanked_blank_package sound entry there).judged_sections

theorem holds_blank_package (sound : document.root.Sound low high) (bare : document.BarePackage) :
    document.blankPackage.root.Each (Node.Holds low high) := by
  have each : document.root.Each fun key node => node.Holds low high key ∧
      (key.name = "package" → IsBlanks (key.outer.before.getD [])) :=
    fun entry member => ⟨sound.each entry member, bare entry member⟩
  exact Entries.each_assign _ _ "package" _ document.root each (fun _ _ both => both.1)
    (Node.holds_empty (Key.legible_fresh "package") (Margin.fits_unset _ _))
    fun _ _ same both => Node.holds_empty both.1.read (both.1.suits.outer_fits.fits_blanks (both.2 same))

theorem built_blank_package (built : document.root.Built Reader.limit 0 0) :
    document.blankPackage.root.Built Reader.limit 0 0 := by
  have empty : (Node.table .fresh .nil).Built Reader.limit 0 0 := ⟨fun _ => by decide, rfl, trivial⟩
  exact (Entries.built_iff _ _ _ _).mpr (Entries.each_assign _ _ "package" _ document.root
    ((Entries.built_iff _ _ _ _).mp built) (fun _ _ => id) empty fun _ _ _ _ => empty)

theorem nodup_blank_package (sound : document.root.Sound low high) :
    document.blankPackage.root.names.Nodup := by
  rw [blankPackage, Entries.names_assign]
  exact Entries.nodup_put _ _ _ sound.distinct

theorem stands_blank_package (sound : document.root.Sound 0 high) (isTail : IsTail document.trailing)
    (bare : document.BarePackage) : document.blankPackage.Stands high where
  trailing := isTail
  distinct := nodup_blank_package sound
  each := (holds_blank_package sound bare).imp fun _ _ holds => holds.stands

theorem header_blank_package (sound : document.root.Sound low high) (entry : Key × Node)
    (member : entry ∈ document.root.toList) (same : entry.1.name = "package") :
    .header ⟨[], entry.1, false, .unset⟩ ∈ document.blankPackage.root.statements := by
  refine (Entries.mem_statements _ _).mpr (.inr ⟨⟨[entry.1], false, .fresh, .nil⟩, ?_, ?_⟩)
  · exact (Entries.mem_sections _ _ _).mpr ⟨_, Entries.mem_assign "package" _ document.root
      sound.distinct entry member same, List.mem_cons_self⟩
  · exact List.mem_singleton.mpr rfl

theorem get?_blank_package (document : Document) (name : String) :
    document.blankPackage.data.get? name =
      if name = "package" then some (.object .nil) else document.data.get? name := by
  rw [data, blankPackage, Entries.get?_data, Entries.get?_assign, data, Entries.get?_data]
  split
  · rfl
  · rfl

-- A manifest with its package made empty says the same under every other name, if nothing but blanks
-- stands in front of the package's key and no header comes before one it has to follow. Else its text
-- is none of a document.
theorem blank_package_rereads (manifest : String) (document : Document)
    (read : parse? manifest = some document) :
    (document.BarePackage ∧ document.blankPackage.Orderly →
      ∃ reread, parse? document.blankPackage.render = some reread ∧
        reread.data.get? "package" = some (.object .nil) ∧
        ∀ name, name ≠ "package" →
          Option.Rel Data.Alike (document.data.get? name) (reread.data.get? name)) ∧
    ((parse? document.blankPackage.render).isSome = true →
      document.BarePackage ∧ document.blankPackage.Orderly) := by
  obtain ⟨isTail, high, sound⟩ := sound_of_of_text? _ document read
  have built := built_blank_package (built_of_of_text? _ document read)
  have within := document.blankPackage.within_of_built built
  rw [parse?, render, String.toList_ofList]
  constructor
  · rintro ⟨bare, orderly⟩
    obtain ⟨reread, parsed, alike⟩ :=
      (stands_blank_package sound isTail bare).rereads within orderly
    rw [document.blankPackage.said_of_built built] at alike
    refine ⟨reread, parsed, ?_, fun name other => ?_⟩
    · obtain ⟨data, found, same⟩ := alike.2.get? "package" (.object .nil)
        ((get?_blank_package _ _).trans (if_pos rfl))
      exact same.of_empty ▸ found
    · have related := alike.get? name
      rwa [get?_blank_package, if_neg other] at related
  · intro reads
    obtain ⟨reread, reads⟩ := Option.isSome_iff_exists.mp reads
    have legible := document.blankPackage.legible_of_reads reread isTail (judged_blank_package sound)
      within reads
    have bare : document.BarePackage := by
      intro entry member same
      obtain ⟨-, -, blanks, -⟩ := legible _ (header_blank_package sound entry member same)
      exact blanks.before_get_d [] rfl
    exact ⟨bare, (stands_blank_package sound isTail bare).orderly within reread reads⟩

theorem blank_package_rereads_dotted :
    ∃ document reread : Document,
      parse? "a = \x7b b = 1 \x7d\n# c\npackage.name = 'x'\n[d.e]\nf = 2\n" = some document ∧
      document.blankPackage.render = "a = \x7b b = 1 \x7d\n\n[package]\n[d.e]\nf = 2\n" ∧
      parse? document.blankPackage.render = some reread ∧
      reread.data.get? "package" = some (.object .nil) ∧
      ∀ name, name ≠ "package" →
        Option.Rel Data.Alike (document.data.get? name) (reread.data.get? name) := by
  have fits : (parse? "a = \x7b b = 1 \x7d\n# c\npackage.name = 'x'\n[d.e]\nf = 2\n").map (fun document =>
      (document.blankPackage.render, decide document.BarePackage,
        decide document.blankPackage.Orderly)) =
      some ("a = \x7b b = 1 \x7d\n\n[package]\n[d.e]\nf = 2\n", true, true) := by decide +kernel
  obtain ⟨document, read, fits⟩ := Option.map_eq_some_iff.mp fits
  simp only [Prod.mk.injEq, decide_eq_true_eq] at fits
  obtain ⟨reread, parsed, package, others⟩ := (blank_package_rereads _ document read).1 fits.2
  exact ⟨document, reread, read, fits.1, parsed, package, others⟩

-- A comment or a line end in front of the package's key, and headers in the wrong order from the start.
theorem blank_package_unreadable :
    ["# c\npackage = 1\n", "a = 1\n\npackage = 'x'\n",
      "[[a.y]]\n[a.b.c]\n[a]\nb.e.f = 1\n[a.b.e.g]\n[[a.y]]\n"].map (fun manifest =>
        (parse? manifest).map fun document => (parse? document.blankPackage.render).isSome) =
      [some false, some false, some false] := by
  decide +kernel

end Document

end Reroot
