import Reroot.Document.Statement

set_option autoImplicit false

namespace Reroot

namespace Section

def shows (isElement : Bool) (style : TableStyle) (entries : Entries) : Bool :=
  isElement || !style.implicit || !(entries.fields []).isEmpty

-- No header inside a section stands before the section's own and leads through a table in which a
-- dotted key of the section sets a value.
def Clear (number : Nat) (part : Section) : Prop :=
  ∀ inner ∈ numbered number (part.entries.sections []), inner.1 < number →
    shows inner.2.isElement inner.2.style inner.2.entries = true →
    ∀ line ∈ part.entries.fields [], line.parents ≠ [] →
      ¬ line.parents.map (·.name) <+: inner.2.path.map (·.name)

instance (number : Nat) (part : Section) : Decidable (part.Clear number) :=
  inferInstanceAs (Decidable (∀ inner ∈ numbered number (part.entries.sections []), _))

end Section

def Document.Orderly (document : Document) : Prop :=
  ∀ part ∈ Section.numbered 0 (document.root.sections []), part.2.Clear part.1

instance (document : Document) : Decidable document.Orderly :=
  inferInstanceAs (Decidable (∀ part ∈ Section.numbered 0 (document.root.sections []), _))

end Reroot
