import Reroot.Document.Printer
import Reroot.Manifest.Fragment
import Reroot.Text.Gap

set_option autoImplicit false

namespace Reroot

open Text

namespace Fragment

-- No value leaves a comment open behind it. Between braces it would run on over what comes next.
def Uncommented (entries : Entries) : Prop :=
  ∀ entry ∈ entries.toList, IsGap (entry.2.margin.after.getD [])

-- No line ends beside an equals sign. The keys of the section itself are made anew, with nothing
-- around them.
def Straight (entries : Entries) : Prop :=
  ∀ line ∈ entries.fields [], IsBlanks (line.value.margin.before.getD []) ∧
    (line.parents ≠ [] → IsBlanks (line.key.outer.after.getD []))

instance (entries : Entries) : Decidable (Uncommented entries) :=
  inferInstanceAs (Decidable (∀ entry ∈ entries.toList, _))
instance (entries : Entries) : Decidable (Straight entries) :=
  inferInstanceAs (Decidable (∀ line ∈ entries.fields [], _))

def Fits (place node : Node) : Prop :=
  match place, node with
  | .inline _ _, .table _ entries => Uncommented entries
  | .table _ _, .inline _ entries => Straight entries
  | _, _ => True

instance (place node : Node) : Decidable (Fits place node) := by
  unfold Fits
  split <;> infer_instance

-- A comment that is left open between the braces of a section runs on to the end of its line, and
-- that is also the end of the section.
def OneLine : Node → Prop
  | .inline style entries => Uncommented entries ∨ '\n' ∉ (Node.inline style entries).text
  | .scalar _ _ | .array _ _ | .table _ _ | .tables _ => True

instance (node : Node) : Decidable (OneLine node) := by
  unfold OneLine
  split <;> infer_instance

end Fragment

def Document.Admits (document fragment : Document) : Prop :=
  ∀ entry ∈ fragment.root.toList, Fragment.Fits
    ((document.root.get? entry.1.name).getD (Fragment.emptySection entry.2)) entry.2

instance (document fragment : Document) : Decidable (document.Admits fragment) :=
  inferInstanceAs (Decidable (∀ entry ∈ fragment.root.toList, _))

def Document.OneLine (document : Document) : Prop :=
  ∀ entry ∈ document.root.toList, Fragment.OneLine entry.2

instance (document : Document) : Decidable document.OneLine :=
  inferInstanceAs (Decidable (∀ entry ∈ document.root.toList, _))

end Reroot
