import Reroot.Document.Entry

set_option autoImplicit false

namespace Reroot

namespace Entry

def hasPath (entry : Entry) : Bool := entry.node.path?.isSome

def path? (entry : Entry) : Option String := entry.node.path?.bind Node.string?

def Outermost (all : List Entry) (entry : Entry) : Prop :=
  entry.hasPath = true ∧ ∀ outer ∈ all, outer.hasPath = true → outer.place <+: entry.place →
    outer.place = entry.place

instance (all : List Entry) : DecidablePred (Outermost all) :=
  fun entry => inferInstanceAs (Decidable (entry.hasPath = true ∧ ∀ outer ∈ all, _))

def outermost (all : List Entry) : List Entry := all.filter (Outermost all)

end Entry

def Document.pathDependencies (document : Document) : List Entry := Entry.outermost document.entries

def Node.OnlyPath (base : String) (node : Node) : Prop :=
  ∃ own path, node.entries? = some own ∧ own.names = ["path"] ∧
    own.get? "path" = some (.ofString (base ++ "/" ++ path))

end Reroot
