/-! References to one output of a node in a flat node table, ordered by node and then by output. -/

namespace SoundGraph

structure OutputRef where
  node : Nat
  output : Nat
  deriving DecidableEq, Hashable

namespace OutputRef

/-- Lexicographic order: the node first. -/
instance : LE OutputRef := ⟨fun a b => a.node < b.node ∨ (a.node = b.node ∧ a.output ≤ b.output)⟩

instance (a b : OutputRef) : Decidable (a ≤ b) :=
  inferInstanceAs (Decidable (a.node < b.node ∨ (a.node = b.node ∧ a.output ≤ b.output)))

def sort (refs : List OutputRef) : List OutputRef := refs.mergeSort (· ≤ ·)

def text (r : OutputRef) : String := s!"node[{r.node}].out[{r.output}]"

end OutputRef

end SoundGraph
