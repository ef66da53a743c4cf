import SoundGraph.Schedule.Merge
import SoundGraph.Schedule.Renumber
import SoundGraph.Schedule.Sort
import SoundGraph.Traversal

/-! Compilation of a sketch: expansion, then merging, sorting and renumbering, then the controls. The
same sketch and limit always give the same graph, and no partial graph is given with an error. -/

namespace SoundGraph

/-- The node limit unless another is asked for. -/
def defaultNodeLimit : Nat := 65536

def EmittedNode.toNode (n : EmittedNode) : Node :=
  { name := n.name
    rate := n.rate
    inputs := n.inputs
    outputs := n.outputs
    sideEffect := n.flags.sideEffect
    doneFlag := n.flags.doneFlag }

/-- Emitted nodes and their constants in final order and numbering. -/
def order (nodes : Array EmittedNode) (constants : Array Sample) :
    Except Abort (List EmittedNode × Array Sample) := do
  let merge ← (Merge.ofNodes nodes.toList).mapError .fault
  let sorted ← sortKept merge.kept
  (renumber merge.kept constants sorted).mapError .fault

namespace Sketch

/-- For each control group the number of controls in the groups before it. -/
def groupOffsets (s : Sketch) : Array Nat :=
  (s.groups.foldl (fun (offsets, next) g => (offsets.push next, next + g.count))
    ((#[], 0) : Array Nat × Nat)).1

def controlRecord (offsets : Array Nat) (c : ControlDecl) : Except Abort Control :=
  match offsets[c.group]? with
  | some offset => .ok { name := c.name, rate := c.rate, default := c.default, index := offset + c.slot }
  | none => .error (.fault (.group c.group))

/-- The control array: group by group, in slot order within a group. -/
def controlPool (s : Sketch) : Except Abort (Array Control) := do
  let records ← s.controls.toList.mapM (controlRecord s.groupOffsets)
  return (records.mergeSort (fun a b => a.index ≤ b.index)).toArray

def compile (s : Sketch) (limit : Nat) : Except Abort Graph :=
  match s.expand limit .empty with
  | .error e _ => .error e
  | .ok _ x => do
    let (nodes, constants) ← order x.nodes x.constants.values
    let controls ← s.controlPool
    return { constants, controls, nodes := (nodes.map EmittedNode.toNode).toArray }

def compileAs (s : Sketch) (name : String) (limit : Nat) : Except Abort Definition := do
  let graph ← s.compile limit
  return { name, graph }

end Sketch

end SoundGraph
