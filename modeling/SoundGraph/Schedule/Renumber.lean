import SoundGraph.Expansion

/-! Renumbering. Sorted nodes get their positions as numbers, and the constants they read get new slots
in the order of first use; a constant that no sorted node reads is left out. -/

namespace SoundGraph

/-- The constants met so far. -/
structure FirstUse where
  /-- The new slot of each old one that was met. -/
  slots : Array (Option Nat)
  pool : Array Sample

namespace FirstUse

def empty (count : Nat) : FirstUse := ⟨Array.replicate count none, #[]⟩

/-- The new slot of old constant `c`. -/
def slot (constants : Array Sample) (c : Nat) (u : FirstUse) : Except Fault (Nat × FirstUse) :=
  if h : c < u.slots.size then
    match u.slots[c], constants[c]? with
    | some k, _ => .ok (k, u)
    | none, some v => .ok (u.pool.size, ⟨u.slots.set c (some u.pool.size), u.pool.push v⟩)
    | none, none => .error (.constant c)
  else .error (.constant c)

end FirstUse

/-- The position of each sorted node. -/
def positions (count : Nat) (sorted : Array Nat) : Array Nat :=
  sorted.toList.zipIdx.foldl (fun p (i, k) => p.setIfInBounds i k) (Array.replicate count 0)

def renumberInput (position : Array Nat) (constants : Array Sample) :
    Input → StateT FirstUse (Except Fault) Input
  | .constant c => do
    let k ← FirstUse.slot constants c
    return .constant k
  | .node source =>
    match position[source.node]? with
    | some p => return .node ⟨p, source.output⟩
    | none => throw (.position source.node)

def renumberNode (position : Array Nat) (constants : Array Sample) (node : EmittedNode) :
    StateT FirstUse (Except Fault) EmittedNode := do
  let inputs ← node.inputs.mapM (renumberInput position constants)
  return { node with inputs }

/-- The node that stands at index `i` of the kept ones. -/
def survivor (kept : Array (Option EmittedNode)) (i : Nat) : Except Fault EmittedNode :=
  match kept[i]? with
  | some (some node) => .ok node
  | _ => .error (.survivor i)

def renumber (kept : Array (Option EmittedNode)) (constants : Array Sample) (sorted : Array Nat) :
    Except Fault (List EmittedNode × Array Sample) := do
  let nodes ← sorted.toList.mapM (survivor kept)
  let position := positions kept.size sorted
  let (nodes, uses) ← (nodes.mapM (renumberNode position constants)).run
    (.empty constants.size)
  return (nodes, uses.pool)

end SoundGraph
