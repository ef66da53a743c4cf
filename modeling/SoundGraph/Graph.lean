import SoundGraph.OutputRef
import SoundGraph.Rate
import SoundGraph.Sample

/-! Compiled graphs: a constants pool, the controls, and a node table in which every input points
strictly backwards. `Graph.validate` checks the table node by node, then the controls, and reports the
first violation in that order. -/

namespace SoundGraph

inductive Input where
  /-- An entry of the constants pool. -/
  | constant (index : Nat)
  | node (source : OutputRef)
  deriving DecidableEq, Hashable

structure Node where
  name : String
  rate : Rate
  inputs : List Input := []
  /-- The rate of each output. -/
  outputs : Array Rate := #[]
  sideEffect : Bool := false
  doneFlag : Bool := false
  deriving DecidableEq

/-- A named parameter; `index` is its place in the flat control array. -/
structure Control where
  name : String
  rate : Rate
  default : Sample
  index : Nat
  deriving DecidableEq

structure Graph where
  constants : Array Sample := #[]
  controls : Array Control := #[]
  nodes : Array Node := #[]
  deriving DecidableEq

structure Definition where
  name : String
  graph : Graph
  deriving DecidableEq

inductive Violation where
  | forwardReference (node target : Nat)
  | outputOutOfRange (node target output available : Nat)
  | constantOutOfRange (node index available : Nat)
  | controlOutOfRange (name : String) (index available : Nat)
  | invalidControlRate (name : String) (rate : Rate)
  | duplicateControlIndex (first second : String) (index : Nat)
  deriving DecidableEq

def Violation.message : Violation → String
  | forwardReference node target =>
    s!"node {node} reads from node {target}, which is not earlier"
  | outputOutOfRange node target output available =>
    s!"node {node} reads output {output} of node {target}, which has {available}"
  | constantOutOfRange node index available =>
    s!"node {node} reads constant {index}, pool has {available}"
  | controlOutOfRange name index available =>
    s!"control '{name}' has index {index}, but there are {available} controls"
  | invalidControlRate name rate => s!"control '{name}' cannot run at {rate.name} rate"
  | duplicateControlIndex first second index =>
    s!"controls '{first}' and '{second}' share index {index}"

/-- The node outputs among the inputs. -/
def Node.sources (n : Node) : List OutputRef :=
  n.inputs.filterMap fun
    | .node source => some source
    | .constant _ => none

namespace Graph

/-- Positions of the nodes with the given name. -/
def findAll (g : Graph) (name : String) : List Nat :=
  g.nodes.toList.zipIdx.filterMap fun (node, i) => if node.name = name then some i else none

def control? (g : Graph) (name : String) : Option Control := g.controls.find? (·.name = name)

def constantValue? (g : Graph) : Input → Option Sample
  | .constant index => g.constants[index]?
  | .node _ => none

def checkInput (g : Graph) (node : Nat) : Input → Except Violation Unit
  | .constant index =>
    if index < g.constants.size then .ok ()
    else .error (.constantOutOfRange node index g.constants.size)
  | .node source =>
    match g.nodes[source.node]? with
    | none => .error (.forwardReference node source.node)
    | some target =>
      if node ≤ source.node then .error (.forwardReference node source.node)
      else if source.output < target.outputs.size then .ok ()
      else .error (.outputOutOfRange node source.node source.output target.outputs.size)

def checkNodes (g : Graph) : Except Violation Unit :=
  g.nodes.toList.zipIdx.forM fun (node, i) => node.inputs.forM (g.checkInput i)

/-- Claims the index of each control in turn; `owners` holds the name of the control that has
claimed an index. -/
def claimIndices (owners : Array (Option String)) : List Control → Except Violation Unit
  | [] => .ok ()
  | c :: cs =>
    if c.rate = .demand then .error (.invalidControlRate c.name c.rate)
    else if h : c.index < owners.size then
      match owners[c.index] with
      | some first => .error (.duplicateControlIndex first c.name c.index)
      | none => claimIndices (owners.set c.index (some c.name)) cs
    else .error (.controlOutOfRange c.name c.index owners.size)

def checkControls (g : Graph) : Except Violation Unit :=
  claimIndices (Array.replicate g.controls.size none) g.controls.toList

def validate (g : Graph) : Except Violation Unit := do
  g.checkNodes
  g.checkControls

def inputText (g : Graph) : Input → String
  | .constant index =>
    match g.constants[index]? with
    | some value => value.text
    | none => s!"const[{index}]"
  | .node source => source.text

def nodeText (g : Graph) (i : Nat) (n : Node) : String :=
  let inputs := ", ".intercalate (n.inputs.map g.inputText)
  s!"[{i}] {n.name} @{n.rate.name} ({inputs}) -> {n.outputs.size} out\n"

/-- One line for each node. -/
def text (g : Graph) : String :=
  String.join (g.nodes.toList.zipIdx.map fun (node, i) => g.nodeText i node)

end Graph

end SoundGraph
