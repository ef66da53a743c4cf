import SoundGraph.Wire.Error
import SoundGraph.Wire.Word

/-! Writing definitions. A file is the magic, the version, a two-byte count and the definitions; tables
inside a definition have a four-byte count, names a one-byte length. A graph is checked before any of it
is written, so a file only holds graphs whose references resolve. -/

namespace SoundGraph.Wire

def magic : List UInt8 := [0x53, 0x43, 0x67, 0x66]

def version : Nat := 2

abbrev Encoded := Except WireError (List UInt8)

def constantTag : UInt8 := 0

def nodeTag : UInt8 := 1

def encodeCount (table : Table) (width count : Nat) : Encoded :=
  if count < span width then .ok (bigEndian width count)
  else .error (.tooMany table count (span width - 1))

def encodeName (name : String) : Encoded :=
  let bytes := name.toUTF8.toList
  if bytes.length < 256 then .ok (UInt8.ofNat bytes.length :: bytes)
  else .error (.nameTooLong name bytes.length)

def encodeSample (v : Sample) : List UInt8 := bigEndian 4 v.bits.toNat

def encodeRate (r : Rate) : UInt8 := UInt8.ofNat r.tag

def encodeInput : Input → List UInt8
  | .constant index => constantTag :: bigEndian 4 index
  | .node source => nodeTag :: (bigEndian 4 source.node ++ bigEndian 4 source.output)

def encodeFlags (n : Node) : UInt8 :=
  (if n.sideEffect then 1 else 0) + (if n.doneFlag then 2 else 0)

/-- A table: its count, then its entries. -/
def encodeTable {α : Type} (table : Table) (entry : α → Encoded) (entries : List α) : Encoded := do
  let count ← encodeCount table 4 entries.length
  let bytes ← entries.mapM entry
  return count ++ bytes.flatten

def encodeControl (c : Control) : Encoded := do
  let name ← encodeName c.name
  return name ++ encodeRate c.rate :: (encodeSample c.default ++ bigEndian 4 c.index)

def encodeNode (n : Node) : Encoded := do
  let name ← encodeName n.name
  let inputs ← encodeTable .inputs (fun i => .ok (encodeInput i)) n.inputs
  let outputs ← encodeTable .outputs (fun r => .ok [encodeRate r]) n.outputs.toList
  return name ++ encodeRate n.rate :: (inputs ++ outputs ++ [encodeFlags n])

def encodeGraph (g : Graph) : Encoded := do
  let constants ← encodeTable .constants (fun v => .ok (encodeSample v)) g.constants.toList
  let controls ← encodeTable .controls encodeControl g.controls.toList
  let nodes ← encodeTable .nodes encodeNode g.nodes.toList
  return constants ++ controls ++ nodes

def encodeDefinition (d : Definition) : Encoded := do
  d.graph.validate.mapError (.invalidGraph d.name)
  let name ← encodeName d.name
  let graph ← encodeGraph d.graph
  return name ++ graph

/-- Several definitions as one file. -/
def encodeAll (ds : List Definition) : Encoded := do
  let count ← encodeCount .definitions 2 ds.length
  let bytes ← ds.mapM encodeDefinition
  return magic ++ bigEndian 4 version ++ count ++ bytes.flatten

/-- One definition as a file. -/
def encode (d : Definition) : Encoded := encodeAll [d]

end SoundGraph.Wire
