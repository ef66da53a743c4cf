import SoundGraph.Catalog
import SoundGraph.Wire.Encode

/-! Reading definitions. Nothing in the bytes is trusted: counts are checked against the bytes that
remain, tags against their sets, and every graph is validated. Without the early check of counts
(`guarded := false`) the reader would accept the same files, only notice some bad ones later.

The format is read by a few actions on the file, whatever they do besides; the decoder runs them on the
unread bytes. -/

namespace SoundGraph.Wire

/-- The actions on a file that its readers are made of. -/
class Reader (m : Type → Type) where
  take (n : Nat) : m (List UInt8)
  offset : m Nat
  /-- The offset of the last byte read. -/
  previous : m Nat
  remaining : m Nat
  failAt {α : Type} (offset : Nat) (kind : CorruptionKind) : m α
  /-- Makes room for the entries of a table. -/
  reserve (table : Table) (capacity : Nat) : m Unit

export Reader (take offset previous remaining failAt reserve)

section

variable {m : Type → Type} [Monad m] {α : Type}

/-- Reads `n` entries one after the other, after those in `acc`. -/
@[specialize] def repeatRead (read : m α) (acc : List α) : Nat → m (List α)
  | 0 => return acc.reverse
  | n + 1 => do
    let a ← read
    repeatRead read (a :: acc) n

variable [Reader m]

def word (width : Nat) : m Nat := return ofBigEndian (← take width)

def byte : m UInt8 := return UInt8.ofNat (← word 1)

/-- A count of entries of at least `size` bytes each. -/
def decodeCount (guarded : Bool) (size : Nat) : m Nat := do
  let count ← word 4
  if guarded ∧ (← remaining) < count * size then
    failAt (← offset) (.truncated (count * size) (← remaining))
  else return count

def decodeTable (guarded : Bool) (table : Table) (size : Nat) (entry : m α) : m (List α) := do
  let count ← decodeCount guarded size
  reserve table count
  repeatRead entry [] count

def decodeName : m String := do
  let length ← word 1
  let start ← offset
  let bytes ← take length
  match String.fromUTF8? ⟨bytes.toArray⟩ with
  | some name => return name
  | none => failAt start .invalidUtf8

def decodeSample : m Sample := return ⟨UInt32.ofNat (← word 4)⟩

def decodeRate : m Rate := do
  let tag ← byte
  match Rate.ofTag? tag.toNat with
  | some rate => return rate
  | none => failAt (← previous) (.unknownRate tag)

def decodeInput : m Input := do
  let tag ← byte
  if tag = constantTag then
    return .constant (← word 4)
  else if tag = nodeTag then
    let node ← word 4
    let output ← word 4
    return .node ⟨node, output⟩
  else failAt (← previous) (.unknownInputTag tag)

def decodeControl : m Control := do
  let name ← decodeName
  let rate ← decodeRate
  let default ← decodeSample
  let index ← word 4
  return { name, rate, default, index }

/-- The two flags of a node; no other bit may be set. -/
def decodeFlags : m (Bool × Bool) := do
  let flags ← byte
  if flags.toNat < 4 then return (flags.toNat % 2 = 1, flags.toNat / 2 = 1)
  else failAt (← previous) (.reservedFlags flags)

def decodeNode (guarded : Bool) : m Node := do
  let name ← decodeName
  let rate ← decodeRate
  let inputs ← decodeTable guarded .inputs 5 decodeInput
  let outputs ← decodeTable guarded .outputs 1 decodeRate
  let (sideEffect, doneFlag) ← decodeFlags
  return { name, rate, inputs, outputs := outputs.toArray, sideEffect, doneFlag }

/-- Reads a graph without a look at its references. -/
def decodeTables (guarded : Bool) : m Graph := do
  let constants ← decodeTable guarded .constants 4 decodeSample
  let controls ← decodeTable guarded .controls 10 decodeControl
  let nodes ← decodeTable guarded .nodes 11 (decodeNode guarded)
  return { constants := constants.toArray, controls := controls.toArray, nodes := nodes.toArray }

def checkGraph (start : Nat) (graph : Graph) : m Graph :=
  match graph.validate with
  | .ok () => return graph
  | .error v => failAt start (.invalid v)

def decodeGraph (guarded : Bool) : m Graph := do
  let start ← offset
  checkGraph start (← decodeTables guarded)

def decodeDefinition (guarded : Bool) : m Definition := do
  let name ← decodeName
  let graph ← decodeGraph guarded
  return { name, graph }

def decodeHeader : m Unit := do
  let found ← take 4
  if found ≠ magic then failAt 0 (.badMagic found)
  let found ← word 4
  if found ≠ version then failAt 4 (.unsupportedVersion (signed32 found))

/-- The number of definitions is not checked; the bytes that remain bound the room made for them. -/
def decodeBody (guarded : Bool) : m (List Definition) := do
  decodeHeader
  let count ← word 2
  reserve .definitions (min count (← remaining))
  repeatRead (decodeDefinition guarded) [] count

/-- Nothing may follow the last definition. -/
def decodeEnd : m Unit := do
  if 0 < (← remaining) then failAt (← offset) (.trailingBytes (← remaining))

def decodeFile (guarded : Bool) : m (List Definition) := do
  let definitions ← decodeBody guarded
  decodeEnd
  return definitions

end

/-- The unread bytes and where they start. -/
structure Cursor where
  offset : Nat
  rest : List UInt8
  left : Nat
  left_eq : left = rest.length

def Cursor.ofBytes (bytes : List UInt8) : Cursor := ⟨0, bytes, bytes.length, rfl⟩

abbrev Read := StateT Cursor (Except Corruption)

instance : Reader Read where
  take n c :=
    if n ≤ c.left then
      .ok (c.rest.take n,
        ⟨c.offset + n, c.rest.drop n, c.left - n, by rw [c.left_eq, List.length_drop]⟩)
    else .error ⟨c.offset, .truncated n c.left⟩
  offset c := .ok (c.offset, c)
  previous c := .ok (c.offset - 1, c)
  remaining c := .ok (c.left, c)
  failAt offset kind _ := .error ⟨offset, kind⟩
  reserve _ _ c := .ok ((), c)

/-- The definitions of a file, whatever their generators are called. -/
def readDefinitions (guarded : Bool) (bytes : List UInt8) : Except Corruption (List Definition) :=
  (decodeFile guarded : Read (List Definition)).run' (.ofBytes bytes)

def checkName (catalog : Catalog) (definition : String) (node : Node × Nat) :
    Except WireError Unit :=
  if catalog.contains node.1.name then .ok ()
  else .error (.unknownGenerator definition node.2 node.1.name)

/-- Every node name is in the catalog. -/
def checkNames (catalog : Catalog) (ds : List Definition) : Except WireError Unit :=
  ds.forM fun d => d.graph.nodes.toList.zipIdx.forM (checkName catalog d.name)

/-- A decoder; with a catalog it accepts only the generators in it. -/
structure Decoder where
  catalog : Option Catalog := none

namespace Decoder

def decodeAll (decoder : Decoder) (bytes : List UInt8) : Except WireError (List Definition) := do
  let ds ← (readDefinitions true bytes).mapError .corrupt
  match decoder.catalog with
  | some catalog => checkNames catalog ds
  | none => pure ()
  return ds

/-- The only definition of a file. -/
def decode (decoder : Decoder) (bytes : List UInt8) : Except WireError Definition := do
  match ← decoder.decodeAll bytes with
  | [d] => return d
  | ds => throw (.corrupt ⟨8, .definitionCount ds.length⟩)

end Decoder

/-- All definitions of a file, any generator accepted. -/
def decodeAll (bytes : List UInt8) : Except WireError (List Definition) :=
  ({} : Decoder).decodeAll bytes

def decode (bytes : List UInt8) : Except WireError Definition := ({} : Decoder).decode bytes

end SoundGraph.Wire
