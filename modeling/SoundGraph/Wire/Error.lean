import SoundGraph.Graph

/-! What can go wrong with the binary format: definitions that it cannot hold, and bytes that are no
file of it. A corruption names the byte at which it was found. -/

namespace SoundGraph.Wire

/-- The tables whose length is written in a count field. -/
inductive Table where
  | definitions | constants | controls | nodes | inputs | outputs
  deriving DecidableEq

def Table.name : Table → String
  | definitions => "definitions"
  | constants => "constants"
  | controls => "controls"
  | nodes => "nodes"
  | inputs => "inputs"
  | outputs => "outputs"

inductive CorruptionKind where
  | badMagic (found : List UInt8)
  | unsupportedVersion (version : Int)
  | truncated (needed available : Nat)
  | unknownRate (tag : UInt8)
  | unknownInputTag (tag : UInt8)
  | reservedFlags (flags : UInt8)
  | invalidUtf8
  | trailingBytes (count : Nat)
  | definitionCount (count : Nat)
  | invalid (violation : Violation)
  deriving DecidableEq

structure Corruption where
  offset : Nat
  kind : CorruptionKind
  deriving DecidableEq

inductive WireError where
  | nameTooLong (name : String) (length : Nat)
  | tooMany (table : Table) (count max : Nat)
  | invalidGraph (definition : String) (violation : Violation)
  | corrupt (corruption : Corruption)
  | unknownGenerator (definition : String) (node : Nat) (name : String)
  deriving DecidableEq

/-- A byte in hexadecimal, at least two digits. -/
def hexByte (b : UInt8) : String :=
  let digits := Nat.toDigits 16 b.toNat
  "0x" ++ String.ofList (List.replicate (2 - digits.length) '0' ++ digits)

def CorruptionKind.message : CorruptionKind → String
  | badMagic found =>
    let bytes := ", ".intercalate (found.map fun b => toString b.toNat)
    s!"bad magic [{bytes}]"
  | unsupportedVersion version => s!"unsupported format version {version}"
  | truncated needed available =>
    s!"truncated: needed {needed} more bytes, {available} available"
  | unknownRate tag => s!"unknown rate tag {tag.toNat}"
  | unknownInputTag tag => s!"unknown input tag {hexByte tag}"
  | reservedFlags flags => s!"reserved flag bits set in {hexByte flags}"
  | invalidUtf8 => "name is not valid UTF-8"
  | trailingBytes count => s!"{count} trailing bytes"
  | definitionCount count => s!"expected exactly one definition, found {count}"
  | invalid violation => violation.message

def WireError.message : WireError → String
  | nameTooLong name length => s!"name '{name}' is {length} bytes long, the limit is 255"
  | tooMany table count max => s!"too many {table.name}: {count} (at most {max})"
  | invalidGraph definition violation => s!"definition '{definition}': {violation.message}"
  | corrupt c => s!"corrupt encoding at byte {c.offset}: {c.kind.message}"
  | unknownGenerator definition node name =>
    s!"definition '{definition}': node {node} uses unknown unit generator '{name}'"

end SoundGraph.Wire
