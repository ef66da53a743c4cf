import SoundGraph.Script
import SoundGraph.Text.Standalone

/-! The structured one-line text of a unit generator: every field by name, strings quoted. A quoted
string gives characters that do not stand alone by their codes. -/

namespace SoundGraph

namespace Describe

def hexDigits (n : Nat) : List Char := Nat.toDigits 16 n

/-- A character inside a quoted string. -/
def escape (c : Char) : List Char :=
  match c with
  | '"' => ['\\', '"']
  | '\\' => ['\\', '\\']
  | '\n' => ['\\', 'n']
  | '\t' => ['\\', 't']
  | '\r' => ['\\', 'r']
  | '\x00' => ['\\', '0']
  | c =>
    if Text.standsAlone c then [c] else "\\u\x7b".toList ++ hexDigits c.toNat ++ "\x7d".toList

def quoted (s : String) : String :=
  "\"" ++ String.ofList (s.toList.flatMap escape) ++ "\""

/-- A record: its type and its fields. -/
def record (type : String) (fields : List (String × String)) : String :=
  type ++ " \x7b " ++ ", ".intercalate (fields.map fun (name, value) => name ++ ": " ++ value) ++ " \x7d"

def list (items : List String) : String := "[" ++ ", ".intercalate items ++ "]"

def bool (b : Bool) : String := if b then "true" else "false"

def rate : Rate → String
  | .scalar => "Scalar"
  | .control => "Control"
  | .audio => "Audio"
  | .demand => "Demand"

def rule : RateRule → String
  | .fixed r => s!"Fixed({rate r})"
  | .follow primary => record "Maybe" [("primary", toString primary)]

def requirement : Requirement → String
  | .any => "Any"
  | .matchAudio => "MatchAudio"
  | .exactly r => s!"Exactly({rate r})"

def input (i : InputDecl) : String :=
  record "InputSpec"
    [("name", quoted i.name), ("rate", requirement i.requirement), ("variadic", bool i.variadic)]

def outputs : OutputShape → String
  | .fixed count => s!"Fixed({count})"
  | .perChannel input => s!"PerChannel({input})"
  | .zero => "Zero"

def flags (f : Flags) : String :=
  record "UGenFlags"
    [("individual", bool f.individual), ("side_effect", bool f.sideEffect),
      ("done_flag", bool f.doneFlag)]

end Describe

def Generator.describe (g : Generator) : String :=
  let d := g.descriptor
  Describe.record "UGenSpec"
    [("name", Describe.quoted d.name), ("rate", Describe.rule d.rate),
      ("rates", Describe.list (d.rates.map Describe.rate)),
      ("inputs", Describe.list (d.inputs.map Describe.input)),
      ("outputs", Describe.outputs d.outputs), ("flags", Describe.flags d.flags),
      ("custom_expand", Describe.bool g.hook.isSome)]

end SoundGraph
