import SoundGraph.Settings
import SoundGraph.Toml.Codec

/-! Settings as TOML. Reading ignores unknown keys and fills in what is missing; a record may also be
given as an array of its fields in order. Writing names every field, apart from an absent primary input
and empty lists of rates or entries. The text itself is a matter of the codec. -/

namespace SoundGraph

open Toml (Value Table)

namespace Settings

/-- The fields of a record: by key, or by place in an array. A date is a record without fields. -/
def record (names : List String) : Value → Option Table
  | .table entries => some entries
  | .array items => some (names.zip items)
  | .date _ => some []
  | _ => none

def readString : Value → Option String
  | .string s => some s
  | _ => none

def readBool : Value → Option Bool
  | .boolean b => some b
  | _ => none

def readNat : Value → Option Nat
  | .integer (.ofNat n) => some n
  | _ => none

def readList {α : Type} (item : Value → Option α) : Value → Option (List α)
  | .array items => items.mapM item
  | _ => none

def isEmptyGroup : Value → Bool
  | .table entries => entries.isEmpty
  | .array items => items.isEmpty
  | _ => false

/-- A word of a fixed set: a string, or a table with the word as its only key and nothing in it. -/
def readWord {α : Type} (word? : String → Option α) : Value → Option α
  | .string s => word? s
  | .table [(key, v)] => if isEmptyGroup v then word? key else none
  | _ => none

/-- A field that may be missing. -/
def optional {α : Type} (table : Table) (key : String) (read : Value → Option α) (default : α) :
    Option α :=
  match Toml.get? table key with
  | some v => read v
  | none => some default

def required {α : Type} (table : Table) (key : String) (read : Value → Option α) : Option α := do
  read (← Toml.get? table key)

def rateWord? (s : String) : Option RateWord :=
  if s = "maybe" then some .maybe else (Rate.ofName? s).map .rate

def requirement? (s : String) : Option Requirement :=
  if s = "any" then some .any
  else if s = "match_audio" then some .matchAudio
  else (Rate.ofName? s).map .exactly

/-- A count, the word `zero`, or a table that names the input whose channels count. -/
def readOutputs : Value → Option OutputShape
  | .integer (.ofNat n) => if n < 0x100000000 then some (.fixed n) else none
  | .string s => if s = "zero" then some .zero else none
  | .table entries => return .perChannel (← required entries "per_channel" readNat)
  | _ => none

def readInput (v : Value) : Option InputDecl := do
  let t ← record ["name", "rate", "variadic"] v
  return {
    name := ← required t "name" readString
    requirement := ← optional t "rate" (readWord requirement?) .any
    variadic := ← optional t "variadic" readBool false }

def entryFields : List String :=
  ["name", "rate", "primary", "rates", "side_effect", "individual", "done_flag", "outputs", "inputs"]

def readEntry (v : Value) : Option Entry := do
  let t ← record entryFields v
  return {
    name := ← required t "name" readString
    rate := ← required t "rate" (readWord rateWord?)
    primary := ← optional t "primary" (fun v => some <$> readNat v) none
    rates := ← optional t "rates" (readList (readWord rateWord?)) []
    sideEffect := ← optional t "side_effect" readBool false
    individual := ← optional t "individual" readBool false
    doneFlag := ← optional t "done_flag" readBool false
    outputs := ← optional t "outputs" readOutputs (.fixed 1)
    inputs := ← optional t "inputs" (readList readInput) [] }

def readMaxNodes (v : Value) : Option Nat := do
  optional (← record ["max_nodes"] v) "max_nodes" readNat defaultNodeLimit

def readValidateNames (v : Value) : Option Bool := do
  optional (← record ["validate_names"] v) "validate_names" readBool true

def ofTable (t : Table) : Option Settings := do
  return {
    maxNodes := ← optional t "compiler" readMaxNodes defaultNodeLimit
    validateNames := ← optional t "codec" readValidateNames true
    entries := ← optional t "ugens" (readList readEntry) [] }

/-- The settings in a text, if they are consistent. -/
def parse (text : String) (codec : Toml.Codec := Toml.pretty) : Except SettingsError Settings :=
  match codec.parse text >>= ofTable with
  | none => .error .notSettings
  | some s => do
    s.validate
    return s

def rateWordText : RateWord → String
  | .rate r => r.name
  | .maybe => "maybe"

def requirementText : Requirement → String
  | .any => "any"
  | .matchAudio => "match_audio"
  | .exactly r => r.name

def writeOutputs : OutputShape → Value
  | .fixed count => .integer count
  | .zero => .string "zero"
  | .perChannel input => .table [("per_channel", .integer input)]

def inputTable (i : InputDecl) : Table :=
  [("name", .string i.name), ("rate", .string (requirementText i.requirement)),
    ("variadic", .boolean i.variadic)]

def writeRates (rates : List RateWord) : Value := .array (rates.map fun r => .string (rateWordText r))

def entryTable (e : Entry) : Table :=
  [("name", .string e.name), ("rate", .string (rateWordText e.rate))] ++
    (e.primary.toList.map fun (p : Nat) => ("primary", Value.integer p)) ++
    (if e.rates.isEmpty then [] else [("rates", writeRates e.rates)]) ++
    [("side_effect", .boolean e.sideEffect), ("individual", .boolean e.individual),
      ("done_flag", .boolean e.doneFlag), ("outputs", writeOutputs e.outputs),
      ("inputs", .array (e.inputs.map fun i => .table (inputTable i)))]

def toTable (s : Settings) : Table :=
  [("compiler", .table [("max_nodes", .integer s.maxNodes)]),
    ("codec", .table [("validate_names", .boolean s.validateNames)])] ++
    (if s.entries.isEmpty then [] else [("ugens", .array (s.entries.map fun e => .table (entryTable e)))])

/-- The text of settings, consistent or not. Nothing but a number keeps a codec from printing them. -/
def render (s : Settings) (codec : Toml.Codec := Toml.pretty) : Except SettingsError String :=
  match codec.print s.toTable with
  | some text => .ok text
  | none => .error .numberTooLarge

end Settings

end SoundGraph
