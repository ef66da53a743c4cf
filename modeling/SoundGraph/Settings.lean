import SoundGraph.Catalog
import SoundGraph.Compile
import SoundGraph.Wire.Decode

/-! Settings of the compiler and the codec, with entries for user-defined unit generators. Settings are
checked as a whole: the node limit first, then entry by entry a repeated name before the entry's own
inconsistency. Registration takes all entries or none. -/

namespace SoundGraph

/-- A rate as an entry names it. -/
inductive RateWord where
  | rate (r : Rate)
  /-- The rate of the primary input. -/
  | maybe
  deriving DecidableEq

/-- A user-defined unit generator. -/
structure Entry where
  name : String
  rate : RateWord
  primary : Option Nat := none
  rates : List RateWord := []
  sideEffect : Bool := false
  individual : Bool := false
  doneFlag : Bool := false
  outputs : OutputShape := .fixed 1
  inputs : List InputDecl := []
  deriving DecidableEq

structure Settings where
  maxNodes : Nat := defaultNodeLimit
  validateNames : Bool := true
  entries : List Entry := []
  deriving DecidableEq

/-- What can be inconsistent in an entry. -/
inductive EntryFlaw where
  | primaryOfFixed
  | maybeAmongRates
  | descriptor (flaw : DescriptorFlaw)
  /-- The catalog refused the descriptor. -/
  | refused (error : CompileError)
  deriving DecidableEq

def EntryFlaw.message : EntryFlaw → String
  | primaryOfFixed => "'primary' is only allowed with rate = \"maybe\""
  | maybeAmongRates => "'maybe' is not an instance rate"
  | descriptor flaw => flaw.message
  | refused error => error.message

inductive SettingsError where
  | fileNotRead (path : String)
  | fileNotWritten (path : String)
  | folderNotMade (path : String)
  /-- The text is no settings document. -/
  | notSettings
  /-- A number is too large for the format. -/
  | numberTooLarge
  | invalidSetting (key reason : String)
  | invalidEntry (name : String) (flaw : EntryFlaw)
  | duplicateEntry (name : String)
  deriving DecidableEq

def SettingsError.message : SettingsError → String
  | fileNotRead path => s!"failed to read file '{path}'"
  | fileNotWritten path => s!"failed to write file '{path}'"
  | folderNotMade path => s!"failed to create directory '{path}'"
  | notSettings => "failed to parse TOML"
  | numberTooLarge => "failed to serialize TOML"
  | invalidSetting key reason => s!"invalid setting '{key}': {reason}"
  | invalidEntry name flaw => s!"invalid unit generator '{name}': {flaw.message}"
  | duplicateEntry name => s!"duplicate unit generator: {name}"

namespace Entry

def rule (e : Entry) : Except EntryFlaw RateRule :=
  match e.rate, e.primary with
  | .rate r, none => .ok (.fixed r)
  | .rate _, some _ => .error .primaryOfFixed
  | .maybe, primary => .ok (.follow (primary.getD 0))

def instanceRate : RateWord → Except EntryFlaw Rate
  | .rate r => .ok r
  | .maybe => .error .maybeAmongRates

/-- The descriptor that the entry describes, if it is consistent. -/
def describe (e : Entry) : Except EntryFlaw Descriptor := do
  let rate ← e.rule
  let rates ← e.rates.mapM instanceRate
  let d : Descriptor :=
    { name := e.name
      rate, rates
      inputs := e.inputs
      outputs := e.outputs
      flags := { individual := e.individual, sideEffect := e.sideEffect, doneFlag := e.doneFlag } }
  d.check.mapError .descriptor
  return d

def toDescriptor (e : Entry) : Except SettingsError Descriptor :=
  e.describe.mapError (.invalidEntry e.name)

end Entry

namespace Settings

/-- The descriptors of the entries in order; `seen` are the names before them. -/
def entryDescriptors (seen : List String) : List Entry → Except SettingsError (List Descriptor)
  | [] => .ok []
  | e :: es =>
    if seen.contains e.name then .error (.duplicateEntry e.name)
    else do
      let d ← e.toDescriptor
      let ds ← entryDescriptors (e.name :: seen) es
      return d :: ds

def descriptors (s : Settings) : Except SettingsError (List Descriptor) :=
  if s.maxNodes = 0 then .error (.invalidSetting "compiler.max_nodes" "must be at least 1")
  else entryDescriptors [] s.entries

def validate (s : Settings) : Except SettingsError Unit := discard s.descriptors

/-- The node limit of a compilation under these settings. -/
def nodeLimit (s : Settings) : Nat := s.maxNodes

/-- A decoder that checks names against the catalog if the settings ask for it. -/
def decoder (s : Settings) (catalog : Catalog) : Wire.Decoder :=
  { catalog := if s.validateNames then some catalog else none }

/-- Registers descriptors one by one up to the first that the catalog refuses. -/
def registerEach (catalog : Catalog) : List Descriptor → Except SettingsError Unit × Catalog
  | [] => (.ok (), catalog)
  | d :: ds =>
    match catalog.register { descriptor := d } with
    | .ok (_, catalog) => registerEach catalog ds
    | .error (.duplicate name) => (.error (.duplicateEntry name), catalog)
    | .error (.invalid e) => (.error (.invalidEntry d.name (.refused e)), catalog)

/-- Registers every entry, or none: the outcome and the catalog after it. -/
def register (s : Settings) (catalog : Catalog) :
    Except SettingsError (List Descriptor) × Catalog :=
  match s.descriptors with
  | .error e => (.error e, catalog)
  | .ok ds =>
    match ds.find? fun d => catalog.contains d.name with
    | some taken => (.error (.duplicateEntry taken.name), catalog)
    | none =>
      match registerEach catalog ds with
      | (.ok (), catalog) => (.ok ds, catalog)
      | (.error e, catalog) => (.error e, catalog)

end Settings

end SoundGraph
