import SoundGraph.Descriptor
import SoundGraph.Element

/-! The reasons for which a sketch or its compilation is rejected, and their wording. -/

namespace SoundGraph

inductive CompileError where
  | arityMismatch (name : String) (expected found : Nat)
  | rateMismatch (name input : String) (required actual : Rate)
  | unsupportedRate (name : String) (rate : Rate)
  /-- The primary input of a rate-following descriptor carries no signal. -/
  | unresolvedRate (name : String)
  | cyclic (name : String)
  /-- A signal without channels reached a single-channel input. -/
  | emptyInput (name input : String)
  | emptyBundle
  | duplicateControl (name : String)
  | invalidReference (source : OutputRef)
  | unknownPending (id : Nat)
  | alreadyDefined (name : String) (id : Nat)
  /-- Declared, but never given its arguments. -/
  | undefined (name : String) (id : Nat)
  | tooManyNodes (limit : Nat)
  | invalidDescriptor (name : String) (flaw : DescriptorFlaw)
  deriving DecidableEq

def CompileError.message : CompileError → String
  | arityMismatch name expected found => s!"'{name}' expects {expected} arguments, got {found}"
  | rateMismatch name input required actual =>
    s!"input '{input}' of '{name}' requires {required.name} rate, got {actual.name}"
  | unsupportedRate name rate => s!"'{name}' cannot run at {rate.name} rate"
  | unresolvedRate name =>
    s!"cannot resolve the rate of '{name}': its primary input carries no signal"
  | cyclic name => s!"cycle detected through '{name}'"
  | emptyInput name input => s!"input '{input}' of '{name}' receives a signal with no channels"
  | emptyBundle => "multichannel value has no channels"
  | duplicateControl name => s!"control '{name}' already exists"
  | invalidReference source =>
    s!"reference {source.text} does not name an existing node output"
  | unknownPending id => s!"{pendingText id} is not known to this builder"
  | alreadyDefined name id => s!"'{name}' ({pendingText id}) is already defined"
  | undefined name id => s!"'{name}' ({pendingText id}) was declared but never defined"
  | tooManyNodes limit => s!"expansion exceeds the limit of {limit} nodes"
  | invalidDescriptor name flaw => s!"invalid descriptor '{name}': {flaw.message}"

/-- The descriptor's own consistency as an error of the compiler. -/
def Descriptor.validate (d : Descriptor) : Except CompileError Unit :=
  d.check.mapError (.invalidDescriptor d.name)

end SoundGraph
