import SoundGraph.Rate

/-! Descriptors of unit generators: the name, the declared rate, the inputs, the shape of the outputs
and the behavioural flags. `Descriptor.check` accepts exactly the consistent ones and names the first
flaw of the others. -/

namespace SoundGraph

structure Flags where
  /-- Holds state of its own, so an identical twin is not shared. -/
  individual : Bool := false
  /-- Acts outside its outputs: never merged, order kept. -/
  sideEffect : Bool := false
  /-- Reports completion. -/
  doneFlag : Bool := false
  deriving DecidableEq, Hashable

/-- A pure node may stand for every identical one. -/
def Flags.pure (f : Flags) : Bool := !f.sideEffect && !f.individual

structure InputDecl where
  name : String
  requirement : Requirement := .any
  /-- Takes all channels of its argument in one node. -/
  variadic : Bool := false
  deriving DecidableEq

inductive OutputShape where
  | fixed (count : Nat)
  /-- One output for each channel of input `input`. -/
  | perChannel (input : Nat)
  | zero
  deriving DecidableEq

structure Descriptor where
  name : String
  rate : RateRule
  /-- Rates an instance may be asked to run at; none means the declared one only, or any if the
  declared one follows an input. -/
  rates : List Rate := []
  inputs : List InputDecl := []
  outputs : OutputShape := .fixed 1
  flags : Flags := {}
  deriving DecidableEq

/-- What can be inconsistent in a descriptor. -/
inductive DescriptorFlaw where
  | emptyName
  | primaryOutOfRange (primary inputs : Nat)
  | channelsOfSingle (input : String)
  | channelsOfMissing (input : Nat)
  deriving DecidableEq

def DescriptorFlaw.message : DescriptorFlaw → String
  | emptyName => "name is empty"
  | primaryOutOfRange primary inputs => s!"primary input {primary} out of range ({inputs} inputs)"
  | channelsOfSingle input => s!"per-channel outputs follow input '{input}', which is not variadic"
  | channelsOfMissing input => s!"per-channel outputs follow input {input}, which does not exist"

namespace Descriptor

def supports (d : Descriptor) (rate : Rate) : Bool :=
  d.rates.contains rate ||
    match d.rate with
    | .fixed declared => declared = rate
    | .follow _ => d.rates.isEmpty

def checkName (d : Descriptor) : Except DescriptorFlaw Unit :=
  if d.name = "" then .error .emptyName else .ok ()

def checkRate (d : Descriptor) : Except DescriptorFlaw Unit :=
  match d.rate with
  | .fixed _ => .ok ()
  | .follow primary =>
    if primary < d.inputs.length then .ok ()
    else .error (.primaryOutOfRange primary d.inputs.length)

def checkOutputs (d : Descriptor) : Except DescriptorFlaw Unit :=
  match d.outputs with
  | .fixed _ | .zero => .ok ()
  | .perChannel k =>
    match d.inputs[k]? with
    | none => .error (.channelsOfMissing k)
    | some input => if input.variadic then .ok () else .error (.channelsOfSingle input.name)

def check (d : Descriptor) : Except DescriptorFlaw Unit := do
  d.checkName
  d.checkRate
  d.checkOutputs

/-- Outputs of an instance whose arguments have the given numbers of leaves. -/
def outputCount (d : Descriptor) (leafCounts : List Nat) : Nat :=
  match d.outputs with
  | .fixed count => count
  | .perChannel k => leafCounts.getD k 0
  | .zero => 0

end Descriptor

end SoundGraph
