import SoundGraph.Script

/-! Sketches, graphs under construction: pending nodes with their arguments, and named controls in
groups of one rate. A call is checked when it is made, and one that fails changes nothing. Each control
group becomes one node ahead of all others, so a control's place is known at once. -/

namespace SoundGraph

structure PendingNode where
  generator : Generator
  rule : RateRule
  /-- None for a declaration that still waits for its arguments. -/
  args : Option (List Element)

structure ControlDecl where
  name : String
  rate : Rate
  default : Sample
  /-- The group, which is also the number of its node. -/
  group : Nat
  slot : Nat

structure ControlGroup where
  rate : Rate
  count : Nat

structure Sketch where
  pending : Array PendingNode := #[]
  controls : Array ControlDecl := #[]
  /-- In the order in which their rates were first declared. -/
  groups : Array ControlGroup := #[]

mutual
/-- The first fault met reading from the right: a bundle without channels, or a pending number that
is not below `known`. -/
def Element.fault? (known : Nat) : Element → Option CompileError
  | .const _ | .out _ => none
  | .pending id => if id < known then none else some (.unknownPending id)
  | .bundle channels => if channels.isEmpty then some .emptyBundle else faultAmong? known channels

def Element.faultAmong? (known : Nat) : List Element → Option CompileError
  | [] => none
  | e :: es => faultAmong? known es <|> e.fault? known
end

namespace Sketch

def size (s : Sketch) : Nat := s.pending.size

def checkArgs (s : Sketch) (d : Descriptor) (args : List Element) : Except CompileError Unit :=
  if args.length ≠ d.inputs.length then
    .error (.arityMismatch d.name d.inputs.length args.length)
  else match Element.faultAmong? s.size args with
    | some e => .error e
    | none => .ok ()

def checkRate (d : Descriptor) (rate : Rate) : Except CompileError Unit :=
  if d.supports rate then .ok () else .error (.unsupportedRate d.name rate)

/-- Appends a pending node; its handle is the number it gets. -/
def record (s : Sketch) (node : PendingNode) : Element × Sketch :=
  (.pending s.size, { s with pending := s.pending.push node })

def addWith (s : Sketch) (g : Generator) (rule : RateRule) (args : List Element) :
    Except CompileError (Element × Sketch) := do
  s.checkArgs g.descriptor args
  return s.record ⟨g, rule, some args⟩

def add (s : Sketch) (g : Generator) (args : List Element) :
    Except CompileError (Element × Sketch) :=
  s.addWith g g.descriptor.rate args

def addAt (s : Sketch) (g : Generator) (rate : Rate) (args : List Element) :
    Except CompileError (Element × Sketch) := do
  checkRate g.descriptor rate
  s.addWith g (.fixed rate) args

def declare (s : Sketch) (g : Generator) : Element × Sketch :=
  s.record ⟨g, g.descriptor.rate, none⟩

def declareAt (s : Sketch) (g : Generator) (rate : Rate) :
    Except CompileError (Element × Sketch) := do
  checkRate g.descriptor rate
  return s.record ⟨g, .fixed rate, none⟩

/-- Gives a declaration its arguments. -/
def define (s : Sketch) (id : Nat) (args : List Element) : Except CompileError Sketch :=
  if h : id < s.pending.size then
    let node := s.pending[id]
    if node.args.isSome then .error (.alreadyDefined node.generator.name id)
    else do
      s.checkArgs node.generator.descriptor args
      return { s with pending := s.pending.set id { node with args := some args } }
  else .error (.unknownPending id)

/-- The group of the given rate, or the number the next group would get. -/
def groupOf (s : Sketch) (rate : Rate) : Nat := s.groups.findIdx (·.rate = rate)

def groupCount (s : Sketch) (group : Nat) : Nat :=
  match s.groups[group]? with
  | some g => g.count
  | none => 0

/-- Counts one more control in a group, opening it if it is new. -/
def enlargeGroup (groups : Array ControlGroup) (group : Nat) (rate : Rate) : Array ControlGroup :=
  if h : group < groups.size then groups.set group ⟨rate, groups[group].count + 1⟩
  else groups.push ⟨rate, 1⟩

def control (s : Sketch) (name : String) (rate : Rate) (default : Sample) :
    Except CompileError (Element × Sketch) :=
  if rate = .demand then .error (.unsupportedRate name rate)
  else if s.controls.any (·.name = name) then .error (.duplicateControl name)
  else
    let group := s.groupOf rate
    let slot := s.groupCount group
    .ok (.out ⟨group, slot⟩,
      { s with
        controls := s.controls.push { name, rate, default, group, slot }
        groups := enlargeGroup s.groups group rate })

/-- One call on a sketch. -/
inductive Call where
  | add (g : Generator) (args : List Element)
  | addAt (g : Generator) (rate : Rate) (args : List Element)
  | declare (g : Generator)
  | declareAt (g : Generator) (rate : Rate)
  | define (id : Nat) (args : List Element)
  | control (name : String) (rate : Rate) (default : Sample)

/-- What a successful call answers: a handle, or nothing for a definition. -/
abbrev Reply := Option Element

def answer (s : Sketch) : Except CompileError (Element × Sketch) → Except CompileError Reply × Sketch
  | .ok (e, s') => (.ok (some e), s')
  | .error e => (.error e, s)

/-- The outcome of a call and the sketch after it. -/
def perform (s : Sketch) : Call → Except CompileError Reply × Sketch
  | .add g args => s.answer (s.add g args)
  | .addAt g rate args => s.answer (s.addAt g rate args)
  | .declare g => s.answer (.ok (s.declare g))
  | .declareAt g rate => s.answer (s.declareAt g rate)
  | .define id args =>
    match s.define id args with
    | .ok s' => (.ok none, s')
    | .error e => (.error e, s)
  | .control name rate default => s.answer (s.control name rate default)

/-- The sketch after a run of calls, failing ones included. -/
def run (s : Sketch) (calls : List Call) : Sketch := calls.foldl (fun s c => (s.perform c).2) s

end Sketch

end SoundGraph
