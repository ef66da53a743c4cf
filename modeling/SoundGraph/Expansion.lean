import SoundGraph.Abort
import SoundGraph.ConstantPool
import SoundGraph.Graph
import SoundGraph.Script

/-! Expansion, the growing table of emitted nodes. One call becomes one node for each channel of its
widest argument: bundles are stripped layer by layer, narrower ones starting over when they run out.
A signal at the wrong rate gets a converter node in front of the instance that reads it. What was
emitted before a failure stays. -/

namespace SoundGraph

structure EmittedNode where
  name : String
  rate : Rate
  inputs : List Input
  outputs : Array Rate
  flags : Flags
  deriving DecidableEq, Hashable

structure Expansion where
  nodes : Array EmittedNode
  constants : ConstantPool

abbrev Expanding := EStateM Abort Expansion

namespace Expansion

def empty : Expansion := ⟨#[], .empty⟩

def outputRate (x : Expansion) (source : OutputRef) : Except CompileError Rate :=
  match x.nodes[source.node]? with
  | none => .error (.invalidReference source)
  | some node =>
    match node.outputs[source.output]? with
    | none => .error (.invalidReference source)
    | some rate => .ok rate

/-- The rate of a leaf that is an existing node output. -/
def rateOf (x : Expansion) : Signal → Option Rate
  | .out source => (x.outputRate source).toOption
  | _ => none

def resolveRate (x : Expansion) (d : Descriptor) (args : List Signal) :
    RateRule → Except CompileError Rate
  | .fixed rate => .ok rate
  | .follow primary =>
    match args[primary]? with
    | none => .error (.unresolvedRate d.name)
    | some arg =>
      match arg.leaves with
      | [] => .error (.unresolvedRate d.name)
      | .out source :: _ => x.outputRate source
      | _ :: _ => .ok .control

end Expansion

namespace Expanding

def reject {α : Type} (e : CompileError) : Expanding α := throw (.rejected e)

def fault {α : Type} (f : Fault) : Expanding α := throw (.fault f)

/-- A check that only reads the expansion. -/
def check {α : Type} (f : Expansion → Except CompileError α) : Expanding α := fun x =>
  match f x with
  | .ok a => .ok a x
  | .error e => .error (.rejected e) x

/-- Appends a node, unless the limit is reached, and gives its index. -/
def push (limit : Nat) (node : EmittedNode) : Expanding Nat := fun x =>
  if limit ≤ x.nodes.size then .error (.rejected (.tooManyNodes limit)) x
  else .ok x.nodes.size { x with nodes := x.nodes.push node }

def intern (v : Sample) : Expanding Nat := fun x =>
  let (index, constants) := x.constants.intern v
  .ok index { x with constants }

/-- A converter node that reads `source` and runs at `rate`. -/
def converter (name : String) (rate : Rate) (source : OutputRef) : EmittedNode :=
  { name, rate, inputs := [.node source], outputs := #[rate], flags := {} }

/-- Wires a node output to an input of an instance running at `rate`. -/
def connectOutput (limit : Nat) (d : Descriptor) (input : InputDecl) (rate : Rate)
    (source : OutputRef) : Expanding Input := do
  let actual ← check (·.outputRate source)
  match input.requirement.required rate with
  | none => return .node source
  | some required =>
    match coercion actual required with
    | .direct => return .node source
    | .convert name =>
      let index ← push limit (converter name required source)
      return .node ⟨index, 0⟩
    | .impossible => reject (.rateMismatch d.name input.name required actual)

def connect (limit : Nat) (d : Descriptor) (input : InputDecl) (rate : Rate) :
    Signal → Expanding Input
  | .const v => return .constant (← intern v)
  | .out source => connectOutput limit d input rate source
  | .bundle _ => reject (.emptyInput d.name input.name)

/-- Wires every leaf of every argument, in order. -/
def connectAll (limit : Nat) (d : Descriptor) (rate : Rate) :
    List InputDecl → List Signal → Expanding (List Input)
  | input :: inputs, arg :: args => do
    let here ← arg.leaves.mapM (connect limit d input rate)
    let rest ← connectAll limit d rate inputs args
    return here ++ rest
  | _, _ => return []

/-- Emits one instance; the arguments of its single-channel inputs are leaves. -/
def emit (limit : Nat) (d : Descriptor) (rule : RateRule) (args : List Signal) :
    Expanding Signal := do
  let rate ← check (·.resolveRate d args rule)
  let inputs ← connectAll limit d rate d.inputs args
  let count := d.outputCount (args.map (·.leaves.length))
  let index ← push limit
    { name := d.name, rate, inputs, outputs := Array.replicate count rate, flags := d.flags }
  return .ofOutputs index count

end Expanding

/-- The error for a single-channel input, number `k`, that receives no channel. -/
def Descriptor.starved (d : Descriptor) (rule : RateRule) (k : Nat) (input : InputDecl) :
    CompileError :=
  if rule = .follow k then .unresolvedRate d.name else .emptyInput d.name input.name

/-- The width of the widest bundle among the arguments of single-channel inputs, 0 if there is none;
`k` numbers the inputs. -/
def Descriptor.fanWidth (d : Descriptor) (rule : RateRule) (k : Nat) :
    List InputDecl → List Signal → Except CompileError Nat
  | input :: inputs, arg :: args =>
    if input.variadic then d.fanWidth rule (k + 1) inputs args
    else match arg with
      | .bundle [] => .error (d.starved rule k input)
      | .bundle channels => (d.fanWidth rule (k + 1) inputs args).map (max channels.length)
      | _ => d.fanWidth rule (k + 1) inputs args
  | _, _ => .ok 0

/-- What an argument gives to the instances of one call. -/
inductive Supply where
  /-- The same signal to each. -/
  | shared (signal : Signal)
  /-- Its channels in turn, starting over past the last. -/
  | inTurn (channels : Array Signal)

/-- A leaf, or the argument of a variadic input, goes whole to every instance. -/
def InputDecl.supply (input : InputDecl) (arg : Signal) : Supply :=
  if input.variadic then .shared arg
  else match arg with
    | .bundle channels => .inTurn channels.toArray
    | leaf => .shared leaf

def supplies : List InputDecl → List Signal → List Supply
  | input :: inputs, arg :: args => input.supply arg :: supplies inputs args
  | _, _ => []

/-- What instance `i` gets. -/
def Supply.channel (i : Nat) : Supply → Except Fault Signal
  | .shared signal => .ok signal
  | .inTurn channels =>
    match channels[i % channels.size]? with
    | some c => .ok c
    | none => .error .channel

def channelArgs (i : Nat) : List Supply → Except Fault (List Signal)
  | [] => .ok []
  | supply :: rest => do
    let here ← supply.channel i
    let rest ← channelArgs i rest
    return here :: rest

/-- How many bundle layers the arguments of single-channel inputs have at most. -/
def fanDepth : List InputDecl → List Signal → Nat
  | input :: inputs, arg :: args =>
    max (if input.variadic then 0 else arg.depth) (fanDepth inputs args)
  | _, _ => 0

theorem depth_channel {input : InputDecl} {i : Nat} {arg c : Signal}
    (h : (input.supply arg).channel i = .ok c) (hv : input.variadic = false) :
    c.depth ≤ arg.depth - 1 := by
  unfold InputDecl.supply at h
  rw [if_neg (by simp [hv])] at h
  cases arg with
  | bundle channels =>
    simp only [Supply.channel] at h
    split at h
    · next c' hc =>
      cases h
      have := Signal.depth_lt_bundle (List.mem_toArray.1 (Array.mem_of_getElem? hc))
      omega
    · cases h
  | const v => cases h; simp [Signal.depth]
  | out r => cases h; simp [Signal.depth]

theorem fanDepth_channelArgs {i : Nat} {inputs : List InputDecl} {args cs : List Signal}
    (h : channelArgs i (supplies inputs args) = .ok cs) :
    fanDepth inputs cs ≤ fanDepth inputs args - 1 := by
  induction inputs generalizing args cs with
  | nil => simp [fanDepth]
  | cons input inputs ih =>
    cases args with
    | nil => cases h; simp [fanDepth]
    | cons arg args =>
      simp only [supplies, channelArgs, bind, Except.bind] at h
      split at h
      · cases h
      · next c hc =>
        split at h
        · cases h
        · next rest hrest =>
          cases h
          have hr := ih hrest
          simp only [fanDepth]
          cases hv : input.variadic with
          | true =>
            rw [if_pos rfl, if_pos rfl]
            omega
          | false =>
            have := depth_channel hc hv
            rw [if_neg Bool.false_ne_true, if_neg Bool.false_ne_true]
            omega

theorem fanDepth_pos {d : Descriptor} {rule : RateRule} {k w : Nat} {inputs : List InputDecl}
    {args : List Signal} (h : d.fanWidth rule k inputs args = .ok (w + 1)) :
    0 < fanDepth inputs args := by
  induction inputs generalizing k w args with
  | nil => simp [Descriptor.fanWidth] at h
  | cons input inputs ih =>
    cases args with
    | nil => simp [Descriptor.fanWidth] at h
    | cons arg args =>
      simp only [Descriptor.fanWidth] at h
      simp only [fanDepth]
      split at h
      · have := ih h; omega
      · next hv =>
        split at h
        · cases h
        · rw [if_neg hv, Signal.depth]
          omega
        · have := ih h; omega

namespace Expanding

/-- Emits one instance for each channel, layer by layer. -/
def fanOut (limit : Nat) (d : Descriptor) (rule : RateRule) (args : List Signal) :
    Expanding Signal :=
  match _hw : d.fanWidth rule 0 d.inputs args with
  | .error e => reject e
  | .ok 0 => emit limit d rule args
  | .ok (w + 1) => do
    let supplied := supplies d.inputs args
    let channels ← (List.range (w + 1)).mapM fun i =>
      match _hc : channelArgs i supplied with
      | .error f => fault f
      | .ok cs => fanOut limit d rule cs
    return .bundle channels
termination_by fanDepth d.inputs args
decreasing_by
  have := fanDepth_pos _hw
  have := fanDepth_channelArgs _hc
  omega

/-- Emits the instances of one call. -/
def instantiate (limit : Nat) (d : Descriptor) (rule : RateRule) (args : List Signal) :
    Expanding Signal :=
  if args.length = d.inputs.length then fanOut limit d rule args
  else reject (.arityMismatch d.name d.inputs.length args.length)

/-- Carries out a script. It hears of rejected instances and goes on as it likes. -/
def perform (limit : Nat) : Script → Expanding Signal
  | .done (.ok signal) => return signal
  | .done (.error e) => reject e
  | .instantiate d rule args next => fun x =>
    match instantiate limit d rule args x with
    | .ok signal x' => perform limit (next (.ok signal)) x'
    | .error (.rejected e) x' => perform limit (next (.error e)) x'
    | .error (.fault f) x' => .error (.fault f) x'
  | .rateOf signal next => fun x => perform limit (next (x.rateOf signal)) x
  | .nodeCount next => fun x => perform limit (next x.nodes.size) x

theorem perform_bind (limit : Nat) (s : Script) (k : Except CompileError Signal → Script) (x : Expansion) :
    perform limit (s.bind k) x =
      match perform limit s x with
      | .ok signal x' => perform limit (k (.ok signal)) x'
      | .error (.rejected e) x' => perform limit (k (.error e)) x'
      | .error (.fault f) x' => .error (.fault f) x' := by
  induction s generalizing x with
  | done result => cases result <;> rfl
  | instantiate d rule args next ih =>
    simp only [Script.bind, perform]
    cases instantiate limit d rule args x with
    | ok signal x₁ => exact ih (.ok signal) x₁
    | error e x₁ =>
      cases e with
      | rejected e => exact ih (.error e) x₁
      | fault f => rfl
  | rateOf signal next ih => exact ih (x.rateOf signal) x
  | nodeCount next ih => exact ih x.nodes.size x

/-- A hook that has another generator expanded runs its script as a call would, and hears of the outcome unless
that is a fault. -/
theorem perform_call (limit : Nat) (g : Generator) (rule : RateRule) (args : List Signal)
    (next : Except CompileError Signal → Script) (x : Expansion) :
    perform limit (g.call rule args next) x =
      match perform limit (g.script rule args) x with
      | .ok signal x' => perform limit (next (.ok signal)) x'
      | .error (.rejected e) x' => perform limit (next (.error e)) x'
      | .error (.fault f) x' => .error (.fault f) x' :=
  perform_bind limit (g.script rule args) next x

end Expanding

end SoundGraph
