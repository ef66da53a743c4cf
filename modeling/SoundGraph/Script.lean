import SoundGraph.CompileError
import SoundGraph.Signal

/-! Expansion scripts. A script is what a custom expansion may do: emit instances of descriptors, look
at the rate of a leaf or at the number of nodes so far, and finish with a signal or an error. It sees
nothing else of the expansion, and it sees the error of an instance that failed. -/

namespace SoundGraph

inductive Script where
  | done (result : Except CompileError Signal)
  /-- Emits an instance of `descriptor`, any custom expansion of it set aside. -/
  | instantiate (descriptor : Descriptor) (rule : RateRule) (args : List Signal)
      (next : Except CompileError Signal → Script)
  | rateOf (signal : Signal) (next : Option Rate → Script)
  | nodeCount (next : Nat → Script)

namespace Script

/-- Goes on with the outcome of a script. -/
def bind : Script → (Except CompileError Signal → Script) → Script
  | done result, k => k result
  | instantiate d rule args next, k => instantiate d rule args fun r => (next r).bind k
  | rateOf signal next, k => rateOf signal fun r => (next r).bind k
  | nodeCount next, k => nodeCount fun n => (next n).bind k

end Script

/-- A custom expansion: the rate asked for and the expanded arguments, one for each input. -/
abbrev Hook := RateRule → List Signal → Script

/-- A unit generator: a descriptor and, if it has one, its custom expansion. -/
structure Generator where
  descriptor : Descriptor
  hook : Option Hook := none

namespace Generator

def name (g : Generator) : String := g.descriptor.name

/-- The expansion of one call: the hook if there is one, else plain emission. -/
def script (g : Generator) (rule : RateRule) (args : List Signal) : Script :=
  match g.hook with
  | some hook => hook rule args
  | none => .instantiate g.descriptor rule args .done

/-- What a hook does that has another generator expanded, with the hook of that one, and goes on with the outcome. -/
def call (g : Generator) (rule : RateRule) (args : List Signal) (next : Except CompileError Signal → Script) :
    Script := (g.script rule args).bind next

end Generator

end SoundGraph
