import SoundGraph.Script

/-! The `Mix` expansion: the top-level channels of all arguments, summed from the left by a chain of
`Add` nodes. It emits no node of its own; a single channel passes through, and no channel at all mixes
to zero. -/

namespace SoundGraph

/-- A two-operand generator at the rate of its first operand. -/
def binary (name : String) : Descriptor :=
  { name, rate := .follow 0, inputs := [{ name := "a" }, { name := "b" }] }

def adder : Descriptor := binary "Add"

/-- Adds the channels to `sum` one by one, stopping at the first failure. -/
def addChannels (rule : RateRule) (sum : Signal) : List Signal → Script
  | [] => .done (.ok sum)
  | channel :: rest =>
    .instantiate adder rule [sum, channel] fun
      | .ok sum => addChannels rule sum rest
      | .error e => .done (.error e)

/-- The rate of every `Add` in a mix: the one asked for, else that of the first operand. -/
def mixRule : RateRule → RateRule
  | .fixed rate => .fixed rate
  | .follow _ => .follow 0

def mix : Hook := fun rule args =>
  match args.flatMap Signal.channels with
  | [] => .done (.ok (.const .zero))
  | first :: rest => addChannels (mixRule rule) first rest

end SoundGraph
