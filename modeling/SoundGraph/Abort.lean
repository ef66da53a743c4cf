import SoundGraph.CompileError

/-! How a compilation stops early: it rejects the sketch, or it reads one of its own tables out of
range. The second never happens to a sketch made by calls. -/

namespace SoundGraph

/-- A table of the compiler and the index that it does not have. -/
inductive Fault where
  | progress (id : Nat)
  /-- A channel was asked of a bundle without channels. -/
  | channel
  | canonical (node : Nat)
  | degree (node : Nat)
  | dependents (node : Nat)
  | survivor (node : Nat)
  | position (node : Nat)
  | constant (index : Nat)
  | group (index : Nat)
  deriving DecidableEq

inductive Abort where
  | rejected (error : CompileError)
  | fault (fault : Fault)
  deriving DecidableEq

end SoundGraph
