import SoundGraph.Expansion

/-! Merging of identical nodes. Nodes are read in discovery order, their inputs rewritten to the nodes
that stand for them; a pure node identical to an earlier one is then dropped, and the earlier one stands
for it. Nodes with effects or state of their own are always kept. -/

namespace SoundGraph

structure Merge where
  /-- For each node read so far, the node that stands for it. -/
  canonical : Array Nat
  /-- Each node read so far with its inputs rewritten, or none if it was dropped. -/
  kept : Array (Option EmittedNode)
  /-- The pure nodes kept so far. -/
  seen : Std.HashMap EmittedNode Nat

namespace Merge

def empty : Merge := ⟨#[], #[], ∅⟩

def rewriteInput (canonical : Array Nat) : Input → Except Fault Input
  | .constant index => .ok (.constant index)
  | .node source =>
    match canonical[source.node]? with
    | some survivor => .ok (.node ⟨survivor, source.output⟩)
    | none => .error (.canonical source.node)

def keep (m : Merge) (node : EmittedNode) : Merge :=
  { m with canonical := m.canonical.push m.canonical.size, kept := m.kept.push (some node) }

def drop (m : Merge) (survivor : Nat) : Merge :=
  { m with canonical := m.canonical.push survivor, kept := m.kept.push none }

/-- Reads one more node, its inputs already rewritten. -/
def place (m : Merge) (node : EmittedNode) : Merge :=
  if node.flags.pure then
    match m.seen[node]? with
    | some survivor => m.drop survivor
    | none =>
      { canonical := m.canonical.push m.canonical.size
        kept := m.kept.push (some node)
        seen := m.seen.insert node m.canonical.size }
  else m.keep node

def step (m : Merge) (node : EmittedNode) : Except Fault Merge := do
  let inputs ← node.inputs.mapM (rewriteInput m.canonical)
  return m.place { node with inputs }

def ofNodes (nodes : List EmittedNode) : Except Fault Merge := nodes.foldlM step empty

end Merge

end SoundGraph
