import SoundGraph.OutputRef
import SoundGraph.Sample

/-! Signals, the elements left once every pending node has been emitted. The leaves of a signal are
read depth-first; its depth bounds how often a bundle layer can be stripped from it. -/

namespace SoundGraph

inductive Signal where
  | const (value : Sample)
  | out (source : OutputRef)
  /-- Parallel channels; none for a node without outputs. -/
  | bundle (channels : List Signal)

namespace Signal

def channels : Signal → List Signal
  | bundle channels => channels
  | leaf => [leaf]

mutual
/-- Every constant and node output, depth-first. -/
def leaves : Signal → List Signal
  | bundle channels => leavesOf channels
  | leaf => [leaf]

def leavesOf : List Signal → List Signal
  | [] => []
  | s :: ss => s.leaves ++ leavesOf ss
end

mutual
def depth : Signal → Nat
  | bundle channels => depthOf channels + 1
  | _ => 0

def depthOf : List Signal → Nat
  | [] => 0
  | s :: ss => max s.depth (depthOf ss)
end

mutual
/-- Equality that compares constants as numbers. -/
def numEq : Signal → Signal → Bool
  | const a, const b => a.numEq b
  | out a, out b => a = b
  | bundle as, bundle bs => numEqAll as bs
  | _, _ => false

def numEqAll : List Signal → List Signal → Bool
  | [], [] => true
  | a :: as, b :: bs => a.numEq b && numEqAll as bs
  | _, _ => false
end

/-- The outputs `0 … count - 1` of a node: a leaf if there is one, else a bundle. -/
def ofOutputs (node count : Nat) : Signal :=
  if count = 1 then .out ⟨node, 0⟩
  else .bundle ((List.range count).map fun slot => .out ⟨node, slot⟩)

theorem leavesOf_eq (ss : List Signal) : leavesOf ss = ss.flatMap leaves := by
  induction ss with
  | nil => rfl
  | cons s ss ih => simp [leavesOf, ih]

theorem depth_le_depthOf {s : Signal} {ss : List Signal} (h : s ∈ ss) : s.depth ≤ depthOf ss := by
  induction ss with
  | nil => cases h
  | cons a as ih =>
    rcases List.mem_cons.1 h with rfl | h
    · exact Nat.le_max_left ..
    · exact Nat.le_trans (ih h) (Nat.le_max_right ..)

theorem depth_lt_bundle {s : Signal} {ss : List Signal} (h : s ∈ ss) :
    s.depth < (bundle ss).depth :=
  Nat.lt_succ_of_le (depth_le_depthOf h)

theorem leaves_ofOutputs (node count : Nat) :
    (ofOutputs node count).leaves = (List.range count).map fun slot => .out ⟨node, slot⟩ := by
  unfold ofOutputs
  split
  · next h => subst h; rfl
  · rw [leaves, leavesOf_eq]
    generalize List.range count = slots
    induction slots with
    | nil => rfl
    | cons k ks ih => simp [leaves, ih]

/-- Induction through the channels of a bundle. -/
theorem induction {P : Signal → Prop} (const : ∀ v, P (.const v)) (out : ∀ r, P (.out r))
    (bundle : ∀ ss, (∀ s ∈ ss, P s) → P (.bundle ss)) : ∀ s, P s
  | .const v => const v
  | .out r => out r
  | .bundle ss => bundle ss fun s _ => induction const out bundle s

end Signal

end SoundGraph
