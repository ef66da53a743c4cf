import SoundGraph.Expansion
import Std.Data.TreeSet

/-! Sorting by dependencies. A kept node depends on the nodes it reads and, if it has an effect, on the
last node with an effect before it. Of the nodes whose dependencies are all emitted, the one discovered
first comes next. -/

namespace SoundGraph

/-- The dependencies among the nodes read so far. -/
structure Links where
  /-- How many nodes each node waits for. -/
  degrees : Array Nat
  /-- Which nodes wait for each node. -/
  dependents : Array (List Nat)
  lastEffect : Option Nat

namespace Links

def empty (count : Nat) : Links := ⟨#[], Array.replicate count [], none⟩

/-- The nodes that node `node` waits for, each once. -/
def dependencies (lastEffect : Option Nat) (node : EmittedNode) : Std.TreeSet Nat :=
  let sources := node.inputs.filterMap fun
    | .node source => some source.node
    | .constant _ => none
  let effects := if node.flags.sideEffect then lastEffect.toList else []
  Std.TreeSet.ofList (sources ++ effects)

def addDependent (i : Nat) (dependents : Array (List Nat)) (dep : Nat) :
    Except Fault (Array (List Nat)) :=
  if h : dep < dependents.size then .ok (dependents.set dep (i :: dependents[dep]))
  else .error (.dependents dep)

/-- Reads one more node; a dropped one waits for nothing. -/
def step (l : Links) : Option EmittedNode → Except Fault Links
  | none => .ok { l with degrees := l.degrees.push 0 }
  | some node => do
    let i := l.degrees.size
    let deps := dependencies l.lastEffect node
    let dependents ← deps.toList.foldlM (addDependent i) l.dependents
    return {
      degrees := l.degrees.push deps.size
      dependents
      lastEffect := if node.flags.sideEffect then some i else l.lastEffect }

def ofKept (kept : Array (Option EmittedNode)) : Except Fault Links :=
  kept.toList.foldlM step (empty kept.size)

end Links

/-- The nodes that wait for nothing, and what the others still wait for. -/
structure Front where
  degrees : Array Nat
  ready : Std.TreeSet Nat

namespace Front

/-- How many nodes are left to emit: those that wait and those that are ready. -/
def weight (f : Front) : Nat := f.degrees.countP (0 < ·) + f.ready.size

/-- One dependency of node `i` is emitted. -/
def release (f : Front) (i : Nat) : Except Fault Front :=
  if h : i < f.degrees.size then
    match f.degrees[i] with
    | 0 => .error (.degree i)
    | 1 => .ok { degrees := f.degrees.set i 0, ready := f.ready.insert i }
    | n + 2 => .ok { f with degrees := f.degrees.set i (n + 1) }
  else .error (.degree i)

theorem weight_release {f f' : Front} {i : Nat} (h : f.release i = .ok f') :
    f'.weight ≤ f.weight := by
  unfold release at h
  split at h
  · next hi =>
    have hcount := Array.boole_getElem_le_countP (p := (0 < ·)) hi
    split at h
    · cases h
    · next hd =>
      cases h
      -- the node no longer counts as one that waits, but as a ready one
      have hready := Std.TreeSet.size_insert_le (t := f.ready) (k := i)
      have hwaits : decide (0 < f.degrees[i]) = true := by simp [hd]
      have hdone : ¬ decide (0 < 0) = true := by simp
      simp only [weight, Array.countP_set, if_pos hwaits, if_neg hdone] at hcount ⊢
      omega
    · next n hd =>
      cases h
      have hwaits : decide (0 < f.degrees[i]) = true := by simp [hd]
      have hstill : decide (0 < n + 1) = true := by simp
      simp only [weight, Array.countP_set, if_pos hwaits, if_pos hstill] at hcount ⊢
      omega
  · cases h

theorem weight_releaseAll {is : List Nat} {f f' : Front} (h : is.foldlM release f = .ok f') :
    f'.weight ≤ f.weight := by
  induction is generalizing f with
  | nil => cases h; exact Nat.le_refl _
  | cons i is ih =>
    simp only [List.foldlM_cons, bind, Except.bind] at h
    split at h
    · cases h
    · next hi => exact Nat.le_trans (ih h) (weight_release hi)

def erase (f : Front) (i : Nat) : Front := { f with ready := f.ready.erase i }

theorem weight_erase {f : Front} {i : Nat} (h : f.ready.min? = some i) :
    (f.erase i).weight < f.weight := by
  have hm : i ∈ f.ready := (Std.TreeSet.min?_eq_some_iff_mem_and_forall.1 h).1
  have hs := Std.TreeSet.size_erase (t := f.ready) (k := i)
  rw [if_pos (Std.TreeSet.mem_iff_contains.1 hm)] at hs
  have : 0 < f.ready.size := by
    rcases Nat.eq_zero_or_pos f.ready.size with h0 | h0
    · have he := Std.TreeSet.isEmpty_eq_size_eq_zero (t := f.ready)
      rw [h0] at he
      have := Std.TreeSet.isEmpty_eq_false_iff_exists_mem.2 ⟨i, hm⟩
      simp [this] at he
    · exact h0
  simp only [weight, erase]
  omega

/-- Emits ready nodes, smallest first, until none is left. -/
def drain (dependents : Array (List Nat)) (f : Front) (emitted : Array Nat) :
    Except Fault (Array Nat × Front) :=
  match _h : f.ready.min? with
  | none => .ok (emitted, f)
  | some i =>
    match dependents[i]? with
    | none => .error (.dependents i)
    | some waiting =>
      match _hr : waiting.foldlM release (f.erase i) with
      | .error e => .error e
      | .ok f' => drain dependents f' (emitted.push i)
termination_by f.weight
decreasing_by
  exact Nat.lt_of_le_of_lt (weight_releaseAll _hr) (weight_erase _h)

end Front

/-- The kept nodes that wait for nothing at the start. -/
def Links.front (l : Links) (kept : Array (Option EmittedNode)) : Front :=
  { degrees := l.degrees
    ready := Std.TreeSet.ofList ((List.range kept.size).filter fun i =>
      (kept.getD i none).isSome && l.degrees.getD i 0 == 0) }

/-- The first kept node that still waits, as an error names it. -/
def stuckName (kept : Array (Option EmittedNode)) (degrees : Array Nat) : String :=
  match (kept.toList.zip degrees.toList).find? fun (node, degree) => node.isSome && 0 < degree with
  | some (some node, _) => node.name
  | _ => ""

/-- The indices of the kept nodes in the order of emission. -/
def sortKept (kept : Array (Option EmittedNode)) : Except Abort (Array Nat) := do
  let links ← (Links.ofKept kept).mapError .fault
  let (sorted, front) ← (Front.drain links.dependents (links.front kept) #[]).mapError .fault
  if sorted.size = kept.countP Option.isSome then return sorted
  else throw (.rejected (.cyclic (stuckName kept front.degrees)))

end SoundGraph
