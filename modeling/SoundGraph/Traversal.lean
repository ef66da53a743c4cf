import SoundGraph.Expansion
import SoundGraph.Sketch

/-! The walk over the pending nodes of a sketch. Nodes are expanded depth-first, each after all the
nodes that its arguments mention, roots in the order in which they were recorded. The walk keeps an
explicit stack: an entry is either a node to enter or a node whose arguments are ready. Entering a node
that is being expanded already is a cycle. -/

namespace SoundGraph

inductive Progress where
  | waiting
  /-- Entered, its arguments not all expanded. -/
  | onPath
  | done (value : Signal)

def Progress.isWaiting : Progress → Bool
  | waiting => true
  | _ => false

theorem Progress.countP_set_done (progress : Array Progress) {id : Nat} (h : id < progress.size)
    (value : Signal) :
    (progress.set id (.done value)).countP isWaiting ≤ progress.countP isWaiting := by
  have hset := Array.countP_set (p := isWaiting) (a := .done value) h
  have hdone : isWaiting (.done value) = false := rfl
  rw [hset, hdone, if_neg Bool.false_ne_true]
  omega

theorem Progress.countP_set_onPath {progress : Array Progress} {id : Nat} {h : id < progress.size}
    (hw : progress[id] = .waiting) :
    (progress.set id .onPath).countP isWaiting < progress.countP isWaiting := by
  have hset := Array.countP_set (p := isWaiting) (a := .onPath) h
  have hpath : isWaiting .onPath = false := rfl
  have hwait : isWaiting progress[id] = true := by rw [hw]; rfl
  have hpos : 0 < progress.countP isWaiting :=
    Array.countP_pos_iff.2 ⟨progress[id], Array.getElem_mem h, hwait⟩
  rw [hset, hpath, hwait, if_pos rfl, if_neg Bool.false_ne_true]
  omega

inductive Step where
  | enter (id : Nat)
  | finish (id : Nat)
  deriving DecidableEq

namespace Sketch

/-- The name that an error gives a pending node. -/
def label (s : Sketch) (id : Nat) : String :=
  match s.pending[id]? with
  | some node => node.generator.name
  | none => pendingText id

mutual
/-- The signal of an element whose pending nodes are done. -/
def resolve (s : Sketch) (progress : Array Progress) (x : Expansion) :
    Element → Except CompileError Signal
  | .const v => .ok (.const v)
  | .out source => do
    let _ ← x.outputRate source
    return .out source
  | .bundle channels => do
    let signals ← s.resolveAll progress x channels
    return .bundle signals
  | .pending id =>
    match progress[id]? with
    | some (.done value) => .ok value
    | _ => .error (.cyclic (s.label id))

def resolveAll (s : Sketch) (progress : Array Progress) (x : Expansion) :
    List Element → Except CompileError (List Signal)
  | [] => .ok []
  | e :: es => do
    let signal ← s.resolve progress x e
    let signals ← s.resolveAll progress x es
    return signal :: signals
end

/-- Puts a mentioned node on the stack unless it is done; one that is on the path closes a cycle. -/
def schedule (s : Sketch) (progress : Array Progress) (id : Nat) (stack : List Step) :
    Except Abort (List Step) :=
  match progress[id]? with
  | some (.done _) => .ok stack
  | some .onPath => .error (.rejected (.cyclic (s.label id)))
  | some .waiting => .ok (.enter id :: stack)
  | none => .error (.fault (.progress id))

/-- The stack after entering a node: the nodes it mentions, first on top, then the node itself. -/
def scheduleAll (s : Sketch) (progress : Array Progress) (args : List Element)
    (stack : List Step) : Except Abort (List Step) :=
  (Element.pendingsOf args).foldrM (s.schedule progress) stack

def argsOf (s : Sketch) (id : Nat) : Except CompileError (PendingNode × List Element) :=
  match s.pending[id]? with
  | none => .error (.unknownPending id)
  | some node =>
    match node.args with
    | none => .error (.undefined node.generator.name id)
    | some args => .ok (node, args)

/-- Expands a node whose arguments are ready. -/
def expandNode (s : Sketch) (limit : Nat) (progress : Array Progress) (node : PendingNode)
    (args : List Element) : Expanding Signal := do
  let signals ← Expanding.check fun x => s.resolveAll progress x args
  Expanding.perform limit (node.generator.script node.rule signals)

/-- Works the stack off. Each step enters a waiting node or shortens the stack. -/
def walk (s : Sketch) (limit : Nat) (stack : List Step) (progress : Array Progress) :
    Expanding (Array Progress) :=
  match stack with
  | [] => return progress
  | .finish id :: stack => do
    let (node, args) ← Expanding.check fun _ => s.argsOf id
    let value ← s.expandNode limit progress node args
    if h : id < progress.size then s.walk limit stack (progress.set id (.done value))
    else Expanding.fault (.progress id)
  | .enter id :: stack => do
    let (node, args) ← Expanding.check fun _ => s.argsOf id
    if h : id < progress.size then
      match hp : progress[id] with
      | .done _ => s.walk limit stack progress
      | .onPath => Expanding.reject (.cyclic node.generator.name)
      | .waiting =>
        match s.scheduleAll (progress.set id .onPath) args (.finish id :: stack) with
        | .error e => throw e
        | .ok stack => s.walk limit stack (progress.set id .onPath)
    else Expanding.fault (.progress id)
termination_by (progress.countP Progress.isWaiting, stack.length)
decreasing_by
  · rcases Nat.lt_or_eq_of_le (Progress.countP_set_done progress h value) with hlt | heq
    · exact Prod.Lex.left _ _ hlt
    · rw [heq]
      exact Prod.Lex.right _ (Nat.lt_succ_self _)
  · exact Prod.Lex.right _ (Nat.lt_succ_self _)
  · exact Prod.Lex.left _ _ (Progress.countP_set_onPath hp)

/-- Visits every pending node in turn. -/
def walkAll (s : Sketch) (limit : Nat) : Expanding (Array Progress) :=
  (List.range s.size).foldlM (fun progress root => s.walk limit [.enter root] progress)
    (Array.replicate s.size .waiting)

/-- The node of a control group. -/
def controlNode (g : ControlGroup) : EmittedNode :=
  { name := g.rate.controlName
    rate := g.rate
    inputs := []
    outputs := Array.replicate g.count g.rate
    flags := { individual := true } }

def emitControls (s : Sketch) (limit : Nat) : Expanding Unit :=
  s.groups.toList.forM fun g => discard (Expanding.push limit (controlNode g))

/-- Emits the controls, then everything pending. -/
def expand (s : Sketch) (limit : Nat) : Expanding (Array Progress) := do
  s.emitControls limit
  s.walkAll limit

end Sketch

end SoundGraph
