import SoundGraph.Proofs.Expansion.Composed
import SoundGraph.Proofs.Traversal.Dependency

/-! The expansion of a sketch as a sequence: first the control nodes, then checks and expansions of pending
nodes in turn, whatever the progress table holds in between. What a sequence of actions keeps, it keeps. -/

namespace SoundGraph

open Expanding

variable {s : Sketch} {limit : Nat}

theorem Sketch.mem_pending_of_argsOf {id : Nat} {node : PendingNode} {args : List Element}
    (h : s.argsOf id = .ok (node, args)) : node ∈ s.pending.toList :=
  Array.mem_toList_iff.2 (Array.mem_of_getElem? (argsOf_eq_ok_iff.1 h).1)

namespace Expanding

theorem eq_ok_of_answers_check {α : Type} {f : Except CompileError α} {a : α}
    (h : (check fun _ => f).Answers a) : f = .ok a := by
  obtain ⟨x, x', hok⟩ := h
  exact (run_check_eq_ok_iff.1 hok).1

variable {C : ∀ {α : Type}, Expanding α → Prop}

/-- Along the recursion of the walk. -/
theorem Composes.walk (h : Composes C)
    (hcheck : ∀ {α : Type} (f : Expansion → Except CompileError α), C (check f))
    (hthrow : ∀ e, C (throw e : Expanding (Array Progress)))
    (hnode : ∀ progress node args, node ∈ s.pending.toList → C (s.expandNode limit progress node args))
    (stack : List Step) (progress : Array Progress) : C (s.walk limit stack progress) := by
  induction stack, progress using Sketch.walk.induct with
  | case1 progress =>
    rw [Sketch.walk]
    exact h.pure progress
  | case2 progress id stack ih =>
    rw [Sketch.walk]
    refine h.bind (hcheck _) ?_
    rintro ⟨node, args⟩ hargs
    have hmem := Sketch.mem_pending_of_argsOf (eq_ok_of_answers_check hargs)
    refine h.bind (hnode progress node args hmem) fun value _ => ?_
    split
    · next hlt => exact ih value hlt
    · exact hthrow _
  | case3 progress id stack ihSkip ihEnter =>
    rw [Sketch.walk]
    refine h.bind (hcheck _) ?_
    rintro ⟨node, args⟩ -
    dsimp only
    split
    · next hlt =>
      split
      · exact ihSkip
      · exact hthrow _
      · next hwaiting =>
        split
        · exact hthrow _
        · next stack' _ => exact ihEnter hlt hwaiting stack'
    · exact hthrow _

theorem Composes.walkAll (h : Composes C)
    (hcheck : ∀ {α : Type} (f : Expansion → Except CompileError α), C (check f))
    (hthrow : ∀ e, C (throw e : Expanding (Array Progress)))
    (hnode : ∀ progress node args, node ∈ s.pending.toList → C (s.expandNode limit progress node args)) :
    C (s.walkAll limit) :=
  h.foldlM (fun progress root => h.walk hcheck hthrow hnode [.enter root] progress) _ _

theorem Composes.emitControls (h : Composes C) (hpush : ∀ g, C (push limit (Sketch.controlNode g))) :
    C (s.emitControls limit) :=
  h.forM (fun g => h.bind (hpush g) fun _ _ => h.pure ()) _

end Expanding

end SoundGraph
