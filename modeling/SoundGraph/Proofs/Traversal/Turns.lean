import Mathlib.Logic.Relation
import SoundGraph.Proofs.Expansion.Outcome
import SoundGraph.Traversal

/-! The walk over a sketch, turn by turn. A turn starts on the next root, passes over a node that is done,
enters one that waits, or expands one whose arguments are ready; `Halts` lists the ways in which no turn
follows. Whatever comes out of the walk comes out of a sequence of turns, so that what every turn keeps
holds wherever the walk gets to. -/

namespace SoundGraph

structure Walk where
  /-- The roots that it has not come to. -/
  roots : List Nat
  stack : List Step
  progress : Array Progress
  /-- The nodes expanded so far, in order. -/
  expanded : List Nat
  table : Expansion

namespace Sketch

open Expanding

def start (s : Sketch) (x : Expansion) : Walk :=
  ⟨List.range s.size, [], Array.replicate s.size .waiting, [], x⟩

inductive Turn (s : Sketch) (limit : Nat) : Walk → Walk → Prop where
  | root {root : Nat} {roots expanded : List Nat} {progress : Array Progress} {x : Expansion} :
    Turn s limit ⟨root :: roots, [], progress, expanded, x⟩ ⟨roots, [.enter root], progress, expanded, x⟩
  | skip {id : Nat} {roots expanded : List Nat} {stack : List Step} {progress : Array Progress}
    {x : Expansion} {node : PendingNode} {args : List Element} {value : Signal}
    (hargs : s.argsOf id = .ok (node, args)) (hdone : progress[id]? = some (.done value)) :
    Turn s limit ⟨roots, .enter id :: stack, progress, expanded, x⟩ ⟨roots, stack, progress, expanded, x⟩
  | enter {id : Nat} {roots expanded : List Nat} {stack stack' : List Step} {progress : Array Progress}
    {x : Expansion} {node : PendingNode} {args : List Element}
    (hargs : s.argsOf id = .ok (node, args)) (hlt : id < progress.size) (hwaits : progress[id] = .waiting)
    (hstack : s.scheduleAll (progress.set id .onPath) args (.finish id :: stack) = .ok stack') :
    Turn s limit ⟨roots, .enter id :: stack, progress, expanded, x⟩
      ⟨roots, stack', progress.set id .onPath, expanded, x⟩
  | expand {id : Nat} {roots expanded : List Nat} {stack : List Step} {progress : Array Progress}
    {x x' : Expansion} {node : PendingNode} {args : List Element} {value : Signal}
    (hargs : s.argsOf id = .ok (node, args)) (hlt : id < progress.size)
    (hvalue : s.expandNode limit progress node args x = .ok value x') :
    Turn s limit ⟨roots, .finish id :: stack, progress, expanded, x⟩
      ⟨roots, stack, progress.set id (.done value), expanded ++ [id], x'⟩

abbrev Reaches (s : Sketch) (limit : Nat) : Walk → Walk → Prop := Relation.ReflTransGen (s.Turn limit)

/-- No sequence of turns goes on for ever: entering a node leaves fewer that wait, and any other turn leaves
less on the stack or among the roots, where a root counts for more than an entry. -/
theorem turn_wellFounded (s : Sketch) (limit : Nat) : WellFounded fun w' w => s.Turn limit w w' := by
  let measure : Walk → Nat × Nat := fun w =>
    (w.progress.countP Progress.isWaiting, 2 * w.roots.length + w.stack.length)
  refine Subrelation.wf (r := InvImage (Prod.Lex (· < ·) (· < ·)) measure) (fun {w' w} h => ?_)
    (InvImage.wf measure (Prod.lex Nat.lt_wfRel Nat.lt_wfRel).wf)
  cases h with
  | root =>
    refine Prod.Lex.right _ ?_
    simp only [List.length_cons, List.length_nil]
    omega
  | skip => exact Prod.Lex.right _ (Nat.lt_succ_self _)
  | enter hargs hlt hwaits => exact Prod.Lex.left _ _ (Progress.countP_set_onPath hwaits)
  | @expand _ _ _ _ progress _ _ _ _ value hargs hlt =>
    rcases Nat.lt_or_eq_of_le (Progress.countP_set_done progress hlt value) with hless | heq
    · exact Prod.Lex.left _ _ hless
    · refine Prod.lex_def.2 (.inr ⟨heq, Nat.lt_succ_self _⟩)

def Step.id : Step → Nat
  | .enter id | .finish id => id

/-- The walk stops with an abort and leaves a table. -/
inductive Halts (s : Sketch) (limit : Nat) : Walk → Abort → Expansion → Prop where
  | undefined (step : Step) {roots expanded : List Nat} {stack : List Step} {progress : Array Progress}
    {x : Expansion} {e : CompileError} (hargs : s.argsOf (Step.id step) = .error e) :
    Halts s limit ⟨roots, step :: stack, progress, expanded, x⟩ (.rejected e) x
  | entered {id : Nat} {roots expanded : List Nat} {stack : List Step} {progress : Array Progress}
    {x : Expansion} {node : PendingNode} {args : List Element} (hargs : s.argsOf id = .ok (node, args))
    (hpath : progress[id]? = some .onPath) :
    Halts s limit ⟨roots, .enter id :: stack, progress, expanded, x⟩
      (.rejected (.cyclic node.generator.name)) x
  | mentioned {id : Nat} {roots expanded : List Nat} {stack : List Step} {progress : Array Progress}
    {x : Expansion} {node : PendingNode} {args : List Element} {e : Abort}
    (hargs : s.argsOf id = .ok (node, args)) (hlt : id < progress.size) (hwaits : progress[id] = .waiting)
    (hstack : s.scheduleAll (progress.set id .onPath) args (.finish id :: stack) = .error e) :
    Halts s limit ⟨roots, .enter id :: stack, progress, expanded, x⟩ e x
  | failed {id : Nat} {roots expanded : List Nat} {stack : List Step} {progress : Array Progress}
    {x x' : Expansion} {node : PendingNode} {args : List Element} {e : Abort}
    (hargs : s.argsOf id = .ok (node, args))
    (hvalue : s.expandNode limit progress node args x = .error e x') :
    Halts s limit ⟨roots, .finish id :: stack, progress, expanded, x⟩ e x'
  /-- The progress table has no such entry. -/
  | missing (step : Step) {roots expanded : List Nat} {stack : List Step} {progress : Array Progress}
    {x x' : Expansion} (hge : progress.size ≤ Step.id step) :
    Halts s limit ⟨roots, step :: stack, progress, expanded, x⟩ (.fault (.progress (Step.id step))) x'

/-- What `act` comes to is what the walk comes to from `w`: the stack is worked off, or the walk halts. -/
def Follows (s : Sketch) (limit : Nat) (act : Expanding (Array Progress)) (w : Walk) (roots : List Nat) :
    Prop :=
  act.Ensures w.table
    (fun progress x => ∃ expanded, s.Reaches limit w ⟨roots, [], progress, expanded, x⟩)
    fun e x => ∃ w', s.Reaches limit w w' ∧ s.Halts limit w' e x

variable {s : Sketch} {limit : Nat}

theorem Follows.reaches {act : Expanding (Array Progress)} {w w' : Walk} {roots : List Nat}
    (h : s.Follows limit act w' roots) (hr : s.Reaches limit w w') :
    act.Ensures w'.table
      (fun progress x => ∃ expanded, s.Reaches limit w ⟨roots, [], progress, expanded, x⟩)
      fun e x => ∃ w'', s.Reaches limit w w'' ∧ s.Halts limit w'' e x :=
  h.imp (fun _ _ ⟨expanded, h⟩ => ⟨expanded, hr.trans h⟩) fun _ _ ⟨w'', h, hh⟩ => ⟨w'', hr.trans h, hh⟩

theorem walk_follows (roots : List Nat) (stack : List Step) (progress : Array Progress)
    (expanded : List Nat) (x : Expansion) :
    s.Follows limit (s.walk limit stack progress) ⟨roots, stack, progress, expanded, x⟩ roots := by
  induction stack, progress using Sketch.walk.induct generalizing expanded x with
  | case1 progress =>
    rw [walk]
    exact ⟨expanded, .refl⟩
  | case2 progress id stack ih =>
    rw [walk]
    refine Ensures.bind ((ensures_check _ x).imp (fun _ _ h => h) ?_) ?_
    · rintro _ x ⟨rfl, e, rfl, hargs⟩
      exact ⟨_, .refl, .undefined (.finish id) hargs⟩
    rintro ⟨node, args⟩ x ⟨rfl, hargs⟩
    refine Ensures.bind ((ensures_self _ x).imp (fun _ _ h => h) fun e x' hvalue => ?_) ?_
    · exact ⟨_, .refl, .failed hargs hvalue⟩
    intro value x' hvalue
    split
    · next hlt => exact (ih value hlt _ x').reaches (.single (.expand hargs hlt hvalue))
    · next hge => exact ⟨_, .refl, .missing (.finish id) (Nat.le_of_not_lt hge)⟩
  | case3 progress id stack ihSkip ihEnter =>
    rw [walk]
    refine Ensures.bind ((ensures_check _ x).imp (fun _ _ h => h) ?_) ?_
    · rintro _ x ⟨rfl, e, rfl, hargs⟩
      exact ⟨_, .refl, .undefined (.enter id) hargs⟩
    rintro ⟨node, args⟩ x ⟨rfl, hargs⟩
    dsimp only
    split
    · next hlt =>
      have hget := Array.getElem?_eq_getElem hlt
      split
      · next value hp =>
        exact (ihSkip _ x).reaches (.single (.skip hargs (hget.trans (congrArg some hp))))
      · next hp => exact ⟨_, .refl, .entered hargs (hget.trans (congrArg some hp))⟩
      · next hp =>
        split
        · next e hstack => exact ⟨_, .refl, .mentioned hargs hlt hp hstack⟩
        · next stack' hstack =>
          exact (ihEnter hlt hp stack' _ x).reaches (.single (.enter hargs hlt hp hstack))
    · next hge => exact ⟨_, .refl, .missing (.enter id) (Nat.le_of_not_lt hge)⟩

/-- By induction on the roots that are left. -/
theorem walkAll_follows (x : Expansion) :
    s.Follows limit (s.walkAll limit) (s.start x) [] := by
  have hroots : ∀ roots progress expanded x,
      s.Follows limit (roots.foldlM (fun progress root => s.walk limit [.enter root] progress) progress)
        ⟨roots, [], progress, expanded, x⟩ [] := by
    intro roots
    induction roots with
    | nil => exact fun progress expanded x => ⟨expanded, .refl⟩
    | cons root roots ih =>
      intro progress expanded x
      rw [List.foldlM_cons]
      have hfirst : s.Follows limit (s.walk limit [.enter root] progress)
          ⟨roots, [.enter root], progress, expanded, x⟩ roots := walk_follows ..
      exact (hfirst.reaches (.single .root)).bind fun progress' x' ⟨expanded', hr⟩ =>
        (ih progress' expanded' x').reaches hr
  exact hroots _ _ _ x

end Sketch

end SoundGraph
