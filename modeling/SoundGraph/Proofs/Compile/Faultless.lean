import SoundGraph.Proofs.Compile.Cycles
import SoundGraph.Proofs.Compile.Validity
import SoundGraph.Proofs.Expansion.Faultless
import SoundGraph.Proofs.Traversal.Halting

/-! No compilation reads one of its tables out of range. The numbers in recorded arguments were checked against a
sketch that has only grown since, so the walk finds an entry for each of them; the instances read the table through
checked references and leave it such that every node reads earlier ones, so it can be ordered; and each control is
in a group that is there. What is left are rejections, of which the sketch or the node limit is the cause, or a
hook. -/

namespace SoundGraph.Sketch

open Expanding

variable {s : Sketch} {limit : Nat} {x x' : Expansion} {e : Abort}

def HookRaises (s : Sketch) (err : CompileError) : Prop :=
  ∃ node hook args, node ∈ s.pending.toList ∧ node.generator.hook = some hook ∧
    (hook node.rule args).Raises err

/-- What a compilation may be rejected for: a node without arguments, a cycle, an instance, or whatever a hook
makes up. -/
inductive Objection (s : Sketch) : CompileError → Prop where
  | undefined {id : Nat} {node : PendingNode} (hnode : s.pending[id]? = some node) (hnone : node.args = none) :
    Objection s (.undefined node.generator.name id)
  | cyclic {id : Nat} {node : PendingNode} (hnode : s.pending[id]? = some node) (hcycle : s.OnCycle id) :
    Objection s (.cyclic node.generator.name)
  | ofInstance {err : CompileError} (hof : err.ofInstance = true) : Objection s err
  | hook {err : CompileError} (h : s.HookRaises err) : Objection s err

theorem objection_of_expandNode {progress : Array Progress} {node : PendingNode} {args : List Element}
    (hmem : node ∈ s.pending.toList) (hdone : ∀ j ∈ Element.pendingsOf args, ∃ v, progress[j]? = some (.done v))
    (h : s.expandNode limit progress node args x = .error e x') : ∃ err, e = .rejected err ∧ s.Objection err := by
  rcases run_bind_eq_error_iff.1 h with h | ⟨signals, x₁, -, h⟩
  · obtain ⟨-, err, rfl, herr⟩ := (ensures_check _ x).of_error h
    exact ⟨err, rfl, .ofInstance (ofInstance_resolveAll hdone herr)⟩
  · obtain ⟨err, rfl, hraises⟩ := raises_of_perform h
    refine ⟨err, rfl, ?_⟩
    cases hhook : node.generator.hook with
    | none => exact .ofInstance (Generator.ofInstance_of_raises hhook hraises)
    | some hook =>
      rw [Generator.script, hhook] at hraises
      exact .hook ⟨node, hook, signals, hmem, hhook, hraises⟩

theorem objection_of_walkAll (hscoped : s.Scoped) (h : s.walkAll limit x = .error e x') :
    ∃ err, e = .rejected err ∧ s.Objection err := by
  obtain ⟨w, hr, hh⟩ := (walkAll_follows x).of_error h
  rcases cause_of_halts hscoped hr hh with ⟨id, node, hnode, hnone, rfl⟩ | ⟨id, node, hnode, hcycle, rfl⟩ |
    ⟨id, stack, node, args, hstack, hargs, hvalue⟩
  · exact ⟨_, rfl, .undefined hnode hnone⟩
  · exact ⟨_, rfl, .cyclic hnode hcycle⟩
  · have hdone := ((threaded_start s x).reaches hr).arguments_done hstack hargs
    exact objection_of_expandNode (mem_pending_of_argsOf hargs) hdone hvalue

theorem objection_of_emitControls (h : s.emitControls limit x = .error e x') :
    ∃ err, e = .rejected err ∧ s.Objection err := by
  have hfaultless : (s.emitControls limit).Faultless :=
    composes_faultless.emitControls fun g => faultless_push limit (controlNode g)
  obtain ⟨err, rfl⟩ := (hfaultless x).of_error h
  exact ⟨err, rfl, .ofInstance ((rejectsInstance_emitControls x).of_error h err rfl)⟩

/-- What comes after a successful expansion cannot fail. -/
theorem objection_of_compile (hscoped : s.Scoped) (hgrouped : s.Grouped) (h : s.compile limit = .error e) :
    ∃ err, e = .rejected err ∧ s.Objection err := by
  cases hx : s.expand limit .empty with
  | error e' x =>
    rw [compile, hx] at h
    cases h
    rcases run_bind_eq_error_iff.1 hx with hx | ⟨_, x₁, -, hwalk⟩
    · exact objection_of_emitControls hx
    · exact objection_of_walkAll hscoped hwalk
  | ok progress x =>
    obtain ⟨g, hg, -⟩ := hgrouped.compile_of_expand hx
    rw [hg] at h
    cases h

/-- Whatever calls have been made, failing ones included, and whatever the hooks and the node limit: compiling the
sketch reads none of its tables out of range. It gives a graph if the expansion succeeds, else it is rejected for
something that is wrong with a node, with a cycle or with an instance, or for what a hook has made up; that a
pending node is unknown is only ever made up. -/
theorem compile_never_faults (calls : List Call) (limit : Nat) :
    let s := ({} : Sketch).run calls
    (∀ f, s.compile limit ≠ .error (.fault f)) ∧
    (∀ id, s.compile limit = .error (.rejected (.unknownPending id)) → s.HookRaises (.unknownPending id)) ∧
    (∀ err, s.compile limit = .error (.rejected err) → s.Objection err) ∧
    ∀ progress x, s.expand limit .empty = .ok progress x → ∃ g, s.compile limit = .ok g := by
  intro s
  have hgrouped : s.Grouped := grouped_empty.run calls
  have hobjection : ∀ e, s.compile limit = .error e → ∃ err, e = .rejected err ∧ s.Objection err := fun e h =>
    objection_of_compile (scoped_empty.run calls) hgrouped h
  refine ⟨fun f h => ?_, fun id h => ?_, fun err h => ?_, fun progress x hx => ?_⟩
  · obtain ⟨err, heq, -⟩ := hobjection _ h
    cases heq
  · obtain ⟨err, heq, hcause⟩ := hobjection _ h
    cases heq
    cases hcause with
    | ofInstance hof => cases hof
    | hook hraises => exact hraises
  · obtain ⟨err', heq, hcause⟩ := hobjection _ h
    cases heq
    exact hcause
  · obtain ⟨g, hg, -⟩ := hgrouped.compile_of_expand hx
    exact ⟨g, hg⟩

/-- A hook can report a node that it has never heard of. -/
example :
    (({} : Sketch).run [.add ⟨{ name := "Liar", rate := .fixed .audio, inputs := [] },
      some fun _ _ => .done (.error (.unknownPending 7))⟩ []]).compile 1 =
        .error (.rejected (.unknownPending 7)) := by
  cbv

end SoundGraph.Sketch
