import SoundGraph.Proofs.Expansion.Origins
import SoundGraph.Proofs.Traversal.Composed

/-! The table that the expansion of a sketch ends with. It starts with one node for each control group, in
their order. What follows has been added for the pending nodes. -/

namespace SoundGraph

open Expanding Expansion

namespace Sketch

variable {s : Sketch} {limit : Nat} {x x' : Expansion} {progress : Array Progress}

/-- The expansion of a pending node may ask for an instance of `d`. -/
def AsksFor (s : Sketch) (d : Descriptor) : Prop :=
  ∃ node ∈ s.pending.toList, ∃ signals, (node.generator.script node.rule signals).AsksFor d

def controlNodes (s : Sketch) : List EmittedNode := s.groups.toList.map controlNode

def controlTable (s : Sketch) : Expansion := { nodes := s.groups.map controlNode, constants := .empty }

theorem toList_controlTable (s : Sketch) : s.controlTable.nodes.toList = s.controlNodes := Array.toList_map

/-- Control nodes are kept apart and read nothing. -/
theorem of_mem_controlNodes {n : EmittedNode} (h : n ∈ s.controlNodes) : n.flags.pure = false ∧ n.inputs = [] := by
  obtain ⟨group, -, rfl⟩ := List.mem_map.1 h
  exact ⟨rfl, rfl⟩

theorem eq_of_emitControls {groups : List ControlGroup}
    (h : (groups.forM fun g => discard (push limit (controlNode g))) x = .ok () x') :
    x' = { x with nodes := x.nodes ++ (groups.map controlNode).toArray } := by
  induction groups generalizing x with
  | nil =>
    cases h
    simp
  | cons g groups ih =>
    obtain ⟨⟨⟩, x₁, hpush, hrest⟩ := run_bind_eq_ok_iff.1 h
    obtain ⟨i, x₂, hpush, hdone⟩ := run_bind_eq_ok_iff.1 hpush
    cases hdone
    obtain ⟨-, rfl⟩ := run_push_eq_ok hpush
    rw [ih hrest]
    simp

theorem controlTable_of_emitControls (h : s.emitControls limit .empty = .ok () x) : x = s.controlTable := by
  have heq := eq_of_emitControls h
  simp only [Expansion.empty, Array.empty_append, ← List.map_toArray, Array.toArray_toList] at heq
  exact heq

/-- Control nodes are only ever too many. -/
theorem stops_of_emitControls {groups : List ControlGroup} {e : Abort}
    (h : (groups.forM fun g => discard (push limit (controlNode g))) x = .error e x') :
    e = .rejected (.tooManyNodes limit) ∧ limit < x.nodes.size + groups.length := by
  induction groups generalizing x with
  | nil => cases h
  | cons g groups ih =>
    rw [List.length_cons]
    rcases run_bind_eq_error_iff.1 h with hpush | ⟨_, x₁, hpush, hrest⟩
    · rcases run_bind_eq_error_iff.1 hpush with hpush | ⟨i, x₁, -, hdone⟩
      · unfold push at hpush
        split at hpush
        · cases hpush
          exact ⟨rfl, by omega⟩
        · cases hpush
      · cases hdone
    · obtain ⟨i, x₂, hpush, hdone⟩ := run_bind_eq_ok_iff.1 hpush
      cases hdone
      obtain ⟨-, rfl⟩ := run_push_eq_ok hpush
      obtain ⟨he, hlt⟩ := ih hrest
      rw [Array.size_push] at hlt
      exact ⟨he, by omega⟩

theorem ensures_emitControls (s : Sketch) (limit : Nat) :
    (s.emitControls limit).Ensures .empty (fun _ x => x = s.controlTable) fun e _ =>
      e = .rejected (.tooManyNodes limit) ∧ limit < s.groups.size := by
  unfold Ensures
  split
  · next h => exact controlTable_of_emitControls h
  · next h =>
    obtain ⟨he, hlt⟩ := stops_of_emitControls h
    rw [Array.length_toList] at hlt
    exact ⟨he, by simpa [Expansion.empty] using hlt⟩

/-- The walk starts from the control nodes. -/
theorem expand_eq_ok (h : s.expand limit .empty = .ok progress x) :
    s.walkAll limit s.controlTable = .ok progress x := by
  obtain ⟨⟨⟩, x₁, hcontrols, hwalk⟩ := run_bind_eq_ok_iff.1 h
  rwa [controlTable_of_emitControls hcontrols] at hwalk

theorem leads_walkAll_gains : (s.walkAll limit).Leads (Gains s.AsksFor) := by
  refine composes_gains.walkAll (leads_check .refl) (leads_throw .refl) fun progress node args hmem => ?_
  refine composes_gains.bind (leads_check .refl _) fun signals _ => leads_perform_gains fun d hd => ?_
  exact ⟨node, hmem, signals, hd⟩

theorem gains_expand (h : s.expand limit .empty = .ok progress x) :
    Gains s.AsksFor s.controlTable x :=
  (leads_walkAll_gains _).of_ok (expand_eq_ok h)

/-- A node of the table is that of a control group, or it has been added for a pending node. -/
theorem added_of_expand (h : s.expand limit .empty = .ok progress x) {i : Nat} {node : EmittedNode}
    (hnode : x.nodes[i]? = some node) :
    (∃ g, s.groups[i]? = some g ∧ node = controlNode g) ∨ x.Added s.AsksFor i node := by
  have hgains := gains_expand h
  rcases Nat.lt_or_ge i s.groups.size with hlt | hge
  · have hcontrol : (s.groups.map controlNode)[i]? = some (controlNode s.groups[i]) := by simp [hlt]
    have hsame := getElem?_mono hgains.within.nodes hcontrol
    rw [hnode, Option.some.injEq] at hsame
    exact .inl ⟨s.groups[i], Array.getElem?_eq_getElem hlt, hsame⟩
  · refine .inr (hgains.added i node ?_ hnode)
    rwa [controlTable, Array.size_map]

end Sketch

end SoundGraph
