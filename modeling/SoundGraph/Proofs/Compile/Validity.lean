import SoundGraph.Proofs.Compile.Order
import SoundGraph.Proofs.Graph.Validity
import SoundGraph.Proofs.Sketch.Controls
import SoundGraph.Proofs.Traversal.Growth

/-! Compiled graphs are well formed. The table that expansion leaves is sound, ordering carries every
reference along, and the places of the controls follow from how calls group them; nothing is asked of the
descriptors, the arguments or the hooks. -/

namespace SoundGraph

/-- A sound table read back through its ordering: each input names something in front of its reader. -/
theorem Simulation.resolves {place : Nat → Nat} {x : Expansion} {out : List EmittedNode}
    {pool : Array Sample} (h : Simulation place x.nodes x.constants.values out pool) (hx : x.Sound)
    (controls : Array Control) {k : Nat} {n' : EmittedNode} (hk : out[k]? = some n') {input' : Input}
    (hin : input' ∈ n'.inputs) :
    Graph.Resolves ⟨pool, controls, (out.map EmittedNode.toNode).toArray⟩ k input' := by
  obtain ⟨i, hi, rfl⟩ := h.onto k (List.getElem?_eq_some_iff.1 hk).1
  have hn : x.nodes[i]? = some x.nodes[i] := Array.getElem?_eq_getElem hi
  obtain ⟨_, hk', hsame⟩ := h.same i _ hn
  obtain rfl := Option.some.inj (hk.symm.trans hk')
  obtain ⟨input, hmem, hinput⟩ := exists_left_of_forall₂ hsame.inputs hin
  have hread := hx.readable x.nodes[i] (by simp) input hmem
  cases hinput with
  | constant hold hnew => exact (Array.getElem?_eq_some_iff.1 hnew).1
  | node j output =>
    obtain ⟨target, htarget, hout⟩ := hread
    obtain ⟨target', ht', hsame'⟩ := h.same j target htarget
    refine ⟨h.earlier i _ hn j ⟨output, hmem⟩, target'.toNode, ?_, ?_⟩
    · simp [ht']
    · rwa [← hsame'.outputs] at hout

namespace Sketch

variable {s : Sketch} {limit : Nat}

/-- The stages of a compilation that succeeds. -/
theorem stages_of_compile {g : Graph} (h : s.compile limit = .ok g) :
    ∃ progress x out pool controls, s.expand limit .empty = .ok progress x ∧
      order x.nodes x.constants.values = .ok (out, pool) ∧ s.controlPool = .ok controls ∧
      g = ⟨pool, controls, (out.map EmittedNode.toNode).toArray⟩ := by
  unfold compile at h
  cases hx : s.expand limit .empty with
  | error e x =>
    rw [hx] at h
    cases h
  | ok progress x =>
    simp only [hx, bind_eq_ok_iff] at h
    obtain ⟨⟨out, pool⟩, horder, controls, hcontrols, h⟩ := h
    cases h
    exact ⟨progress, x, out, pool, controls, rfl, horder, hcontrols, rfl⟩

/-- A node of a compiled graph is, its inputs apart, a node of the expanded table. -/
theorem source_of_compile {g : Graph} (h : s.compile limit = .ok g) {node : Node}
    (hnode : node ∈ g.nodes.toList) :
    ∃ progress x, s.expand limit .empty = .ok progress x ∧
      ∃ old ∈ x.nodes.toList, node.name = old.name ∧ node.rate = old.rate ∧ node.outputs = old.outputs := by
  obtain ⟨progress, x, out, pool, controls, hx, horder, -, rfl⟩ := stages_of_compile h
  obtain ⟨place, out', pool', horder', hsim⟩ := simulation_order (sound_expand hx).backward
  rw [horder] at horder'
  cases horder'
  obtain ⟨n', hn', rfl⟩ := List.mem_map.1 hnode
  obtain ⟨k, hk, rfl⟩ := List.getElem_of_mem hn'
  obtain ⟨i, hi, rfl⟩ := hsim.onto k hk
  obtain ⟨n', hplace, hsame⟩ := hsim.same i _ (Array.getElem?_eq_getElem hi)
  rw [List.getElem?_eq_getElem hk, Option.some.injEq] at hplace
  rw [hplace]
  exact ⟨progress, x, hx, x.nodes[i], Array.getElem_mem_toList hi, hsame.name, hsame.rate, hsame.outputs⟩

/-- Once everything is expanded, nothing can fail, and the graph is well formed. -/
theorem Grouped.compile_of_expand (h : s.Grouped) {progress : Array Progress} {x : Expansion}
    (hx : s.expand limit .empty = .ok progress x) :
    ∃ g, s.compile limit = .ok g ∧ g.WellFormed := by
  have hsound := sound_expand hx
  obtain ⟨place, out, pool, horder, hsim⟩ := simulation_order hsound.backward
  obtain ⟨controls, hcontrols, hplaces, hnodup⟩ := h.controlPool_places
  refine ⟨⟨pool, controls, (out.map EmittedNode.toNode).toArray⟩, ?_, ?_⟩
  · simp only [compile, hx, horder, hcontrols, bind, Except.bind]
    rfl
  · refine ⟨fun k node hk input hin => ?_, fun c hc => (hplaces c hc).1, fun c hc => (hplaces c hc).2, hnodup⟩
    obtain ⟨n', hn', rfl⟩ : ∃ n', out[k]? = some n' ∧ n'.toNode = node := by simpa using hk
    exact hsim.resolves hsound controls hn' hin

theorem Grouped.wellFormed_compile (h : s.Grouped) {g : Graph} (hg : s.compile limit = .ok g) :
    g.WellFormed := by
  obtain ⟨progress, x, -, -, -, hx, -⟩ := stages_of_compile hg
  obtain ⟨g', hg', hwf⟩ := h.compile_of_expand hx
  rw [hg] at hg'
  cases hg'
  exact hwf

def table? (s : Sketch) (limit : Nat) : Option (Array EmittedNode × Array Sample) :=
  match s.expand limit .empty with
  | .ok _ x => some (x.nodes, x.constants.values)
  | .error .. => none

theorem exists_of_table? {table : Array EmittedNode × Array Sample} (h : s.table? limit = some table) :
    ∃ progress x, s.expand limit .empty = .ok progress x ∧ table = (x.nodes, x.constants.values) := by
  unfold table? at h
  split at h
  · next progress x hx =>
    cases h
    exact ⟨progress, x, hx, rfl⟩
  · cases h

theorem Grouped.exists_compile (h : s.Grouped) (limit : Nat) (hexpands : (s.table? limit).isSome = true) :
    ∃ g, s.compile limit = .ok g := by
  obtain ⟨table, htable⟩ := Option.isSome_iff_exists.1 hexpands
  obtain ⟨progress, x, hx, -⟩ := exists_of_table? htable
  obtain ⟨g, hg, -⟩ := h.compile_of_expand hx
  exact ⟨g, hg⟩

/-- Whatever calls have led to a sketch, failing ones included, a graph compiled from it passes the
check: inputs name earlier nodes, existing outputs and existing constants, and the controls, none of them
at demand rate, take distinct places of the control array. -/
theorem validate_compile_run (calls : List Call) (limit : Nat) {g : Graph}
    (h : (({} : Sketch).run calls).compile limit = .ok g) : g.validate = .ok () ∧ g.WellFormed := by
  have hwf := (grouped_empty.run calls).wellFormed_compile h
  exact ⟨g.validate_eq_ok_iff.2 hwf, hwf⟩

/-- Calls that end with a hook whose instance fails once its converter is emitted; the hook goes on and
answers with an output that no node has. -/
def stubbornCalls : List Call :=
  let noise : Descriptor := { name := "WhiteNoise", rate := .fixed .audio, flags := { individual := true } }
  let torn : Descriptor :=
    { name := "Torn"
      rate := .fixed .audio
      inputs := [⟨"in", .exactly .audio, false⟩, ⟨"bus", .exactly .scalar, false⟩] }
  let stubborn : Hook := fun rule args => .instantiate torn rule args fun _ => .done (.ok (.out ⟨9, 9⟩))
  [.control "freq" .control .zero, .control "freq" .audio .zero, .add ⟨noise, none⟩ [],
    .add ⟨torn, some stubborn⟩ [.out ⟨0, 0⟩, .pending 0], .define 1 [.pending 0]]

theorem validate_compile_stubborn :
    ∃ g, (({} : Sketch).run stubbornCalls).compile 8 = .ok g ∧ g.validate = .ok () ∧ g.WellFormed := by
  have hemitted : (match (({} : Sketch).run stubbornCalls).expand 8 .empty with
      | .ok _ x => x.nodes.size
      | .error _ _ => 0) = 3 := by cbv
  cases hx : (({} : Sketch).run stubbornCalls).expand 8 .empty with
  | ok progress x =>
    obtain ⟨g, hg, -⟩ := (grouped_empty.run stubbornCalls).compile_of_expand hx
    exact ⟨g, hg, validate_compile_run stubbornCalls 8 hg⟩
  | error e x =>
    rw [hx] at hemitted
    cases hemitted

end Sketch

end SoundGraph
