import SoundGraph.Proofs.Compile.Controls
import SoundGraph.Proofs.Schedule.Appended
import SoundGraph.Proofs.Traversal.Continuation

/-! Compiling a sketch and compiling it again after more calls. As long as no control is declared in between,
the control nodes are the same, the nodes of the old sketch are expanded first and as before, and what
comes behind them in the table changes nothing in front. -/

namespace SoundGraph

theorem stages_of_order {nodes : Array EmittedNode} {constants pool : Array Sample} {out : List EmittedNode}
    (h : Backward constants nodes) (horder : order nodes constants = .ok (out, pool)) :
    ∃ m, Merge.ofNodes nodes.toList = .ok m ∧ ReadsKept m.kept ∧
      renumber m.kept constants (survivors m.kept).toArray = .ok (out, pool) := by
  obtain ⟨m, hm, hcov⟩ := Merge.covers_ofNodes fun _ _ hn => h.reads_lt hn
  rw [order_eq h, hm] at horder
  exact ⟨m, hm, hcov.readsKept fun _ _ hn => h.reads_lt hn, mapError_eq_ok_iff.1 horder⟩

/-- Ordering a continued table. -/
theorem order_mono {x x' : Expansion} {out out' : List EmittedNode} {pool pool' : Array Sample} (hw : x.Within x')
    (h : Backward x.constants.values x.nodes) (h' : Backward x'.constants.values x'.nodes)
    (horder : order x.nodes x.constants.values = .ok (out, pool))
    (horder' : order x'.nodes x'.constants.values = .ok (out', pool')) :
    out <+: out' ∧ pool.toList <+: pool'.toList := by
  obtain ⟨m, hm, hread, hren⟩ := stages_of_order h horder
  obtain ⟨m', hm', -, hren'⟩ := stages_of_order h' horder'
  exact renumber_mono (Merge.precedes_ofNodes hw.nodes hm hm').kept hw.constants hread hren hren'

namespace Sketch

theorem Continues.controlPool_eq {s s' : Sketch} (h : s.Continues s') : s'.controlPool = s.controlPool := by
  simp only [controlPool, groupOffsets, h.controls, h.groups]

/-- Control nodes read nothing. -/
theorem sound_controlTable (s : Sketch) : s.controlTable.Sound := by
  have hnone : ∀ node ∈ s.controlTable.nodes.toList, node.inputs = [] := by
    intro node hnode
    rw [toList_controlTable] at hnode
    exact (of_mem_controlNodes hnode).2
  refine ⟨fun i node hi input hin => ?_, fun node hnode input hin => ?_⟩
  · rw [← Array.getElem?_toList] at hi
    rw [hnone node (List.mem_of_getElem? hi)] at hin
    cases hin
  · rw [hnone node hnode] at hin
    cases hin

theorem Continues.within_of_expand {s s' : Sketch} (h : s.Continues s') {limit : Nat} {p p' : Array Progress}
    {x x' : Expansion} (hx : s.expand limit .empty = .ok p x) (hx' : s'.expand limit .empty = .ok p' x') :
    x.Within x' := by
  have hsame : s'.controlTable = s.controlTable := by rw [controlTable, h.groups, ← controlTable]
  have hwalk := expand_eq_ok hx
  have hwalk' := expand_eq_ok hx'
  rw [hsame] at hwalk'
  exact h.within_of_walkAll s.sound_controlTable hwalk hwalk'

/-- Calls that declare no control leave what has been compiled at the head of what is compiled after them: the
nodes and the constants are those of the first graph and others behind them, and the controls are the same. -/
theorem compile_appended (s : Sketch) (calls : List Call) (limit : Nat)
    (hcalls : ∀ call ∈ calls, ∀ name rate default, call ≠ .control name rate default) {g g' : Graph}
    (hg : s.compile limit = .ok g) (hg' : (s.run calls).compile limit = .ok g') :
    g.nodes.toList <+: g'.nodes.toList ∧ g.constants.toList <+: g'.constants.toList ∧
      g'.controls = g.controls := by
  obtain ⟨progress, x, out, pool, controls, hx, horder, hpool, rfl⟩ := stages_of_compile hg
  obtain ⟨progress', x', out', pool', controls', hx', horder', hpool', rfl⟩ := stages_of_compile hg'
  have hdefined := (acyclic_of_walkAll (expand_eq_ok hx)).2
  have hcont : s.Continues (s.run calls) := (Continues.refl s).run hdefined hcalls
  obtain ⟨hnodes, hconstants⟩ := order_mono (hcont.within_of_expand hx hx') (sound_expand hx).backward
    (sound_expand hx').backward horder horder'
  refine ⟨?_, hconstants, ?_⟩
  · simpa using hnodes.map EmittedNode.toNode
  · rw [hcont.controlPool_eq, hpool] at hpool'
    exact (Except.ok.inj hpool').symm

def laterCalls : List Call :=
  let filter : Generator := ⟨{ name := "LPF", rate := .follow 0, inputs := [⟨"in", .matchAudio, false⟩] }, none⟩
  [.declare filter, .add ⟨adder, none⟩ [.pending 0, .out ⟨0, 0⟩], .define 1 [.pending 2], .define 0 []]

theorem compile_appended_filter :
    ∃ g g', (({} : Sketch).run interleavedCalls).compile 8 = .ok g ∧
      ((({} : Sketch).run interleavedCalls).run laterCalls).compile 8 = .ok g' ∧
      g.nodes.toList <+: g'.nodes.toList ∧ g.constants.toList <+: g'.constants.toList ∧
      g'.controls = g.controls := by
  have hgrouped := grouped_empty.run interleavedCalls
  obtain ⟨g, hg⟩ := hgrouped.exists_compile 8 (by cbv)
  obtain ⟨g', hg'⟩ := (hgrouped.run laterCalls).exists_compile 8 (by cbv)
  refine ⟨g, g', hg, hg', compile_appended _ laterCalls 8 (fun call hcall name rate default heq => ?_) hg hg'⟩
  subst heq
  simp [laterCalls] at hcall

end Sketch

end SoundGraph
