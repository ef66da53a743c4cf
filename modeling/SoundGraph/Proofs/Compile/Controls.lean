import SoundGraph.Proofs.Compile.Validity
import SoundGraph.Proofs.Sketch.Handles
import SoundGraph.Proofs.Traversal.Origins

/-! The controls of a compiled graph. The nodes of the control groups are emitted first, they read nothing and
none of them is merged, so ordering leaves them where they are; and the control array counts the slots of
the groups as these nodes list them. A handle that was given out while later groups, nodes and merges were
not yet known is therefore still right in the graph. -/

namespace SoundGraph

open Expansion

/-- The first kept nodes, if none is dropped among them. -/
theorem range_prefix_survivors {kept : Array (Option EmittedNode)} {n : Nat} (h : ∀ i < n, IsKept kept i) :
    List.range n <+: survivors kept := by
  have hle : n ≤ kept.size := by
    by_contra hlt
    obtain ⟨node, hnode⟩ := h kept.size (by omega)
    simp at hnode
  obtain ⟨k, hk⟩ := Nat.exists_eq_add_of_le hle
  have hfirst : (List.range n).filter (fun i => (kept.getD i none).isSome) = List.range n := by
    rw [List.filter_eq_self]
    intro i hi
    obtain ⟨node, hnode⟩ := h i (List.mem_range.1 hi)
    rw [Array.getD_eq_getD_getElem?, hnode]
    rfl
  rw [survivors, hk, List.range_add, List.filter_append, hfirst]
  exact List.prefix_append _ _

/-- Impure nodes without inputs at the head of a table stay where they are. -/
theorem head_prefix_of_order {nodes : Array EmittedNode} {constants pool : Array Sample}
    {head out : List EmittedNode} (h : Backward constants nodes) (horder : order nodes constants = .ok (out, pool))
    (hhead : head <+: nodes.toList) (himpure : ∀ n ∈ head, n.flags.pure = false ∧ n.inputs = []) :
    head <+: out := by
  obtain ⟨m, hm, hcov⟩ := Merge.covers_ofNodes fun _ _ hn => h.reads_lt hn
  obtain ⟨out', u, hok, -, hout⟩ := order_slotted h hm hcov
  rw [horder] at hok
  cases hok
  have hkept : ∀ (i : Nat) (hi : i < head.length), m.kept[i]? = some (some head[i]) := by
    intro i hi
    obtain ⟨hpure, hinputs⟩ := himpure head[i] (List.getElem_mem hi)
    exact hcov.kept_of_impure (List.prefix_iff_getElem?.1 hhead i hi) hpure hinputs
  have hfirst := range_prefix_survivors fun i hi => ⟨head[i], hkept i hi⟩
  refine List.prefix_iff_getElem?.2 fun i hi => ?_
  have hplace := List.prefix_iff_getElem?.1 hfirst i (by simpa using hi)
  rw [List.getElem_range] at hplace
  obtain ⟨n', hn', n, hn, inputs, rfl, hslotted⟩ := exists_right_of_forall₂ hout hplace
  rw [hkept i hi] at hn
  cases hn
  -- a node that reads nothing has no input to renumber
  rw [(himpure head[i] (List.getElem_mem hi)).2] at hslotted
  cases hslotted
  rw [hn', ← (himpure head[i] (List.getElem_mem hi)).2]

def rateNode (ds : List Declared) (rate : Rate) : Node :=
  { name := rate.controlName, rate, outputs := Array.replicate (ds.countP (·.rate = rate)) rate }

def Control.declared (c : Control) : Declared := ⟨c.name, c.rate, c.default⟩

namespace Sketch

variable {s : Sketch} {limit : Nat} {g : Graph}

theorem controlNodes_prefix_compile (h : s.compile limit = .ok g) :
    s.groups.toList.map (fun group => (controlNode group).toNode) <+: g.nodes.toList := by
  obtain ⟨progress, x, out, pool, controls, hx, horder, -, rfl⟩ := stages_of_compile h
  have hhead : s.controlNodes <+: x.nodes.toList := s.toList_controlTable ▸ (gains_expand hx).within.nodes
  have hout := head_prefix_of_order (sound_expand hx).backward horder hhead fun n hn => of_mem_controlNodes hn
  simpa [controlNodes, Function.comp_def] using hout.map EmittedNode.toNode

theorem node_of_group (h : s.compile limit = .ok g) {k : Nat} {group : ControlGroup}
    (hk : s.groups[k]? = some group) : g.nodes[k]? = some (controlNode group).toNode := by
  obtain ⟨hlt, rfl⟩ := Array.getElem?_eq_some_iff.1 hk
  have hnode := List.prefix_iff_getElem?.1 (controlNodes_prefix_compile h) k (by simpa using hlt)
  simpa using hnode

/-- The slots in front of a group are the outputs of the nodes in front of its node. -/
theorem before_eq_outputs (h : s.compile limit = .ok g) {k : Nat} (hk : k ≤ s.groups.size) :
    s.before k = ((g.nodes.toList.take k).map (·.outputs.size)).sum := by
  obtain ⟨rest, hrest⟩ := controlNodes_prefix_compile h
  rw [← hrest, List.take_append_of_le_length (by simpa using hk), ← List.map_take, List.map_map, before,
    ← List.map_take]
  congr 1
  exact List.map_congr_left fun group _ => Array.size_replicate.symm

/-- Names tell controls apart. -/
theorem find?_of_nodup {cs : List Control} (h : (cs.map Control.name).Nodup) {c : Control} (hc : c ∈ cs) :
    cs.find? (·.name = c.name) = some c := by
  obtain ⟨d, hd⟩ : ∃ d, cs.find? (·.name = c.name) = some d := by
    rw [← Option.isSome_iff_exists, List.find?_isSome]
    exact ⟨c, hc, by simp⟩
  have hname : d.name = c.name := by simpa using List.find?_some hd
  rw [hd, List.inj_on_of_nodup_map h (List.mem_of_find?_eq_some hd) hc hname]

/-- The place of a declared control is a slot of the node of its rate, and the control array has it under its
name. -/
theorem Grouped.found_of_compile (hs : s.Grouped) (h : s.compile limit = .ok g)
    (hnames : (g.controls.toList.map Control.name).Nodup) {decl : ControlDecl} (hdecl : decl ∈ s.controls.toList) :
    (∃ node, g.nodes[decl.group]? = some node ∧ node.name = decl.rate.controlName ∧ node.rate = decl.rate ∧
      node.inputs = [] ∧ decl.slot < node.outputs.size) ∧
    ∃ c, g.control? decl.name = some c ∧ c.rate = decl.rate ∧ c.default = decl.default ∧
      c.index = ((g.nodes.toList.take decl.group).map (·.outputs.size)).sum + decl.slot := by
  obtain ⟨group, hgroup, hrate, hslot⟩ := hs.group decl hdecl
  refine ⟨⟨_, node_of_group h hgroup, ?_, hrate, rfl, ?_⟩, s.recordOf decl, ?_, rfl, rfl, ?_⟩
  · rw [← hrate]
    rfl
  · change decl.slot < (Array.replicate group.count group.rate).size
    rwa [Array.size_replicate]
  · obtain ⟨progress, x, out, pool, controls, -, -, hpool, rfl⟩ := stages_of_compile h
    have hfound := (hs.perm_of_controlPool hpool).mem_iff.2 (List.mem_map_of_mem hdecl)
    have hlookup := find?_of_nodup hnames hfound
    rwa [Array.find?_toList] at hlookup
  · rw [← before_eq_outputs h (Nat.le_of_lt (Array.getElem?_eq_some_iff.1 hgroup).1)]
    rfl

/-- The handles of a run of calls stay right. A control has a slot of its own in the node of its rate, the
graph holds it under its name with its rate and the bits of its default, and its index counts the outputs in
front of that slot. The control array holds exactly the controls declared with success, each at its own index,
and the nodes of their rates come first, in the order of the first declaration at each rate. -/
theorem compile_control_handles (calls : List Call) (limit : Nat) {g : Graph}
    (h : (({} : Sketch).run calls).compile limit = .ok g) :
    (∀ before after name rate default r, calls = before ++ .control name rate default :: after →
      ((({} : Sketch).run before).perform (.control name rate default)).1 = .ok (some (.out r)) →
      (∃ node, g.nodes[r.node]? = some node ∧
        node.name = (if rate = .audio then "AudioControl" else "Control") ∧ node.rate = rate ∧
        node.inputs = [] ∧ r.output < node.outputs.size) ∧
      ∃ c, g.control? name = some c ∧ c.rate = rate ∧ c.default = default ∧
        c.index = ((g.nodes.toList.take r.node).map (·.outputs.size)).sum + r.output) ∧
    (g.controls.toList.map Control.declared).Perm (({} : Sketch).declared calls) ∧
    ((({} : Sketch).declared calls).map Declared.name).Nodup ∧
    (∀ (i : Nat) c, g.controls[i]? = some c → c.index = i) ∧
    (firstRates (({} : Sketch).declared calls)).map (rateNode (({} : Sketch).declared calls)) <+:
      g.nodes.toList := by
  have hgrouped := grouped_empty.run calls
  have hrecords := records_empty.run calls
  rw [List.nil_append] at hrecords
  obtain ⟨progress, x, out, pool, controls, -, -, hpool, heq⟩ := stages_of_compile h
  have hcontrols : g.controls = controls := by rw [heq]
  have hdeclared : (g.controls.toList.map Control.declared).Perm (({} : Sketch).declared calls) := by
    have hmapped := (hgrouped.perm_of_controlPool hpool).map Control.declared
    rw [List.map_map] at hmapped
    rw [hcontrols, ← hrecords.controls]
    exact hmapped
  have hnames : (g.controls.toList.map Control.name).Nodup := by
    have hnames := ((hdeclared.map Declared.name).nodup_iff).2 hrecords.names
    rwa [List.map_map] at hnames
  refine ⟨fun before after name rate default r hcalls hok => ?_, hdeclared, hrecords.names, fun i c hc => ?_, ?_⟩
  · obtain ⟨⟨node, hnode, hname, hrest⟩, hfound⟩ :=
      hgrouped.found_of_compile h hnames (mem_controls_run hcalls hok)
    refine ⟨⟨node, hnode, ?_, hrest⟩, hfound⟩
    rw [hname]
    cases rate <;> rfl
  · rw [hcontrols] at hc
    obtain ⟨hlt, rfl⟩ := Array.getElem?_eq_some_iff.1 hc
    have hindex := congrArg (·[i]?) (hgrouped.index_of_controlPool hpool)
    simpa [hlt] using hindex
  · have hnodes := controlNodes_prefix_compile h
    rwa [hrecords.groups_eq, List.map_map] at hnodes

def interleavedCalls : List Call :=
  let noise : Descriptor := { name := "WhiteNoise", rate := .fixed .audio, flags := { individual := true } }
  [.control "freq" .control .zero, .add ⟨noise, none⟩ [], .control "freq" .audio .zero,
    .control "gate" .audio .zero, .control "amp" .control .zero, .control "seed" .demand .zero]

theorem compile_control_handles_interleaved :
    ∃ g, (({} : Sketch).run interleavedCalls).compile 8 = .ok g ∧
      (∃ c, g.control? "gate" = some c ∧ c.rate = .audio ∧ c.default = .zero ∧
        c.index = ((g.nodes.toList.take 1).map (·.outputs.size)).sum) ∧
      [{ name := "Control", rate := .control, outputs := #[.control, .control] },
        { name := "AudioControl", rate := .audio, outputs := #[.audio] }] <+: g.nodes.toList := by
  obtain ⟨g, hg⟩ := (grouped_empty.run interleavedCalls).exists_compile 8 (by cbv)
  obtain ⟨hhandles, -, -, -, hnodes⟩ := compile_control_handles interleavedCalls 8 hg
  obtain ⟨-, hfound⟩ := hhandles (interleavedCalls.take 3) (interleavedCalls.drop 4) "gate" .audio .zero ⟨1, 0⟩ rfl
    (by cbv)
  have hdeclared : (firstRates (({} : Sketch).declared interleavedCalls)).map
      (rateNode (({} : Sketch).declared interleavedCalls)) =
      [{ name := "Control", rate := .control, outputs := #[.control, .control] },
        { name := "AudioControl", rate := .audio, outputs := #[.audio] }] := by cbv
  exact ⟨g, hg, hfound, hdeclared ▸ hnodes⟩

end Sketch

end SoundGraph
