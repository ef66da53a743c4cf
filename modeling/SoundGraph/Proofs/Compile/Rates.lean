import SoundGraph.Proofs.Compile.Validity
import SoundGraph.Proofs.Expansion.Instances
import SoundGraph.Proofs.Traversal.Origins

/-! Rates in expanded and in compiled tables. Converters are made where they are needed and nowhere else, so
what an instance reads has a rate that its input accepts. Every kind of node gives all its outputs its own
rate, and ordering keeps rates and outputs. -/

namespace SoundGraph

open Expanding Expansion

def EmittedNode.Uniform (node : EmittedNode) : Prop := ∀ rate ∈ node.outputs.toList, rate = node.rate

theorem EmittedNode.uniform_of_replicate {node : EmittedNode} {n : Nat}
    (h : node.outputs = Array.replicate n node.rate) : node.Uniform := by
  intro rate hrate
  rw [h, Array.toList_replicate] at hrate
  exact List.eq_of_mem_replicate hrate

theorem Expansion.Added.uniform {asked : Descriptor → Prop} {x : Expansion} {i : Nat} {node : EmittedNode}
    (h : x.Added asked i node) : node.Uniform := by
  cases h with
  | converter hrate hconvert => exact EmittedNode.uniform_of_replicate (n := 1) rfl
  | stands hasked h => exact EmittedNode.uniform_of_replicate h.outputs

/-- There are only these two converters. -/
theorem name_of_coercion {actual required : Rate} {name : String} (h : coercion actual required = .convert name) :
    name = controlToAudio ∨ name = audioToControl := by
  cases actual <;> cases required <;> simp [coercion] at h <;> simp [h]

namespace Sketch

variable {s : Sketch} {limit : Nat}

theorem uniform_of_expand {progress : Array Progress} {x : Expansion}
    (h : s.expand limit .empty = .ok progress x) {node : EmittedNode} (hnode : node ∈ x.nodes.toList) :
    node.Uniform := by
  obtain ⟨i, hi⟩ := List.getElem?_of_mem hnode
  rw [Array.getElem?_toList] at hi
  rcases added_of_expand h hi with ⟨g, -, rfl⟩ | hadded
  · exact EmittedNode.uniform_of_replicate rfl
  · exact hadded.uniform

theorem uniform_of_compile {g : Graph} (h : s.compile limit = .ok g) {node : Node}
    (hnode : node ∈ g.nodes.toList) : ∀ rate ∈ node.outputs.toList, rate = node.rate := by
  obtain ⟨progress, x, hx, old, hold, -, hrate, houtputs⟩ := source_of_compile h hnode
  rw [hrate, houtputs]
  exact uniform_of_expand hx hold

/-- A call that succeeds adds its instances, one for each path and in their order, and right in front of each
the converters that its leaves need at the rate of the instance, one for each such leaf and nothing else; a
constant keeps its bits. In the table of a sketch every node is that of a control group, a converter of an
output that must be converted, or an instance that a pending node has asked for, and every input of an instance
reads a constant or an output that it accepts as it is. In a compiled graph all outputs of a node are at the
rate of the node. -/
theorem expansion_rate_sound (s : Sketch) (limit : Nat) :
    (∀ d rule args x result x', instantiate limit d rule args x = .ok result x' →
      x.Within x' ∧
        x'.Series d rule x.nodes.size ((callPaths d args).map (feed d.inputs args)) x'.nodes.size) ∧
    (∀ progress x, s.expand limit .empty = .ok progress x → ∀ i node, x.nodes[i]? = some node →
      (∃ g, s.groups[i]? = some g ∧ node = controlNode g) ∨
      (∃ name required source actual, node = converter name required source ∧
        x.outputRate source = .ok actual ∧ coercion actual required = .convert name) ∨
      ∃ d rule feed first, s.AsksFor d ∧ x.Stands first i d rule feed node ∧
        List.Forall₂ (fun port input => x.Accepts node.rate port.1 input) (ports d.inputs feed) node.inputs) ∧
    ∀ g, s.compile limit = .ok g → ∀ node ∈ g.nodes.toList, ∀ rate ∈ node.outputs.toList, rate = node.rate := by
  refine ⟨fun d rule args x result x' => series_instantiate, fun progress x hx i node hnode => ?_,
    fun g hg node => uniform_of_compile hg⟩
  rcases added_of_expand hx hnode with hcontrol | hadded
  · exact .inl hcontrol
  · cases hadded with
    | converter hrate hconvert => exact .inr (.inl ⟨_, _, _, _, rfl, hrate, hconvert⟩)
    | stands hasked h => exact .inr (.inr ⟨_, _, _, _, hasked, h, h.accepts⟩)

def mixedCalls : List Call :=
  let noise : Descriptor := { name := "WhiteNoise", rate := .fixed .audio, flags := { individual := true } }
  [.control "pos" .control .zero, .add ⟨noise, none⟩ [],
    .add ⟨panner, none⟩ [.bundle [.pending 0, .out ⟨0, 0⟩], .out ⟨0, 0⟩, .bundle [.pending 0]]]

theorem expansion_rate_sound_mixed :
    ∃ progress x, (({} : Sketch).run mixedCalls).expand 9 .empty = .ok progress x ∧
      x.nodes.toList.map (fun node => (node.name, node.rate)) =
        [("Control", .control), ("WhiteNoise", .audio), ("K2A", .audio), ("Pan", .audio), ("K2A", .audio),
          ("Pan", .control)] ∧
      ∃ node d rule feed first, x.nodes[3]? = some node ∧ x.Stands first 3 d rule feed node ∧
        List.Forall₂ (fun port input => x.Accepts node.rate port.1 input) (ports d.inputs feed) node.inputs := by
  have hgroups : (({} : Sketch).run mixedCalls).groups.size = 1 := by cbv
  have hemitted : ((({} : Sketch).run mixedCalls).table? 9).map
      (fun table => table.1.toList.map fun node => (node.name, node.rate)) =
      some [("Control", .control), ("WhiteNoise", .audio), ("K2A", .audio), ("Pan", .audio), ("K2A", .audio),
        ("Pan", .control)] := by cbv
  obtain ⟨table, htable, hnames⟩ := Option.map_eq_some_iff.1 hemitted
  obtain ⟨progress, x, hx, rfl⟩ := exists_of_table? htable
  have hthird : (x.nodes.toList[3]?).map (fun node => (node.name, node.rate)) = some ("Pan", .audio) := by
    rw [← List.getElem?_map, hnames]
    rfl
  obtain ⟨node, hnode, hpan⟩ := Option.map_eq_some_iff.1 hthird
  rw [Array.getElem?_toList] at hnode
  refine ⟨progress, x, hx, hnames, node, ?_⟩
  obtain ⟨-, hnodes, -⟩ := expansion_rate_sound (({} : Sketch).run mixedCalls) 9
  rcases hnodes progress x hx 3 node hnode with ⟨g, hg, -⟩ | ⟨name, _, _, _, rfl, -, hconvert⟩ | hinstance
  · have := (Array.getElem?_eq_some_iff.1 hg).1
    omega
  · -- a panner is no converter
    have hname : name = "Pan" := congrArg Prod.fst hpan
    subst hname
    exact absurd (name_of_coercion hconvert) (by decide)
  · obtain ⟨d, rule, feed, first, -, hstands, haccepts⟩ := hinstance
    exact ⟨d, rule, feed, first, hnode, hstands, haccepts⟩

end Sketch

end SoundGraph
