import Mathlib.Data.List.Perm.Subperm
import SoundGraph.Proofs.Expansion.Instances
import SoundGraph.Proofs.Expansion.Outlines
import SoundGraph.Proofs.Expansion.Plain

/-! What a mix adds up. It is a left fold: the first channel is the first sum, and each further channel is spread
over the sum so far, with an `Add` at the end of each path. An `Add` takes any rate, so no converter comes between,
and the table gets nothing but one `Add` after the other. At the end of a chain of first operands stands a leaf of
the first channel, whose rate goes up the chain unless a rate was asked for. -/

namespace SoundGraph

open Expanding

theorem Signal.layerWidth_of_leaves {s : Signal} (h : s.leaves = [s]) : s.layerWidth = 0 := by
  cases s with
  | bundle cs => exact absurd (h ▸ List.mem_singleton_self _) (bundle_not_mem_leaves (.bundle cs))
  | const v => rfl
  | out r => rfl

namespace Expansion

/-- The input is the leaf itself: the constant, or the output of a node. -/
inductive Reads (x : Expansion) : Signal → Input → Prop where
  | constant {v : Sample} {c : Nat} (h : x.constants.values[c]? = some v) : Reads x (.const v) (.constant c)
  | output {source : OutputRef} {rate : Rate} (h : x.outputRate source = .ok rate) :
    Reads x (.out source) (.node source)

def RunsAt (x : Expansion) (rule : RateRule) (leaf : Signal) (rate : Rate) : Prop :=
  match rule with
  | .fixed r => rate = r
  | .follow _ => x.LeafRate leaf rate

/-- The node adds `b` to `a`, and reads both as they are. -/
structure IsAdd (x : Expansion) (rule : RateRule) (a b : Signal) (node : EmittedNode) : Prop where
  name : node.name = "Add"
  flags : node.flags = {}
  inputs : ∃ i j, node.inputs = [i, j] ∧ x.Reads a i ∧ x.Reads b j
  outputs : node.outputs = #[node.rate]
  rate : x.RunsAt rule a node.rate

/-- Each of the channels in turn is spread over the sum so far, with an `Add` of the matching leaves at the end of
each path; these make up the next sum. -/
inductive Sums (x : Expansion) (rule : RateRule) : Signal → List Signal → List (Fan Nat) → Signal → Prop where
  | nil (sum : Signal) : Sums x rule sum [] [] sum
  | cons {sum channel result : Signal} {rest : List Signal} {t : Fan Nat} {ts : List (Fan Nat)}
    (hshape : t.shape = broadcast [sum, channel])
    (hadds : ∀ p i, t.at? p = some i → sum.follow p ∈ sum.leaves ∧ channel.follow p ∈ channel.leaves ∧
      ∃ node, x.nodes[i]? = some node ∧ x.IsAdd rule (sum.follow p) (channel.follow p) node)
    (hrest : Sums x rule (t.graft fun i => .out ⟨i, 0⟩) rest ts result) :
    Sums x rule sum (channel :: rest) (t :: ts) result

/-- From the leaf of a sum one comes to `start` by going to the first operand of an `Add` emitted at `n` or later,
again and again. -/
inductive ChainFrom (x : Expansion) (n : Nat) : Signal → Signal → Prop where
  | here (start : Signal) : ChainFrom x n start start
  | add {i : Nat} {node : EmittedNode} {input : Input} {inputs : List Input} {a start : Signal} (hfresh : n ≤ i)
    (hnode : x.nodes[i]? = some node) (hinputs : node.inputs = input :: inputs) (hreads : x.Reads a input)
    (h : ChainFrom x n a start) : ChainFrom x n (.out ⟨i, 0⟩) start

section Adds

variable {x x' : Expansion} {rule : RateRule} {n m : Nat}

theorem Reads.leaves {s : Signal} {input : Input} (h : x.Reads s input) : s.leaves = [s] := by
  cases h <;> rfl

theorem Reads.within {s : Signal} {input : Input} (h : x.Reads s input) (hw : x.Within x') : x'.Reads s input := by
  cases h with
  | constant h => exact .constant (getElem?_mono hw.constants h)
  | output h => exact .output (hw.outputRate h)

theorem IsAdd.within {a b : Signal} {node : EmittedNode} (h : x.IsAdd rule a b node) (hw : x.Within x') :
    x'.IsAdd rule a b node := by
  obtain ⟨i, j, hinputs, hi, hj⟩ := h.inputs
  refine ⟨h.name, h.flags, ⟨i, j, hinputs, hi.within hw, hj.within hw⟩, h.outputs, ?_⟩
  have hrate := h.rate
  cases rule with
  | fixed r => exact hrate
  | follow k => exact LeafRate.within hrate hw

/-- An input that takes any rate has no converter. -/
theorem reads_of_wired {rate : Rate} {decl : InputDecl} {s : Signal} {input : Input}
    (hany : decl.requirement = .any) (h : x.Wired n rate decl s input) : x.Reads s input := by
  cases h with
  | constant h => exact .constant h
  | direct hrate hdirect => exact .output hrate
  | converted hrate hrequired hconvert hfirst hnode =>
    rw [hany] at hrequired
    cases hrequired

theorem Wires.eq_of_any {rate : Rate} {ports : List (InputDecl × Signal)} {inputs : List Input}
    (h : x.Wires rate n ports inputs m) (hany : ∀ port ∈ ports, port.1.requirement = .any) : m = n := by
  induction h with
  | nil n => rfl
  | cons hconnects _ ih =>
    obtain ⟨hdecl, hports⟩ := List.forall_mem_cons.1 hany
    rw [ih hports]
    cases hconnects with
    | constant h => rfl
    | direct hrate hdirect => rfl
    | converted hrate hrequired hconvert hnode =>
      rw [hdecl] at hrequired
      cases hrequired

theorem Series.eq_of_any {d : Descriptor} {feeds : List (List (List Signal))} (h : x.Series d rule n feeds m)
    (hany : ∀ decl ∈ d.inputs, decl.requirement = .any) : m = n + feeds.length := by
  induction h with
  | nil n => rfl
  | cons hstands _ ih =>
    have hports : ∀ feed, ∀ port ∈ ports d.inputs feed, port.1.requirement = .any := by
      intro feed port hport
      obtain ⟨⟨decl, leaves⟩, hzip, hport⟩ := List.mem_flatMap.1 hport
      obtain ⟨leaf, -, rfl⟩ := List.mem_map.1 hport
      exact hany decl (List.of_mem_zip hzip).1
    rw [ih, hstands.inputs.eq_of_any (hports _), List.length_cons, Nat.add_assoc, Nat.add_comm 1]

theorem isAdd_of_isInstance {a b : Signal} {node : EmittedNode}
    (h : x.IsInstance n adder (mixRule rule) [[a], [b]] node) : x.IsAdd rule a b node := by
  obtain ⟨i, j, hinputs, hi, hj⟩ : ∃ i j, node.inputs = [i, j] ∧ x.Reads a i ∧ x.Reads b j := by
    have hwired := h.inputs
    generalize node.inputs = inputs at hwired
    cases hwired with
    | cons ha hrest =>
      cases hrest with
      | cons hb hnil =>
        cases hnil
        exact ⟨_, _, rfl, reads_of_wired rfl ha, reads_of_wired rfl hb⟩
  have hrate := h.rate
  refine ⟨h.name, h.flags, ⟨i, j, hinputs, hi, hj⟩, h.outputs, ?_⟩
  cases rule with
  | fixed r => exact hrate
  | follow k =>
    obtain ⟨leaf, rest, hfeed, hleaf⟩ := hrate
    cases hfeed
    exact hleaf

end Adds

end Expansion

/-- As many numbers in order as there are places have one each. -/
theorem eq_range'_of_pairwise {l : List Nat} {n : Nat} (h : l.Pairwise (· < ·))
    (hplace : ∀ i ∈ l, n ≤ i ∧ i < n + l.length) : l = List.range' n l.length := by
  have hnodup : l.Nodup := h.imp Nat.ne_of_lt
  have hsub : l ⊆ List.range' n l.length := fun i hi => List.mem_range'_1.2 (hplace i hi)
  have hperm : l.Perm (List.range' n l.length) := (hnodup.subperm hsub).perm_of_length_le (by simp)
  exact hperm.eq_of_pairwise (fun a b _ _ hab hba => absurd hab (Nat.lt_asymm hba)) h List.pairwise_lt_range'

section Mix

open Expansion

variable {limit : Nat} {rule : RateRule} {x x' : Expansion}

/-- One addition: the tree of its `Add`s, which take the places behind the table. -/
theorem sum_instantiate {sum channel result : Signal}
    (h : instantiate limit adder (mixRule rule) [sum, channel] x = .ok result x') :
    x.Within x' ∧ ∃ t : Fan Nat, t.shape = broadcast [sum, channel] ∧ result = t.graft (fun i => .out ⟨i, 0⟩) ∧
      t.labels = List.range' x.nodes.size t.labels.length ∧ x'.nodes.size = x.nodes.size + t.labels.length ∧
      ∀ p i, t.at? p = some i → sum.follow p ∈ sum.leaves ∧ channel.follow p ∈ channel.leaves ∧
        ∃ node, x'.nodes[i]? = some node ∧ x'.IsAdd rule (sum.follow p) (channel.follow p) node := by
  have hlen : [sum, channel].length = adder.inputs.length := rfl
  obtain ⟨hw, hseries⟩ := series_instantiate h
  rw [instantiate, if_pos hlen] at h
  obtain ⟨t, hshape, hresult, hemits⟩ := spreads_fanOut hlen h
  have hsize : x'.nodes.size = x.nodes.size + t.labels.length := by
    rw [hseries.eq_of_any (by decide), List.length_map, callPaths, ← hshape, t.paths_shape, t.length_paths]
  refine ⟨hw, t, hshape, hresult, ?_, hsize, fun p i hp => ?_⟩
  · refine eq_range'_of_pairwise (List.pairwise_map.2 (hemits.ordered.imp And.right)) fun i hi => ?_
    obtain ⟨e, he, rfl⟩ := List.mem_map.1 hi
    obtain ⟨hfresh, node, hnode, -⟩ := hemits.instances e he
    exact ⟨hfresh, hsize ▸ (Array.getElem?_eq_some_iff.1 hnode).1⟩
  · obtain ⟨-, node, hnode, hinst⟩ := hemits.instances _ (Fan.mem_entries_iff.2 hp)
    have hadd : x'.IsAdd rule (sum.follow p) (channel.follow p) node := isAdd_of_isInstance hinst
    obtain ⟨i, j, -, hi, hj⟩ := hadd.inputs
    refine ⟨sum.leaves_follow_subset p ?_, channel.leaves_follow_subset p ?_, node, hnode, hadd⟩
    · rw [hi.leaves]
      exact List.mem_singleton_self _
    · rw [hj.leaves]
      exact List.mem_singleton_self _

/-- By induction on the channels that are left. -/
theorem sums_addAll {sum result : Signal} {rest : List Signal}
    (h : addAll limit (mixRule rule) sum rest x = .ok result x') :
    x.Within x' ∧ ∃ ts, Sums x' rule sum rest ts result ∧
      ts.flatMap Fan.labels = List.range' x.nodes.size (x'.nodes.size - x.nodes.size) := by
  induction rest generalizing x sum with
  | nil =>
    cases h
    exact ⟨.refl _, [], .nil _, by simp⟩
  | cons channel rest ih =>
    rw [addAll, List.foldlM_cons, run_bind_eq_ok_iff] at h
    obtain ⟨next, x₁, hone, hrest⟩ := h
    obtain ⟨hw, t, hshape, rfl, hlabels, hsize, hadds⟩ := sum_instantiate hone
    obtain ⟨hw', ts, hsums, hplaces⟩ := ih hrest
    refine ⟨hw.trans hw', t :: ts, .cons hshape (fun p i hp => ?_) hsums, ?_⟩
    · obtain ⟨hsum, hchannel, node, hnode, hadd⟩ := hadds p i hp
      exact ⟨hsum, hchannel, node, getElem?_mono hw'.nodes hnode, hadd.within hw'⟩
    · have hle := hw'.size_le
      rw [List.flatMap_cons, hplaces, hlabels, hsize, List.range'_append_1]
      congr 1
      omega

namespace Expansion

variable {n : Nat} {first sum result : Signal} {rest : List Signal} {ts : List (Fan Nat)}

/-- Each leaf of the sum has a start among the leaves of the first channel, and its rate from there if none was
asked for. -/
def Started (x : Expansion) (rule : RateRule) (n : Nat) (first sum : Signal) : Prop :=
  ∀ leaf ∈ sum.leaves, ∃ start ∈ first.leaves, x.ChainFrom n leaf start ∧
    ∀ rate, x.RunsAt rule leaf rate → x.RunsAt rule start rate

/-- An `Add` has the start of its first operand, and so has its output. -/
theorem Sums.started (h : x.Sums rule sum rest ts result) (hstarted : x.Started rule n first sum)
    (hfresh : ∀ i ∈ ts.flatMap Fan.labels, n ≤ i) :
    ∀ i ∈ ts.flatMap Fan.labels, ∃ node, x.nodes[i]? = some node ∧ node.name = "Add" ∧
      ∃ start ∈ first.leaves, x.ChainFrom n (.out ⟨i, 0⟩) start ∧ x.RunsAt rule start node.rate := by
  induction h with
  | nil sum => exact List.forall_mem_nil _
  | @cons sum channel result rest t ts hshape hadds hrest ih =>
    rw [List.flatMap_cons, List.forall_mem_append] at hfresh ⊢
    have hadd : ∀ i ∈ t.labels, ∃ node, x.nodes[i]? = some node ∧ node.name = "Add" ∧
        node.outputs = #[node.rate] ∧ ∃ start ∈ first.leaves, x.ChainFrom n (.out ⟨i, 0⟩) start ∧
          x.RunsAt rule start node.rate := by
      intro i hi
      obtain ⟨⟨p, i⟩, he, rfl⟩ := List.mem_map.1 hi
      obtain ⟨hsum, -, node, hnode, hadd⟩ := hadds p i (Fan.mem_entries_iff.1 he)
      obtain ⟨input, input', hinputs, hreads, -⟩ := hadd.inputs
      obtain ⟨start, hstart, hchain, hrate⟩ := hstarted _ hsum
      exact ⟨node, hnode, hadd.name, hadd.outputs, start, hstart, .add (hfresh.1 i hi) hnode hinputs hreads hchain,
        hrate _ hadd.rate⟩
    refine ⟨fun i hi => ?_, ih ?_ hfresh.2⟩
    · obtain ⟨node, hnode, hname, -, hstart⟩ := hadd i hi
      exact ⟨node, hnode, hname, hstart⟩
    · intro leaf hleaf
      rw [Fan.leaves_graft] at hleaf
      obtain ⟨e, he, hleaf⟩ := List.mem_flatMap.1 hleaf
      obtain rfl := List.mem_singleton.1 hleaf
      obtain ⟨node, hnode, -, houtputs, start, hstart, hchain, hrate⟩ := hadd e.2 (List.mem_map_of_mem he)
      refine ⟨start, hstart, hchain, fun rate hruns => ?_⟩
      cases rule with
      | fixed r => exact hruns
      | follow k =>
        -- the rate of the output is that of the node
        cases hruns with
        | out hout =>
          obtain ⟨target, htarget, hslot⟩ := outputRate_eq_ok_iff.1 hout
          obtain rfl := Option.some.inj (hnode.symm.trans htarget)
          simp only [houtputs, List.getElem?_toArray, List.getElem?_cons_zero, Option.some.injEq] at hslot
          exact hslot ▸ hrate

/-- The sums have the outlines that the outlines of the channels make up. -/
theorem Sums.outline_eq (h : x.Sums rule sum rest ts result) :
    result.outline = rest.foldl (fun t c => broadcast [t.blank, c]) sum.outline := by
  induction h with
  | nil sum => rfl
  | @cons sum channel result rest t ts hshape hadds hrest ih =>
    have hblank : broadcast [sum.outline.blank, channel] = broadcast [sum, channel] :=
      broadcast_congr (by simp [Fan.outline_blank])
    rw [ih, List.foldl_cons, hblank, ← hshape, Fan.outline_graft fun _ => rfl]

/-- With leaves only, each addition is one node. -/
theorem Sums.of_leaves (h : x.Sums rule sum rest ts result) (hsum : sum.leaves = [sum])
    (hrest : ∀ c ∈ rest, c.leaves = [c]) : ts = (ts.flatMap Fan.labels).map .one ∧ ts.length = rest.length := by
  induction h with
  | nil sum => exact ⟨rfl, rfl⟩
  | @cons sum channel result rest t ts hshape hadds _ ih =>
    obtain ⟨hchannel, hrest⟩ := List.forall_mem_cons.1 hrest
    have hone : t.shape = .one () := by
      rw [hshape, broadcast_of_eq]
      simp [widest, Signal.layerWidth_of_leaves hsum, Signal.layerWidth_of_leaves hchannel]
    cases t with
    | many ts =>
      rw [Fan.shape, Fan.fold_many] at hone
      cases hone
    | one i =>
      obtain ⟨hts, hlength⟩ := ih rfl hrest
      rw [List.length_cons, List.length_cons, hlength, List.flatMap_cons, List.map_append, ← hts]
      exact ⟨rfl, rfl⟩

end Expansion

/-- A mix is the left fold of spread addition. Without channels it is zero, and a single channel is the mix of
itself; neither emits a node. Otherwise the nodes emitted are the `Add`s of the sums, one after the other and no
other node, and each runs at the rate asked for, or else at that of the leaf of the first channel from which its
chain of first operands starts. -/
theorem mix_left_fold (limit : Nat) (rule : RateRule) (args : List Signal) (x : Expansion) :
    (args.flatMap Signal.channels = [] → perform limit (mix rule args) x = .ok (.const .zero) x) ∧
    (∀ c, args.flatMap Signal.channels = [c] → perform limit (mix rule args) x = .ok c x) ∧
    ∀ first rest result x', args.flatMap Signal.channels = first :: rest →
      perform limit (mix rule args) x = .ok result x' →
      x.Within x' ∧ ∃ ts : List (Fan Nat), x'.Sums rule first rest ts result ∧
        result.outline = rest.foldl (fun t c => broadcast [t.blank, c]) first.outline ∧
        ts.flatMap Fan.labels = List.range' x.nodes.size (x'.nodes.size - x.nodes.size) ∧
        (∀ i, x.nodes.size ≤ i → i < x'.nodes.size → ∃ node, x'.nodes[i]? = some node ∧ node.name = "Add" ∧
          ∃ start ∈ first.leaves, x'.ChainFrom x.nodes.size (.out ⟨i, 0⟩) start ∧
            x'.RunsAt rule start node.rate) ∧
        ((∀ c ∈ first :: rest, c.leaves = [c]) →
          x'.nodes.size = x.nodes.size + rest.length ∧ ts = (List.range' x.nodes.size rest.length).map .one) := by
  rw [perform_mix]
  refine ⟨fun h => by rw [h]; rfl, fun c h => by rw [h]; rfl, fun first rest result x' h hok => ?_⟩
  rw [h] at hok
  obtain ⟨hw, ts, hsums, hplaces⟩ := sums_addAll hok
  have hle := hw.size_le
  have hmem : ∀ i, i ∈ ts.flatMap Fan.labels ↔ x.nodes.size ≤ i ∧ i < x'.nodes.size := by
    intro i
    rw [hplaces, List.mem_range'_1]
    omega
  have hstarted : x'.Started rule x.nodes.size first first := fun leaf hleaf =>
    ⟨leaf, hleaf, .here leaf, fun _ => id⟩
  refine ⟨hw, ts, hsums, hsums.outline_eq, hplaces, fun i hi hlt => ?_, fun hleaves => ?_⟩
  · exact hsums.started hstarted (fun i hi => ((hmem i).1 hi).1) i ((hmem i).2 ⟨hi, hlt⟩)
  · obtain ⟨hfirst, hrest⟩ := List.forall_mem_cons.1 hleaves
    obtain ⟨hts, hlength⟩ := hsums.of_leaves hfirst hrest
    have hcount : x'.nodes.size - x.nodes.size = rest.length := by
      rw [← hlength, hts, List.length_map, hplaces, List.length_range']
    rw [hplaces, hcount] at hts
    exact ⟨by omega, hts⟩

end Mix

def unevenArgs : List Signal :=
  [.bundle [.bundle [.out ⟨0, 0⟩, .out ⟨1, 0⟩], .out ⟨1, 0⟩, .bundle [.out ⟨1, 0⟩, .out ⟨0, 0⟩, .out ⟨1, 0⟩]]]

theorem mix_left_fold_uneven :
    ∃ result x', ∃ ts : List (Fan Nat), perform 9 (mix (.follow 0) unevenArgs) noises = .ok result x' ∧
      (x'.nodes.toList.drop 2).map (fun node => (node.inputs, node.rate)) =
        [([.node ⟨0, 0⟩, .node ⟨1, 0⟩], .audio), ([.node ⟨1, 0⟩, .node ⟨1, 0⟩], .control),
          ([.node ⟨2, 0⟩, .node ⟨1, 0⟩], .audio), ([.node ⟨3, 0⟩, .node ⟨0, 0⟩], .control),
          ([.node ⟨2, 0⟩, .node ⟨1, 0⟩], .audio)] ∧
      result.outline = .many [.one (), .one (), .one ()] ∧ ts.flatMap Fan.labels = [2, 3, 4, 5, 6] := by
  have hemitted : (match perform 9 (mix (.follow 0) unevenArgs) noises with
      | .ok _ x => (x.nodes.toList.drop 2).map fun node => (node.inputs, node.rate)
      | .error _ _ => []) =
        [([.node ⟨0, 0⟩, .node ⟨1, 0⟩], .audio), ([.node ⟨1, 0⟩, .node ⟨1, 0⟩], .control),
          ([.node ⟨2, 0⟩, .node ⟨1, 0⟩], .audio), ([.node ⟨3, 0⟩, .node ⟨0, 0⟩], .control),
          ([.node ⟨2, 0⟩, .node ⟨1, 0⟩], .audio)] := by decide +kernel
  cases hx : perform 9 (mix (.follow 0) unevenArgs) noises with
  | ok result x' =>
    rw [hx] at hemitted
    obtain ⟨-, ts, -, houtline, hlabels, -⟩ :=
      (mix_left_fold 9 (.follow 0) unevenArgs noises).2.2 _ _ result x' rfl hx
    have hcount : x'.nodes.size - 2 = 5 := by simpa using congrArg List.length hemitted
    refine ⟨result, x', ts, rfl, hemitted, houtline.trans ?_, hlabels.trans ?_⟩
    · cbv
    · change List.range' 2 (x'.nodes.size - 2) = _
      rw [hcount]
      rfl
  | error e x' =>
    rw [hx] at hemitted
    cases hemitted

end SoundGraph
