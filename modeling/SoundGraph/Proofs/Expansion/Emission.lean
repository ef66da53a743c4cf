import SoundGraph.Proofs.Expansion.Outcome
import SoundGraph.Proofs.Expansion.Sound
import SoundGraph.Proofs.Success

/-! What emitting one instance adds to the table: a node with the name and the flags of its descriptor that
reads each leaf it was given, in order, and right in front of it the converters that its inputs need, one for
each leaf that cannot be read as it is. What is known about the node stays true while the table grows. -/

namespace SoundGraph

open Expanding

/-- A leaf is not a bundle. -/
theorem Signal.bundle_not_mem_leaves {channels : List Signal} (s : Signal) : bundle channels ∉ s.leaves := by
  induction s using Signal.induction with
  | const v => simp [leaves]
  | out r => simp [leaves]
  | bundle ss ih =>
    rw [leaves, leavesOf_eq, List.mem_flatMap]
    rintro ⟨s, hs, hmem⟩
    exact ih s hs hmem

namespace Expansion

/-- The rate that an instance takes over from a leaf. -/
inductive LeafRate (x : Expansion) : Signal → Rate → Prop where
  | const (v : Sample) : LeafRate x (.const v) .control
  | out {source : OutputRef} {rate : Rate} (h : x.outputRate source = .ok rate) :
    LeafRate x (.out source) rate

def RatedAs (x : Expansion) (feed : List (List Signal)) (rate : Rate) : RateRule → Prop
  | .fixed r => rate = r
  | .follow primary => ∃ leaf rest, feed[primary]? = some (leaf :: rest) ∧ x.LeafRate leaf rate

/-- How a leaf reaches an input of an instance at `rate`. A converter stands at `first` or later. -/
inductive Wired (x : Expansion) (first : Nat) (rate : Rate) (decl : InputDecl) : Signal → Input → Prop where
  | constant {v : Sample} {c : Nat} (h : x.constants.values[c]? = some v) :
    Wired x first rate decl (.const v) (.constant c)
  | direct {source : OutputRef} {actual : Rate} (hrate : x.outputRate source = .ok actual)
    (hdirect : ∀ required, decl.requirement.required rate = some required →
      coercion actual required = .direct) :
    Wired x first rate decl (.out source) (.node source)
  | converted {source : OutputRef} {actual required : Rate} {name : String} {j : Nat}
    (hrate : x.outputRate source = .ok actual) (hrequired : decl.requirement.required rate = some required)
    (hconvert : coercion actual required = .convert name) (hfirst : first ≤ j)
    (hnode : x.nodes[j]? = some (converter name required source)) :
    Wired x first rate decl (.out source) (.node ⟨j, 0⟩)

/-- The leaves that an instance is given, each with the input that it goes to. -/
def ports (decls : List InputDecl) (feed : List (List Signal)) : List (InputDecl × Signal) :=
  (decls.zip feed).flatMap fun (decl, leaves) => leaves.map (decl, ·)

/-- The node is an instance that is given the leaves of `feed`, those of each input in a list of their own. -/
structure IsInstance (x : Expansion) (first : Nat) (d : Descriptor) (rule : RateRule)
    (feed : List (List Signal)) (node : EmittedNode) : Prop where
  name : node.name = d.name
  flags : node.flags = d.flags
  rate : x.RatedAs feed node.rate rule
  inputs : List.Forall₂ (fun port input => x.Wired first node.rate port.1 port.2 input)
    (ports d.inputs feed) node.inputs
  outputs : node.outputs = Array.replicate (d.outputCount (feed.map List.length)) node.rate

def Converts (x : Expansion) (j : Nat) (inputs : List Input) : Prop :=
  (∃ name rate source, x.nodes[j]? = some (converter name rate source)) ∧ .node ⟨j, 0⟩ ∈ inputs

/-- How a leaf is connected when the next free place is `n`: a converter that it needs takes that place, and
`m` is free next. -/
inductive Connects (x : Expansion) (rate : Rate) (decl : InputDecl) (n : Nat) : Signal → Input → Nat → Prop where
  | constant {v : Sample} {c : Nat} (h : x.constants.values[c]? = some v) :
    Connects x rate decl n (.const v) (.constant c) n
  | direct {source : OutputRef} {actual : Rate} (hrate : x.outputRate source = .ok actual)
    (hdirect : ∀ required, decl.requirement.required rate = some required →
      coercion actual required = .direct) :
    Connects x rate decl n (.out source) (.node source) n
  | converted {source : OutputRef} {actual required : Rate} {name : String}
    (hrate : x.outputRate source = .ok actual) (hrequired : decl.requirement.required rate = some required)
    (hconvert : coercion actual required = .convert name)
    (hnode : x.nodes[n]? = some (converter name required source)) :
    Connects x rate decl n (.out source) (.node ⟨n, 0⟩) (n + 1)

/-- From place `n` up to place `m` stand the converters that the leaves need, one after the other, and nothing
else. -/
inductive Wires (x : Expansion) (rate : Rate) : Nat → List (InputDecl × Signal) → List Input → Nat → Prop where
  | nil (n : Nat) : Wires x rate n [] [] n
  | cons {decl : InputDecl} {leaf : Signal} {input : Input} {ports : List (InputDecl × Signal)}
    {inputs : List Input} {n k m : Nat} (h : x.Connects rate decl n leaf input k)
    (hrest : Wires x rate k ports inputs m) : Wires x rate n ((decl, leaf) :: ports) (input :: inputs) m

/-- The node at place `last` is an instance that is given the leaves of `feed`, and from `first` on stand its
converters. -/
structure Stands (x : Expansion) (first last : Nat) (d : Descriptor) (rule : RateRule)
    (feed : List (List Signal)) (node : EmittedNode) : Prop where
  place : x.nodes[last]? = some node
  name : node.name = d.name
  flags : node.flags = d.flags
  rate : x.RatedAs feed node.rate rule
  inputs : x.Wires node.rate first (ports d.inputs feed) node.inputs last
  outputs : node.outputs = Array.replicate (d.outputCount (feed.map List.length)) node.rate

variable {x x' x₁ : Expansion} {first first' n m k : Nat} {rate : Rate} {decl : InputDecl}
  {ports ports' : List (InputDecl × Signal)} {inputs inputs' : List Input}

theorem LeafRate.within {leaf : Signal} (h : x.LeafRate leaf rate) (hw : x.Within x') :
    x'.LeafRate leaf rate := by
  cases h with
  | const v => exact .const v
  | out h => exact .out (hw.outputRate h)

theorem RatedAs.within {feed : List (List Signal)} {rule : RateRule} (h : x.RatedAs feed rate rule)
    (hw : x.Within x') : x'.RatedAs feed rate rule := by
  cases rule with
  | fixed r => exact h
  | follow primary =>
    obtain ⟨leaf, rest, hfeed, hleaf⟩ := h
    exact ⟨leaf, rest, hfeed, hleaf.within hw⟩

theorem Wired.within {leaf : Signal} {input : Input} (h : x.Wired first rate decl leaf input)
    (hw : x.Within x') (hle : first' ≤ first) : x'.Wired first' rate decl leaf input := by
  cases h with
  | constant h => exact .constant (getElem?_mono hw.constants h)
  | direct hrate hdirect => exact .direct (hw.outputRate hrate) hdirect
  | converted hrate hrequired hconvert hfirst hnode =>
    exact .converted (hw.outputRate hrate) hrequired hconvert (Nat.le_trans hle hfirst)
      (getElem?_mono hw.nodes hnode)

theorem IsInstance.within {d : Descriptor} {rule : RateRule} {feed : List (List Signal)} {node : EmittedNode}
    (h : x.IsInstance first d rule feed node) (hw : x.Within x') (hle : first' ≤ first) :
    x'.IsInstance first' d rule feed node :=
  ⟨h.name, h.flags, h.rate.within hw, h.inputs.imp fun _ _ hi => hi.within hw hle, h.outputs⟩

theorem Converts.within {j : Nat} (h : x.Converts j inputs) (hw : x.Within x') (hsub : inputs ⊆ inputs') :
    x'.Converts j inputs' := by
  obtain ⟨⟨name, rate, source, hj⟩, hmem⟩ := h
  exact ⟨⟨name, rate, source, getElem?_mono hw.nodes hj⟩, hsub hmem⟩

theorem Connects.within {leaf : Signal} {input : Input} (h : x.Connects rate decl n leaf input m)
    (hw : x.Within x') : x'.Connects rate decl n leaf input m := by
  cases h with
  | constant h => exact .constant (getElem?_mono hw.constants h)
  | direct hrate hdirect => exact .direct (hw.outputRate hrate) hdirect
  | converted hrate hrequired hconvert hnode =>
    exact .converted (hw.outputRate hrate) hrequired hconvert (getElem?_mono hw.nodes hnode)

theorem Connects.le {leaf : Signal} {input : Input} (h : x.Connects rate decl n leaf input m) :
    n ≤ m ∧ m ≤ n + 1 := by
  cases h <;> simp

theorem Connects.wired {leaf : Signal} {input : Input} (h : x.Connects rate decl n leaf input m) :
    x.Wired n rate decl leaf input := by
  cases h with
  | constant h => exact .constant h
  | direct hrate hdirect => exact .direct hrate hdirect
  | converted hrate hrequired hconvert hnode =>
    exact .converted hrate hrequired hconvert (Nat.le_refl n) hnode

theorem Wires.within (h : x.Wires rate n ports inputs m) (hw : x.Within x') :
    x'.Wires rate n ports inputs m := by
  induction h with
  | nil n => exact .nil n
  | cons h _ ih => exact .cons (h.within hw) ih

theorem Wires.le (h : x.Wires rate n ports inputs m) : n ≤ m := by
  induction h with
  | nil n => exact Nat.le_refl n
  | cons h _ ih => exact Nat.le_trans h.le.1 ih

theorem Wires.append (h : x.Wires rate n ports inputs k) (h' : x.Wires rate k ports' inputs' m) :
    x.Wires rate n (ports ++ ports') (inputs ++ inputs') m := by
  induction h with
  | nil n => exact h'
  | cons h _ ih => exact .cons h (ih h')

theorem Wires.wired (h : x.Wires rate n ports inputs m) :
    List.Forall₂ (fun port input => x.Wired n rate port.1 port.2 input) ports inputs := by
  induction h with
  | nil n => exact .nil
  | cons h _ ih => exact .cons h.wired (ih.imp fun _ _ hi => hi.within (.refl x) h.le.1)

/-- What stands at each of the places. -/
theorem Wires.converts (h : x.Wires rate n ports inputs m) {j : Nat} (hle : n ≤ j) (hlt : j < m) :
    x.Converts j inputs := by
  induction h with
  | nil n => omega
  | @cons decl leaf input ports inputs n k m h hrest ih =>
    by_cases hkj : k ≤ j
    · exact (ih hkj hlt).within (.refl x) (List.subset_cons_self _ _)
    · -- the leaf has taken place `n`, so it is converted there
      cases h with
      | constant h => omega
      | direct hrate hdirect => omega
      | converted hrate hrequired hconvert hnode =>
        obtain rfl : n = j := by omega
        exact ⟨⟨_, _, _, hnode⟩, List.mem_cons_self⟩

theorem Stands.within {d : Descriptor} {rule : RateRule} {feed : List (List Signal)} {node : EmittedNode}
    (h : x.Stands n m d rule feed node) (hw : x.Within x') : x'.Stands n m d rule feed node :=
  ⟨getElem?_mono hw.nodes h.place, h.name, h.flags, h.rate.within hw, h.inputs.within hw, h.outputs⟩

theorem Stands.isInstance {d : Descriptor} {rule : RateRule} {feed : List (List Signal)} {node : EmittedNode}
    (h : x.Stands n m d rule feed node) : x.IsInstance n d rule feed node :=
  ⟨h.name, h.flags, h.rate, h.inputs.wired, h.outputs⟩

end Expansion

namespace Expanding

open Expansion

variable {limit : Nat} {d : Descriptor} {rule : RateRule} {decl : InputDecl} {rate : Rate}
  {x x' : Expansion}

theorem run_push_eq_ok {node : EmittedNode} {i : Nat} (h : push limit node x = .ok i x') :
    i = x.nodes.size ∧ x' = { x with nodes := x.nodes.push node } := by
  unfold push at h
  split at h
  · cases h
  · cases h
    exact ⟨rfl, rfl⟩

theorem connects_connectOutput {source : OutputRef} {input : Input}
    (h : connectOutput limit d decl rate source x = .ok input x') :
    x.Within x' ∧ x'.Connects rate decl x.nodes.size (.out source) input x'.nodes.size := by
  rw [connectOutput, run_bind_eq_ok_iff] at h
  obtain ⟨actual, x₁, hcheck, h⟩ := h
  obtain ⟨hrate, rfl⟩ := run_check_eq_ok_iff.1 hcheck
  cases hrequired : decl.requirement.required rate with
  | none =>
    rw [hrequired] at h
    cases h
    exact ⟨.refl _, .direct hrate (by simp [hrequired])⟩
  | some required =>
    rw [hrequired] at h
    cases hcoercion : coercion actual required with
    | direct =>
      simp only [hcoercion] at h
      cases h
      exact ⟨.refl _, .direct hrate (by simp [hrequired, hcoercion])⟩
    | convert name =>
      simp only [hcoercion] at h
      obtain ⟨j, x₂, hpush, h⟩ := run_bind_eq_ok_iff.1 h
      obtain ⟨rfl, rfl⟩ := run_push_eq_ok hpush
      cases h
      have hw := within_push x₁ (converter name required source)
      rw [Array.size_push]
      exact ⟨hw, .converted (hw.outputRate hrate) hrequired hcoercion Array.getElem?_push_size⟩
    | impossible =>
      simp only [hcoercion] at h
      cases h

theorem connects_connect {leaf : Signal} {input : Input}
    (h : connect limit d decl rate leaf x = .ok input x') :
    x.Within x' ∧ x'.Connects rate decl x.nodes.size leaf input x'.nodes.size := by
  cases leaf with
  | const v =>
    rw [connect, run_bind_eq_ok_iff] at h
    obtain ⟨c, x₁, hintern, h⟩ := h
    cases hintern
    cases h
    exact ⟨x.within_intern v, .constant (x.constants.getElem?_intern v)⟩
  | out source => exact connects_connectOutput h
  | bundle channels => cases h

theorem wires_mapM_connect {leaves : List Signal} {inputs : List Input}
    (h : leaves.mapM (connect limit d decl rate) x = .ok inputs x') :
    x.Within x' ∧ x'.Wires rate x.nodes.size (leaves.map (decl, ·)) inputs x'.nodes.size := by
  induction leaves generalizing x inputs with
  | nil =>
    cases h
    exact ⟨.refl _, .nil _⟩
  | cons leaf leaves ih =>
    obtain ⟨input, rest, x₁, hleaf, hrest, rfl⟩ := run_mapM_cons_eq_ok_iff.1 h
    obtain ⟨hw, hconn⟩ := connects_connect hleaf
    obtain ⟨hw', hwires⟩ := ih hrest
    exact ⟨hw.trans hw', .cons (hconn.within hw') hwires⟩

theorem wires_connectAll {decls : List InputDecl} {args : List Signal} {inputs : List Input}
    (h : connectAll limit d rate decls args x = .ok inputs x') :
    x.Within x' ∧
      x'.Wires rate x.nodes.size (ports decls (args.map Signal.leaves)) inputs x'.nodes.size := by
  induction decls generalizing args x inputs with
  | nil =>
    cases h
    exact ⟨.refl _, .nil _⟩
  | cons decl decls ih =>
    cases args with
    | nil =>
      cases h
      exact ⟨.refl _, .nil _⟩
    | cons arg args =>
      rw [connectAll, run_bind_eq_ok_iff] at h
      obtain ⟨here, x₁, hhere, h⟩ := h
      obtain ⟨rest, x₂, hrest, h⟩ := run_bind_eq_ok_iff.1 h
      cases h
      obtain ⟨hw, hwires⟩ := wires_mapM_connect hhere
      obtain ⟨hw', hall⟩ := ih hrest
      exact ⟨hw.trans hw', (hwires.within hw').append hall⟩

theorem ratedAs_of_resolveRate {args : List Signal} (h : x.resolveRate d args rule = .ok rate) :
    x.RatedAs (args.map Signal.leaves) rate rule := by
  cases rule with
  | fixed r =>
    cases h
    rfl
  | follow primary =>
    simp only [resolveRate] at h
    cases harg : args[primary]? with
    | none =>
      rw [harg] at h
      cases h
    | some arg =>
      rw [harg] at h
      cases hleaves : arg.leaves with
      | nil =>
        simp only [hleaves] at h
        cases h
      | cons leaf rest =>
        refine ⟨leaf, rest, by rw [List.getElem?_map, harg, Option.map_some, hleaves], ?_⟩
        simp only [hleaves] at h
        cases leaf with
        | const v =>
          cases h
          exact .const v
        | out source => exact .out h
        | bundle channels => exact absurd (hleaves ▸ List.mem_cons_self) arg.bundle_not_mem_leaves

/-- A successful instance is the last node added, behind its converters, and it answers with the outputs of that
node. -/
theorem stands_emit {args : List Signal} {result : Signal} (h : emit limit d rule args x = .ok result x') :
    ∃ i node, result = .ofOutputs i (d.outputCount (args.map (·.leaves.length))) ∧
      i + 1 = x'.nodes.size ∧ x.Within x' ∧
      x'.Stands x.nodes.size i d rule (args.map Signal.leaves) node := by
  rw [emit, run_bind_eq_ok_iff] at h
  obtain ⟨rate, x₁, hcheck, h⟩ := h
  obtain ⟨hrate, rfl⟩ := run_check_eq_ok_iff.1 hcheck
  obtain ⟨inputs, x₂, hinputs, h⟩ := run_bind_eq_ok_iff.1 h
  obtain ⟨hw, hwires⟩ := wires_connectAll hinputs
  obtain ⟨i, x₃, hpush, h⟩ := run_bind_eq_ok_iff.1 h
  obtain ⟨rfl, rfl⟩ := run_push_eq_ok hpush
  cases h
  have hpushed := within_push x₂ ⟨d.name, rate, inputs,
    Array.replicate (d.outputCount (args.map (·.leaves.length))) rate, d.flags⟩
  refine ⟨x₂.nodes.size, _, rfl, (Array.size_push ..).symm, hw.trans hpushed,
    Array.getElem?_push_size, rfl, rfl, ?_, hwires.within hpushed, ?_⟩
  · exact (ratedAs_of_resolveRate hrate).within (hw.trans hpushed)
  · rw [List.map_map]
    rfl

end Expanding

end SoundGraph
