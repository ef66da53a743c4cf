import SoundGraph.Expansion

/-! Sound expansions: every node of the table reads constants of the pool and outputs of earlier nodes
only. Appending a node that reads what is there, or a constant, keeps an expansion sound and takes
nothing back. -/

namespace SoundGraph

/-- A constant among the first `pool`, or an output of a node in front of node `i`. -/
def Input.Precedes (pool i : Nat) : Input → Prop
  | .constant index => index < pool
  | .node source => source.node < i

instance (pool i : Nat) : DecidablePred (Input.Precedes pool i)
  | .constant index => inferInstanceAs (Decidable (index < pool))
  | .node source => inferInstanceAs (Decidable (source.node < i))

def Backward (constants : Array Sample) (nodes : Array EmittedNode) : Prop :=
  ∀ (i : Nat) (node : EmittedNode), nodes[i]? = some node →
    ∀ input ∈ node.inputs, input.Precedes constants.size i

theorem backward_iff {constants : Array Sample} {nodes : Array EmittedNode} :
    Backward constants nodes ↔
      ∀ p ∈ nodes.toList.zipIdx, ∀ input ∈ p.1.inputs, input.Precedes constants.size p.2 := by
  simp only [Backward, Prod.forall, List.mem_zipIdx_iff_getElem?, Array.getElem?_toList]
  exact forall_comm

instance (constants : Array Sample) (nodes : Array EmittedNode) : Decidable (Backward constants nodes) :=
  decidable_of_iff _ backward_iff.symm

theorem getElem?_mono {α : Type} {a b : Array α} (h : a.toList <+: b.toList) {i : Nat} {v : α}
    (hi : a[i]? = some v) : b[i]? = some v := by
  obtain ⟨tail, htail⟩ := h
  rw [← Array.getElem?_toList] at hi ⊢
  rw [← htail, List.getElem?_append_left (List.getElem?_eq_some_iff.1 hi).1, hi]

theorem prefix_push {α : Type} (a : Array α) (v : α) : a.toList <+: (a.push v).toList := by
  rw [Array.toList_push]
  exact List.prefix_append _ _

theorem ConstantPool.prefix_intern (pool : ConstantPool) (v : Sample) :
    pool.values.toList <+: (pool.intern v).2.values.toList := by
  unfold ConstantPool.intern
  split
  · exact List.prefix_refl _
  · exact prefix_push _ _

namespace Expansion

def HasOutput (x : Expansion) (source : OutputRef) : Prop :=
  ∃ target, x.nodes[source.node]? = some target ∧ source.output < target.outputs.size

def Readable (x : Expansion) : Input → Prop
  | .constant index => index < x.constants.values.size
  | .node source => x.HasOutput source

structure Sound (x : Expansion) : Prop where
  backward : Backward x.constants.values x.nodes
  readable : ∀ node ∈ x.nodes.toList, ∀ input ∈ node.inputs, x.Readable input

/-- What `x` holds stands in `x'` at the same numbers. -/
structure Within (x x' : Expansion) : Prop where
  nodes : x.nodes.toList <+: x'.nodes.toList
  constants : x.constants.values.toList <+: x'.constants.values.toList

structure Grown (x x' : Expansion) : Prop extends x.Within x' where
  sound : x'.Sound

theorem Within.refl (x : Expansion) : x.Within x := ⟨List.prefix_refl _, List.prefix_refl _⟩

theorem Within.trans {x y z : Expansion} (h : x.Within y) (h' : y.Within z) : x.Within z :=
  ⟨h.nodes.trans h'.nodes, h.constants.trans h'.constants⟩

theorem Within.size_le {x x' : Expansion} (h : x.Within x') : x.nodes.size ≤ x'.nodes.size := by
  simpa using h.nodes.length_le

theorem outputRate_eq_ok_iff {x : Expansion} {source : OutputRef} {rate : Rate} :
    x.outputRate source = .ok rate ↔
      ∃ target, x.nodes[source.node]? = some target ∧ target.outputs[source.output]? = some rate := by
  unfold outputRate
  cases x.nodes[source.node]? with
  | none => simp
  | some target => cases h : target.outputs[source.output]? <;> simp [h]

theorem Within.outputRate {x x' : Expansion} (h : x.Within x') {source : OutputRef} {rate : Rate}
    (hrate : x.outputRate source = .ok rate) : x'.outputRate source = .ok rate := by
  obtain ⟨target, hn, ho⟩ := outputRate_eq_ok_iff.1 hrate
  exact outputRate_eq_ok_iff.2 ⟨target, getElem?_mono h.nodes hn, ho⟩

theorem within_push (x : Expansion) (node : EmittedNode) :
    x.Within { x with nodes := x.nodes.push node } :=
  ⟨prefix_push _ _, List.prefix_refl _⟩

theorem within_intern (x : Expansion) (v : Sample) :
    x.Within { x with constants := (x.constants.intern v).2 } :=
  ⟨List.prefix_refl _, x.constants.prefix_intern v⟩

theorem sound_empty : Expansion.empty.Sound :=
  ⟨fun i node h => by simp [empty] at h, fun node h => by simp [empty] at h⟩

theorem Grown.refl {x : Expansion} (h : x.Sound) : x.Grown x :=
  ⟨.refl x, h⟩

theorem Grown.trans {x y z : Expansion} (h₁ : x.Grown y) (h₂ : y.Grown z) : x.Grown z :=
  ⟨h₁.toWithin.trans h₂.toWithin, h₂.sound⟩

theorem Readable.within {x x' : Expansion} {input : Input} (h : x.Readable input)
    (hw : x.Within x') : x'.Readable input := by
  cases input with
  | constant index => exact Nat.lt_of_lt_of_le h hw.constants.length_le
  | node source =>
    obtain ⟨target, hn, ho⟩ := h
    exact ⟨target, getElem?_mono hw.nodes hn, ho⟩

theorem Readable.precedes {x : Expansion} {input : Input} (h : x.Readable input) :
    input.Precedes x.constants.values.size x.nodes.size := by
  cases input with
  | constant index => exact h
  | node source =>
    obtain ⟨target, hn, -⟩ := h
    exact (Array.getElem?_eq_some_iff.1 hn).1

/-- Looking up the rate of an output is what tells a made-up reference from a real one. -/
theorem hasOutput_of_outputRate {x : Expansion} {source : OutputRef} {rate : Rate}
    (h : x.outputRate source = .ok rate) : x.HasOutput source := by
  obtain ⟨target, hn, ho⟩ := outputRate_eq_ok_iff.1 h
  exact ⟨target, hn, (Array.getElem?_eq_some_iff.1 ho).1⟩

theorem grown_push {x : Expansion} (h : x.Sound) {node : EmittedNode}
    (hin : ∀ input ∈ node.inputs, x.Readable input) :
    x.Grown { x with nodes := x.nodes.push node } := by
  have hw := x.within_push node
  refine ⟨hw, ⟨?_, ?_⟩⟩
  · intro i n hi input hmem
    rw [Array.getElem?_push] at hi
    split at hi
    · next heq =>
      cases hi
      rw [heq]
      exact (hin input hmem).precedes
    · exact h.backward i n hi input hmem
  · intro n hn input hmem
    rw [Array.toList_push] at hn
    rcases List.mem_append.1 hn with hn | hn
    · exact (h.readable n hn input hmem).within hw
    · rw [List.mem_singleton.1 hn] at hmem
      exact (hin input hmem).within hw

theorem grown_intern {x : Expansion} (h : x.Sound) (v : Sample) :
    x.Grown { x with constants := (x.constants.intern v).2 } := by
  have hw := x.within_intern v
  refine ⟨hw, ⟨?_, fun n hn input hmem => (h.readable n hn input hmem).within hw⟩⟩
  intro i n hi input hmem
  have := h.backward i n hi input hmem
  cases input with
  | constant index => exact Nat.lt_of_lt_of_le this hw.constants.length_le
  | node source => exact this

end Expansion

end SoundGraph
