import SoundGraph.Graph
import SoundGraph.Proofs.Success

/-! What `Graph.validate` accepts: the graphs in which every input resolves to something in front of
its reader and the controls take distinct places of the control array. The check is a scan with early
exits and a table of owners; `WellFormed` says the same without an order of inspection. -/

namespace SoundGraph

namespace Graph

/-- An input of node `i` that names an entry of the pool or an output of an earlier node. -/
def Resolves (g : Graph) (i : Nat) : Input → Prop
  | .constant index => index < g.constants.size
  | .node source =>
    source.node < i ∧
      ∃ target, g.nodes[source.node]? = some target ∧ source.output < target.outputs.size

structure WellFormed (g : Graph) : Prop where
  inputs : ∀ i node, g.nodes[i]? = some node → ∀ input ∈ node.inputs, g.Resolves i input
  rates : ∀ c ∈ g.controls.toList, c.rate ≠ .demand
  range : ∀ c ∈ g.controls.toList, c.index < g.controls.size
  distinct : (g.controls.toList.map Control.index).Nodup

theorem checkInput_eq_ok_iff (g : Graph) (i : Nat) (input : Input) :
    g.checkInput i input = .ok () ↔ g.Resolves i input := by
  cases input with
  | constant index =>
    rw [checkInput, Resolves]
    split <;> simp_all
  | node source =>
    rw [checkInput, Resolves]
    cases h : g.nodes[source.node]? with
    | none => simp
    | some target =>
      by_cases hle : i ≤ source.node
      · simp [hle, Nat.not_lt.2 hle]
      · by_cases hout : source.output < target.outputs.size
        · simp [hle, hout, Nat.lt_of_not_le hle]
        · simp [hle, hout]

theorem checkNodes_eq_ok_iff (g : Graph) :
    g.checkNodes = .ok () ↔
      ∀ i node, g.nodes[i]? = some node → ∀ input ∈ node.inputs, g.Resolves i input := by
  unfold checkNodes
  rw [forM_eq_ok_iff]
  refine ⟨fun h i node hi input hin => ?_, fun h p hm => ?_⟩
  · have hm : (node, i) ∈ g.nodes.toList.zipIdx := by
      rw [List.mem_zipIdx_iff_getElem?]
      simpa using hi
    exact (g.checkInput_eq_ok_iff i input).1 (forM_eq_ok_iff.1 (h _ hm) input hin)
  · obtain ⟨node, i⟩ := p
    rw [List.mem_zipIdx_iff_getElem?] at hm
    have hi : g.nodes[i]? = some node := by simpa using hm
    exact forM_eq_ok_iff.2 fun input hin =>
      (g.checkInput_eq_ok_iff i input).2 (h i node hi input hin)

/-- The scan claims free places only, so the owners of the remaining controls must be unset. -/
theorem claimIndices_eq_ok_iff (owners : Array (Option String)) (cs : List Control) :
    claimIndices owners cs = .ok () ↔
      (∀ c ∈ cs, c.rate ≠ .demand ∧ owners[c.index]? = some none) ∧
        (cs.map Control.index).Nodup := by
  induction cs generalizing owners with
  | nil => simp [claimIndices]
  | cons c cs ih =>
    rw [claimIndices, List.forall_mem_cons, List.map_cons, List.nodup_cons]
    by_cases hr : c.rate = .demand
    · simp [hr]
    rw [if_neg hr]
    by_cases hi : c.index < owners.size
    · rw [dif_pos hi]
      split
      · next first ho => simp [hi, ho]
      · next ho =>
        rw [ih]
        have hfree : owners[c.index]? = some none := by rw [Array.getElem?_eq_getElem hi, ho]
        refine ⟨?_, ?_⟩
        · intro h
          rcases h with ⟨hcs, hnd⟩
          have hnew : ∀ d ∈ cs, d.index ≠ c.index := by
            intro d hd he
            have := (hcs d hd).2
            rw [he, Array.getElem?_set_self] at this
            cases this
          refine ⟨⟨⟨hr, hfree⟩, fun d hd => ⟨(hcs d hd).1, ?_⟩⟩, ?_, hnd⟩
          · have := (hcs d hd).2
            rwa [Array.getElem?_set_ne hi (hnew d hd).symm] at this
          · rw [List.mem_map]
            rintro ⟨d, hd, he⟩
            exact hnew d hd he
        · intro h
          rcases h with ⟨⟨-, hcs⟩, hnot, hnd⟩
          refine ⟨fun d hd => ⟨(hcs d hd).1, ?_⟩, hnd⟩
          have hne : c.index ≠ d.index := fun he => hnot (List.mem_map.2 ⟨d, hd, he.symm⟩)
          rw [Array.getElem?_set_ne hi hne]
          exact (hcs d hd).2
    · simp [hi]

/-- The one check that the writer and the reader of files rely on. -/
theorem validate_eq_ok_iff (g : Graph) : g.validate = .ok () ↔ g.WellFormed := by
  have hseq : g.validate = .ok () ↔ g.checkNodes = .ok () ∧ g.checkControls = .ok () := by
    rw [validate, bind_eq_ok_iff]
    exact ⟨fun ⟨_, hn, hc⟩ => ⟨hn, hc⟩, fun ⟨hn, hc⟩ => ⟨(), hn, hc⟩⟩
  have hfree : ∀ i : Nat, (Array.replicate g.controls.size (none : Option String))[i]? = some none ↔
      i < g.controls.size := by
    intro i
    rw [Array.getElem?_replicate]
    split <;> simp_all
  rw [hseq, checkNodes_eq_ok_iff, checkControls, claimIndices_eq_ok_iff]
  simp only [hfree]
  refine ⟨?_, ?_⟩
  · intro h
    rcases h with ⟨hin, hcs, hnd⟩
    exact ⟨hin, fun c hc => (hcs c hc).1, fun c hc => (hcs c hc).2, hnd⟩
  · intro h
    rcases h with ⟨hin, hrate, hrange, hnd⟩
    exact ⟨hin, fun c hc => ⟨hrate c hc, hrange c hc⟩, hnd⟩

end Graph

end SoundGraph
