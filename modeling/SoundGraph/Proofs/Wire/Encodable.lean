import SoundGraph.Proofs.Wire.RoundTrip

/-! Which definitions can be written. Names must fit their length bytes and tables their counts; nothing else
can keep a well-formed graph out of a file, since its numbers are bounded by its tables. -/

namespace SoundGraph

/-- Every table fits a four-byte count. -/
structure Graph.TablesFit (g : Graph) : Prop where
  constants : g.constants.size < 2 ^ 32
  controls : g.controls.size < 2 ^ 32
  nodes : g.nodes.size < 2 ^ 32
  inputs : ∀ n ∈ g.nodes.toList, n.inputs.length < 2 ^ 32
  outputs : ∀ n ∈ g.nodes.toList, n.outputs.size < 2 ^ 32

/-- Every name fits a one-byte length. -/
structure Definition.NamesFit (d : Definition) : Prop where
  own : d.name.utf8ByteSize ≤ 255
  controls : ∀ c ∈ d.graph.controls.toList, c.name.utf8ByteSize ≤ 255
  nodes : ∀ n ∈ d.graph.nodes.toList, n.name.utf8ByteSize ≤ 255

namespace Wire

variable {α : Type} {E : α → List UInt8 → Prop} {as : List α}

theorem length_toUTF8 (s : String) : s.toUTF8.toList.length = s.utf8ByteSize := by
  rw [ByteArray.toList, toList_loop]
  simp

theorem exists_encodeName_iff {s : String} : (∃ bytes, encodeName s = .ok bytes) ↔ s.utf8ByteSize ≤ 255 := by
  simp only [encodeName_eq_ok_iff, length_toUTF8, exists_and_left, exists_eq, and_true]
  exact Nat.lt_succ_iff

/-- A table has bytes if its count fits and each entry has some. -/
theorem exists_tableBytes_iff :
    (∃ bytes, TableBytes E as bytes) ↔ as.length < 2 ^ 32 ∧ ∀ a ∈ as, ∃ xs, E a xs := by
  rw [← exists_forall₂_iff]
  refine ⟨?_, ?_⟩
  · rintro ⟨_, hlt, parts, hparts, rfl⟩
    exact ⟨hlt, parts, hparts⟩
  · rintro ⟨hlt, parts, hparts⟩
    exact ⟨_, hlt, parts, hparts, rfl⟩

theorem exists_encodeControl_iff {c : Control} :
    (∃ bytes, encodeControl c = .ok bytes) ↔ c.name.utf8ByteSize ≤ 255 := by
  rw [← exists_encodeName_iff]
  refine ⟨?_, ?_⟩
  · rintro ⟨bytes, h⟩
    obtain ⟨name, hname, -⟩ := bind_eq_ok_iff.1 h
    exact ⟨name, hname⟩
  · rintro ⟨name, hname⟩
    exact ⟨_, bind_eq_ok_iff.2 ⟨name, hname, rfl⟩⟩

theorem exists_encodeNode_iff {n : Node} :
    (∃ bytes, encodeNode n = .ok bytes) ↔
      n.name.utf8ByteSize ≤ 255 ∧ n.inputs.length < 2 ^ 32 ∧ n.outputs.size < 2 ^ 32 := by
  have hinputs : (∃ xs, TableBytes (fun i xs => xs = encodeInput i) n.inputs xs) ↔
      n.inputs.length < 2 ^ 32 := by simp [exists_tableBytes_iff]
  have houtputs : (∃ xs, TableBytes (fun r xs => xs = [encodeRate r]) n.outputs.toList xs) ↔
      n.outputs.size < 2 ^ 32 := by simp [exists_tableBytes_iff]
  rw [← exists_encodeName_iff, ← hinputs, ← houtputs]
  simp only [encodeNode_eq_ok_iff]
  refine ⟨?_, ?_⟩
  · rintro ⟨_, name, inputs, outputs, hname, hin, hout, rfl⟩
    exact ⟨⟨name, hname⟩, ⟨inputs, hin⟩, ⟨outputs, hout⟩⟩
  · rintro ⟨⟨name, hname⟩, ⟨inputs, hin⟩, ⟨outputs, hout⟩⟩
    exact ⟨_, name, inputs, outputs, hname, hin, hout, rfl⟩

theorem exists_encodeGraph_iff {g : Graph} :
    (∃ bytes, encodeGraph g = .ok bytes) ↔
      g.TablesFit ∧ (∀ c ∈ g.controls.toList, c.name.utf8ByteSize ≤ 255) ∧
        ∀ n ∈ g.nodes.toList, n.name.utf8ByteSize ≤ 255 := by
  simp only [encodeGraph_eq_ok_iff]
  refine ⟨?_, ?_⟩
  · rintro ⟨_, constants, controls, nodes, hc, hk, hn, rfl⟩
    obtain ⟨hcontrols, hcontrol⟩ := exists_tableBytes_iff.1 ⟨controls, hk⟩
    obtain ⟨hnodes, hnode⟩ := exists_tableBytes_iff.1 ⟨nodes, hn⟩
    simp only [exists_encodeNode_iff] at hnode
    exact ⟨⟨hc.1, hcontrols, hnodes, fun n hmem => (hnode n hmem).2.1, fun n hmem => (hnode n hmem).2.2⟩,
      fun c hmem => exists_encodeControl_iff.1 (hcontrol c hmem), fun n hmem => (hnode n hmem).1⟩
  · rintro ⟨htables, hcontrol, hnode⟩
    obtain ⟨constants, hc⟩ := (exists_tableBytes_iff (E := fun v xs => xs = encodeSample v)).2
      ⟨htables.constants, fun v _ => ⟨_, rfl⟩⟩
    obtain ⟨controls, hk⟩ := (exists_tableBytes_iff (E := fun c xs => encodeControl c = .ok xs)).2
      ⟨htables.controls, fun c hmem => exists_encodeControl_iff.2 (hcontrol c hmem)⟩
    obtain ⟨nodes, hn⟩ := (exists_tableBytes_iff (E := fun n xs => encodeNode n = .ok xs)).2
      ⟨htables.nodes, fun n hmem =>
        exists_encodeNode_iff.2 ⟨hnode n hmem, htables.inputs n hmem, htables.outputs n hmem⟩⟩
    exact ⟨_, constants, controls, nodes, hc, hk, hn, rfl⟩

theorem exists_encodeDefinition_iff {d : Definition} :
    (∃ bytes, encodeDefinition d = .ok bytes) ↔ d.graph.WellFormed ∧ d.NamesFit ∧ d.graph.TablesFit := by
  simp only [encodeDefinition_eq_ok_iff]
  refine ⟨?_, ?_⟩
  · rintro ⟨_, name, graph, hname, hwf, hgraph, rfl⟩
    obtain ⟨htables, hcontrols, hnodes⟩ := exists_encodeGraph_iff.1 ⟨graph, hgraph⟩
    exact ⟨hwf, ⟨exists_encodeName_iff.1 ⟨name, hname⟩, hcontrols, hnodes⟩, htables⟩
  · rintro ⟨hwf, hnames, htables⟩
    obtain ⟨name, hname⟩ := exists_encodeName_iff.2 hnames.own
    obtain ⟨graph, hgraph⟩ := exists_encodeGraph_iff.2 ⟨htables, hnames.controls, hnames.nodes⟩
    exact ⟨_, name, graph, hname, hwf, hgraph, rfl⟩

theorem exists_encodeAll_iff {ds : List Definition} :
    (∃ bytes, encodeAll ds = .ok bytes) ↔
      ds.length < 2 ^ 16 ∧ ∀ d ∈ ds, d.graph.WellFormed ∧ d.NamesFit ∧ d.graph.TablesFit := by
  simp only [encodeAll_eq_ok_iff, ← exists_encodeDefinition_iff, ← exists_forall₂_iff]
  refine ⟨?_, ?_⟩
  · rintro ⟨_, hlt, parts, hparts, rfl⟩
    exact ⟨hlt, parts, hparts⟩
  · rintro ⟨hlt, parts, hparts⟩
    exact ⟨_, hlt, parts, hparts, rfl⟩

theorem exists_encode_iff {d : Definition} :
    (∃ bytes, encode d = .ok bytes) ↔ d.graph.WellFormed ∧ d.NamesFit ∧ d.graph.TablesFit := by
  simp [encode, exists_encodeAll_iff]

end Wire

end SoundGraph
